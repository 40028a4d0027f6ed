import Halcyon.Base.Bytes
import Halcyon.Base.Programs

/-!
RNL2 (`librunnel`): a byte stream over a shared mapping, with two counters modulo 2^64, a flag for the end and a ring. Each
access through `Transport` is an access of a program. Payload is moved byte by byte; the target is little-endian.
-/

namespace Halcyon.Runnel

def headerBytes : Nat := 128
def magic : UInt32 := 0x324c4e52
def versionHeader : UInt32 := 0x800002
def headOffset : Nat := 0x18
def tailOffset : Nat := 0x20
def eofOffset : Nat := 0x28
def tunnelMaxPages : Nat := 512

/-- The errors of a system call; only two of them are told apart here. -/
inductive SystemCallError where
  | objectNotAvailable
  | objectClosed
  | other (code : Nat)
  deriving DecidableEq

inductive RunnelError where
  | badFormat
  | broken
  | closed
  | timedOut
  | syscall (error : SystemCallError)
  deriving DecidableEq

inductive ProducerReady where
  | writable (bytes : Nat)
  | peerAttached
  | eofConsumed
  deriving DecidableEq

inductive ConsumerReady where
  | readable (bytes : Nat) (peerAttached : Bool)
  | peerAttached
  | eofDrained
  deriving DecidableEq

structure IoError where
  error : RunnelError
  completed : Nat
  deriving DecidableEq

/-- An access. `publish` is a `store64` of a counter, with the bytes that change hands by it: they are not
stored, the word stands for them. -/
inductive Op where
  | load32 (offset : Nat)
  | load64 (offset : Nat)
  | store32 (offset : Nat) (value : UInt32)
  | store64 (offset : Nat) (value : UInt64)
  | publish (offset : Nat) (value : UInt64) (moved : Bytes)
  | readByte (offset : Nat)
  | writeByte (offset : Nat) (value : UInt8)
  | notify
  | acknowledge
  | wait (deadline : Nat)

abbrev Op.Answer : Op → Type
  | .load32 _ => UInt32
  | .load64 _ => UInt64
  | .store32 _ _ | .store64 _ _ | .publish _ _ _ | .writeByte _ _ => Unit
  | .readByte _ => UInt8
  | .notify | .acknowledge => Except SystemCallError Unit
  | .wait _ => Except SystemCallError (Option Bool)

abbrev Transport : Interface := ⟨Op, Op.Answer⟩

abbrev Io (S α : Type) := Routine Transport IoError S α

section Access

variable {ε S : Type}

def load32 (offset : Nat) : Routine Transport ε S UInt32 := Routine.ask (I := Transport) (.load32 offset)
def load64 (offset : Nat) : Routine Transport ε S UInt64 := Routine.ask (I := Transport) (.load64 offset)
def store32 (offset : Nat) (value : UInt32) : Routine Transport ε S Unit :=
  Routine.ask (I := Transport) (.store32 offset value)
def store64 (offset : Nat) (value : UInt64) : Routine Transport ε S Unit :=
  Routine.ask (I := Transport) (.store64 offset value)
def publish (offset : Nat) (value : UInt64) (moved : Bytes) : Routine Transport ε S Unit :=
  Routine.ask (I := Transport) (.publish offset value moved)

/-- `Transport::write`. -/
def writeBytes : Nat → Bytes → Routine Transport ε S Unit
  | _, [] => pure ()
  | offset, byte :: rest => do
    Routine.ask (I := Transport) (.writeByte offset byte)
    writeBytes (offset + 1) rest

/-- `Transport::read`, after the bytes in `taken`, last one first. -/
def readFrom : Nat → Nat → Bytes → Routine Transport ε S Bytes
  | _, 0, taken => pure taken.reverse
  | offset, count + 1, taken => do
    let byte ← Routine.ask (I := Transport) (.readByte offset)
    readFrom (offset + 1) count (byte :: taken)

def readBytes (offset count : Nat) : Routine Transport ε S Bytes := readFrom offset count []

end Access

structure Channel where
  capacity : Nat
  terminal : Option RunnelError
  deriving DecidableEq

namespace Channel

def acceptedSize (bytes : Nat) : Bool := 4096 ≤ bytes && bytes % 4096 == 0 && bytes ≤ tunnelMaxPages * 4096

def new (bytes : Nat) (creator : Bool) : Routine Transport RunnelError Unit Channel := do
  if !acceptedSize bytes then Routine.lift (Halcyon.fail .badFormat)
  else
    let capacity := bytes - headerBytes
    if creator then
      store32 0 0
      store32 4 versionHeader
      store64 8 (.ofNat bytes)
      store64 0x10 (.ofNat capacity)
      store64 headOffset 0
      store64 tailOffset 0
      store32 eofOffset 0
      store32 0x2c 0
      writeBytes 0x30 (List.replicate 80 0)
      store32 0 magic
      pure ⟨capacity, none⟩
    else if (← load32 0) ≠ magic then Routine.lift (Halcyon.fail .badFormat)
    else if (← load32 4) ≠ versionHeader then Routine.lift (Halcyon.fail .badFormat)
    else if (← load64 8) ≠ .ofNat bytes then Routine.lift (Halcyon.fail .badFormat)
    else if (← load64 0x10) ≠ .ofNat capacity then Routine.lift (Halcyon.fail .badFormat)
    else if (← load32 0x2c) ≠ 0 then Routine.lift (Halcyon.fail .badFormat)
    else pure ⟨capacity, none⟩

def check : Io Channel Unit := do
  match (← Routine.get).terminal with
  | some error => Routine.lift (Halcyon.fail ⟨error, 0⟩)
  | none => pure ()

def fail {α : Type} (error : RunnelError) (completed : Nat) : Io Channel α := do
  let terminal := (← Routine.get).terminal.getD error
  Routine.modify fun channel => { channel with terminal := some terminal }
  Routine.lift (Halcyon.fail ⟨terminal, completed⟩)

def notify (completed : Nat) : Io Channel Unit := do
  match ← Routine.ask (I := Transport) .notify with
  | .ok () => pure ()
  | .error .objectNotAvailable => pure ()
  | .error .objectClosed => fail .closed completed
  | .error error => fail (.syscall error) completed

def acknowledge : Io Channel Unit := do
  check
  match ← Routine.ask (I := Transport) .acknowledge with
  | .ok () => pure ()
  | .error error => fail (.syscall error) 0

def wait (deadline : Nat) : Io Channel Unit := do
  check
  match ← Routine.ask (I := Transport) (.wait deadline) with
  | .ok (some false) => pure ()
  | .ok none => Routine.lift (Halcyon.fail ⟨.timedOut, 0⟩)
  | .ok (some true) => fail .closed 0
  | .error .objectClosed => fail .closed 0
  | .error error => fail (.syscall error) 0

def copyIn (cursor : Nat) (input : Bytes) : Io Channel Unit := do
  let behind ← Routine.lift (subtract (← Routine.get).capacity cursor)
  let first := min input.length behind
  let start ← Routine.lift (add headerBytes cursor)
  let left ← Routine.lift (slice input 0 first)
  writeBytes start left
  let right ← Routine.lift (slice input first input.length)
  writeBytes headerBytes right

/-- The bytes that `copy_out` puts into an output of `count` bytes. -/
def copyOut (cursor count : Nat) : Io Channel Bytes := do
  let behind ← Routine.lift (subtract (← Routine.get).capacity cursor)
  let first := min count behind
  let start ← Routine.lift (add headerBytes cursor)
  let left ← readBytes start first
  let right ← readBytes headerBytes (count - first)
  pure (left ++ right)

end Channel

/-- Later work of a call that has already moved `completed` bytes. -/
def addCompleted {S α : Type} (completed : Nat) (x : Io S α) : Io S α :=
  Routine.mapErr (fun error => do Halcyon.fail { error with completed := ← add error.completed completed }) x

structure ProducerCore where
  channel : Channel
  head : UInt64
  tailShadow : UInt64
  cursor : Nat
  eof : Bool
  peerEstablished : Bool
  deriving DecidableEq

namespace ProducerCore

def inChannel {α : Type} (x : Io Channel α) : Io ProducerCore α :=
  Routine.zoom channel (fun core channel => { core with channel }) x

def new (bytes : Nat) (creator : Bool) : Routine Transport RunnelError Unit ProducerCore := do
  let channel ← Channel.new bytes creator
  if (← load64 headOffset) ≠ 0 then Routine.lift (fail .broken)
  else if (← load64 tailOffset) ≠ 0 then Routine.lift (fail .broken)
  else if (← load32 eofOffset) ≠ 0 then Routine.lift (fail .broken)
  else pure ⟨channel, 0, 0, 0, false, !creator⟩

def flag (eof : Bool) : UInt32 := if eof then 1 else 0

def writable : Io ProducerCore Nat := do
  inChannel Channel.check
  let core ← Routine.get
  if (← load64 headOffset) ≠ core.head then inChannel (Channel.fail .broken 0)
  else if (← load32 eofOffset) ≠ flag core.eof then inChannel (Channel.fail .broken 0)
  else
    let tail ← load64 tailOffset
    let outstanding := core.head - core.tailShadow
    if outstanding < tail - core.tailShadow || .ofNat core.channel.capacity < core.head - tail then
      inChannel (Channel.fail .broken 0)
    else
      Routine.modify fun core => { core with tailShadow := tail }
      Routine.lift (subtract core.channel.capacity (core.head - tail).toNat)

/-- What `write` does with the bytes there is room for. -/
def store (chunk : Bytes) : Io ProducerCore Unit := do
  let core ← Routine.get
  inChannel (Channel.copyIn core.cursor chunk)
  let cursor ← Routine.lift (do remainder (← add core.cursor chunk.length) core.channel.capacity)
  let head := core.head + .ofNat chunk.length
  Routine.modify fun core => { core with cursor, head }
  publish headOffset head chunk
  inChannel (Channel.notify chunk.length)

def write (input : Bytes) : Io ProducerCore Nat := do
  inChannel Channel.check
  if input.isEmpty then pure 0
  else if (← Routine.get).eof then inChannel (Channel.fail .broken 0)
  else
    let count := min (← writable) input.length
    if count = 0 then pure count
    else
      store (← Routine.lift (slice input 0 count))
      pure count

def finish : Io ProducerCore Unit := do
  inChannel Channel.check
  if (← Routine.get).eof then pure ()
  else
    let _ ← writable
    Routine.modify fun core => { core with eof := true }
    store32 eofOffset 1
    inChannel (Channel.notify 0)

/-- What `write_all` does when there was no room. -/
def awaitRoom (deadline : Nat) : Io ProducerCore Unit := do
  inChannel Channel.acknowledge
  if (← writable) = 0 then inChannel (Channel.wait deadline) else pure ()

/-- The loop of `write_all`, followed for a number of turns. -/
def writeAllFrom (input : Bytes) (deadline : Nat) : Nat → Nat → Io ProducerCore Unit
  | 0, _ => Routine.cut
  | turns + 1, completed =>
    if input.length ≤ completed then pure ()
    else do
      let rest ← Routine.lift (slice input completed input.length)
      let count ← addCompleted completed (write rest)
      let completed ← Routine.lift (add completed count)
      addCompleted completed (if count = 0 then awaitRoom deadline else pure ())
      writeAllFrom input deadline turns completed

def writeAll (turns : Nat) (input : Bytes) (deadline : Nat) : Io ProducerCore Unit := do
  inChannel Channel.check
  writeAllFrom input deadline turns 0

def probeReady : Io ProducerCore (Option ProducerReady) := do
  let room ← writable
  let core ← Routine.get
  if core.eof then pure (if room = core.channel.capacity then some .eofConsumed else none)
  else if 0 < room then pure (some (.writable room))
  else pure none

/-- The second half of `poll`. -/
def probeAgain : Io ProducerCore (Option ProducerReady) := do
  match ← probeReady with
  | some ready => pure (some ready)
  | none => do
    inChannel Channel.acknowledge
    probeReady

def poll (terminal attached : Bool) : Io ProducerCore (Option ProducerReady) := do
  if terminal then inChannel (Channel.fail .closed 0)
  else if attached && !(← Routine.get).peerEstablished then
    Routine.modify fun core => { core with peerEstablished := true }
    pure (some .peerAttached)
  else probeAgain

end ProducerCore

structure ConsumerCore where
  channel : Channel
  tail : UInt64
  headShadow : UInt64
  cursor : Nat
  eofHead : Option UInt64
  peerEstablished : Bool
  kernelAttached : Bool
  deriving DecidableEq

namespace ConsumerCore

def inChannel {α : Type} (x : Io Channel α) : Io ConsumerCore α :=
  Routine.zoom channel (fun core channel => { core with channel }) x

def new (bytes : Nat) (creator : Bool) : Routine Transport RunnelError Unit ConsumerCore := do
  let channel ← Channel.new bytes creator
  let eof ← load32 eofOffset
  let head ← load64 headOffset
  if (← load64 tailOffset) ≠ 0 then Routine.lift (fail .broken)
  else if 1 < eof || .ofNat channel.capacity < head then Routine.lift (fail .broken)
  else
    pure ⟨channel, 0, head, 0, if eof = 1 then some head else none, !creator || 0 < head || eof == 1, !creator⟩

/-- The counter checks of `refresh`, on what was loaded. -/
def accept (eof : UInt32) (head : UInt64) : Io ConsumerCore UInt64 := do
  let core ← Routine.get
  let previousUsed := core.headShadow - core.tail
  let free ← Routine.lift (subtract core.channel.capacity previousUsed.toNat)
  if .ofNat free < head - core.headShadow || .ofNat core.channel.capacity < head - core.tail ||
      core.eofHead.any (head != ·) then inChannel (Channel.fail .broken 0)
  else
    Routine.modify fun core => { core with headShadow := head, eofHead := if eof = 1 then some head else core.eofHead }
    pure head

def refresh : Io ConsumerCore UInt64 := do
  inChannel Channel.check
  let core ← Routine.get
  let eof ← load32 eofOffset
  let head ← load64 headOffset
  if 1 < eof || (core.eofHead.isSome && eof != 1) then inChannel (Channel.fail .broken 0)
  else if (← load64 tailOffset) ≠ core.tail then inChannel (Channel.fail .broken 0)
  else accept eof head

def readable : Io ConsumerCore Nat := do
  let head ← refresh
  pure (head - (← Routine.get).tail).toNat

def eofReached : Io ConsumerCore Bool := do
  let _ ← refresh
  let core ← Routine.get
  pure (core.eofHead == some core.tail)

def probeReady (newlyAttached : Bool) : Io ConsumerCore (Option ConsumerReady) := do
  let bytes ← readable
  if 0 < bytes then
    Routine.modify fun core => { core with peerEstablished := true }
    pure (some (.readable bytes newlyAttached))
  else if ← eofReached then pure (some .eofDrained)
  else if newlyAttached then
    Routine.modify fun core => { core with peerEstablished := true }
    pure (some .peerAttached)
  else pure none

/-- The second half of `poll`. -/
def probeAgain (newlyAttached : Bool) : Io ConsumerCore (Option ConsumerReady) := do
  match ← probeReady newlyAttached with
  | some ready => pure (some ready)
  | none => do
    inChannel Channel.acknowledge
    probeReady newlyAttached

def poll (terminal attached : Bool) : Io ConsumerCore (Option ConsumerReady) := do
  if terminal then inChannel (Channel.fail .closed 0)
  else
    let newlyAttached := attached && !(← Routine.get).kernelAttached
    Routine.modify fun core => { core with kernelAttached := core.kernelAttached || attached }
    probeAgain newlyAttached

end ConsumerCore

/-- A consumer with the output its caller has lent to the call. -/
structure Reader where
  core : ConsumerCore
  output : Bytes
  deriving DecidableEq

namespace Reader

def inCore {α : Type} (x : Io ConsumerCore α) : Io Reader α := Routine.zoom core (fun reader core => { reader with core }) x

/-- What `read` does with the bytes there are, for the part of the output that begins at `start`. -/
def take (start count : Nat) : Io Reader Unit := do
  let core := (← Routine.get).core
  let bytes ← inCore (ConsumerCore.inChannel (Channel.copyOut core.cursor count))
  let cursor ← Routine.lift (do remainder (← add core.cursor count) core.channel.capacity)
  let tail := core.tail + .ofNat count
  Routine.modify fun reader =>
    { core := { reader.core with cursor, tail }
      output := reader.output.take start ++ bytes ++ reader.output.drop (start + count) }
  publish tailOffset tail bytes
  inCore (ConsumerCore.inChannel (Channel.notify count))

/-- `read(&mut output[start..])`. -/
def read (start : Nat) : Io Reader Nat := do
  let length ← Routine.lift (subtract (← Routine.get).output.length start)
  inCore (ConsumerCore.inChannel Channel.check)
  if length = 0 then pure 0
  else
    let count := min (← inCore ConsumerCore.readable) length
    if count = 0 then pure count
    else
      take start count
      pure count

/-- What `read_exact_or_eof` does after a read; false leaves the loop. -/
def awaitMore (deadline completed : Nat) : Io Reader Bool := do
  if completed = (← Routine.get).output.length then pure false
  else if ← inCore ConsumerCore.eofReached then pure false
  else if (← inCore ConsumerCore.readable) ≠ 0 then pure true
  else
    inCore (ConsumerCore.inChannel Channel.acknowledge)
    if (← inCore ConsumerCore.readable) ≠ 0 then pure true
    else if ← inCore ConsumerCore.eofReached then pure true
    else
      inCore (ConsumerCore.inChannel (Channel.wait deadline))
      pure true

/-- The loop of `read_exact_or_eof`, followed for a number of turns. -/
def readExactFrom (deadline : Nat) : Nat → Nat → Io Reader Nat
  | 0, _ => Routine.cut
  | turns + 1, completed => do
    if (← Routine.get).output.length ≤ completed then pure completed
    else
      let count ← addCompleted completed (read completed)
      let completed ← Routine.lift (add completed count)
      if ← addCompleted completed (awaitMore deadline completed) then readExactFrom deadline turns completed
      else pure completed

def readExactOrEof (turns deadline : Nat) : Io Reader Nat := do
  inCore (ConsumerCore.inChannel Channel.check)
  readExactFrom deadline turns 0

end Reader

inductive ProducerCall where
  | writable
  | write (input : Bytes)
  | finish
  | writeAll (turns : Nat) (input : Bytes) (deadline : Nat)
  | poll (terminal attached : Bool)
  deriving DecidableEq

inductive ProducerReply where
  | count (bytes : Nat)
  | done
  | ready (ready : Option ProducerReady)
  deriving DecidableEq

namespace ProducerCall

def routine : ProducerCall → Io ProducerCore ProducerReply
  | .writable => do pure (.count (← ProducerCore.writable))
  | .write input => do pure (.count (← ProducerCore.write input))
  | .finish => do
    ProducerCore.finish
    pure .done
  | .writeAll turns input deadline => do
    ProducerCore.writeAll turns input deadline
    pure .done
  | .poll terminal attached => do pure (.ready (← ProducerCore.poll terminal attached))

def input : ProducerCall → Bytes
  | .write input => input
  | .writeAll _ input _ => input
  | _ => []

def reported : ProducerCall → Outcome IoError ProducerReply → Nat
  | .write _, .ok (.count bytes) => bytes
  | .writeAll _ input _, .ok _ => input.length
  | _, .error (.error io) => io.completed
  | _, _ => 0

end ProducerCall

inductive ConsumerCall where
  | readable
  | eofReached
  | read (output : Bytes)
  | readExactOrEof (turns : Nat) (output : Bytes) (deadline : Nat)
  | poll (terminal attached : Bool)
  deriving DecidableEq

inductive ConsumerReply where
  | count (bytes : Nat)
  | reached (eof : Bool)
  | ready (ready : Option ConsumerReady)
  deriving DecidableEq

namespace ConsumerCall

def routine : ConsumerCall → Io Reader ConsumerReply
  | .readable => do pure (.count (← Reader.inCore ConsumerCore.readable))
  | .eofReached => do pure (.reached (← Reader.inCore ConsumerCore.eofReached))
  | .read _ => do pure (.count (← Reader.read 0))
  | .readExactOrEof turns _ deadline => do pure (.count (← Reader.readExactOrEof turns deadline))
  | .poll terminal attached => do pure (.ready (← Reader.inCore (ConsumerCore.poll terminal attached)))

def output : ConsumerCall → Bytes
  | .read output => output
  | .readExactOrEof _ output _ => output
  | _ => []

def reported : ConsumerCall → Outcome IoError ConsumerReply → Nat
  | .read _, .ok (.count bytes) => bytes
  | .readExactOrEof _ _ _, .ok (.count bytes) => bytes
  | _, .error (.error io) => io.completed
  | _, _ => 0

end ConsumerCall

end Halcyon.Runnel
