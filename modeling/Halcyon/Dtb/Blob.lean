import Halcyon.Base.Loops
import Halcyon.Base.Text

/-!
Device tree blobs read in place (`dtb`). `Fdt.new` walks all tokens once; every access walks them again. A blob is cut to
its `totalsize`, a 32-bit number, before any token is read, so positions do not overflow.
-/

namespace Halcyon.Dtb

def fdtMagic : Nat := 0xD00DFEED
def fdtBeginNode : Nat := 0x1
def fdtEndNode : Nat := 0x2
def fdtProp : Nat := 0x3
def fdtNop : Nat := 0x4
def fdtEnd : Nat := 0x9

def headerLen : Nat := 40

inductive FdtError where
  | badMagic
  | truncated
  | unexpectedToken
  | invalidReservationBlock
  | invalidUtf8
  deriving DecidableEq

def be32 (data : Bytes) (off : Nat) : Option Nat := (slice? data off (off + 4)).map bigEndian

def be64 (data : Bytes) (off : Nat) : Option Nat := do
  let hi ← be32 data off
  let lo ← be32 data (← checkedAdd off 4)
  some (hi <<< 32 ||| lo)

/-- `(n + 3) & !3`. -/
def align4 (n : Nat) : Nat := (n + 3) / 4 * 4

inductive Item where
  | beginNode (name : Text)
  | endNode
  | prop (name : Text) (data : Bytes)
  | nop
  | fdtEnd
  deriving DecidableEq

structure Range where
  start : Nat
  stop : Nat
  deriving DecidableEq

structure Fdt where
  data : Bytes
  totalSize : Nat
  memRsvmap : Range
  dtStruct : Range
  dtStrings : Range
  deriving DecidableEq

/-- The loop over the entries before `entry`: none of them overlaps the new range. -/
def checkPrior (data : Bytes) (start entry address stop : Nat) : Outcome FdtError Unit :=
  forRange ((entry - start) / 16) (fun index _ => do
    let priorAddress ← okOr .invalidReservationBlock (be64 data (start + 16 * index))
    let priorSize ← okOr .invalidReservationBlock (be64 data (start + 16 * index + 8))
    let priorStop ← okOr .invalidReservationBlock (checkedAdd priorAddress priorSize)
    refuseIf (address < priorStop && priorAddress < stop) .invalidReservationBlock) ()

/-- The loop over the entries. Each turn takes sixteen bytes below the limit. -/
def reservationsFrom (data : Bytes) (start limit : Nat) : Nat → Nat → Outcome FdtError Range
  | 0, _ => panicked "the reservations do not end"
  | turns + 1, pos => do
    let next ← okOr .invalidReservationBlock ((checkedAdd pos 16).filter (· ≤ limit))
    let address ← okOr .invalidReservationBlock (be64 data pos)
    let size ← okOr .invalidReservationBlock (be64 data (pos + 8))
    if address = 0 ∧ size = 0 then pure ⟨start, pos⟩
    else do
      let stop ← okOr .invalidReservationBlock ((checkedAdd address size).filter fun _ => size ≠ 0)
      checkPrior data start pos address stop
      reservationsFrom data start limit turns next

def validateReservationBlock (data : Bytes) (start limit : Nat) : Outcome FdtError Range := do
  refuseIf (start < headerLen || start % 8 ≠ 0 || limit < start) .invalidReservationBlock
  reservationsFrom data start limit (limit + 1) start

structure MemoryReservation where
  address : Nat
  size : Nat
  deriving DecidableEq

structure MemoryReservations where
  data : Bytes
  pos : Nat
  stop : Nat

def MemoryReservations.next (iter : MemoryReservations) : Outcome Empty (Option MemoryReservation × MemoryReservations) :=
  if iter.stop ≤ iter.pos then pure (none, iter)
  else
    match be64 iter.data iter.pos, be64 iter.data (iter.pos + 8) with
    | some address, some size => pure (some ⟨address, size⟩, { iter with pos := iter.pos + 16 })
    | _, _ => pure (none, iter)

/-- `while end < limit && data[end] != 0`; as many turns as there are bytes below the limit. -/
def scanNul (data : Bytes) : Nat → Nat → Outcome FdtError Nat
  | 0, pos => pure pos
  | turns + 1, pos => do
    let byte ← expect "index out of bounds" data[pos]?
    if byte = 0 then pure pos else scanNul data turns (pos + 1)

/-- What was read and where the cursor is after it; a failed read leaves the cursor at `pos`. -/
def advance {α : Type} (pos : Nat) : Outcome FdtError (α × Nat) → Outcome FdtError α × Nat
  | .ok (value, next) => (.ok value, next)
  | .error stop => (.error stop, pos)

namespace Fdt

def stringAt (fdt : Fdt) (nameoff : Nat) : Outcome FdtError Text := do
  let start ← okOr .truncated ((checkedAdd fdt.dtStrings.start nameoff).filter (· < fdt.dtStrings.stop))
  let stop ← scanNul fdt.data (fdt.dtStrings.stop - start) start
  refuseIf (stop = fdt.dtStrings.stop) .truncated
  okOr .invalidUtf8 (decodeUtf8 (← slice fdt.data start stop))

def beginNodeAt (fdt : Fdt) (start : Nat) : Outcome FdtError (Item × Nat) := do
  let stop ← scanNul fdt.data (fdt.data.length - start) start
  refuseIf (fdt.data.length ≤ stop) .truncated
  let name ← okOr .invalidUtf8 (decodeUtf8 (← slice fdt.data start stop))
  pure (.beginNode name, align4 (stop + 1))

def propValueAt (fdt : Fdt) (len nameoff dataStart : Nat) : Outcome FdtError (Item × Nat) := do
  let dataStop ← okOr .truncated (checkedAdd dataStart len)
  refuseIf (fdt.data.length < dataStop) .truncated
  let name ← fdt.stringAt nameoff
  let data ← slice fdt.data dataStart dataStop
  pure (.prop name data, align4 dataStop)

def propAt (fdt : Fdt) (pos : Nat) : Outcome FdtError Item × Nat :=
  match be32 fdt.data pos with
  | none => (fail .truncated, pos)
  | some len =>
    match be32 fdt.data (pos + 4) with
    | none => (fail .truncated, pos + 4)
    | some nameoff => advance (pos + 8) (fdt.propValueAt len nameoff (pos + 8))

def itemAt (fdt : Fdt) (pos : Nat) : Outcome FdtError Item × Nat :=
  match be32 fdt.data pos with
  | none => (fail .truncated, pos)
  | some tok =>
    if tok = fdtBeginNode then advance (pos + 4) (fdt.beginNodeAt (pos + 4))
    else if tok = fdtEndNode then (.ok .endNode, pos + 4)
    else if tok = fdtProp then fdt.propAt (pos + 4)
    else if tok = fdtNop then (.ok .nop, pos + 4)
    else if tok = fdtEnd then (.ok .fdtEnd, pos + 4)
    else (fail .unexpectedToken, pos + 4)

/-- The loop of `skip_subtree`. Each turn takes at least four bytes. -/
def skipItems (fdt : Fdt) : Nat → Nat → Nat → Outcome FdtError Nat
  | _, 0, pos => pure pos
  | 0, _ + 1, _ => panicked "the tokens do not end"
  | turns + 1, depth + 1, pos =>
    match fdt.itemAt pos with
    | (.error stop, _) => .error stop
    | (.ok (.beginNode _), next) => fdt.skipItems turns (depth + 2) next
    | (.ok .endNode, next) => fdt.skipItems turns depth next
    | (.ok .fdtEnd, _) => fail .unexpectedToken
    | (.ok (.prop _ _), next) => fdt.skipItems turns (depth + 1) next
    | (.ok .nop, next) => fdt.skipItems turns (depth + 1) next

def skipSubtree (fdt : Fdt) (beginOff : Nat) : Outcome FdtError Nat := do
  let _ ← (fdt.itemAt beginOff).1
  fdt.skipItems fdt.data.length 1 (fdt.itemAt beginOff).2

def view (data : Bytes) : Outcome FdtError Fdt := do
  refuseIf (be32 data 0 ≠ some fdtMagic) .badMagic
  let totalsize ← okOr .truncated (be32 data 4)
  refuseIf (totalsize < headerLen || data.length < totalsize) .truncated
  let data ← slice data 0 totalsize
  let offStruct ← okOr .truncated (be32 data 8)
  let offStrings ← okOr .truncated (be32 data 12)
  let offMemRsvmap ← okOr .truncated (be32 data 16)
  let sizeStrings ← okOr .truncated (be32 data 32)
  let sizeStruct ← okOr .truncated (be32 data 36)
  let structStop ← okOr .truncated (checkedAdd offStruct sizeStruct)
  let stringsStop ← okOr .truncated (checkedAdd offStrings sizeStrings)
  refuseIf (totalsize < structStop || totalsize < stringsStop || structStop ≤ offStruct) .truncated
  let memRsvmap ← validateReservationBlock data offMemRsvmap offStruct
  pure ⟨data, totalsize, memRsvmap, ⟨offStruct, structStop⟩, ⟨offStrings, stringsStop⟩⟩

/-- After the root there are only `NOP` tokens and an `END`. -/
def checkTail (fdt : Fdt) : Nat → Nat → Outcome FdtError Unit
  | 0, _ => panicked "the tokens do not end"
  | turns + 1, pos =>
    match fdt.itemAt pos with
    | (.error stop, _) => .error stop
    | (.ok .nop, next) => fdt.checkTail turns next
    | (.ok .fdtEnd, _) => pure ()
    | (.ok _, _) => fail .unexpectedToken

def checkTree (fdt : Fdt) : Outcome FdtError Unit := do
  match ← (fdt.itemAt fdt.dtStruct.start).1 with
  | .beginNode _ => do
    let pos ← fdt.skipSubtree fdt.dtStruct.start
    fdt.checkTail fdt.data.length pos
  | _ => fail .unexpectedToken

def new (data : Bytes) : Outcome FdtError Fdt := do
  let fdt ← view data
  fdt.checkTree
  pure fdt

end Fdt

structure Node where
  fdt : Fdt
  off : Nat
  deriving DecidableEq

structure Children where
  fdt : Fdt
  pos : Nat
  done : Bool
  deriving DecidableEq

def Fdt.root (fdt : Fdt) : Node := ⟨fdt, fdt.dtStruct.start⟩

def toOption {α : Type} (result : Outcome FdtError α) : Outcome Empty (Option α) := settle result some fun _ => none

namespace Node

def name (node : Node) : Outcome FdtError Text := do
  match ← (node.fdt.itemAt node.off).1 with
  | .beginNode name => pure name
  | _ => fail .unexpectedToken

/-- The loop of `each_prop`. -/
def propsFrom {R : Type} (fdt : Fdt) (f : Text → Bytes → Option R) : Nat → Nat → Outcome Empty (Option R)
  | 0, _ => panicked "the tokens do not end"
  | turns + 1, pos => do
    match ← toOption (fdt.itemAt pos).1 with
    | none => pure none
    | some (.prop name data) =>
      match f name data with
      | some r => pure (some r)
      | none => propsFrom fdt f turns (fdt.itemAt pos).2
    | some .nop => propsFrom fdt f turns (fdt.itemAt pos).2
    | some _ => pure none

def eachProp {R : Type} (node : Node) (f : Text → Bytes → Option R) : Outcome Empty (Option R) := do
  match ← toOption (node.fdt.itemAt node.off).1 with
  | none => pure none
  | some _ => propsFrom node.fdt f node.fdt.data.length (node.fdt.itemAt node.off).2

def prop (node : Node) (name : Text) : Outcome Empty (Option Bytes) :=
  node.eachProp fun n data => if n = name then some data else none

def children (node : Node) : Children := ⟨node.fdt, (node.fdt.itemAt node.off).2, false⟩

end Node

namespace Children

/-- The loop of `next`. -/
def nextFrom (fdt : Fdt) : Nat → Nat → Outcome Empty (Option Node × Children)
  | 0, _ => panicked "the tokens do not end"
  | turns + 1, start => do
    let pos := (fdt.itemAt start).2
    match ← toOption (fdt.itemAt start).1 with
    | none => pure (none, ⟨fdt, pos, false⟩)
    | some .nop => nextFrom fdt turns pos
    | some (.prop _ _) => nextFrom fdt turns pos
    | some (.beginNode _) => do
      match ← toOption (fdt.skipSubtree start) with
      | none => pure (none, ⟨fdt, pos, false⟩)
      | some after => pure (some ⟨fdt, start⟩, ⟨fdt, after, false⟩)
    | some _ => pure (none, ⟨fdt, pos, true⟩)

def next (iter : Children) : Outcome Empty (Option Node × Children) :=
  if iter.done then pure (none, iter) else nextFrom iter.fdt iter.fdt.data.length iter.pos

end Children

end Halcyon.Dtb
