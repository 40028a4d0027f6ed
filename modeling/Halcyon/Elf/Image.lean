import Halcyon.Base.Loops
import Halcyon.Elf.Isa

/-!
Admission of a static RISC-V ELF64 image: its headers, the geometry and protection of its load segments,
the page runs they amount to, its entry point and its ISA requirement.
-/

namespace Halcyon.Elf

structure LoadSegment where
  vaddr : Nat
  offset : Nat
  filesz : Nat
  memsz : Nat
  readable : Bool
  writable : Bool
  executable : Bool
  deriving DecidableEq

structure LoadRun where
  vaddr : Nat
  memsz : Nat
  readable : Bool
  writable : Bool
  executable : Bool
  deriving DecidableEq

structure LoadLimits where
  pageSize : Nat
  imageLimit : Nat
  deriving DecidableEq

structure ElfImage where
  entry : Nat
  requirement : IsaRequirement
  segments : List LoadSegment
  runs : List LoadRun
  imageEnd : Nat
  deriving DecidableEq

inductive ElfError where
  | tooShort
  | badMagic
  | badClass
  | badEndian
  | badVersion
  | badOsAbi
  | badType
  | badMachine
  | badHeaderSize
  | badProgramHeaders
  | tooManyProgramHeaders
  | tooManyLoadSegments
  | unsupportedProgramHeader
  | badProgramHeaderFlags
  | badProgramHeaderOrder
  | badSegmentGeometry
  | badSegmentAlignment
  | unsupportedProtection
  | overlappingSegments
  | writeExecutePage
  | badEntry
  | badLimits
  | outOfMemory
  | isa (reason : IsaReqError)
  deriving DecidableEq

def ptNull : Nat := 0
def ptLoad : Nat := 1
def ptNote : Nat := 4
def ptPhdr : Nat := 6
def ptGnuStack : Nat := 0x6474e551
def ptRiscvAttributes : Nat := 0x70000003
def pfX : Nat := 1
def pfW : Nat := 2
def pfR : Nat := 4
def maxProgramHeaders : Nat := 128
def maxLoadSegments : Nat := 64

/-- The reservations an admission makes; the allocator may refuse any of them. -/
inductive Reservation where
  | segments
  | boundaries
  | runs
  deriving DecidableEq

def isPowerOfTwo (n : Nat) : Bool := n ≠ 0 && n &&& (n - 1) == 0

def byteAt {ε : Type} (bytes : Bytes) (index : Nat) : Outcome ε UInt8 := expect "index out of bounds" bytes[index]?

structure Header where
  entry : Nat
  phoff : Nat
  phnum : Nat
  deriving DecidableEq

def phentsize : Nat := 56

/-- The file header, once it is known to be that of a little-endian RISC-V executable. -/
def identify (buf : Bytes) : Outcome ElfError Bytes := do
  refuseIf (buf.length < 64) .tooShort
  let e ← slice buf 0 64
  refuseIf ((← slice e 0 4) ≠ [0x7F, 0x45, 0x4C, 0x46]) .badMagic
  refuseIf ((← byteAt e 4) ≠ 2) .badClass
  refuseIf ((← byteAt e 5) ≠ 1) .badEndian
  refuseIf ((← byteAt e 6) ≠ 1 || (← u32At e 20) ≠ 1) .badVersion
  refuseIf ((← byteAt e 7) ≠ 0 || (← byteAt e 8) ≠ 0) .badOsAbi
  refuseIf ((← u16At e 16) ≠ 2) .badType
  refuseIf ((← u16At e 18) ≠ 243) .badMachine
  refuseIf ((← u16At e 52) ≠ 64) .badHeaderSize
  pure e

def readHeader (buf : Bytes) : Outcome ElfError Header := do
  let e ← identify buf
  let entry ← u64At e 24
  let phoff ← u64At e 32
  let entsize ← u16At e 54
  let phnum ← u16At e 56
  refuseIf (entsize ≠ phentsize || phnum = 0) .badProgramHeaders
  refuseIf (maxProgramHeaders < phnum) .tooManyProgramHeaders
  let tableBytes ← okOr .badProgramHeaders (checkedMul phnum entsize)
  let tableEnd ← okOr .badProgramHeaders (checkedAdd phoff tableBytes)
  refuseIf (buf.length < tableEnd) .badProgramHeaders
  pure { entry, phoff, phnum }

/-- A program header, all of whose fields but the physical address are read. -/
structure ProgramHeader where
  kind : Nat
  flags : Nat
  offset : Nat
  vaddr : Nat
  filesz : Nat
  memsz : Nat
  align : Nat
  deriving DecidableEq

def readProgramHeader (buf : Bytes) (phoff index : Nat) : Outcome ElfError ProgramHeader := do
  let table ← slice buf (← add phoff (← multiply index phentsize)) buf.length
  let p ← slice table 0 56
  let kind ← u32At p 0
  let flags ← u32At p 4
  let offset ← u64At p 8
  let vaddr ← u64At p 16
  let filesz ← u64At p 32
  let memsz ← u64At p 40
  let align ← u64At p 48
  pure { kind, flags, offset, vaddr, filesz, memsz, align }

structure Scan where
  segments : List LoadSegment
  previousEnd : Option Nat
  seenLoad : Bool
  /-- The address, offset and size of the program header table, where a header gives them. -/
  phdr : Option (Nat × Nat × Nat)
  deriving DecidableEq

def validateFileSegment (buf : Bytes) (offset filesz : Nat) : Outcome ElfError Unit := do
  let stop ← okOr .badSegmentGeometry (checkedAdd offset filesz)
  refuseIf (buf.length < stop) .badSegmentGeometry

def loadSegment (buf : Bytes) (limits : LoadLimits) (scan : Scan) (p : ProgramHeader) : Outcome ElfError Scan := do
  refuseIf (scan.segments.length = maxLoadSegments) .tooManyLoadSegments
  refuseIf (p.memsz = 0 || p.memsz < p.filesz) .badSegmentGeometry
  let fileEnd ← okOr .badSegmentGeometry (checkedAdd p.offset p.filesz)
  refuseIf (buf.length < fileEnd) .badSegmentGeometry
  let stop ← okOr .badSegmentGeometry (checkedAdd p.vaddr p.memsz)
  let inPage ← remainder p.vaddr limits.pageSize
  let inFilePage ← remainder p.offset limits.pageSize
  refuseIf (limits.imageLimit < stop || inPage ≠ inFilePage) .badSegmentAlignment
  refuseIf (scan.previousEnd.any (p.vaddr < ·)) .overlappingSegments
  let readable := p.flags &&& pfR ≠ 0
  let writable := p.flags &&& pfW ≠ 0
  let executable := p.flags &&& pfX ≠ 0
  refuseIf (p.flags = 0 || writable && !readable) .unsupportedProtection
  pure { scan with
    segments := scan.segments ++
      [{ vaddr := p.vaddr, offset := p.offset, filesz := p.filesz, memsz := p.memsz, readable, writable, executable }]
    previousEnd := some stop
    seenLoad := true }

def tableSegment (buf : Bytes) (header : Header) (scan : Scan) (p : ProgramHeader) : Outcome ElfError Scan := do
  let tableBytes ← multiply header.phnum phentsize
  refuseIf (scan.seenLoad || scan.phdr.isSome || p.flags ≠ pfR || p.offset ≠ header.phoff || p.filesz ≠ tableBytes ||
    p.memsz ≠ tableBytes) .badProgramHeaderOrder
  validateFileSegment buf p.offset p.filesz
  pure { scan with phdr := some (p.vaddr, p.offset, p.filesz) }

def segmentByKind (buf : Bytes) (limits : LoadLimits) (header : Header) (scan : Scan) (p : ProgramHeader) :
    Outcome ElfError Scan :=
  if p.kind = ptLoad then loadSegment buf limits scan p
  else if p.kind = ptNote then do
    validateFileSegment buf p.offset p.filesz
    pure scan
  else if p.kind = ptPhdr then tableSegment buf header scan p
  else if p.kind = ptGnuStack then do
    refuseIf (p.filesz ≠ 0 || p.memsz ≠ 0 || p.flags &&& pfX ≠ 0) .unsupportedProtection
    pure scan
  else if p.kind = ptRiscvAttributes then do
    refuseIf (p.flags ≠ pfR) .unsupportedProtection
    validateFileSegment buf p.offset p.filesz
    pure scan
  else fail .unsupportedProgramHeader

def scanHeader (buf : Bytes) (limits : LoadLimits) (header : Header) (index : Nat) (scan : Scan) :
    Outcome ElfError Scan := do
  let p ← readProgramHeader buf header.phoff index
  if p.kind = ptNull then .ok scan
  else do
    refuseIf (p.flags &&& 0xFFFFFFF8 ≠ 0) .badProgramHeaderFlags
    refuseIf (1 < p.align && (!isPowerOfTwo p.align || p.vaddr % p.align ≠ p.offset % p.align)) .badSegmentAlignment
    segmentByKind buf limits header scan p

def coversTable (table : Nat × Nat × Nat) (segment : LoadSegment) : Outcome ElfError Bool :=
  if segment.offset ≤ table.2.1 then
    match checkedAdd segment.offset segment.filesz with
    | none => .ok false
    | some stop => do
      if (← add table.2.1 table.2.2) ≤ stop then
        let delta ← subtract table.2.1 segment.offset
        .ok (checkedAdd segment.vaddr delta == some table.1)
      else .ok false
  else .ok false

def holdsEntry (entry : Nat) (segment : LoadSegment) : Bool := segment.executable &&
    (checkedAdd segment.vaddr segment.filesz).any fun stop => segment.vaddr ≤ entry && entry < stop

def alignUp (value align : Nat) : Outcome ElfError Nat := do
  let last ← subtract align 1
  let raised ← okOr .badSegmentGeometry (checkedAdd value last)
  multiply (← divide raised align) align

def pageSpan (pageSize : Nat) (segment : LoadSegment) : Outcome ElfError (Nat × Nat) := do
  let start ← multiply (← divide segment.vaddr pageSize) pageSize
  let stop ← alignUp (← okOr .badSegmentGeometry (checkedAdd segment.vaddr segment.memsz)) pageSize
  pure (start, stop)

def segmentFlags (segment : LoadSegment) : Nat :=
  (if segment.readable then pfR else 0) ||| (if segment.writable then pfW else 0) |||
    (if segment.executable then pfX else 0)

/-- The protections of the segments on the pages from `start` to `stop`. -/
def windowFlags (pageSize start stop : Nat) (segments : List LoadSegment) : Outcome ElfError Nat :=
  segments.foldlM (fun flags segment => do
    let span ← pageSpan pageSize segment
    pure (if span.1 < stop && start < span.2 then flags ||| segmentFlags segment else flags)) 0

/-- Extends the last run with the pages of another, or begins with that one. -/
def extendRuns (runs : List LoadRun) (run : LoadRun) : Outcome ElfError (List LoadRun) :=
  match runs.getLast? with
  | none => .ok (runs ++ [run])
  | some previous => do
    let stop ← add previous.vaddr previous.memsz
    if stop = run.vaddr ∧ previous.readable = run.readable ∧ previous.writable = run.writable ∧
        previous.executable = run.executable then
      let memsz ← add previous.memsz run.memsz
      pure (runs.dropLast ++ [{ previous with memsz }])
    else pure (runs ++ [run])

def addRun (segments : List LoadSegment) (pageSize : Nat) (runs : List LoadRun) (window : Nat × Nat) :
    Outcome ElfError (List LoadRun) := do
  let flags ← windowFlags pageSize window.1 window.2 segments
  if flags = 0 then .ok runs
  else do
    refuseIf (flags &&& (pfW ||| pfX) = pfW ||| pfX) .writeExecutePage
    let writable := flags &&& pfW ≠ 0
    let executable := flags &&& pfX ≠ 0
    let readable := flags &&& pfR ≠ 0 || executable
    let memsz ← subtract window.2 window.1
    extendRuns runs { vaddr := window.1, memsz, readable, writable, executable }

def buildRuns (grant : Reservation → Bool) (segments : List LoadSegment) (pageSize : Nat) :
    Outcome ElfError (List LoadRun × Nat) := do
  refuseIf (!grant .boundaries) .outOfMemory
  let spans ← segments.mapM (pageSpan pageSize)
  let imageEnd := (spans.map Prod.snd).foldl max 0
  let boundaries := (sortByKey id (spans.flatMap fun span => [span.1, span.2])).destutter (· ≠ ·)
  refuseIf (!grant .runs) .outOfMemory
  let runs ← (boundaries.zip boundaries.tail).foldlM (addRun segments pageSize) []
  pure (runs, imageEnd)

def tableCovered (scan : Scan) : Outcome ElfError Bool :=
  match scan.phdr with
  | none => .ok true
  | some table => scan.segments.anyM (coversTable table)

structure Loaded where
  entry : Nat
  segments : List LoadSegment
  runs : List LoadRun
  imageEnd : Nat
  deriving DecidableEq

/-- The part of `validate` before the ISA requirement. -/
def loadImage (grant : Reservation → Bool) (buf : Bytes) (limits : LoadLimits) : Outcome ElfError Loaded := do
  refuseIf (!isPowerOfTwo limits.pageSize || limits.imageLimit = 0 || limits.imageLimit % limits.pageSize ≠ 0) .badLimits
  let header ← readHeader buf
  refuseIf (!grant .segments) .outOfMemory
  let scan ← forRange header.phnum (scanHeader buf limits header)
    { segments := [], previousEnd := none, seenLoad := false, phdr := none }
  refuseIf scan.segments.isEmpty .badSegmentGeometry
  refuseIf (!(← tableCovered scan)) .badSegmentGeometry
  refuseIf (!scan.segments.any (holdsEntry header.entry)) .badEntry
  let (runs, imageEnd) ← buildRuns grant scan.segments limits.pageSize
  pure { entry := header.entry, segments := scan.segments, runs, imageEnd }

def validate (grant : Reservation → Bool) (buf : Bytes) (limits : LoadLimits) : Outcome ElfError ElfImage := do
  let loaded ← loadImage grant buf limits
  let requirement ← mapError .isa (isaRequirement buf)
  pure { entry := loaded.entry, requirement, segments := loaded.segments, runs := loaded.runs, imageEnd := loaded.imageEnd }

end Halcyon.Elf
