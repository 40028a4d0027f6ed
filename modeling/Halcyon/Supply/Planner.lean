import Halcyon.Base.Loops
import Halcyon.Base.Spans
import Halcyon.Base.Word

/-!
The planner of physical memory at boot: what is not reserved is divided among frame metadata, kernel heap chunks, recovery
tickets and user memory. All lists are kept in buffers of a fixed capacity.
-/

namespace Halcyon.Supply

abbrev Range := Span

structure Requirements where
  pageSize : Nat
  metadataBytes : Nat
  heapChunkSize : Nat
  heapChunkCount : Nat
  recoveryTicketSize : Nat
  recoveryTicketCount : Nat

inductive PlanError where
  | invalidRequirements | invalidRange | memoryOverlap | capacityExhausted | arithmeticOverflow | insufficientMetadata
  | insufficientHeap | insufficientRecovery | classificationMismatch
  deriving DecidableEq

def isPowerOfTwo (n : Nat) : Bool := n != 0 && 2 ^ n.log2 == n

/-- The entries in use of an array of `n` ranges. -/
structure RangeBuffer (n : Nat) where
  ranges : List Range
  fits : ranges.length ≤ n

namespace RangeBuffer

variable {n : Nat}

def new : RangeBuffer n := ⟨[], Nat.zero_le n⟩

def clear (_self : RangeBuffer n) : RangeBuffer n := ⟨[], Nat.zero_le n⟩

variable (self : RangeBuffer n)

def push (range : Range) : Outcome PlanError (RangeBuffer n) :=
  if room : self.ranges.length < n then .ok ⟨self.ranges ++ [range], by simpa using room⟩
  else fail .capacityExhausted

def pushProper (start stop : Nat) : Outcome PlanError (RangeBuffer n) :=
  if start < stop then self.push ⟨start, stop⟩ else .ok self

def sort : RangeBuffer n := ⟨sortByKey Span.start self.ranges, by rw [(sortByKey_perm _ _).length_eq]; exact self.fits⟩

/-- Every entry is read before it can be overwritten by a merged one. -/
def normalize : RangeBuffer n := ⟨normalized self.ranges, Nat.le_trans (normalized_length _) self.fits⟩

def bytes : Outcome PlanError Nat :=
  self.ranges.foldlM (fun total range => okOr .arithmeticOverflow (checkedAdd total range.len)) 0

end RangeBuffer

def validateRange (range : Range) (pageSize : Nat) : Outcome PlanError Unit :=
  refuseIf (range.stop ≤ range.start || range.start % pageSize != 0 || range.stop % pageSize != 0) .invalidRange

def checkOverlap : List Range → Outcome PlanError Unit
  | first :: second :: rest => do
    refuseIf (second.start < first.stop) .memoryOverlap
    checkOverlap (second :: rest)
  | _ => pure ()

section
variable {n : Nat}

def normalizeMemoriesInto (input : List Range) (pageSize : Nat) (output : RangeBuffer n) :
    Outcome PlanError (RangeBuffer n) := do
  let output ← input.foldlM (fun output range => do
    validateRange range pageSize
    output.push range) output.clear
  checkOverlap output.sort.ranges
  return output.sort

def clipOne (range memory : Range) (output : RangeBuffer n) : Outcome PlanError (RangeBuffer n) :=
  output.pushProper (max range.start memory.start) (min range.stop memory.stop)

def clipAndNormalizeInto (input : List Range) (memories : RangeBuffer n) (pageSize : Nat) (output : RangeBuffer n) :
    Outcome PlanError (RangeBuffer n) := do
  let output ← input.foldlM (fun output range => do
    validateRange range pageSize
    memories.ranges.foldlM (fun output memory => clipOne range memory output) output) output.clear
  return output.normalize

def append (target source : RangeBuffer n) : Outcome PlanError (RangeBuffer n) :=
  source.ranges.foldlM (fun target range => target.push range) target

def copyInto (source target : RangeBuffer n) : Outcome PlanError (RangeBuffer n) := append target.clear source

/-- The loop over the cuts of one range: the cursor and the output at its end. -/
def subtractCuts (range : Range) : Nat → List Range → RangeBuffer n → Outcome PlanError (Nat × RangeBuffer n)
  | cursor, [], output => pure (cursor, output)
  | cursor, cut :: cuts, output =>
    if cut.stop ≤ cursor || range.stop ≤ cut.start then subtractCuts range cursor cuts output
    else do
      let output ← output.pushProper cursor (max cut.start cursor)
      let cursor := min cut.stop range.stop
      if cursor == range.stop then pure (cursor, output)
      else subtractCuts range cursor cuts output

def subtractOne (reserved : RangeBuffer n) (range : Range) (output : RangeBuffer n) : Outcome PlanError (RangeBuffer n) := do
  let (cursor, output) ← subtractCuts range range.start reserved.ranges output
  output.pushProper cursor range.stop

def subtractInto (source reserved output : RangeBuffer n) : Outcome PlanError (RangeBuffer n) :=
  source.ranges.foldlM (fun output range => subtractOne reserved range output) output.clear

end

def alignUp (value alignment : Nat) : Outcome PlanError Nat :=
  okOr .arithmeticOverflow ((checkedAdd value (alignment - 1)).map fun stop => stop &&& (usizeMax - (alignment - 1)))

def fit (start stop len alignment : Nat) : Outcome PlanError (Option Range) := do
  if stop ≤ start then
    pure none
  else
    let aligned ← alignUp start alignment
    let candidateEnd ← okOr .arithmeticOverflow (checkedAdd aligned len)
    pure (if candidateEnd ≤ stop then some ⟨aligned, candidateEnd⟩ else none)

def placeBetween (memory : Range) (len alignment : Nat) : Nat → List Range → Outcome PlanError (Option Range)
  | cursor, [] => fit cursor memory.stop len alignment
  | cursor, cut :: cuts =>
    if cut.stop ≤ cursor || memory.stop ≤ cut.start then placeBetween memory len alignment cursor cuts
    else do
      match ← fit cursor (min cut.start memory.stop) len alignment with
      | some range => pure (some range)
      | none =>
        let cursor := min cut.stop memory.stop
        if cursor == memory.stop then fit cursor memory.stop len alignment
        else placeBetween memory len alignment cursor cuts

def placeOne (unavailable : List Range) (len alignment : Nat) : List Range → Outcome PlanError (Option Range)
  | [] => pure none
  | memory :: memories => do
    match ← placeBetween memory len alignment memory.start unavailable with
    | some range => pure (some range)
    | none => placeOne unavailable len alignment memories

def validateRequirements (heap recovery : Nat) (requirements : Requirements) : Outcome PlanError Unit :=
  let page := requirements.pageSize
  refuseIf (!isPowerOfTwo page || requirements.metadataBytes == 0 || heap < requirements.heapChunkCount ||
    recovery < requirements.recoveryTicketCount ||
    (0 < requirements.heapChunkCount && (!isPowerOfTwo requirements.heapChunkSize || requirements.heapChunkSize < page)) ||
    (0 < requirements.recoveryTicketCount &&
      (requirements.recoveryTicketSize == 0 || requirements.recoveryTicketSize % page != 0))) .invalidRequirements

structure Planner (ranges heap recovery : Nat) where
  memories : RangeBuffer ranges
  permanent : RangeBuffer ranges
  rawBoot : RangeBuffer ranges
  bootHeld : RangeBuffer ranges
  unavailable : RangeBuffer ranges
  userFree : RangeBuffer ranges
  heapRanges : List Range
  heapLength : heapRanges.length = heap
  recoveryRanges : List Range
  recoveryLength : recoveryRanges.length = recovery

def Planner.new {ranges heap recovery : Nat} : Planner ranges heap recovery where
  memories := .new
  permanent := .new
  rawBoot := .new
  bootHeld := .new
  unavailable := .new
  userFree := .new
  heapRanges := List.replicate heap ⟨0, 0⟩
  heapLength := List.length_replicate
  recoveryRanges := List.replicate recovery ⟨0, 0⟩
  recoveryLength := List.length_replicate

structure InventoryPlan where
  permanent : List Range
  bootHeld : List Range
  userFree : List Range
  managedBytes : Nat
  permanentBytes : Nat
  bootHeldBytes : Nat
  systemBytes : Nat
  userFreeBytes : Nat

structure SystemSupply where
  metadata : Range
  heapRanges : List Range
  heap : List (Option Range)
  heapNext : Nat
  heapCount : Nat
  recoveryRanges : List Range
  recovery : List (Option Range)
  recoveryNext : Nat
  recoveryCount : Nat

structure Plan where
  inventory : InventoryPlan
  system : SystemSupply

def writeAt (slots : List Range) (index : Nat) (range : Range) : Outcome PlanError (List Range) :=
  if index < slots.length then .ok (slots.set index range) else panicked "index out of bounds"

/-- Places so many ranges one after another; each is unavailable to the next. -/
def placeRanges {n : Nat} (memories : RangeBuffer n) (count size alignment : Nat) (insufficient : PlanError)
    (slots : List Range) (unavailable : RangeBuffer n) : Outcome PlanError (List Range × RangeBuffer n) :=
  forRange count (fun index (slots, unavailable) => do
    let range ← okOr insufficient (← placeOne unavailable.ranges size alignment memories.ranges)
    let slots ← writeAt slots index range
    let unavailable ← unavailable.push range
    pure (slots, unavailable.normalize)) (slots, unavailable)

def systemBytesOf (metadataLen : Nat) (requirements : Requirements) : Outcome PlanError Nat := do
  let heapBytes ← okOr .arithmeticOverflow (checkedMul requirements.heapChunkSize requirements.heapChunkCount)
  okOr .arithmeticOverflow ((checkedAdd metadataLen heapBytes).bind fun bytes =>
    (checkedMul requirements.recoveryTicketSize requirements.recoveryTicketCount).bind fun recovery =>
      checkedAdd bytes recovery)

def tickets (ranges : List Range) (count : Nat) : List (Option Range) :=
  ranges.mapIdx fun index range => if index < count then some range else none

def plan {ranges heap recovery : Nat} (self : Planner ranges heap recovery) (managed permanent bootHeld : List Range)
    (requirements : Requirements) : Outcome PlanError Plan := do
  validateRequirements heap recovery requirements
  let memories ← normalizeMemoriesInto managed requirements.pageSize self.memories
  let permanent ← clipAndNormalizeInto permanent memories requirements.pageSize self.permanent
  let rawBoot ← clipAndNormalizeInto bootHeld memories requirements.pageSize self.rawBoot
  let bootHeld ← subtractInto rawBoot permanent self.bootHeld
  let unavailable ← copyInto permanent self.unavailable
  let unavailable ← append unavailable bootHeld
  let unavailable := unavailable.normalize
  let metadataLen ← alignUp requirements.metadataBytes requirements.pageSize
  let metadataRange ← okOr .insufficientMetadata
    (← placeOne unavailable.ranges metadataLen requirements.pageSize memories.ranges)
  let unavailable ← unavailable.push metadataRange
  let unavailable := unavailable.normalize
  let (heapRanges, unavailable) ← placeRanges memories requirements.heapChunkCount requirements.heapChunkSize
    requirements.heapChunkSize .insufficientHeap self.heapRanges unavailable
  let (recoveryRanges, unavailable) ← placeRanges memories requirements.recoveryTicketCount
    requirements.recoveryTicketSize requirements.pageSize .insufficientRecovery self.recoveryRanges unavailable
  let userFree ← subtractInto memories unavailable self.userFree
  let managedBytes ← memories.bytes
  let permanentBytes ← permanent.bytes
  let bootHeldBytes ← bootHeld.bytes
  let systemBytes ← systemBytesOf metadataLen requirements
  let userFreeBytes ← userFree.bytes
  let classified ← okOr .arithmeticOverflow ((checkedAdd permanentBytes bootHeldBytes).bind fun bytes =>
    (checkedAdd bytes systemBytes).bind fun bytes => checkedAdd bytes userFreeBytes)
  refuseIf (classified != managedBytes) .classificationMismatch
  return {
    inventory := ⟨permanent.ranges, bootHeld.ranges, userFree.ranges, managedBytes, permanentBytes, bootHeldBytes,
      systemBytes, userFreeBytes⟩
    system := ⟨metadataRange, heapRanges, tickets heapRanges requirements.heapChunkCount, 0,
      requirements.heapChunkCount, recoveryRanges, tickets recoveryRanges requirements.recoveryTicketCount, 0,
      requirements.recoveryTicketCount⟩ }

end Halcyon.Supply
