import Halcyon.Base.Methods
import Halcyon.Base.Tiling
import Halcyon.Space.Validate

/-!
The mutating half of the planner: `reserve`, `rollback`, `commit` and the stages after it. `reserve` is a method, with a
ledger also when it fails. A function that cannot return an error has `Empty` for its error type.
-/

namespace Halcyon.Space

/-- A failed `reserve` hands the plan and the permits back. -/
structure ReserveFailure where
  error : ChangeError
  validated : ValidatedChange
  permits : List WritePermit
  deriving DecidableEq

def takePermit (object : ObjectId) (permits : List WritePermit) : Outcome ChangeError (WritePermit × List WritePermit) :=
  match permits.find? (·.object == object) with
  | none => fail .permitMismatch
  | some permit => return (permit, permits.eraseP (·.object == object))

structure MaterializedReservation where
  replacements : List Region
  retiring : List RetiringFragment
  objectRegionDeltas : List ObjectRegionDelta
  retiringObjectCapacity : Nat
  retiringPermits : List WritePermit
  permits : List WritePermit
  deriving DecidableEq

def templatePermit (template : RegionTemplate) (supplied : List WritePermit) :
    Outcome Empty (Option WritePermit × List WritePermit) :=
  match template.writableObject with
  | none => return (none, supplied)
  | some object =>
    match takePermit object supplied with
    | .ok (permit, rest) => return (some permit, rest)
    | .error _ => panicked "permit multiset was validated"

def templateAllocation (allocation : Option AllocationKey) : AllocationSource → Outcome Empty AllocationKey
  | .new => expect "map has allocation key" allocation
  | .existing key => return key

abbrev Method (ε : Type) : Type → Type := EStateM (Stop ε) MemorySpace

/-- Takes the value of a counter and counts it up. -/
def mint (counter : MemorySpace → Nat) (write : Nat → MemorySpace → MemorySpace) : Method Empty Nat := do
  let s ← get
  let following ← look (increment (counter s))
  set (write following s)
  return counter s

def mintAllocationKey : Method Empty AllocationKey := do
  return ⟨← mint (·.nextAllocation) fun nextAllocation s => { s with nextAllocation }⟩

def mintRegionKey : Method Empty RegionKey := do
  return ⟨← mint (·.nextRegion) fun nextRegion s => { s with nextRegion }⟩

def mintChangeKey : Method Empty ChangeKey := do
  return ⟨← mint (·.nextChange) fun nextChange s => { s with nextChange }⟩

/-- The replacement loop: the new regions and the permits left over. -/
def materializeRegions (allocation : Option AllocationKey) :
    List WritePermit → List RegionTemplate → Method Empty (List Region × List WritePermit)
  | supplied, [] => return ([], supplied)
  | supplied, template :: rest => do
    let (permit, supplied) ← look (templatePermit template supplied)
    let key ← mintRegionKey
    let allocated ← look (templateAllocation allocation template.allocation)
    let region : Region := {
      key
      allocation := allocated
      range := template.range
      owner := template.owner
      kind := template.kind
      permit }
    let (regions, supplied) ← materializeRegions allocation supplied rest
    return (region :: regions, supplied)

/-- The retirement loop. -/
def materializeRetiring : List RetireTemplate → Method Empty (List RetiringFragment)
  | [] => return []
  | template :: rest => do
    let key ← mintRegionKey
    let fragments ← materializeRetiring rest
    return {
      key
      allocation := template.allocation
      range := template.range
      owner := template.owner
      kind := template.kind
      backingRetire := template.backingRetire } :: fragments

/-- Adds up neighboring deltas of one object; `previous` is the last entry written so far. -/
def mergeDeltas (previous : ObjectRegionDelta) : List ObjectRegionDelta → List ObjectRegionDelta
  | [] => [previous]
  | delta :: rest =>
    if previous.object == delta.object then
      mergeDeltas { previous with
        retiring := previous.retiring + delta.retiring
        replacement := previous.replacement + delta.replacement } rest
    else previous :: mergeDeltas delta rest

def objectRegionDeltas (replacements : List RegionTemplate) (retiring : List RetireTemplate) : List ObjectRegionDelta :=
  let pushed := replacements.filterMap (fun template => template.kind.object?.map
      (fun object => { object, retiring := 0, replacement := 1 }))
    ++ retiring.filterMap (fun template => template.kind.object?.map
      (fun object => { object, retiring := 1, replacement := 0 }))
  match sortByKey (·.object.value) pushed with
  | [] => []
  | first :: rest => mergeDeltas first rest

namespace MemorySpace

variable (s : MemorySpace)

def new (heap : Heap) (bounds : PageRange) (limits : Limits) : Outcome ChangeError MemorySpace := do
  refuseIf (limits.maxRegions == 0 || limits.maxTransactions == 0 || limits.maxPagesPerChange == 0
    || limits.maxLeaseBytes == 0 || limits.maxLeaseSegments == 0) .badLimits
  heap.tryReserve .newRegions limits.maxRegions
  heap.tryReserve .newTransactions limits.maxTransactions
  return {
    bounds
    limits
    regions := []
    transactions := []
    nextAllocation := 1
    nextRegion := 1
    nextChange := 1
    reservedGrowth := 0 }

def snapshotValid (snapshot : List RegionKey) : Bool :=
  snapshot.all (fun key => s.regions.any (fun region => region.key == key))

def planStillValid (validated : ValidatedChange) : Bool :=
  if validated.plan.remove.isEmpty && validated.plan.resultLayout.isSome
      && !s.rangeEmpty validated.plan.footprint then false
  else match validated.lease with
    | some (_, segments) => segments.all (fun segment => s.regions.any (fun region =>
        region.key == segment.region && (match region.kind with
          | .mapping _ .readWrite _ => true
          | _ => false)
        && region.range.addressRange.contains segment.user))
    | none => true

def keysAvailable (validated : ValidatedChange) : Bool :=
  match checkedAdd validated.plan.replacements.length validated.plan.retiring.length with
  | none => false
  | some required =>
    decide (s.nextRegion + required ≤ u64Max) && decide (s.nextChange + 1 ≤ u64Max)
    && (validated.plan.resultLayout.isNone || decide (s.nextAllocation + 1 ≤ u64Max))

def checkReservation (heap : Heap) (validated : ValidatedChange) (permits : List WritePermit) :
    Outcome ChangeError Unit := do
  refuseIf (decide (s.transactions.length ≥ s.limits.maxTransactions)) .transactionLimit
  refuseIf (!s.snapshotValid validated.snapshot || !s.planStillValid validated) .stale
  s.ensureNoTransactionConflict validated.plan.footprint (validated.lease.map (·.1))
  refuseIf (!permitsMatch validated.permits permits) .permitMismatch
  s.checkProjectedRegions validated.growth
  refuseIf (!s.keysAvailable validated) .keyExhausted
  let reservedGrowth ← okOr .regionLimit (checkedAdd s.reservedGrowth validated.growth)
  heap.tryReserve .reserveRegions reservedGrowth
  heap.tryReserve .reserveTransactions 1

def allocationKey : Option MapResultLayout → Method Empty (Option AllocationKey)
  | none => return none
  | some _ => do return some (← mintAllocationKey)

/-- A failure hands the permits back. -/
def materializeReservation (heap : Heap) (validated : ValidatedChange) (permits : List WritePermit) :
    Method (ChangeError × List WritePermit) MaterializedReservation := do
  let plan := validated.plan
  look <| mapError (·, permits) do
    heap.tryReserve .materializeReplacements plan.replacements.length
    heap.tryReserve .materializeRetiring plan.retiring.length
    heap.tryReserve .materializePermits validated.snapshot.length
    let capacity ← okOr .allocationFailed (checkedAdd plan.retiring.length plan.replacements.length)
    heap.tryReserve .materializeDeltas capacity
  perform do
    let allocation ← allocationKey plan.resultLayout
    let (replacements, supplied) ← materializeRegions allocation permits plan.replacements
    let retiring ← materializeRetiring plan.retiring
    let objectRegionDeltas := objectRegionDeltas plan.replacements plan.retiring
    return {
      replacements
      retiring
      objectRegionDeltas
      retiringObjectCapacity := objectRegionDeltas.countP (·.retiring != 0)
      retiringPermits := []
      permits := supplied }

def reserve (heap : Heap) (validated : ValidatedChange) (permits : List WritePermit) :
    Method ReserveFailure PreparedChange := do
  let s ← get
  look (mapError (fun error => { error, validated, permits }) (s.checkReservation heap validated permits))
  let materialized ← (materializeReservation heap validated permits).adaptExcept
    (Stop.map fun (error, permits) => { error, validated, permits })
  perform do
    let key ← mintChangeKey
    let lease := validated.lease.map (fun (range, segments) => { range, projection := segments : UserWriteLease })
    let record : TransactionRecord := {
      key
      footprint := validated.plan.footprint
      lease := lease.map (·.range)
      stage := .reserved
      reservedGrowth := validated.growth }
    modify fun s => { s with
      transactions := s.transactions ++ [record]
      reservedGrowth := s.reservedGrowth + validated.growth }
    return {
      key
      plan := {
        remove := validated.plan.remove
        replacements := materialized.replacements
        retiring := materialized.retiring
        objectRegionDeltas := materialized.objectRegionDeltas
        retiringObjectCapacity := materialized.retiringObjectCapacity
        translations := validated.plan.translations
        resultLayout := validated.plan.resultLayout
        retiringPermits := materialized.retiringPermits }
      permits := materialized.permits
      lease }

def transactionIndex (key : ChangeKey) (stage : ChangeStage) : Outcome Empty Nat :=
  expect "change token belongs to another memory space or stage"
    (s.transactions.findIdx? (fun record => record.key == key && record.stage == stage))

def recordAt (index : Nat) : Outcome Empty TransactionRecord := expect "index out of bounds" s.transactions[index]?

def rollback (prepared : PreparedChange) : Outcome Empty (MemorySpace × List WritePermit) := do
  let index ← s.transactionIndex prepared.key .reserved
  let record ← s.recordAt index
  let reservedGrowth ← subtract s.reservedGrowth record.reservedGrowth
  return ({ s with transactions := s.transactions.eraseIdx index, reservedGrowth },
    prepared.permits ++ prepared.plan.replacements.filterMap Region.permit)

/-- The removal loop of `commit`: the regions left and the permits that retire. -/
def removeRegions : List Region → List WritePermit → List RegionKey → Outcome Empty (List Region × List WritePermit)
  | regions, retiring, [] => return (regions, retiring)
  | regions, retiring, key :: rest => do
    let region ← expect "validated region key changed before Commit"
      (regions.find? (fun region => region.key == key))
    removeRegions (regions.eraseP (fun region => region.key == key))
      (retiring ++ region.permit.toList) rest

def commit (prepared : PreparedChange) : Outcome Empty (MemorySpace × ChangePayload) := do
  let index ← s.transactionIndex prepared.key .reserved
  let (kept, retiringPermits) ← removeRegions s.regions prepared.plan.retiringPermits prepared.plan.remove
  let regions := sortByKey (·.range.start) (kept ++ prepared.plan.replacements)
  let record ← s.recordAt index
  let reservedGrowth ← subtract s.reservedGrowth record.reservedGrowth
  let record := { record with reservedGrowth := 0, lease := none, stage := .committed }
  return ({ s with regions, transactions := s.transactions.set index record, reservedGrowth },
    { key := prepared.key
      translations := prepared.plan.translations
      retiring := prepared.plan.retiring
      retiringObjectCapacity := prepared.plan.retiringObjectCapacity
      retiringPermits
      resultLayout := prepared.plan.resultLayout })

def advance (key : ChangeKey) (from_ to_ : ChangeStage) : Outcome Empty MemorySpace := do
  let index ← s.transactionIndex key from_
  let record ← s.recordAt index
  return { s with transactions := s.transactions.set index { record with stage := to_ } }

def publish (committed : ChangePayload) : Outcome Empty (MemorySpace × ChangePayload) := do
  return (← s.advance committed.key .committed .published, committed)

def synchronize (published : ChangePayload) : Outcome Empty (MemorySpace × ChangePayload) := do
  return (← s.advance published.key .published .synchronized, published)

def beginRetire (synchronized : ChangePayload) : Outcome Empty (MemorySpace × ChangePayload × RetireBatch) := do
  let next ← s.advance synchronized.key .synchronized .retiring
  return (next, { synchronized with retiring := [], retiringPermits := [] },
    { fragments := synchronized.retiring, permits := synchronized.retiringPermits })

def finishRetire (retiring : ChangePayload) (batch : RetireBatch) : Outcome Empty (MemorySpace × ChangePayload) := do
  assertThat batch.isEmpty "memory change cannot leave Retiring with live retire owners"
  return (← s.advance retiring.key .retiring .retired, retiring)

def complete (retired : ChangePayload) : Outcome Empty MemorySpace := do
  let index ← s.transactionIndex retired.key .retired
  return { s with transactions := s.transactions.eraseIdx index }

def drainOne : Outcome Empty (MemorySpace × Option (RetiringFragment × Option WritePermit)) := do
  assertThat s.transactions.isEmpty "memory-space regions cannot drain with live transactions"
  match s.regions.getLast? with
  | none => return (s, none)
  | some region => return ({ s with regions := s.regions.dropLast }, some ({
      key := region.key
      allocation := region.allocation
      range := region.range
      owner := region.owner
      kind := region.kind
      backingRetire := .release }, region.permit))

end MemorySpace

/-!
`MemorySpace.meaning` is the abstract view of the ledger: a partial map from addresses to owner, allocation and mapping,
without a trace of how regions are cut. Regions and templates are tiles of this map.
-/

/-- The kind of a region `distance` bytes after its start. -/
def RegionKind.shiftedBy (distance : Nat) : RegionKind → RegionKind
  | guard => guard
  | mapping backing current maximum => mapping (backing.withOffset (backing.offset + distance)) current maximum

def RegionKind.protect (protection : Protection) : RegionKind → RegionKind
  | guard => guard
  | mapping backing _ maximum => mapping backing protection maximum

def RegionKind.Lawful : RegionKind → Prop
  | guard => True
  | mapping _ current maximum => maximum.permits current = true

structure PageMeaning where
  owner : RegionOwner
  allocation : AllocationKey
  kind : RegionKind
  deriving DecidableEq

def PageMeaning.protect (protection : Protection) (m : PageMeaning) : PageMeaning :=
  { m with kind := m.kind.protect protection }

def Region.tile (r : Region) : Tile PageMeaning where
  start := r.range.start
  stop := r.range.end_
  value a := ⟨r.owner, r.allocation, r.kind.shiftedBy (a - r.range.start)⟩

/-- The allocation of a template, once a new allocation has the key `fresh`. -/
def AllocationSource.resolve (fresh : AllocationKey) : AllocationSource → AllocationKey
  | new => fresh
  | existing key => key

def RegionTemplate.tile (fresh : AllocationKey) (t : RegionTemplate) : Tile PageMeaning where
  start := t.range.start
  stop := t.range.end_
  value a := ⟨t.owner, t.allocation.resolve fresh, t.kind.shiftedBy (a - t.range.start)⟩

def MemorySpace.meaning (s : MemorySpace) (address : Nat) : Option PageMeaning := lookup (s.regions.map Region.tile) address

def MemorySpace.pageMap (s : MemorySpace) (page : Nat) : Option PageMeaning := s.meaning (page * pageSize)

namespace RegionKind

@[simp] theorem shiftedBy_zero (kind : RegionKind) : kind.shiftedBy 0 = kind := by
  cases kind <;> simp [shiftedBy]

theorem shiftedBy_shiftedBy (kind : RegionKind) (m n : Nat) : (kind.shiftedBy m).shiftedBy n = kind.shiftedBy (m + n) := by
  cases kind <;> simp [shiftedBy, Nat.add_assoc]

theorem protect_shiftedBy (kind : RegionKind) (protection : Protection) (n : Nat) :
    (kind.protect protection).shiftedBy n = (kind.shiftedBy n).protect protection := by
  cases kind <;> rfl

@[simp] theorem object?_shiftedBy (kind : RegionKind) (n : Nat) : (kind.shiftedBy n).object? = kind.object? := by
  cases kind <;> simp [shiftedBy, object?]

@[simp] theorem lawful_shiftedBy {kind : RegionKind} {n : Nat} : (kind.shiftedBy n).Lawful ↔ kind.Lawful := by
  cases kind <;> rfl

end RegionKind

namespace Region

@[simp] theorem tile_start (r : Region) : r.tile.start = r.range.start := rfl

@[simp] theorem tile_stop (r : Region) : r.tile.stop = r.range.end_ := rfl

theorem tile_nonempty (r : Region) : r.tile.start < r.tile.stop := r.range.start_lt_end

theorem tile_value_start (r : Region) : r.tile.value r.range.start = ⟨r.owner, r.allocation, r.kind⟩ := by
  simp [tile]

theorem tile_has_start (r : Region) : r.tile.Has r.range.start := ⟨Nat.le_refl _, r.range.start_lt_end⟩

end Region

@[simp] theorem RegionTemplate.tile_start (fresh : AllocationKey) (t : RegionTemplate) :
    (t.tile fresh).start = t.range.start := rfl

@[simp] theorem RegionTemplate.tile_stop (fresh : AllocationKey) (t : RegionTemplate) :
    (t.tile fresh).stop = t.range.end_ := rfl

variable {region : Region} {range : PageRange} {fresh : AllocationKey}

/-- What `protection` makes of a kind: nothing when it is absent. -/
def RegionKind.underProtection (kind : RegionKind) : Option Protection → RegionKind
  | none => kind
  | some protection => kind.protect protection

variable {protection : Option Protection}

theorem cutKind_ok {kind : RegionKind} (h : cutKind region range protection = .ok kind) :
    kind = (region.kind.underProtection protection).shiftedBy (range.start - region.range.start) := by
  unfold cutKind at h
  split at h
  · rename_i guard
    rw [pure_ok h, guard]
    cases protection <;> rfl
  · rename_i backing current maximum mapping
    obtain ⟨view, shifted, h⟩ := bind_ok h
    rw [pure_ok h, BackingView.shifted_some (okOr_ok shifted), mapping]
    cases protection <;> rfl

/-- Everything a successful `template_from_region` says, apart from the successor flag. -/
structure TemplateOf (region : Region) (range : PageRange) (protection : Option Protection) (t : RegionTemplate) : Prop where
  range_eq : t.range = range
  owner_eq : t.owner = region.owner
  allocation_eq : t.allocation = .existing region.allocation
  kind_eq : t.kind = (region.kind.underProtection protection).shiftedBy (range.start - region.range.start)

theorem templateFromRegion_ok {t : RegionTemplate} (h : templateFromRegion region range protection = .ok t) :
    TemplateOf region range protection t := by
  obtain ⟨_, cut, h⟩ := bind_ok h
  rw [pure_ok h]
  exact ⟨rfl, rfl, rfl, cutKind_ok cut⟩

theorem TemplateOf.value {t : RegionTemplate} (h : TemplateOf region range protection t)
    (inside : region.range.start ≤ range.start) {a : Nat} (from_ : range.start ≤ a) : (t.tile fresh).value a =
      { region.tile.value a with kind := (region.tile.value a).kind.underProtection protection } := by
  obtain ⟨rfl, owner, allocation, kind⟩ := h
  have distance : t.range.start - region.range.start + (a - t.range.start) = a - region.range.start := by omega
  simp only [RegionTemplate.tile, Region.tile, owner, allocation, kind, AllocationSource.resolve,
    RegionKind.shiftedBy_shiftedBy, distance]
  cases protection with
  | none => rfl
  | some => simp only [RegionKind.underProtection, RegionKind.protect_shiftedBy]

theorem keptTemplates_ok (fresh : AllocationKey) {start stop : Nat} {ts : List RegionTemplate}
    (h : keptTemplates region start stop = .ok ts) (inside : region.range.start ≤ start) :
    (∀ a m, Covers (ts.map (·.tile fresh)) a m ↔ (start ≤ a ∧ a < stop) ∧ region.tile.value a = m) ∧
    ∀ t ∈ ts, t.range.start = start ∧ t.range.end_ = stop ∧ TemplateOf region t.range none t := by
  unfold keptTemplates at h
  split at h
  · obtain ⟨range, made, h⟩ := bind_ok h
    obtain ⟨from_, to_⟩ := PageRange.fromBounds_ok (liftRange_ok made)
    obtain ⟨t, cut, h⟩ := bind_ok h
    have template := templateFromRegion_ok cut
    rw [pure_ok h]
    constructor
    · intro a m
      rw [List.map_singleton, covers_cons]
      simp only [covers_nil, or_false, Tile.Has, RegionTemplate.tile_start, RegionTemplate.tile_stop,
        template.range_eq, from_, to_]
      refine and_congr_right fun has => ?_
      rw [template.value (by omega) (by omega)]
      rfl
    · intro t' member
      obtain rfl := List.mem_singleton.mp member
      rw [template.range_eq]
      exact ⟨from_, to_, template.range_eq ▸ template⟩
  · rename_i empty
    rw [pure_ok h]
    refine ⟨fun a m => ?_, by simp⟩
    simp only [List.map_nil, covers_nil, false_iff]
    rintro ⟨⟨_, _⟩, _⟩
    omega

end Halcyon.Space
