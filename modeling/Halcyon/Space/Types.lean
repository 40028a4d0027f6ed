import Mathlib.Algebra.Order.Group.Nat
import Mathlib.Order.Basic
import Halcyon.Base.Word

/-! Half-open byte ranges and their page-aligned form (`memory_space/src/range.rs`), nonempty and aligned by construction. -/

namespace Halcyon.Space

def pageSize : Nat := 4096

inductive RangeError where
  | empty | overflow | unaligned
  deriving DecidableEq

structure AddressRange where
  start : Nat
  end_ : Nat
  start_lt_end : start < end_
  deriving DecidableEq

namespace AddressRange

def fromBounds (start end_ : Nat) : Outcome RangeError AddressRange :=
  if h : start < end_ then .ok ⟨start, end_, h⟩ else fail .empty

def new (start bytes : Nat) : Outcome RangeError AddressRange := do
  refuseIf (bytes == 0) .empty
  let end_ ← okOr .overflow (checkedAdd start bytes)
  fromBounds start end_

def bytes (r : AddressRange) : Nat := r.end_ - r.start

def containsAddress (r : AddressRange) (address : Nat) : Bool := decide (r.start ≤ address) && decide (address < r.end_)

def contains (r other : AddressRange) : Bool := decide (r.start ≤ other.start) && decide (other.end_ ≤ r.end_)

def overlaps (r other : AddressRange) : Bool := decide (r.start < other.end_) && decide (other.start < r.end_)

def adjacent (r other : AddressRange) : Bool := r.end_ == other.start || other.end_ == r.start

variable {r other : AddressRange}

@[simp] theorem containsAddress_iff {a : Nat} :
    r.containsAddress a = true ↔ r.start ≤ a ∧ a < r.end_ := by simp [containsAddress]

@[simp] theorem contains_iff : r.contains other = true ↔ r.start ≤ other.start ∧ other.end_ ≤ r.end_ := by simp [contains]

@[simp] theorem overlaps_iff : r.overlaps other = true ↔ r.start < other.end_ ∧ other.start < r.end_ := by simp [overlaps]

theorem overlaps_false_iff : r.overlaps other = false ↔ r.end_ ≤ other.start ∨ other.end_ ≤ r.start := by
  rw [← Bool.not_eq_true, overlaps_iff]
  omega

theorem fromBounds_ok {start end_ : Nat} (h : fromBounds start end_ = .ok r) : r.start = start ∧ r.end_ = end_ := by
  unfold fromBounds at h
  split at h
  · cases h; exact ⟨rfl, rfl⟩
  · exact (fail_ne_ok h).elim

theorem new_ok {start bytes : Nat} (h : new start bytes = .ok r) : r.start = start ∧ r.end_ = start + bytes := by
  obtain ⟨_, _, h⟩ := bind_ok h
  obtain ⟨_, sum, h⟩ := bind_ok h
  obtain ⟨sum, -⟩ := checkedAdd_some (okOr_ok sum)
  rw [← sum]
  exact fromBounds_ok h

end AddressRange

theorem dvd_max {d x y : Nat} (hx : d ∣ x) (hy : d ∣ y) : d ∣ max x y := by
  rcases max_choice x y with e | e <;> rw [e] <;> assumption

theorem dvd_min {d x y : Nat} (hx : d ∣ x) (hy : d ∣ y) : d ∣ min x y := by
  rcases min_choice x y with e | e <;> rw [e] <;> assumption

structure PageRange extends AddressRange where
  start_aligned : pageSize ∣ start
  end_aligned : pageSize ∣ end_
  deriving DecidableEq

namespace PageRange

/-- The callers have tested both ends already; the test here only produces the proof. -/
def fromAligned (r : AddressRange) : Outcome RangeError PageRange :=
  if h : pageSize ∣ r.start ∧ pageSize ∣ r.end_ then .ok ⟨r, h.1, h.2⟩ else fail .unaligned

def new (start bytes : Nat) : Outcome RangeError PageRange := do
  refuseIf (start % pageSize != 0 || bytes % pageSize != 0) .unaligned
  fromAligned (← AddressRange.new start bytes)

def fromBounds (start end_ : Nat) : Outcome RangeError PageRange := do
  refuseIf (start % pageSize != 0 || end_ % pageSize != 0) .unaligned
  fromAligned (← AddressRange.fromBounds start end_)

def addressRange (r : PageRange) : AddressRange := r.toAddressRange

def pages (r : PageRange) : Nat := r.toAddressRange.bytes / pageSize

def bytes (r : PageRange) : Nat := r.toAddressRange.bytes

def contains (r other : PageRange) : Bool := r.toAddressRange.contains other.toAddressRange

def overlaps (r other : PageRange) : Bool := r.toAddressRange.overlaps other.toAddressRange

def adjacent (r other : PageRange) : Bool := r.toAddressRange.adjacent other.toAddressRange

/-- Both ends of an intersection are ends of the operands, so it is aligned again. -/
def intersection (r other : PageRange) : Option PageRange :=
  if h : max r.start other.start < min r.end_ other.end_ then
    some ⟨⟨_, _, h⟩, dvd_max r.start_aligned other.start_aligned, dvd_min r.end_aligned other.end_aligned⟩
  else none

theorem bytes_eq (r : PageRange) : r.bytes = r.end_ - r.start := rfl

@[simp] theorem contains_iff {r other : PageRange} : r.contains other = true ↔ r.start ≤ other.start ∧ other.end_ ≤ r.end_ :=
  AddressRange.contains_iff

@[simp] theorem overlaps_iff {r other : PageRange} : r.overlaps other = true ↔ r.start < other.end_ ∧ other.start < r.end_ :=
  AddressRange.overlaps_iff

theorem overlaps_false_iff {r other : PageRange} : r.overlaps other = false ↔ r.end_ ≤ other.start ∨ other.end_ ≤ r.start :=
  AddressRange.overlaps_false_iff

theorem fromAligned_ok {a : AddressRange} {r : PageRange} (h : fromAligned a = .ok r) : r.toAddressRange = a := by
  unfold fromAligned at h
  split at h
  · cases h; rfl
  · exact (fail_ne_ok h).elim

theorem new_ok {start bytes : Nat} {r : PageRange} (h : new start bytes = .ok r) :
    r.start = start ∧ r.end_ = start + bytes := by
  obtain ⟨_, _, h⟩ := bind_ok h
  obtain ⟨_, made, h⟩ := bind_ok h
  rw [fromAligned_ok h]
  exact AddressRange.new_ok made

theorem fromBounds_ok {start end_ : Nat} {r : PageRange} (h : fromBounds start end_ = .ok r) :
    r.start = start ∧ r.end_ = end_ := by
  obtain ⟨_, _, h⟩ := bind_ok h
  obtain ⟨_, made, h⟩ := bind_ok h
  rw [fromAligned_ok h]
  exact AddressRange.fromBounds_ok made

theorem intersection_some {r other cut : PageRange} (h : r.intersection other = some cut) :
    cut.start = max r.start other.start ∧ cut.end_ = min r.end_ other.end_ := by
  unfold intersection at h
  split at h
  · cases h; exact ⟨rfl, rfl⟩
  · cases h

end PageRange

/-!
The vocabulary of the address-space planner (`memory_space/src/space.rs`). `RegionKind`, `RegionKindView` and
`TemplateKind` of the source have the same constructors; one type stands for the three.
-/

structure BackingId where
  value : Nat
  ne_zero : value ≠ 0
  deriving DecidableEq

structure LeaseKey where
  value : Nat
  ne_zero : value ≠ 0
  deriving DecidableEq

structure ObjectId where
  value : Nat
  ne_zero : value ≠ 0
  deriving DecidableEq

structure AllocationKey where
  value : Nat
  deriving DecidableEq

structure RegionKey where
  value : Nat
  deriving DecidableEq

structure ChangeKey where
  value : Nat
  deriving DecidableEq

inductive Protection where
  | readOnly | readWrite | readExecute
  deriving DecidableEq

namespace Protection

def permits : Protection → Protection → Bool
  | readOnly, readOnly => true
  | readWrite, readOnly | readWrite, readWrite => true
  | readExecute, readOnly | readExecute, readExecute => true
  | _, _ => false

end Protection

inductive AnonymousClass where
  | data | initialExecutable
  deriving DecidableEq

/-- The admission snapshot an object issues for a view. It holds no write permit. -/
structure ObjectViewAuthorization where
  object : ObjectId
  maximum : Protection
  objectBytes : Nat
  deriving DecidableEq

/-- The affine count of one reserved, published or retiring writable view. -/
structure WritePermit where
  object : ObjectId
  deriving DecidableEq

inductive MapBacking where
  | anonymous (identity : BackingId) (class_ : AnonymousClass)
  | object (authorization : ObjectViewAuthorization) (offset : Nat)
  deriving DecidableEq

inductive BackingView where
  | anonymous (identity : BackingId) (class_ : AnonymousClass) (offset : Nat)
  | object (object : ObjectId) (offset : Nat)
  deriving DecidableEq

namespace BackingView

def offset : BackingView → Nat
  | anonymous _ _ offset => offset
  | object _ offset => offset

def object? : BackingView → Option ObjectId
  | anonymous .. => none
  | object o _ => some o

def withOffset : BackingView → Nat → BackingView
  | anonymous identity class_ _, offset => anonymous identity class_ offset
  | object o _, offset => object o offset

def shifted (view : BackingView) (bytes : Nat) : Option BackingView := (checkedAdd view.offset bytes).map view.withOffset

section

variable (view : BackingView)
include view

@[simp] theorem withOffset_offset : view.withOffset view.offset = view := by
  cases view <;> rfl

@[simp] theorem offset_withOffset (n : Nat) : (view.withOffset n).offset = n := by
  cases view <;> rfl

@[simp] theorem withOffset_withOffset (m n : Nat) : (view.withOffset m).withOffset n = view.withOffset n := by
  cases view <;> rfl

@[simp] theorem object?_withOffset (n : Nat) : (view.withOffset n).object? = view.object? := by
  cases view <;> rfl

end

theorem shifted_some {view other : BackingView} {bytes : Nat} (h : view.shifted bytes = some other) :
    other = view.withOffset (view.offset + bytes) := by
  obtain ⟨_, sum, rfl⟩ := Option.map_eq_some_iff.mp h
  rw [(checkedAdd_some sum).1]

end BackingView

inductive RegionOwner where
  | addressSpace
  | lease (key : LeaseKey)
  deriving DecidableEq

inductive MapPlacement where
  | anywhere
  | fixedEmpty (usableStart : Nat)
  deriving DecidableEq

structure UserWriteLeaseRequest where
  range : AddressRange
  deriving DecidableEq

structure MapRequest where
  bytes : Nat
  guardBefore : Nat
  guardAfter : Nat
  placement : MapPlacement
  current : Protection
  maximum : Protection
  owner : RegionOwner
  backing : MapBacking
  result : Option UserWriteLeaseRequest
  deriving DecidableEq

structure UnmapRequest where
  range : PageRange
  authority : RegionOwner
  deriving DecidableEq

structure ProtectRequest where
  range : PageRange
  protection : Protection
  authority : RegionOwner
  deriving DecidableEq

structure Limits where
  maxRegions : Nat
  maxTransactions : Nat
  maxPagesPerChange : Nat
  maxLeaseBytes : Nat
  maxLeaseSegments : Nat
  deriving DecidableEq

inductive ChangeError where
  | badLimits
  | range (error : RangeError)
  | outOfBounds
  | conflict
  | busy
  | notCovered
  | guard
  | ownerDenied
  | permissionDenied
  | backingOutOfRange
  | objectAuthorization
  | pageLimit
  | regionLimit
  | transactionLimit
  | leaseInvalid
  | leaseTooLarge
  | permitMismatch
  | stale
  | keyExhausted
  | allocationFailed
  deriving DecidableEq

/-- `From<RangeError> for ChangeError`, at a `?`. -/
def liftRange {α : Type} : Outcome RangeError α → Outcome ChangeError α
  | .ok value => .ok value
  | .error (.error reason) => fail (.range reason)
  | .error (.panic message) => panicked message

theorem liftRange_ok {α : Type} {x : Outcome RangeError α} {value : α} (h : liftRange x = .ok value) : x = .ok value := by
  unfold liftRange at h
  split at h
  · cases h; rfl
  · exact (fail_ne_ok h).elim
  · exact (panicked_ne_ok h).elim

structure MapResultLayout where
  usable : PageRange
  reservation : PageRange
  deriving DecidableEq

/-- `newWrites` counts the permits that no replaced writable region hands on. -/
structure PermitRequirement where
  object : ObjectId
  count : Nat
  newWrites : Nat
  deriving DecidableEq

inductive TranslationIntent where
  | install (range : PageRange) (backing : BackingView) (protection : Protection)
  | remove (range : PageRange)
  | protect (range : PageRange) (from_ to_ : Protection)
  deriving DecidableEq

inductive RegionKind where
  | guard
  | mapping (backing : BackingView) (current maximum : Protection)
  deriving DecidableEq

namespace RegionKind

/-- The object that a writable mapping of it must hold a permit for. -/
def writableObject : RegionKind → Option ObjectId
  | mapping (.object o _) .readWrite _ => some o
  | _ => none

def object? : RegionKind → Option ObjectId
  | guard => none
  | mapping backing _ _ => backing.object?

def isMapping : RegionKind → Bool
  | guard => false
  | mapping .. => true

end RegionKind

structure Region where
  key : RegionKey
  allocation : AllocationKey
  range : PageRange
  owner : RegionOwner
  kind : RegionKind
  permit : Option WritePermit
  deriving DecidableEq

structure UserWriteSegment where
  region : RegionKey
  user : AddressRange
  backing : BackingView
  backingOffset : Nat
  deriving DecidableEq

structure UserWriteLease where
  range : AddressRange
  projection : List UserWriteSegment
  deriving DecidableEq

inductive BackingRetire where
  | retain | release
  deriving DecidableEq

structure RetiringFragment where
  key : RegionKey
  allocation : AllocationKey
  range : PageRange
  owner : RegionOwner
  kind : RegionKind
  backingRetire : BackingRetire
  deriving DecidableEq

inductive ChangeStage where
  | reserved | committed | published | synchronized | retired | retiring
  deriving DecidableEq

inductive AllocationSource where
  | new
  | existing (key : AllocationKey)
  deriving DecidableEq

structure RegionTemplate where
  allocation : AllocationSource
  range : PageRange
  owner : RegionOwner
  kind : RegionKind
  writeSuccessor : Bool
  deriving DecidableEq

def RegionTemplate.writableObject (template : RegionTemplate) : Option ObjectId := template.kind.writableObject

structure RetireTemplate where
  allocation : AllocationKey
  range : PageRange
  owner : RegionOwner
  kind : RegionKind
  backingRetire : BackingRetire
  deriving DecidableEq

structure ValidatedPlan where
  remove : List RegionKey
  replacements : List RegionTemplate
  retiring : List RetireTemplate
  translations : List TranslationIntent
  footprint : PageRange
  resultLayout : Option MapResultLayout
  deriving DecidableEq

structure ValidatedChange where
  plan : ValidatedPlan
  snapshot : List RegionKey
  lease : Option (AddressRange × List UserWriteSegment)
  permits : List PermitRequirement
  growth : Nat
  deriving DecidableEq

structure ObjectRegionDelta where
  object : ObjectId
  retiring : Nat
  replacement : Nat
  deriving DecidableEq

structure PreparedPlan where
  remove : List RegionKey
  replacements : List Region
  retiring : List RetiringFragment
  objectRegionDeltas : List ObjectRegionDelta
  retiringObjectCapacity : Nat
  translations : List TranslationIntent
  resultLayout : Option MapResultLayout
  retiringPermits : List WritePermit
  deriving DecidableEq

structure PreparedChange where
  key : ChangeKey
  plan : PreparedPlan
  permits : List WritePermit
  lease : Option UserWriteLease
  deriving DecidableEq

/-- What `CommittedChange`, `PublishedChange`, `SynchronizedChange`, `RetiringChange` and
`RetiredChange` carry. -/
structure ChangePayload where
  key : ChangeKey
  translations : List TranslationIntent
  retiring : List RetiringFragment
  retiringObjectCapacity : Nat
  retiringPermits : List WritePermit
  resultLayout : Option MapResultLayout
  deriving DecidableEq

structure RetireBatch where
  fragments : List RetiringFragment
  permits : List WritePermit
  deriving DecidableEq

def RetireBatch.isEmpty (batch : RetireBatch) : Bool := batch.fragments.isEmpty && batch.permits.isEmpty

structure TransactionRecord where
  key : ChangeKey
  footprint : PageRange
  lease : Option AddressRange
  stage : ChangeStage
  reservedGrowth : Nat
  deriving DecidableEq

structure MemorySpace where
  bounds : PageRange
  limits : Limits
  regions : List Region
  transactions : List TransactionRecord
  nextAllocation : Nat
  nextRegion : Nat
  nextChange : Nat
  reservedGrowth : Nat
  deriving DecidableEq

end Halcyon.Space
