import Halcyon.Space.Transitions

/-!
What every run of the planner keeps: a well-formed ledger, and every pinned lease.
-/

namespace Halcyon.Space

open World List

section

variable {w next : World}

def pageSpan (first extra : Nat) : PageRange :=
  ⟨⟨first * pageSize, (first + extra + 1) * pageSize, by unfold pageSize; omega⟩, Nat.dvd_mul_left _ _, Nat.dvd_mul_left _ _⟩

def plenty : Heap := fun _ _ => true

def smallBounds : PageRange := pageSpan 1 255

def smallLimits : Limits := ⟨16, 8, 64, 65536, 8⟩

def smallSpace : MemorySpace := ⟨smallBounds, smallLimits, [], [], 1, 1, 1, 0⟩

theorem smallSpace_new : MemorySpace.new plenty smallBounds smallLimits = .ok smallSpace := rfl

theorem reachable_small {events : List Event} (run : runEvents World.step (World.start smallSpace) events = .ok w) :
    w.Reachable :=
  ⟨plenty, smallBounds, smallLimits, smallSpace, events, smallSpace_new, run⟩

/-- Writable private memory at a fixed page, with a guard page after it. -/
def privatePages (first count : Nat) (result : Option UserWriteLeaseRequest) : MapRequest :=
  ⟨count * pageSize, 0, pageSize, .fixedEmpty (first * pageSize), .readWrite, .readWrite, .addressSpace,
    .anonymous ⟨7, by decide⟩ .data, result⟩

def completeChange (request : Request) (permits : List WritePermit) : List Event :=
  [.validate plenty request, .reserve 0 plenty permits, .commit 0, .publish 0, .synchronize 0, .beginRetire 0,
    .popFragment 0, .popFragment 0, .popFragment 0, .popPermit 0, .popPermit 0, .popPermit 0,
    .finishRetire 0 0, .intoParts 0, .complete 0]

structure LedgerGuarantee (bounds : PageRange) (limits : Limits) (s : MemorySpace) : Prop where
  sorted : s.regions.Pairwise (fun x y => x.range.start < y.range.start)
  disjoint : s.regions.Pairwise (fun x y => x.range.overlaps y.range = false)
  shaped : ∀ r ∈ s.regions, r.range.start < r.range.end_ ∧ pageSize ∣ r.range.start ∧ pageSize ∣ r.range.end_
  contained : ∀ r ∈ s.regions, bounds.contains r.range = true
  keys : (s.regions.map Region.key).Nodup
  permitted : ∀ r ∈ s.regions, ∀ backing current maximum,
    r.kind = .mapping backing current maximum → maximum.permits current = true
  footprints : s.transactions.Pairwise (fun x y => x.footprint.overlaps y.footprint = false)
  leases : s.transactions.Pairwise (fun x y =>
    (∀ l, x.lease = some l → l.overlaps y.footprint.addressRange = false) ∧
    (∀ l, y.lease = some l → x.footprint.addressRange.overlaps l = false) ∧
    ∀ l l', x.lease = some l → y.lease = some l' → l.overlaps l' = false)
  growth : s.reservedGrowth = (s.transactions.map (·.reservedGrowth)).sum
  room : s.regions.length + s.reservedGrowth ≤ limits.maxRegions

theorem LedgerSound.guarantee {s : MemorySpace} (sound : LedgerSound s) : LedgerGuarantee s.bounds s.limits s := by
  have ascending := sound.ascending
  unfold Ascending at ascending
  rw [pairwise_map] at ascending
  constructor
  case sorted =>
    refine ascending.imp fun {x y} order => ?_
    have := x.range.start_lt_end
    rw [Region.tile_stop, Region.tile_start] at order
    omega
  case disjoint => exact ascending.imp fun order => PageRange.overlaps_false_iff.mpr (.inl order)
  case shaped => exact fun r _ => ⟨r.range.start_lt_end, r.range.start_aligned, r.range.end_aligned⟩
  case contained => exact fun r hr => PageRange.contains_iff.mpr (sound.within r hr)
  case keys => exact sound.keys
  case permitted =>
    intro r hr backing current maximum kind
    have lawful := sound.lawful r hr
    rw [kind] at lawful
    exact lawful
  case footprints =>
    refine sound.clear.imp fun clear => ?_
    simp only [TransactionRecord.Clear, TransactionRecord.conflictsWith, Bool.or_eq_false_iff] at clear
    exact clear.1.1
  case leases =>
    refine sound.clear.imp fun {x y} clear => ?_
    simp only [TransactionRecord.Clear, TransactionRecord.conflictsWith, Bool.or_eq_false_iff] at clear
    refine ⟨fun l pinned => ?_, fun l pinned => ?_, fun l l' pinned pinned' => ?_⟩
    · simpa [pinned] using clear.1.2
    · have := clear.2
      rw [pinned, Option.any_some, Bool.or_eq_false_iff] at this
      exact this.1
    · have := clear.2
      rw [pinned', Option.any_some, Bool.or_eq_false_iff, pinned, Option.any_some] at this
      exact this.2
  case growth => exact sound.growth
  case room => exact sound.room

theorem step_frame {event : Event} (h : w.step event = .ok next) :
    next.space.bounds = w.space.bounds ∧ next.space.limits = w.space.limits := by
  cases step_cases h with
  | reserved _ effect | committed _ effect =>
    obtain ⟨_, _, ledger⟩ := effect.ledger
    exact ⟨by rw [ledger], by rw [ledger]⟩
  | _ => exact ⟨rfl, rfl⟩

/-- Whatever the interleaving, a run without a panic leaves a well-formed ledger. -/
theorem ledger_well_formed {heap : Heap} {bounds : PageRange} {limits : Limits} {space : MemorySpace}
    {events : List Event} (made : MemorySpace.new heap bounds limits = .ok space)
    (run : runEvents World.step (World.start space) events = .ok w) : LedgerGuarantee bounds limits w.space := by
  have frame : w.space.bounds = space.bounds ∧ w.space.limits = space.limits :=
    run_invariant (I := fun w => w.space.bounds = space.bounds ∧ w.space.limits = space.limits)
      (fun _ _ _ same step => by
        obtain ⟨bounds, limits⟩ := step_frame step
        rw [bounds, limits]
        exact same) ⟨rfl, rfl⟩ run
  have sound := reachable_sound ⟨heap, bounds, limits, space, events, made, run⟩
  have given : space.bounds = bounds ∧ space.limits = limits := by
    rw [MemorySpace.new_ok made]
    exact ⟨rfl, rfl⟩
  rw [← given.1, ← given.2, ← frame.1, ← frame.2]
  exact sound.ledger.guarantee

/-- Two changes open at once: an unmap that splits a region, and a second map. -/
def twoChanges : List Event := completeChange (.map (privatePages 16 4 none)) [] ++ [
    .validate plenty (.unmap ⟨pageSpan 17 0, .addressSpace⟩), .reserve 0 plenty [],
    .validate plenty (.map (privatePages 32 2 none)), .reserve 0 plenty [], .commit 0]

theorem ledger_well_formed_twoChanges : ∃ w, runEvents World.step (World.start smallSpace) twoChanges = .ok w ∧
      w.space.regions.length = 3 ∧ w.space.transactions.length = 2 ∧
      LedgerGuarantee smallBounds smallLimits w.space := by
  obtain ⟨w, run, counts⟩ := returnsWith_ok (runEvents step (start smallSpace) twoChanges)
    (fun w => w.space.regions.length == 3 && w.space.transactions.length == 2) (by decide +kernel)
  rw [Bool.and_eq_true, beq_iff_eq, beq_iff_eq] at counts
  exact ⟨w, run, counts.1, counts.2, ledger_well_formed smallSpace_new run⟩

theorem Consecutive.holds {stop start : Nat} {segments : List UserWriteSegment}
    (h : Consecutive stop start segments) {a : Nat} (low : start ≤ a) (high : a < stop) :
    ∃ segment ∈ segments, segment.user.containsAddress a = true := by
  induction segments generalizing start with
  | nil =>
    have : start = stop := h
    omega
  | cons segment rest ih =>
    obtain ⟨_, rest⟩ := h
    by_cases here : a < segment.user.end_
    · exact ⟨segment, mem_cons_self, AddressRange.containsAddress_iff.mpr ⟨by omega, here⟩⟩
    · obtain ⟨other, member, has⟩ := ih rest (by omega)
      exact ⟨other, mem_cons_of_mem _ member, has⟩

/-- The region `r` still gives byte `a` the backing that the segment recorded, and may be written. -/
def Region.Backs (r : Region) (segment : UserWriteSegment) (a : Nat) : Prop :=
  r.range.start ≤ a ∧ a < r.range.end_ ∧ ∃ backing maximum, r.kind = .mapping backing .readWrite maximum ∧
    backing.withOffset (backing.offset + (a - r.range.start)) =
      segment.backing.withOffset (segment.backingOffset + (a - segment.user.start))

theorem backs_of_matches {segment : UserWriteSegment} {a : Nat} {m : PageMeaning}
    (covers : Covers (w.space.regions.map Region.tile) a m) (matched : segment.Matches a m) :
    ∃ r ∈ w.space.regions, r.Backs segment a := by
  obtain ⟨_, member, has, rfl⟩ := covers
  obtain ⟨r, hr, rfl⟩ := mem_map.mp member
  obtain ⟨_, kind⟩ := matched
  refine ⟨r, hr, has.1, has.2, ?_⟩
  simp only [Region.tile] at kind
  cases here : r.kind with
  | guard =>
    rw [here] at kind
    cases kind
  | mapping backing =>
    rw [here, RegionKind.shiftedBy, RegionKind.mapping.injEq] at kind
    obtain ⟨same, rfl, rfl⟩ := kind
    exact ⟨backing, _, rfl, same⟩

/-- As long as a Map with a result lease is reserved, its projection covers the lease in order, and live
writable regions back every byte of it as recorded. -/
theorem lease_stays_exact {q : MapRequest} {result : UserWriteLeaseRequest} {p : PreparedChange}
    (reachable : w.Reachable) (reserved : (Request.map q, p) ∈ w.prepared) (asked : q.result = some result) :
    ∃ lease, p.lease = some lease ∧ lease.range = result.range ∧
      Consecutive lease.range.end_ lease.range.start lease.projection ∧
      ∀ a, lease.range.containsAddress a = true → ∃ segment ∈ lease.projection,
        segment.user.containsAddress a = true ∧ ∃ r ∈ w.space.regions, r.Backs segment a := by
  obtain ⟨record, fresh, removed, prepared⟩ := (reachable_sound reachable).prepared _ reserved
  have given := prepared.asked q rfl
  rw [asked] at given
  obtain ⟨lease, pinned, same⟩ := Option.map_eq_some_iff.mp given
  obtain ⟨consecutive, backed⟩ := prepared.pinned lease pinned
  refine ⟨lease, pinned, same, consecutive, fun a has => ?_⟩
  rw [AddressRange.containsAddress_iff] at has
  obtain ⟨segment, member, inside⟩ := consecutive.holds has.1 has.2
  obtain ⟨m, covers, matched⟩ := backed segment member a inside
  exact ⟨segment, member, inside, backs_of_matches covers matched⟩

/-- A lease over the last two of four pages, while the first page of their region is unmapped. -/
def leaseBesideUnmap : List Event := completeChange (.map (privatePages 16 4 none)) [] ++ [
    .validate plenty (.map (privatePages 32 1 (some ⟨(pageSpan 18 1).addressRange⟩))), .reserve 0 plenty [],
    .validate plenty (.unmap ⟨pageSpan 16 0, .addressSpace⟩), .reserve 0 plenty [], .commit 1]

theorem lease_stays_exact_beside_unmap : ∃ w p, runEvents World.step (World.start smallSpace) leaseBesideUnmap = .ok w ∧
      (Request.map (privatePages 32 1 (some ⟨(pageSpan 18 1).addressRange⟩)), p) ∈ w.prepared ∧
      ∃ lease, p.lease = some lease ∧ lease.range = (pageSpan 18 1).addressRange ∧
        ∀ a, lease.range.containsAddress a = true → ∃ segment ∈ lease.projection,
          segment.user.containsAddress a = true ∧ ∃ r ∈ w.space.regions, r.Backs segment a := by
  obtain ⟨w, run, token⟩ := returnsWith_ok (runEvents step (start smallSpace) leaseBesideUnmap)
    (fun w => decide ((w.prepared.map Prod.fst) =
      [Request.map (privatePages 32 1 (some ⟨(pageSpan 18 1).addressRange⟩))])) (by decide +kernel)
  have token := of_decide_eq_true token
  obtain ⟨x, member, same⟩ := mem_map.mp (token ▸ mem_cons_self :
    Request.map (privatePages 32 1 (some ⟨(pageSpan 18 1).addressRange⟩)) ∈ w.prepared.map Prod.fst)
  obtain ⟨request, p⟩ := x
  cases same
  obtain ⟨lease, pinned, range, _, exact_⟩ := lease_stays_exact (reachable_small run) member rfl
  exact ⟨w, p, run, member, lease, pinned, range, exact_⟩

end

/-!
Write permits are linear: a permit given to `reserve` is in one place at a time, and a region holds one
exactly when it is a writable view of an object.
-/

section

variable {w next : World}

namespace World

def preparedPermits (w : World) : List WritePermit :=
  w.prepared.flatMap (fun x => x.2.permits ++ x.2.plan.replacements.filterMap Region.permit)

def regionPermits (w : World) : List WritePermit := w.space.regions.filterMap Region.permit

def stagedPermits (w : World) : List WritePermit := w.staged.flatMap (·.2.retiringPermits)

def batchPermits (w : World) : List WritePermit := w.batches.flatMap (·.permits)

def heldPermits (w : World) : List WritePermit := w.preparedPermits ++ w.regionPermits ++ w.stagedPermits ++ w.batchPermits

/-- Every supplied permit is held, was handed back, or was released. -/
def Balanced (w : World) : Prop := w.supplied.Perm (w.returned ++ w.heldPermits ++ w.released)

end World

theorem step_balanced {event : Event} (sound : w.Sound) (balanced : w.Balanced) (h : w.step event = .ok next) :
    next.Balanced := by
  simp only [World.Balanced, perm_iff_count, heldPermits, count_append] at balanced ⊢
  intro permit
  have before := balanced permit
  simp only [preparedPermits, regionPermits, stagedPermits, batchPermits] at before ⊢
  cases step_cases h with
  | stay | validated | discarded => exact before
  | refused permits =>
    simp only [count_append] at before ⊢
    omega
  | @reserved _ request v p space permits _ _ token effect =>
    have supplied := effect.supplied.count_eq permit
    obtain ⟨_, _, ledger⟩ := effect.ledger
    rw [ledger]
    simp only [flatMap_append, flatMap_cons, flatMap_nil, count_append, count_nil]
      at before supplied ⊢
    omega
  | rolledBack token transactions key stage | parted token =>
    rw [token] at before
    simp only [flatMap_append, flatMap_cons, count_append] at before ⊢
    omega
  | @committed request p _ _ space payload removed kept _ _ _ token effect =>
    -- the permits of the removed regions move into the payload, those of the replacements into the ledger
    obtain ⟨_, prepared⟩ := effect.prepared request sound (by simp [token])
    have old := (effect.regions.filterMap Region.permit).count_eq permit
    have new := (effect.regions_new.filterMap Region.permit).count_eq permit
    have payloadPermits : payload.retiringPermits = removed.filterMap Region.permit := by
      rw [effect.payload, prepared.permitless, nil_append]
    rw [token] at before
    simp only [flatMap_append, flatMap_cons, flatMap_nil, filterMap_append, count_append,
      count_nil, payloadPermits, prepared.spent] at before old new ⊢
    omega
  | advanced token _ transactions key stage =>
    rw [token] at before
    simp only [flatMap_append, flatMap_cons] at before ⊢
    exact before
  | began token transactions key stage =>
    rw [token] at before
    simp only [flatMap_append, flatMap_cons, flatMap_nil, count_append, count_nil]
      at before ⊢
    omega
  | popped token same =>
    rw [token] at before
    simp only [flatMap_append, flatMap_cons, count_append, same] at before ⊢
    omega
  | @completed payload _ _ _ _ _ token transactions key stage =>
    have none : payload.retiringPermits = [] := sound.emptied (.retired, payload) (by simp [token]) (.inr rfl)
    rw [token] at before
    simp only [flatMap_append, flatMap_cons, count_append, none, count_nil] at before ⊢
    omega
  | @drained rest r idle regions =>
    rw [regions, filterMap_append] at before
    have last : [r].filterMap Region.permit = r.permit.toList := by
      cases permit : r.permit <;> simp [permit]
    simp only [count_append, last] at before ⊢
    omega

theorem start_balanced {heap : Heap} {bounds : PageRange} {limits : Limits} {space : MemorySpace}
    (made : MemorySpace.new heap bounds limits = .ok space) : (World.start space).Balanced := by
  rw [MemorySpace.new_ok made]
  exact List.Perm.nil

theorem reachable_balanced (reachable : w.Reachable) : w.Balanced := by
  obtain ⟨_, _, _, _, _, made, run⟩ := reachable
  exact (run_invariant (I := fun w : World => w.Sound ∧ w.Balanced)
    (fun _ _ _ inv step => ⟨step_sound inv.1 step, step_balanced inv.1 inv.2 step⟩)
    ⟨start_sound made, start_balanced made⟩ run).2

theorem writableObject_eq_some {kind : RegionKind} {o : ObjectId} :
    kind.writableObject = some o ↔ ∃ offset maximum, kind = .mapping (.object o offset) .readWrite maximum := by
  unfold RegionKind.writableObject
  split
  · simp [eq_comm]
  · rename_i other
    constructor
    · rintro ⟨⟩
    · rintro ⟨offset, maximum, rfl⟩
      exact (other _ _ _ rfl).elim

/-- A live region holds a permit exactly when it is a writable view, of the object the permit names; and the
permits supplied so far are, each once, handed back, held by a token, a region or a batch, or released. -/
theorem permits_linear (reachable : w.Reachable) : (∀ r ∈ w.space.regions, ∀ permit, r.permit = some permit ↔
      ∃ offset maximum, r.kind = .mapping (.object permit.object offset) .readWrite maximum) ∧
    w.supplied.Perm (w.returned ++ (w.preparedPermits ++ w.regionPermits ++ w.stagedPermits ++ w.batchPermits) ++
      w.released) := by
  refine ⟨fun r member permit => ?_, reachable_balanced reachable⟩
  rw [(reachable_sound reachable).ledger.permitted r member, ← writableObject_eq_some]
  cases r.kind.writableObject with
  | none => simp
  | some o =>
    cases permit
    simp

/-- A writable view of an object, one page of which is then made read-only. -/
def sharedPages (first count : Nat) (current : Protection) : MapRequest :=
  ⟨count * pageSize, 0, 0, .fixedEmpty (first * pageSize), current, .readWrite, .addressSpace,
    .object ⟨⟨3, by decide⟩, .readWrite, 8 * pageSize⟩ 0, none⟩

def sharedPermit : WritePermit := ⟨⟨3, by decide⟩⟩

def shrinkShared : List Event := completeChange (.map (sharedPages 16 4 .readWrite)) [sharedPermit] ++ [
    .validate plenty (.protect ⟨pageSpan 17 0, .readOnly, .addressSpace⟩),
    .reserve 0 plenty [sharedPermit, sharedPermit], .commit 0]

theorem permits_linear_shrinkShared : ∃ w, runEvents World.step (World.start smallSpace) shrinkShared = .ok w ∧
      w.supplied.length = 3 ∧ w.regionPermits.length = 2 ∧ w.stagedPermits.length = 1 ∧
      w.supplied.Perm (w.returned ++ (w.preparedPermits ++ w.regionPermits ++ w.stagedPermits ++ w.batchPermits) ++
        w.released) := by
  obtain ⟨w, run, test⟩ := returnsWith_ok (runEvents step (start smallSpace) shrinkShared)
    (fun w => w.supplied.length == 3 && w.regionPermits.length == 2 && w.stagedPermits.length == 1)
    (by decide +kernel)
  rw [Bool.and_eq_true, Bool.and_eq_true, beq_iff_eq, beq_iff_eq, beq_iff_eq] at test
  exact ⟨w, run, test.1.1, test.1.2, test.2, (permits_linear (reachable_small run)).2⟩

end

end Halcyon.Space
