import Mathlib.Algebra.BigOperators.Group.List.Basic
import Halcyon.Space.Machine

/-!
The object deltas of a reservation: for each object, how many fragments retire and how many regions
replace them.
-/

namespace Halcyon.Space

open List

section

/-- The entry of an object in `object_region_deltas()`, zero when there is none. -/
def deltaFor (deltas : List ObjectRegionDelta) (o : ObjectId) : ObjectRegionDelta :=
  (deltas.find? (·.object == o)).getD ⟨o, 0, 0⟩

def totalFor (field : ObjectRegionDelta → Nat) (o : ObjectId) (deltas : List ObjectRegionDelta) : Nat :=
  ((deltas.filter (·.object == o)).map field).sum

variable {field : ObjectRegionDelta → Nat} {o : ObjectId} {deltas others : List ObjectRegionDelta}

theorem ObjectId.ext_value {x y : ObjectId} (h : x.value = y.value) : x = y := by
  cases x
  cases y
  cases h
  rfl

theorem totalFor_cons (delta : ObjectRegionDelta) :
    totalFor field o (delta :: deltas) = (if delta.object = o then field delta else 0) + totalFor field o deltas := by
  unfold totalFor
  by_cases same : delta.object = o
  · simp [same]
  · simp [same]

theorem totalFor_append : totalFor field o (deltas ++ others) = totalFor field o deltas + totalFor field o others := by
  simp [totalFor]

theorem totalFor_perm (perm : deltas.Perm others) : totalFor field o deltas = totalFor field o others :=
  ((perm.filter _).map field).sum_eq

theorem totalFor_absent (absent : ∀ delta ∈ deltas, delta.object ≠ o) : totalFor field o deltas = 0 := by
  have none : deltas.filter (·.object == o) = [] := by simpa using absent
  simp [totalFor, none]

theorem mergeDeltas_total (previous : ObjectRegionDelta) {rest : List ObjectRegionDelta}
    (sorted : (previous :: rest).Pairwise (fun x y => x.object.value ≤ y.object.value)) :
    deltaFor (mergeDeltas previous rest) o =
      ⟨o, totalFor (·.retiring) o (previous :: rest), totalFor (·.replacement) o (previous :: rest)⟩ := by
  induction rest generalizing previous with
  | nil =>
    by_cases same : previous.object = o
    · subst same
      simp [mergeDeltas, deltaFor, totalFor]
    · simp [mergeDeltas, deltaFor, totalFor, same]
  | cons delta rest ih =>
    obtain ⟨fromHead, tail⟩ := pairwise_cons.mp sorted
    obtain ⟨fromNext, later⟩ := pairwise_cons.mp tail
    rw [mergeDeltas]
    split
    · rename_i same
      rw [beq_iff_eq] at same
      rw [ih ⟨previous.object, previous.retiring + delta.retiring, previous.replacement + delta.replacement⟩
        (pairwise_cons.mpr ⟨fun x hx => fromHead x (mem_cons_of_mem _ hx), later⟩)]
      simp only [totalFor_cons, same]
      split <;> simp [Nat.add_assoc]
    · rename_i different
      rw [beq_iff_eq] at different
      by_cases same : previous.object = o
      · -- the objects after a new one are larger, so the entry of this one is finished
        have absent : ∀ x ∈ delta :: rest, x.object ≠ o := by
          intro x hx equal
          have low := fromHead delta mem_cons_self
          have high : delta.object.value ≤ x.object.value := by
            rcases mem_cons.mp hx with rfl | hx
            · exact Nat.le_refl _
            · exact fromNext x hx
          rw [equal, ← same] at high
          exact different (ObjectId.ext_value (Nat.le_antisymm low high))
        rw [totalFor_cons previous, totalFor_cons previous, totalFor_absent absent, totalFor_absent absent]
        subst same
        simp [deltaFor]
      · have skip : deltaFor (previous :: mergeDeltas delta rest) o = deltaFor (mergeDeltas delta rest) o := by
          simp [deltaFor, same]
        rw [skip, ih delta tail, totalFor_cons previous, totalFor_cons previous]
        simp [same]

theorem mergeDeltas_ascending {previous : ObjectRegionDelta} {rest : List ObjectRegionDelta}
    (sorted : (previous :: rest).Pairwise (fun x y => x.object.value ≤ y.object.value)) :
    (mergeDeltas previous rest).Pairwise (fun x y => x.object.value < y.object.value) ∧
      ∀ x ∈ mergeDeltas previous rest, previous.object.value ≤ x.object.value := by
  induction rest generalizing previous with
  | nil => simp [mergeDeltas]
  | cons delta rest ih =>
    obtain ⟨fromHead, tail⟩ := pairwise_cons.mp sorted
    rw [mergeDeltas]
    split
    · exact ih (pairwise_cons.mpr ⟨fun x hx => fromHead x (mem_cons_of_mem _ hx), (pairwise_cons.mp tail).2⟩)
    · rename_i different
      rw [beq_iff_eq] at different
      obtain ⟨ascending, low⟩ := ih tail
      have order := fromHead delta mem_cons_self
      have strict : previous.object.value ≠ delta.object.value := fun same => different (ObjectId.ext_value same)
      refine ⟨pairwise_cons.mpr ⟨fun x hx => ?_, ascending⟩, fun x hx => ?_⟩
      · have := low x hx
        omega
      · rcases mem_cons.mp hx with rfl | hx
        · exact Nat.le_refl _
        · have := low x hx
          omega

theorem totalFor_pushed {α : Type} (kind : α → RegionKind) {entry : ObjectId → ObjectRegionDelta}
    (named : ∀ o, (entry o).object = o) (xs : List α) :
    totalFor field o (xs.filterMap (fun x => (kind x).object?.map entry)) =
      xs.countP (fun x => (kind x).object? == some o) * field (entry o) := by
  induction xs with
  | nil => simp [totalFor]
  | cons x _ ih =>
    cases object : (kind x).object? with
    | none => simp [object, ih]
    | some other =>
      rw [filterMap_cons_some (by rw [object]; rfl), totalFor_cons, ih, named]
      by_cases same : other = o
      · subst same
        simp [object, Nat.add_mul, Nat.add_comm]
      · simp [object, same]

theorem objectRegionDeltas_entry {replacements : List RegionTemplate} {retiring : List RetireTemplate} :
    deltaFor (objectRegionDeltas replacements retiring) o = ⟨o, retiring.countP (fun t => t.kind.object? == some o),
        replacements.countP (fun t => t.kind.object? == some o)⟩ := by
  have totals : ∀ field : ObjectRegionDelta → Nat, totalFor field o (sortByKey (fun d => d.object.value)
      (replacements.filterMap (fun t => t.kind.object?.map (fun object => ⟨object, 0, 1⟩)) ++
        retiring.filterMap (fun t => t.kind.object?.map (fun object => ⟨object, 1, 0⟩)))) =
      replacements.countP (fun t => t.kind.object? == some o) * field ⟨o, 0, 1⟩ +
        retiring.countP (fun t => t.kind.object? == some o) * field ⟨o, 1, 0⟩ := by
    intro field
    rw [totalFor_perm (sortByKey_perm _ _), totalFor_append, totalFor_pushed RegionTemplate.kind (fun _ => rfl),
      totalFor_pushed RetireTemplate.kind (fun _ => rfl)]
  have retiringTotal := totals (·.retiring)
  have replacementTotal := totals (·.replacement)
  simp only [Nat.mul_zero, Nat.mul_one, Nat.zero_add, Nat.add_zero] at retiringTotal replacementTotal
  rw [← retiringTotal, ← replacementTotal]
  unfold objectRegionDeltas
  dsimp only
  split
  · rename_i empty
    rw [empty]
    rfl
  · rename_i first rest list
    rw [list]
    refine mergeDeltas_total first ?_
    rw [← list]
    exact sortByKey_sorted _ _

theorem objectRegionDeltas_nodup {replacements : List RegionTemplate} {retiring : List RetireTemplate} :
    ((objectRegionDeltas replacements retiring).map (·.object)).Nodup := by
  unfold objectRegionDeltas
  dsimp only
  split
  · exact nodup_nil
  · rename_i first rest list
    have sorted : (first :: rest).Pairwise fun x y => x.object.value ≤ y.object.value := by
      rw [← list]
      exact sortByKey_sorted _ _
    rw [List.Nodup, pairwise_map]
    refine (mergeDeltas_ascending sorted).1.imp fun less same => ?_
    rw [same] at less
    exact Nat.lt_irrefl _ less

end

/-!
The invariant of an address space under concurrent changes. Keys are never used twice (`Known`), no two records hold the same
bytes, and the record of a token stays until the token is used.
-/

section

/-- Whatever live or pending region has the key of `r` is `r` itself. -/
structure Known (w : World) (r : Region) : Prop where
  below : r.key.value < w.space.nextRegion
  same : ∀ q ∈ w.space.regions ++ w.pending, q.key = r.key → q = r

def ValidatedSound (w : World) (request : Request) (v : ValidatedChange) : Prop :=
  ∃ seen removed, Planned w.space.bounds request seen removed v ∧ ∀ r ∈ seen, Known w r

/-- The byte `a` of a segment is writable, with the backing the segment recorded. -/
def UserWriteSegment.Matches (segment : UserWriteSegment) (a : Nat) (m : PageMeaning) : Prop := ∃ maximum, m.kind = .mapping
    (segment.backing.withOffset (segment.backingOffset + (a - segment.user.start))) .readWrite maximum

structure PreparedSound (w : World) (request : Request) (p : PreparedChange) (record : TransactionRecord)
    (fresh : AllocationKey) (removed : List Region) : Prop where
  live : record ∈ w.space.transactions
  key : record.key = p.key
  stage : record.stage = .reserved
  lease : record.lease = p.lease.map (·.range)
  asked : ∀ q, request = .map q → p.lease.map (·.range) = q.result.map (·.range)
  remove : p.plan.remove = removed.map Region.key
  known : ∀ r ∈ removed, Known w r
  distinct : (removed.map Region.key).Nodup
  edit : request.Edit p.plan.resultLayout record.footprint fresh (removed.map Region.tile)
    (p.plan.replacements.map Region.tile)
  apart : (p.plan.replacements.map Region.tile).Pairwise Tile.Apart
  within : ∀ r ∈ p.plan.replacements, w.space.bounds.start ≤ r.range.start ∧ r.range.end_ ≤ w.space.bounds.end_
  lawful : ∀ r ∈ p.plan.replacements, r.kind.Lawful
  permitted : ∀ r ∈ p.plan.replacements, r.permit = r.kind.writableObject.map WritePermit.mk
  growth : p.plan.replacements.length ≤ removed.length + record.reservedGrowth
  spent : p.permits = []
  permitless : p.plan.retiringPermits = []
  granted : ∀ r ∈ p.plan.replacements, ∀ view, r.kind.view = some view → request.Grants removed view
  retired : p.plan.retiring.map (·.kind.object?) = (removed.take p.plan.retiring.length).map (·.kind.object?)
  deltas : ∀ o, deltaFor p.plan.objectRegionDeltas o = ⟨o, p.plan.retiring.countP (fun t => t.kind.object? == some o),
      p.plan.replacements.countP (fun r => r.kind.object? == some o)⟩
  deltaObjects : (p.plan.objectRegionDeltas.map (·.object)).Nodup
  free : p.plan.resultLayout.isSome → ∀ r ∈ w.space.regions, ∀ a, r.tile.Has a → ¬record.footprint.Has a
  idle : ∀ q, request = .protect q → removed = [] → ∀ a, q.range.Has a →
    ∃ m, Covers (w.space.regions.map Region.tile) a m ∧ m.protect q.protection = m
  pinned : ∀ lease, p.lease = some lease → Consecutive lease.range.end_ lease.range.start lease.projection ∧
    ∀ segment ∈ lease.projection, ∀ a, segment.user.containsAddress a = true →
      ∃ m, Covers (w.space.regions.map Region.tile) a m ∧ segment.Matches a m

structure World.Sound (w : World) : Prop where
  ledger : LedgerSound w.space
  regionKeys : ((w.space.regions ++ w.pending).map Region.key).Nodup
  regionsBelow : ∀ r ∈ w.space.regions ++ w.pending, r.key.value < w.space.nextRegion
  changeKeys : (w.space.transactions.map (·.key)).Nodup
  changesBelow : ∀ record ∈ w.space.transactions, record.key.value < w.space.nextChange
  tokens : (w.space.transactions.map (fun record => (record.key, record.stage))).Perm
    (w.prepared.map (fun x => (x.2.key, ChangeStage.reserved)) ++ w.staged.map (fun x => (x.2.key, x.1)))
  settled : ∀ record ∈ w.space.transactions, record.stage ≠ .reserved → record.reservedGrowth = 0
  validated : ∀ x ∈ w.validated, ValidatedSound w x.1 x.2
  prepared : ∀ x ∈ w.prepared, ∃ record fresh removed, PreparedSound w x.1 x.2 record fresh removed
  emptied : ∀ x ∈ w.staged, x.1 = .retiring ∨ x.1 = .retired → x.2.retiringPermits = []

/-- Keys are never used twice: a region of the later world is an old one or has a fresh key. -/
structure Follows (w next : World) : Prop where
  bounds : next.space.bounds = w.space.bounds
  nextRegion : w.space.nextRegion ≤ next.space.nextRegion
  regions : ∀ q ∈ next.space.regions ++ next.pending, q ∈ w.space.regions ++ w.pending ∨ w.space.nextRegion ≤ q.key.value

variable {w next : World} {request : Request} {p : PreparedChange} {record : TransactionRecord}
  {fresh : AllocationKey} {removed : List Region}

theorem Known.follows {r : Region} (known : Known w r) (follows : Follows w next) : Known next r := by
  refine ⟨Nat.lt_of_lt_of_le known.below follows.nextRegion, fun q member same => ?_⟩
  rcases follows.regions q member with old | fresh
  · exact known.same q old same
  · have := known.below
    rw [same] at fresh
    omega

theorem ValidatedSound.follows {v : ValidatedChange} (h : ValidatedSound w request v)
    (follows : Follows w next) : ValidatedSound next request v := by
  obtain ⟨seen, removed, planned, known⟩ := h
  exact ⟨seen, removed, follows.bounds ▸ planned, fun r hr => (known r hr).follows follows⟩

theorem Consecutive.bounds {stop start : Nat} {segments : List UserWriteSegment} (h : Consecutive stop start segments) :
    start ≤ stop ∧ ∀ segment ∈ segments, start ≤ segment.user.start ∧ segment.user.end_ ≤ stop := by
  induction segments generalizing start with
  | nil => exact ⟨Nat.le_of_eq h, by simp⟩
  | cons segment rest ih =>
    obtain ⟨_, rest⟩ := h
    obtain ⟨_, inside⟩ := ih rest
    have nonempty := segment.user.start_lt_end
    refine ⟨by omega, fun s member => ?_⟩
    rcases mem_cons.mp member with rfl | member
    · omega
    · have := inside s member
      omega

section

variable (h : PreparedSound w request p record fresh removed)
include h

theorem PreparedSound.holds_range {q : ProtectRequest}
    (protect : request = .protect q) {a : Nat} (has : q.range.Has a) : record.Holds a := by
  have edit := h.edit
  subst protect
  exact .inl (edit.2.1 a has)

theorem PreparedSound.holds_lease {lease : UserWriteLease}
    (pinned : p.lease = some lease) {segment : UserWriteSegment} (member : segment ∈ lease.projection) {a : Nat}
    (has : segment.user.containsAddress a = true) : record.Holds a := by
  refine .inr ⟨lease.range, by rw [h.lease, pinned]; rfl, ?_⟩
  have inside := (h.pinned lease pinned).1.bounds.2 segment member
  rw [AddressRange.containsAddress_iff] at has ⊢
  omega

theorem PreparedSound.follows (follows : Follows w next) (live : record ∈ next.space.transactions)
    (same : ∀ a, record.Holds a → ∀ m, Covers (w.space.regions.map Region.tile) a m ↔
      Covers (next.space.regions.map Region.tile) a m) : PreparedSound next request p record fresh removed :=
  { h with
    live := live
    known := fun r hr => (h.known r hr).follows follows
    within := fun r hr => by
      rw [follows.bounds]
      exact h.within r hr
    free := fun layout r hr a has held => by
      have covers : Covers (next.space.regions.map Region.tile) a _ := ⟨r.tile, mem_map_of_mem hr, has, rfl⟩
      obtain ⟨_, member, has', _⟩ := (same a (.inl held) _).mpr covers
      obtain ⟨r', hr', rfl⟩ := mem_map.mp member
      exact h.free layout r' hr' a has' held
    idle := fun q protect none a has => by
      obtain ⟨m, covers, idle⟩ := h.idle q protect none a has
      exact ⟨m, (same a (h.holds_range protect has) m).mp covers, idle⟩
    pinned := fun lease pinned => by
      refine ⟨(h.pinned lease pinned).1, fun segment member a has => ?_⟩
      obtain ⟨m, covers, holds⟩ := (h.pinned lease pinned).2 segment member a has
      exact ⟨m, (same a (h.holds_lease pinned member has) m).mp covers, holds⟩ }

end

theorem eq_of_key (sound : w.Sound) {x y : TransactionRecord} (hx : x ∈ w.space.transactions)
    (hy : y ∈ w.space.transactions) (same : x.key = y.key) : x = y :=
  inj_on_of_nodup_map sound.changeKeys hx hy same

theorem World.Sound.token_keys (sound : w.Sound) : (w.prepared.map (·.2.key) ++ w.staged.map (·.2.key)).Nodup := by
  have keys := sound.changeKeys
  have perm := sound.tokens.map Prod.fst
  simp only [map_map, map_append] at perm
  exact (perm.nodup_iff).mp keys

variable {pre post : List TransactionRecord}

theorem mem_of_other {used other : TransactionRecord}
    (transactions : w.space.transactions = pre ++ used :: post) (member : other ∈ w.space.transactions)
    (different : other.key ≠ used.key) : other ∈ pre ++ post := by
  rw [transactions] at member
  rcases mem_cons.mp (perm_middle.mem_iff.mp member) with rfl | member
  · exact (different rfl).elim
  · exact member

theorem mem_replaced {α : Type} {pre post : List α} {other replaced : α} (member : other ∈ pre ++ post) :
    other ∈ pre ++ replaced :: post :=
  ((sublist_cons_self replaced post).append_left pre).mem member

theorem tokens_erase {used : TransactionRecord} {before after : List (ChangeKey × ChangeStage)}
    {transactions : List TransactionRecord} (split : transactions = pre ++ used :: post)
    (tokens : (transactions.map (fun record => (record.key, record.stage))).Perm
      (before ++ (used.key, used.stage) :: after)) :
    ((pre ++ post).map (fun record => (record.key, record.stage))).Perm (before ++ after) := by
  rw [split, map_append, map_cons] at tokens
  rw [map_append]
  exact List.Perm.cons_inv (perm_middle.symm.trans (tokens.trans perm_middle))

end

end Halcyon.Space
