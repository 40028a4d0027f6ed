import Halcyon.Space.Cuts

/-!
What the scans of the planner return: the regions that cover a range, the segments of a lease, the
neighbors of a protected range and the permits a plan asks for.
-/

namespace Halcyon.Space

open Region MemorySpace List

variable {heap : Heap}

theorem coveredFrom_ok {range : PageRange} {authority : RegionOwner} {mappingsOnly : Bool}
    {index cursor : Nat} {indices out : List Nat} {rest : List Region}
    (h : MemorySpace.coveredFrom heap range authority mappingsOnly index cursor indices rest = .ok out)
    (ascending : Ascending (rest.map Region.tile)) (low : range.start ≤ cursor) (high : cursor < range.end_) :
    ∃ pre covered post, rest = pre ++ covered ++ post ∧ out = indices ++ List.range' (index + pre.length) covered.length ∧
      ((∀ r ∈ rest, cursor ≤ r.range.start) → pre = []) ∧ covered ≠ [] ∧
      (∀ a, cursor ≤ a → a < range.end_ → ∃ r ∈ covered, r.tile.Has a) ∧
      ∀ r ∈ covered, r.owner = authority ∧ (mappingsOnly = true → r.kind.isMapping = true) := by
  induction rest generalizing index cursor indices out with
  | nil => exact (fail_ne_ok h).elim
  | cons region rest ih =>
    rw [map_cons, Ascending, pairwise_cons] at ascending
    obtain ⟨fromHead, ascending⟩ := ascending
    have nonempty := region.range.start_lt_end
    rw [coveredFrom] at h
    split at h
    · rename_i before
      obtain ⟨pre, covered, post, split, indices, _, found, holds, each⟩ := ih h ascending low high
      refine ⟨region :: pre, covered, post, by rw [split]; rfl, ?_, ?_, found, holds, each⟩
      · rw [indices, length_cons, Nat.add_right_comm, Nat.add_assoc]
      · intro later
        have := later region mem_cons_self
        omega
    split at h
    · exact (fail_ne_ok h).elim
    rename_i after begun
    split at h
    · -- a region that holds the cursor overlaps the range, so the scan never skips one here
      rename_i apart
      rw [Bool.not_eq_true', PageRange.overlaps_false_iff] at apart
      omega
    split at h
    · exact (fail_ne_ok h).elim
    rename_i owner
    split at h
    · exact (fail_ne_ok h).elim
    rename_i mapping
    obtain ⟨_, _, h⟩ := bind_ok h
    have owned : region.owner = authority := by simpa using owner
    have mapped : mappingsOnly = true → region.kind.isMapping = true := by simpa using mapping
    dsimp only at h
    split at h
    · rename_i finished
      rw [beq_iff_eq] at finished
      refine ⟨[], [region], rest, rfl, ?_, fun _ => rfl, by simp, ?_, ?_⟩
      · rw [pure_ok h]
        rfl
      · exact fun a _ _ => ⟨region, mem_cons_self, by rw [tile_start]; omega, by rw [tile_stop]; omega⟩
      · simpa using ⟨owned, mapped⟩
    · rename_i unfinished
      rw [beq_iff_eq] at unfinished
      have order : ∀ r ∈ rest, min region.range.end_ range.end_ ≤ r.range.start := by
        intro r member
        have := fromHead r.tile (mem_map_of_mem member)
        rw [tile_stop, tile_start] at this
        omega
      obtain ⟨pre, covered, post, split, indices, next, _, holds, each⟩ := ih h ascending (by omega) (by omega)
      obtain rfl := next order
      refine ⟨[], region :: covered, post, by rw [split]; rfl, ?_, fun _ => rfl, by simp, ?_, ?_⟩
      · rw [indices, length_cons, List.range'_succ, append_assoc]
        rfl
      · intro a from_ to_
        by_cases here : a < region.range.end_
        · exact ⟨region, mem_cons_self, by rw [tile_start]; omega, here⟩
        · obtain ⟨r, member, has⟩ := holds a (by omega) to_
          exact ⟨r, mem_cons_of_mem _ member, has⟩
      · intro r member
        rcases mem_cons.mp member with rfl | member
        · exact ⟨owned, mapped⟩
        · exact each r member

theorem regionsAt_ok {s : MemorySpace} (pre : List Region) {covered post out : List Region}
    (split : s.regions = pre ++ covered ++ post)
    (h : (List.range' pre.length covered.length).mapM s.regionAt = .ok out) : out = covered := by
  have read := mapM_ok h
  clear h
  induction covered generalizing pre out with
  | nil =>
    cases read
    rfl
  | cons region covered ih =>
    rw [length_cons, List.range'_succ] at read
    obtain ⟨first, out, found, tail, rfl⟩ := List.forall₂_cons_left_iff.mp read
    have here : s.regions[pre.length]? = some region := by simp [split]
    have same := expect_ok found
    rw [here, Option.some.injEq] at same
    have rest : out = covered := ih (pre ++ [region]) (by simp [split]) (by simpa using tail)
    rw [same, rest]

structure Coverage (s : MemorySpace) (range : PageRange) (pre covered post : List Region) : Prop where
  regions : s.regions = pre ++ covered ++ post
  found : covered ≠ []
  whole : ∀ a, range.Has a → ∃ r ∈ covered, r.tile.Has a

theorem coveredIndices_ok {s : MemorySpace} {range : PageRange} {authority : RegionOwner}
    {mappingsOnly : Bool} {indices : List Nat} {out : List Region}
    (h : s.coveredIndices heap range authority mappingsOnly = .ok indices)
    (read : indices.mapM s.regionAt = .ok out) (ascending : Ascending (s.regions.map Region.tile)) :
    ∃ pre post, Coverage s range pre out post ∧ indices = List.range' pre.length out.length ∧
      ∀ r ∈ out, r.owner = authority ∧ (mappingsOnly = true → r.kind.isMapping = true) := by
  obtain ⟨pre, covered, post, split, same, _, found, whole, each⟩ :=
    coveredFrom_ok h ascending (Nat.le_refl _) range.start_lt_end
  rw [nil_append, Nat.zero_add] at same
  subst same
  obtain rfl := regionsAt_ok pre split read
  exact ⟨pre, post, ⟨split, found, fun a has => whole a has.1 has.2⟩, rfl, each⟩

section
variable {s : MemorySpace} {replacements : List RegionTemplate}

theorem leftNeighbor_ok {pre rest : List Region} {left : Option Region} (split : s.regions = pre ++ rest)
    (h : s.leftNeighbor pre.length replacements = .ok left) : ∃ pre', pre = pre' ++ left.toList := by
  unfold leftNeighbor at h
  split at h
  · rename_i positive
    obtain ⟨neighbor, read, h⟩ := bind_ok h
    have found := expect_ok read
    rw [split, getElem?_append_left (by omega), ← getLast?_eq_getElem?] at found
    obtain ⟨pre', before⟩ := getLast?_eq_some_iff.mp found
    split at h
    · obtain ⟨edge, _, h⟩ := bind_ok h
      rw [pure_ok h]
      split
      · exact ⟨pre', before⟩
      · exact ⟨_, (append_nil _).symm⟩
    · rw [pure_ok h]
      exact ⟨_, (append_nil _).symm⟩
  · rw [pure_ok h]
    exact ⟨_, (append_nil _).symm⟩

theorem rightNeighbor_ok {pre post : List Region} {last : Nat} {right : Option Region}
    (split : s.regions = pre ++ post) (position : last + 1 = pre.length)
    (h : s.rightNeighbor last replacements = .ok right) : ∃ post', post = right.toList ++ post' := by
  unfold rightNeighbor at h
  split at h
  · obtain ⟨neighbor, read, h⟩ := bind_ok h
    have found := expect_ok read
    rw [split, position, getElem?_append_right (Nat.le_refl _), Nat.sub_self, ← head?_eq_getElem?] at found
    obtain ⟨post', after⟩ := head?_eq_some_iff.mp found
    split at h
    · obtain ⟨edge, _, h⟩ := bind_ok h
      rw [pure_ok h]
      split
      · exact ⟨post', after⟩
      · exact ⟨_, rfl⟩
    · rw [pure_ok h]
      exact ⟨_, rfl⟩
  · rw [pure_ok h]
    exact ⟨_, rfl⟩

theorem absorbNeighbors_ok {pre covered post neighbors : List Region} {templates : List RegionTemplate}
    (split : s.regions = pre ++ covered ++ post) (found : covered ≠ [])
    (h : s.absorbNeighbors (List.range' pre.length covered.length) replacements = .ok (neighbors, templates)) :
    ∃ left right pre' post' leftTemplates rightTemplates, neighbors = Option.toList left ++ Option.toList right ∧
      pre = pre' ++ Option.toList left ∧ post = Option.toList right ++ post' ∧
      MemorySpace.neighborTemplates left = .ok leftTemplates ∧
      MemorySpace.neighborTemplates right = .ok rightTemplates ∧
      templates = replacements ++ leftTemplates ++ rightTemplates := by
  obtain ⟨first, headRead, h⟩ := bind_ok h
  obtain ⟨last, lastRead, h⟩ := bind_ok h
  obtain ⟨left, leftRead, h⟩ := bind_ok h
  obtain ⟨leftTemplates, leftMade, h⟩ := bind_ok h
  obtain ⟨right, rightRead, h⟩ := bind_ok h
  obtain ⟨rightTemplates, rightMade, h⟩ := bind_ok h
  have positive := length_pos_of_ne_nil found
  have firstIs : pre.length = first := by
    have firstIs := expect_ok headRead
    rwa [head?_range', if_neg (by omega), Option.some.injEq] at firstIs
  have lastIs : last + 1 = (pre ++ covered).length := by
    have lastIs := expect_ok lastRead
    rw [getLast?_range', if_neg (by omega), Option.some.injEq] at lastIs
    rw [length_append]
    omega
  obtain ⟨pre', before⟩ := leftNeighbor_ok (by rw [split, append_assoc]) (firstIs ▸ leftRead)
  obtain ⟨post', after⟩ := rightNeighbor_ok split lastIs rightRead
  have same := pure_ok h
  rw [Prod.mk.injEq] at same
  exact ⟨left, right, pre', post', leftTemplates, rightTemplates, same.1, before, after, leftMade, rightMade, same.2⟩

end

/-- `host` is the writable region that a segment of a lease was read from. -/
structure Hosts (host : Region) (segment : UserWriteSegment) : Prop where
  key : host.key = segment.region
  writable : ∃ maximum, host.kind = .mapping segment.backing .readWrite maximum
  from_ : host.range.start ≤ segment.user.start
  to_ : segment.user.end_ ≤ host.range.end_
  offset : segment.backingOffset = segment.backing.offset + (segment.user.start - host.range.start)

def Consecutive (stop : Nat) : Nat → List UserWriteSegment → Prop
  | start, [] => start = stop
  | start, segment :: rest => segment.user.start = start ∧ Consecutive stop segment.user.end_ rest

theorem leaseFrom_ok {limit cursor : Nat} {range : AddressRange}
    {segments out : List UserWriteSegment} {keys outKeys : List RegionKey} {rest : List Region}
    (h : MemorySpace.leaseFrom heap limit range cursor segments keys rest = .ok (out, outKeys)) :
    ∃ more hosts, out = segments ++ more ∧ outKeys = keys ++ hosts.map Region.key ∧
      List.Forall₂ Hosts hosts more ∧ Consecutive range.end_ cursor more ∧ ∀ host ∈ hosts, host ∈ rest := by
  induction rest generalizing cursor segments keys with
  | nil => exact (fail_ne_ok h).elim
  | cons region rest ih =>
    rw [leaseFrom] at h
    split at h
    · obtain ⟨more, hosts, same, sameKeys, hosted, follows, member⟩ := ih h
      exact ⟨more, hosts, same, sameKeys, hosted, follows, fun host hh => mem_cons_of_mem _ (member host hh)⟩
    split at h
    · exact (fail_ne_ok h).elim
    rename_i after begun
    split at h
    · rename_i backing maximum writable
      obtain ⟨user, made, h⟩ := bind_ok h
      obtain ⟨from_, to_⟩ := AddressRange.fromBounds_ok (liftRange_ok made)
      iterate 3 obtain ⟨_, _, h⟩ := bind_ok h
      obtain ⟨offset, sum, h⟩ := bind_ok h
      obtain ⟨distance, -⟩ := checkedAdd_some (okOr_ok sum)
      have inside : region.range.start ≤ user.start ∧ user.end_ ≤ region.range.end_ := by omega
      have hosted : Hosts region ⟨region.key, user, backing, offset⟩ :=
        ⟨rfl, ⟨maximum, writable⟩, inside.1, inside.2, by rw [distance, ← from_]⟩
      dsimp only at h
      split at h
      · rename_i finished
        rw [beq_iff_eq] at finished
        cases pure_ok h
        refine ⟨[_], [region], rfl, rfl, .cons hosted .nil, ⟨from_, ?_⟩, by simp⟩
        rw [← finished]
        exact to_
      · obtain ⟨more, hosts, same, sameKeys, others, follows, member⟩ := ih h
        refine ⟨_ :: more, region :: hosts, by rw [same, append_assoc]; rfl,
          by rw [sameKeys, append_assoc]; rfl, .cons hosted others, ⟨from_, ?_⟩, ?_⟩
        · rw [show user.end_ = _ from to_]
          exact follows
        · intro host hh
          rcases mem_cons.mp hh with rfl | hh
          · exact mem_cons_self
          · exact mem_cons_of_mem _ (member host hh)
    · exact (fail_ne_ok h).elim

theorem countRequirement_ok {object : ObjectId} {isNew length : Nat} {requirements out : List PermitRequirement}
    (h : countRequirement heap object isNew length requirements = .ok out) :
    (out.map (·.count)).sum = (requirements.map (·.count)).sum + 1 := by
  induction requirements generalizing length out with
  | nil =>
    obtain ⟨_, _, h⟩ := bind_ok h
    rw [pure_ok h]
    rfl
  | cons requirement rest ih =>
    rw [countRequirement] at h
    split at h
    · obtain ⟨count, sum, h⟩ := bind_ok h
      obtain ⟨_, _, h⟩ := bind_ok h
      obtain ⟨rfl, -⟩ := checkedAdd_some (okOr_ok sum)
      rw [pure_ok h]
      simp only [map_cons, sum_cons]
      omega
    · obtain ⟨out', counted, h⟩ := bind_ok h
      rw [pure_ok h]
      simp only [map_cons, sum_cons, ih counted]
      omega

theorem permitRequirements_ok {templates : List RegionTemplate} {out : List PermitRequirement}
    (h : permitRequirements heap templates = .ok out) :
    (out.map (·.count)).sum = (templates.filterMap RegionTemplate.writableObject).length := by
  have counted : ∀ (templates : List RegionTemplate) (requirements out : List PermitRequirement),
      permitRequirementsFrom heap requirements templates = .ok out →
      (out.map (·.count)).sum =
        (requirements.map (·.count)).sum + (templates.filterMap RegionTemplate.writableObject).length := by
    intro templates
    induction templates with
    | nil =>
      intro requirements out h
      rw [pure_ok h]
      rfl
    | cons template rest ih =>
      intro requirements out h
      rw [permitRequirementsFrom] at h
      split at h
      · rename_i absent
        rw [ih requirements out h, filterMap_cons_none absent]
      · rename_i object writable
        obtain ⟨next, one, h⟩ := bind_ok h
        rw [ih next out h, countRequirement_ok one, filterMap_cons_some writable, length_cons]
        omega
  rw [counted templates [] out h]
  exact Nat.zero_add _

end Halcyon.Space
