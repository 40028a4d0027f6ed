import Halcyon.Supply.Planner

/-!
What each pass over the ranges gives: sorted memory, the part of a request that is managed, what is left after
cuts, and a place that no cut touches.
-/

namespace Halcyon.Supply

open List

/-- A range that is accepted: not empty, with both ends at page boundaries. -/
def Paged (page : Nat) (range : Range) : Prop := range.Proper ∧ page ∣ range.start ∧ page ∣ range.stop

section
variable {n : Nat} {output next : RangeBuffer n} {range : Range} {page : Nat}

theorem push_ok (h : output.push range = .ok next) : next.ranges = output.ranges ++ [range] := by
  unfold RangeBuffer.push at h
  split at h
  · cases h
    rfl
  · cases h

theorem pushProper_ok {start stop : Nat} (h : output.pushProper start stop = .ok next) :
    next.ranges = output.ranges ++ between start stop := by
  unfold RangeBuffer.pushProper at h
  unfold between
  split at h
  · rename_i proper
    rw [if_pos proper]
    exact push_ok h
  · rename_i empty
    cases h
    rw [if_neg empty, append_nil]

theorem validateRange_ok {done : Unit} (h : validateRange range page = .ok done) : Paged page range := by
  have good := refuseIf_ok h
  simp only [Bool.or_eq_false_iff, decide_eq_false_iff_not, bne_eq_false_iff_eq] at good
  obtain ⟨⟨proper, start⟩, stop⟩ := good
  exact ⟨Nat.lt_of_not_le proper, Nat.dvd_of_mod_eq_zero start, Nat.dvd_of_mod_eq_zero stop⟩

theorem foldlM_appends {α : Type} {body : RangeBuffer n → α → Outcome PlanError (RangeBuffer n)} {g : α → List Range}
    {P : α → Prop} {xs : List α}
    (turn : ∀ output x next, x ∈ xs → body output x = .ok next → next.ranges = output.ranges ++ g x ∧ P x)
    (h : xs.foldlM body output = .ok next) : next.ranges = output.ranges ++ xs.flatMap g ∧ ∀ x ∈ xs, P x := by
  induction xs generalizing output with
  | nil =>
    cases pure_ok h
    exact ⟨(append_nil _).symm, nofun⟩
  | cons x xs ih =>
    rw [foldlM_cons] at h
    obtain ⟨middle, first, h⟩ := bind_ok h
    obtain ⟨added, holds⟩ := turn output x middle mem_cons_self first
    obtain ⟨rest, all⟩ := ih (fun output x next member => turn output x next (mem_cons_of_mem _ member)) h
    exact ⟨by rw [rest, added, append_assoc, flatMap_cons], forall_mem_cons.mpr ⟨holds, all⟩⟩

theorem checkOverlap_ok {ranges : List Range} {done : Unit} (proper : ∀ range ∈ ranges, range.Proper)
    (h : checkOverlap ranges = .ok done) : Ordered ranges := by
  refine ⟨proper, ?_⟩
  induction ranges with
  | nil => exact .nil
  | cons first rest ih =>
    cases rest with
    | nil => exact pairwise_singleton _ _
    | cons second rest =>
      obtain ⟨_, apart, h⟩ := bind_ok h
      have apart : first.stop ≤ second.start := by simpa using refuseIf_ok apart
      have tail := ih (fun range member => proper range (mem_cons_of_mem _ member)) h
      refine pairwise_cons.mpr ⟨fun range member => ?_, tail⟩
      rcases mem_cons.mp member with rfl | later
      · exact apart
      · have next := (pairwise_cons.mp tail).1 range later
        have room : second.start < second.stop := proper second (by simp)
        omega

theorem normalizeMemoriesInto_ok {input : List Range} (h : normalizeMemoriesInto input page output = .ok next) :
    Ordered next.ranges ∧ next.ranges.Perm input ∧ ∀ range ∈ next.ranges, Paged page range := by
  obtain ⟨middle, read, h⟩ := bind_ok h
  obtain ⟨_, apart, h⟩ := bind_ok h
  cases pure_ok h
  obtain ⟨ranges, paged⟩ := foldlM_appends (g := fun range => [range]) (P := Paged page) (fun output range next _ h => by
    obtain ⟨_, valid, pushed⟩ := bind_ok h
    exact ⟨push_ok pushed, validateRange_ok valid⟩) read
  have same : middle.ranges = input := by simpa [RangeBuffer.clear] using ranges
  have perm : middle.sort.ranges.Perm input := same ▸ sortByKey_perm Span.start middle.ranges
  have all : ∀ range ∈ middle.sort.ranges, Paged page range := fun range member => paged range (perm.mem_iff.mp member)
  exact ⟨checkOverlap_ok (fun range member => (all range member).1) apart, perm, all⟩

def clip (range memory : Range) : List Range := between (max range.start memory.start) (min range.stop memory.stop)

theorem within_clip {memory : Range} {a : Nat} : Within (clip range memory) a ↔ range.Has a ∧ memory.Has a := by
  rw [clip, within_between]
  unfold Span.Has
  omega

theorem clip_paged {memory piece : Range} (paged : Paged page range) (paged' : Paged page memory)
    (member : piece ∈ clip range memory) : Paged page piece := by
  have start : page ∣ max range.start memory.start := by
    rcases Nat.le_total range.start memory.start with le | le
    · rw [Nat.max_eq_right le]
      exact paged'.2.1
    · rw [Nat.max_eq_left le]
      exact paged.2.1
  have stop : page ∣ min range.stop memory.stop := by
    rcases Nat.le_total range.stop memory.stop with le | le
    · rw [Nat.min_eq_left le]
      exact paged.2.2
    · rw [Nat.min_eq_right le]
      exact paged'.2.2
  obtain ⟨proper, rfl⟩ := mem_between.mp member
  exact ⟨proper, start, stop⟩

theorem clipAndNormalizeInto_ok {input : List Range} {memories : RangeBuffer n}
    (managed : ∀ memory ∈ memories.ranges, Paged page memory)
    (h : clipAndNormalizeInto input memories page output = .ok next) :
    Ordered next.ranges ∧ (∀ a, Within next.ranges a ↔ Within input a ∧ Within memories.ranges a) ∧
      ∀ range ∈ next.ranges, Paged page range := by
  obtain ⟨middle, read, h⟩ := bind_ok h
  cases pure_ok h
  obtain ⟨ranges, paged⟩ := foldlM_appends (g := fun range => memories.ranges.flatMap (clip range)) (P := Paged page)
    (fun output range next _ h => by
      obtain ⟨_, valid, clipped⟩ := bind_ok h
      have pieces := foldlM_appends (g := clip range) (P := fun _ => True)
        (fun output memory next _ h => ⟨pushProper_ok h, trivial⟩) clipped
      exact ⟨pieces.1, validateRange_ok valid⟩) read
  have same : middle.ranges = input.flatMap fun range => memories.ranges.flatMap (clip range) := by
    simpa [RangeBuffer.clear] using ranges
  have all : ∀ piece ∈ middle.ranges, Paged page piece := by
    intro piece member
    rw [same] at member
    obtain ⟨range, inInput, member⟩ := mem_flatMap.mp member
    obtain ⟨memory, inMemories, member⟩ := mem_flatMap.mp member
    exact clip_paged (paged range inInput) (managed memory inMemories) member
  obtain ⟨ordered, covers⟩ := normalized_spec fun piece member => (all piece member).1
  have ends := normalized_ends (P := (page ∣ ·)) fun piece member => (all piece member).2
  refine ⟨ordered, fun a => ?_, fun piece member => ⟨ordered.proper piece member, ends piece member⟩⟩
  show Within (normalized middle.ranges) a ↔ _
  rw [covers, same, within_flatMap]
  simp only [within_flatMap, within_clip]
  constructor
  · rintro ⟨range, inInput, memory, inMemories, has, has'⟩
    exact ⟨⟨range, inInput, has⟩, memory, inMemories, has'⟩
  · rintro ⟨⟨range, inInput, has⟩, memory, inMemories, has'⟩
    exact ⟨range, inInput, memory, inMemories, has, has'⟩

theorem subtractCuts_ok {cursor last : Nat} {cuts : List Range} (le : cursor ≤ range.stop)
    (h : subtractCuts range cursor cuts output = .ok (last, next)) :
    last ≤ range.stop ∧ next.ranges ++ between last range.stop = output.ranges ++ gaps range.stop cursor cuts := by
  induction cuts generalizing cursor output with
  | nil =>
    cases pure_ok h
    exact ⟨le, rfl⟩
  | cons cut cuts ih =>
    unfold subtractCuts at h
    split at h
    · rename_i missed
      rw [gaps_missed (by simpa using missed)]
      exact ih le h
    · rename_i hit
      rw [gaps_hit (by simpa using hit)]
      obtain ⟨middle, pushed, h⟩ := bind_ok h
      have first : middle.ranges = output.ranges ++ between cursor cut.start := by
        rw [pushProper_ok pushed]
        rcases Nat.le_total cut.start cursor with passed | before
        · rw [Nat.max_eq_right passed, between_empty (Nat.le_refl _), between_empty passed]
        · rw [Nat.max_eq_left before]
      rw [← append_assoc, ← first]
      dsimp only at h
      split at h
      · rename_i reached
        cases pure_ok h
        have reached : min cut.stop range.stop = range.stop := by simpa using reached
        rw [reached, gaps_at_end, between_empty (Nat.le_refl _)]
        exact ⟨Nat.le_refl _, rfl⟩
      · exact ih (Nat.min_le_right cut.stop range.stop) h

theorem subtractOne_ok {reserved : RangeBuffer n} (proper : range.Proper)
    (h : subtractOne reserved range output = .ok next) :
    next.ranges = output.ranges ++ gaps range.stop range.start reserved.ranges := by
  obtain ⟨⟨last, middle⟩, cuts, h⟩ := bind_ok h
  obtain ⟨_, same⟩ := subtractCuts_ok (Nat.le_of_lt proper) cuts
  rw [← same]
  exact pushProper_ok h

theorem subtractInto_ok {source reserved : RangeBuffer n} (ordered : Ordered source.ranges)
    (cuts : Ordered reserved.ranges) (paged : ∀ range ∈ source.ranges, Paged page range)
    (paged' : ∀ range ∈ reserved.ranges, Paged page range) (h : subtractInto source reserved output = .ok next) :
    Ordered next.ranges ∧ (∀ a, Within next.ranges a ↔ Within source.ranges a ∧ ¬Within reserved.ranges a) ∧
      ∀ range ∈ next.ranges, Paged page range := by
  obtain ⟨same, _⟩ := foldlM_appends (P := fun _ => True)
    (fun output range next member h => ⟨subtractOne_ok (ordered.proper range member) h, trivial⟩) h
  have proper := ordered_allGaps ordered cuts
  have ends := allGaps_ends (P := (page ∣ ·)) (fun range member => (paged range member).2)
    fun range member => (paged' range member).2
  rw [same]
  exact ⟨proper, fun a => within_allGaps ordered.proper cuts,
    fun range member => ⟨proper.proper range member, ends range member⟩⟩

theorem append_ok {target source : RangeBuffer n} (h : append target source = .ok next) :
    next.ranges = target.ranges ++ source.ranges := by
  have added := (foldlM_appends (g := fun range => [range]) (P := fun _ => True)
    (fun output range next _ h => ⟨push_ok h, trivial⟩) h).1
  simpa using added

end

theorem isPowerOfTwo_iff {n : Nat} (h : isPowerOfTwo n = true) : ∃ k, n = 2 ^ k := by
  unfold isPowerOfTwo at h
  simp only [Bool.and_eq_true, beq_iff_eq] at h
  exact ⟨_, h.2.symm⟩

theorem and_mask {x k : Nat} (less : x < 2 ^ 64) (le : k ≤ 64) : x &&& (usizeMax - (2 ^ k - 1)) = x / 2 ^ k * 2 ^ k := by
  have small : 2 ^ k - 1 < 2 ^ 64 := by
    have bound : 2 ^ k ≤ 2 ^ 64 := Nat.pow_le_pow_right (by decide) le
    omega
  have mask : usizeMax - (2 ^ k - 1) = 2 ^ 64 - (2 ^ k - 1 + 1) := by
    unfold usizeMax
    omega
  refine Nat.eq_of_testBit_eq fun i => ?_
  rw [Nat.testBit_and, mask, Nat.testBit_two_pow_sub_succ small, Nat.testBit_two_pow_sub_one, Nat.testBit_mul_two_pow,
    Nat.testBit_div_two_pow]
  by_cases low : i < k
  · simp [low]
  · rw [Nat.sub_add_cancel (Nat.le_of_not_lt low)]
    by_cases high : i < 64
    · simp [low, high, Nat.le_of_not_lt low]
    · have bound : x < 2 ^ i := Nat.lt_of_lt_of_le less (Nat.pow_le_pow_right (by decide) (Nat.le_of_not_lt high))
      simp [Nat.testBit_lt_two_pow bound]

def roundUp (value alignment : Nat) : Nat := (value + (alignment - 1)) / alignment * alignment

variable {alignment len : Nat} {range : Range}

theorem roundUp_spec (value : Nat) (positive : 0 < alignment) :
    alignment ∣ roundUp value alignment ∧ value ≤ roundUp value alignment ∧ roundUp value alignment < value + alignment := by
  have whole := Nat.div_add_mod (value + (alignment - 1)) alignment
  have rest := Nat.mod_lt (value + (alignment - 1)) positive
  rw [Nat.mul_comm] at whole
  refine ⟨Nat.dvd_mul_left _ _, ?_⟩
  unfold roundUp
  omega

theorem isPowerOfTwo_pos {n : Nat} (h : isPowerOfTwo n = true) : 0 < n := by
  obtain ⟨k, rfl⟩ := isPowerOfTwo_iff h
  exact Nat.two_pow_pos k

variable (power : isPowerOfTwo alignment = true)
include power

theorem alignUp_eq {value aligned : Nat}
    (h : alignUp value alignment = .ok aligned) : aligned = roundUp value alignment := by
  obtain ⟨k, rfl⟩ := isPowerOfTwo_iff power
  obtain ⟨sum, added, rfl⟩ := Option.map_eq_some_iff.mp (okOr_ok h)
  obtain ⟨rfl, fits⟩ := checkedAdd_some added
  have word : usizeMax = 2 ^ 64 - 1 := rfl
  have le : k ≤ 64 := by
    by_contra above
    have big : 2 ^ 65 ≤ 2 ^ k := Nat.pow_le_pow_right (by decide) (by omega)
    omega
  exact and_mask (by omega) le

theorem alignUp_ok {value aligned : Nat} (h : alignUp value alignment = .ok aligned) :
    alignment ∣ aligned ∧ value ≤ aligned ∧ aligned < value + alignment := by
  rw [alignUp_eq power h]
  exact roundUp_spec value (isPowerOfTwo_pos power)

theorem fit_ok {start stop : Nat} (h : fit start stop len alignment = .ok (some range)) :
    start ≤ range.start ∧ range.stop ≤ stop ∧ alignment ∣ range.start ∧ range.stop = range.start + len := by
  unfold fit at h
  split at h
  · cases pure_ok h
  obtain ⟨aligned, rounded, h⟩ := bind_ok h
  obtain ⟨candidate, added, h⟩ := bind_ok h
  obtain ⟨rfl, _⟩ := checkedAdd_some (okOr_ok added)
  obtain ⟨multiple, above, _⟩ := alignUp_ok power rounded
  have h := pure_ok h
  split at h
  · rename_i inside
    cases h
    exact ⟨above, inside, multiple, rfl⟩
  · cases h

structure Placed (cuts : List Range) (lo hi len alignment : Nat) (range : Range) : Prop where
  gap : ∃ piece ∈ gaps hi lo cuts, piece.start ≤ range.start ∧ range.stop ≤ piece.stop
  aligned : alignment ∣ range.start
  sized : range.stop = range.start + len

theorem placed_between {lo hi : Nat} (positive : 0 < len) (h : fit lo hi len alignment = .ok (some range)) :
    (⟨lo, hi⟩ : Range) ∈ between lo hi ∧ lo ≤ range.start ∧ range.stop ≤ hi ∧ alignment ∣ range.start ∧
      range.stop = range.start + len := by
  obtain ⟨low, high, aligned, sized⟩ := fit_ok power h
  exact ⟨mem_between.mpr ⟨by omega, rfl⟩, low, high, aligned, sized⟩

theorem placeBetween_ok {memory : Range} {cursor : Nat} {cuts : List Range} (positive : 0 < len)
    (h : placeBetween memory len alignment cursor cuts = .ok (some range)) :
    Placed cuts cursor memory.stop len alignment range := by
  induction cuts generalizing cursor with
  | nil =>
    obtain ⟨member, low, high, aligned, sized⟩ := placed_between power positive h
    exact ⟨⟨_, member, low, high⟩, aligned, sized⟩
  | cons cut cuts ih =>
    unfold placeBetween at h
    split at h
    · rename_i missed
      obtain ⟨gap, aligned, sized⟩ := ih h
      rw [← gaps_missed (by simpa using missed)] at gap
      exact ⟨gap, aligned, sized⟩
    · rename_i hit
      have hit : ¬(cut.stop ≤ cursor ∨ memory.stop ≤ cut.start) := by simpa using hit
      obtain ⟨found, tried, h⟩ := bind_ok h
      cases found with
      | some place =>
        cases pure_ok h
        rw [Nat.min_eq_left (by omega)] at tried
        obtain ⟨member, low, high, aligned, sized⟩ := placed_between power positive tried
        refine ⟨⟨⟨cursor, cut.start⟩, ?_, low, high⟩, aligned, sized⟩
        rw [gaps_hit hit]
        exact mem_append_left _ member
      | none =>
        dsimp only at h
        split at h
        · rename_i reached
          have reached : min cut.stop memory.stop = memory.stop := by simpa using reached
          rw [reached] at h
          obtain ⟨member, _⟩ := placed_between power positive h
          rw [between_empty (Nat.le_refl _)] at member
          cases member
        · obtain ⟨⟨piece, member, inside⟩, aligned, sized⟩ := ih h
          refine ⟨⟨piece, ?_, inside⟩, aligned, sized⟩
          rw [gaps_hit hit]
          exact mem_append_right _ member

theorem placeOne_ok {unavailable memories : List Range}
    (positive : 0 < len) (h : placeOne unavailable len alignment memories = .ok (some range)) :
    ∃ memory ∈ memories, Placed unavailable memory.start memory.stop len alignment range := by
  induction memories with
  | nil => cases pure_ok h
  | cons memory memories ih =>
    obtain ⟨found, tried, h⟩ := bind_ok h
    cases found with
    | some place =>
      cases pure_ok h
      exact ⟨memory, mem_cons_self, placeBetween_ok power positive tried⟩
    | none =>
      obtain ⟨other, member, placed⟩ := ih h
      exact ⟨other, mem_cons_of_mem _ member, placed⟩

theorem placeOne_free {unavailable memories : List Range}
    (positive : 0 < len) (proper : ∀ memory ∈ memories, memory.Proper) (cuts : Ordered unavailable)
    (h : placeOne unavailable len alignment memories = .ok (some range)) :
    (∀ a, range.Has a → Within memories a ∧ ¬Within unavailable a) ∧ alignment ∣ range.start ∧
      range.stop = range.start + len := by
  obtain ⟨memory, member, ⟨piece, gap, low, high⟩, aligned, sized⟩ := placeOne_ok power positive h
  refine ⟨fun a has => ?_, aligned, sized⟩
  have inside : Within (gaps memory.stop memory.start unavailable) a :=
    ⟨piece, gap, Nat.le_trans low has.1, Nat.lt_of_lt_of_le has.2 high⟩
  obtain ⟨above, below, outside⟩ := (within_gaps cuts (Nat.le_of_lt (proper memory member))).mp inside
  exact ⟨⟨memory, member, above, below⟩, outside⟩

end Halcyon.Supply
