import Halcyon.Space.Meaning

/-!
What the planner's vectors of templates cover: the cuts of one region, the absorbed neighbors, and the coalesced list.
`Request.rewrite` is what a request asks of a byte that is mapped before it.
-/

namespace Halcyon.Space

open PageRange RegionTemplate List

def PageRange.Has (r : PageRange) (a : Nat) : Prop := r.start ≤ a ∧ a < r.end_

instance (r : PageRange) (a : Nat) : Decidable (r.Has a) := inferInstanceAs (Decidable (_ ∧ _))

theorem PageRange.has_of_intersection {r other cut : PageRange} {a : Nat} (meets : r.intersection other = some cut)
    (has : cut.start ≤ a ∧ a < cut.end_) : other.Has a := by
  obtain ⟨from_, to_⟩ := intersection_some meets
  unfold Has
  omega

inductive Request where
  | map (request : MapRequest)
  | unmap (request : UnmapRequest)
  | protect (request : ProtectRequest)
  deriving DecidableEq

/-- What a request makes of a byte that had a meaning before it. -/
def Request.rewrite (request : Request) (a : Nat) (m : PageMeaning) : Option PageMeaning :=
  match request with
  | .map _ => some m
  | .unmap q => if q.range.Has a then none else some m
  | .protect q => if q.range.Has a then some (m.protect q.protection) else some m

structure PartsOf (fresh : AllocationKey) (request : Request) (region : Region) (ts : List RegionTemplate) :
    Prop where
  covers : ∀ a m, Covers (ts.map (·.tile fresh)) a m ↔ region.tile.Has a ∧ request.rewrite a (region.tile.value a) = some m
  apart : (ts.map (·.tile fresh)).Pairwise Tile.Apart
  inside : ∀ t ∈ ts, region.range.start ≤ t.range.start ∧ t.range.end_ ≤ region.range.end_

variable {region : Region} {range : PageRange} {fresh : AllocationKey}

theorem keptTemplates_length {start stop : Nat} {ts : List RegionTemplate}
    (h : keptTemplates region start stop = .ok ts) : ts.length ≤ 1 := by
  unfold keptTemplates at h
  split at h
  · obtain ⟨_, _, h⟩ := bind_ok h
    obtain ⟨_, _, h⟩ := bind_ok h
    rw [pure_ok h]
    rfl
  · rw [pure_ok h]
    exact Nat.zero_le _

theorem pairwise_of_length_le_one {α : Type} {R : α → α → Prop} {xs : List α} (h : xs.length ≤ 1) : xs.Pairwise R := by
  match xs, h with
  | [], _ => exact .nil
  | [x], _ => exact pairwise_singleton _ _

theorem apart_around {left middle right : List RegionTemplate} {low high : Nat} (ordered : low ≤ high)
    (leftShort : left.length ≤ 1) (middleShort : middle.length ≤ 1) (rightShort : right.length ≤ 1)
    (leftEnds : ∀ t ∈ left, t.range.end_ ≤ low)
    (middleLies : ∀ t ∈ middle, low ≤ t.range.start ∧ t.range.end_ ≤ high)
    (rightStarts : ∀ t ∈ right, high ≤ t.range.start) :
    ((left ++ middle ++ right).map (·.tile fresh)).Pairwise Tile.Apart := by
  rw [pairwise_map, pairwise_append, pairwise_append]
  refine ⟨⟨pairwise_of_length_le_one leftShort, pairwise_of_length_le_one middleShort, fun t ht u hu => ?_⟩,
    pairwise_of_length_le_one rightShort, fun t ht u hu => .inl (Nat.le_trans ?_ (rightStarts u hu))⟩
  · exact .inl (Nat.le_trans (leftEnds t ht) (middleLies u hu).1)
  · rcases mem_append.mp ht with ht | ht
    · exact Nat.le_trans (leftEnds t ht) ordered
    · exact (middleLies t ht).2

theorem parts_around {request : Request} {cut : PageRange} {left middle right : List RegionTemplate}
    (meets : region.range.intersection range = some cut)
    (leftKept : keptTemplates region region.range.start cut.start = .ok left)
    (rightKept : keptTemplates region cut.end_ region.range.end_ = .ok right)
    (short : middle.length ≤ 1) (placed : ∀ t ∈ middle, t.range = cut)
    (within : ∀ a m, Covers (middle.map (·.tile fresh)) a m ↔
      (cut.start ≤ a ∧ a < cut.end_) ∧ request.rewrite a (region.tile.value a) = some m)
    (outside : ∀ a m, ¬range.Has a → request.rewrite a m = some m) :
    PartsOf fresh request region (left ++ middle ++ right) := by
  obtain ⟨from_, to_⟩ := intersection_some meets
  have nonempty := cut.start_lt_end
  obtain ⟨leftCovers, leftRange⟩ := keptTemplates_ok fresh leftKept (by omega)
  obtain ⟨rightCovers, rightRange⟩ := keptTemplates_ok fresh rightKept (by omega)
  refine ⟨fun a m => ?_, ?_, ?_⟩
  · rw [map_append, map_append, covers_append, covers_append, leftCovers, rightCovers, within]
    simp only [Tile.Has, Region.tile_start, Region.tile_stop]
    unfold PageRange.Has at outside
    -- inside the cut only the middle can hold the address, outside only the kept pieces
    by_cases mid : cut.start ≤ a ∧ a < cut.end_
    · constructor
      · rintro ((⟨_, _⟩ | ⟨_, same⟩) | ⟨_, _⟩)
        · omega
        · exact ⟨by omega, same⟩
        · omega
      · rintro ⟨_, same⟩
        exact .inl (.inr ⟨mid, same⟩)
    · constructor
      · rintro ((⟨_, same⟩ | ⟨_, _⟩) | ⟨_, same⟩)
        · exact ⟨by omega, by rw [outside a _ (by omega), same]⟩
        · omega
        · exact ⟨by omega, by rw [outside a _ (by omega), same]⟩
      · rintro ⟨has, kept⟩
        rw [outside a _ (by omega), Option.some.injEq] at kept
        by_cases before : a < cut.start
        · exact .inl (.inl ⟨by omega, kept⟩)
        · exact .inr ⟨by omega, kept⟩
  · refine apart_around (Nat.le_of_lt nonempty) (keptTemplates_length leftKept) short (keptTemplates_length rightKept)
      (fun t ht => Nat.le_of_eq (leftRange t ht).2.1) (fun t ht => ?_)
      fun t ht => Nat.le_of_eq (rightRange t ht).1.symm
    rw [placed t ht]
    exact ⟨Nat.le_refl _, Nat.le_refl _⟩
  · intro t member
    rcases mem_append.mp member with member | member
    · rcases mem_append.mp member with member | member
      · have := leftRange t member
        omega
      · rw [placed t member]
        omega
    · have := rightRange t member
      omega

/-- `t` retires the part of `r` inside `range`. -/
structure Retires (range : PageRange) (retire : BackingRetire) (r : Region) (t : RetireTemplate) : Prop where
  allocation : t.allocation = r.allocation
  owner : t.owner = r.owner
  start : t.range.start = max r.range.start range.start
  stop : t.range.end_ = min r.range.end_ range.end_
  kind : t.kind = r.kind.shiftedBy (t.range.start - r.range.start)
  backingRetire : t.backingRetire = retire

theorem Retires.object {retire : BackingRetire} {t : RetireTemplate} (h : Retires range retire region t) :
    region.kind.object? = t.kind.object? := by
  rw [h.kind, RegionKind.object?_shiftedBy]

theorem retireTemplate_retires {cut : PageRange} {retire : BackingRetire} {t : RetireTemplate}
    (meets : region.range.intersection range = some cut) (h : retireTemplate region cut retire = .ok t) :
    Retires range retire region t := by
  obtain ⟨from_, to_⟩ := intersection_some meets
  obtain ⟨kind, made, h⟩ := bind_ok h
  rw [pure_ok h]
  exact ⟨rfl, rfl, from_, to_, cutKind_ok made, rfl⟩

variable {c : Cut} {authority : RegionOwner} {protection : Protection}

theorem unmapCut_parts (h : unmapCut range region = .ok c) :
    PartsOf fresh (.unmap ⟨range, authority⟩) region c.replacements := by
  obtain ⟨cut, meets, h⟩ := bind_ok h
  have meets := expect_ok meets
  obtain ⟨left, leftKept, h⟩ := bind_ok h
  obtain ⟨right, rightKept, h⟩ := bind_ok h
  obtain ⟨_, _, h⟩ := bind_ok h
  rw [pure_ok h]
  show PartsOf _ _ _ (left ++ right)
  rw [← append_nil left]
  refine parts_around meets leftKept rightKept (Nat.zero_le _) (fun _ member => by cases member) (fun a m => ?_) fun _ _ out => if_neg out
  simp only [map_nil, covers_nil, false_iff, not_and, Request.rewrite]
  intro mid
  rw [if_pos (has_of_intersection meets mid)]
  intro other
  cases other

theorem unmapCut_retires (h : unmapCut range region = .ok c) :
    region.key = c.remove ∧ Retires range .release region c.retiring := by
  obtain ⟨cut, meets, h⟩ := bind_ok h
  obtain ⟨_, _, h⟩ := bind_ok h
  obtain ⟨_, _, h⟩ := bind_ok h
  obtain ⟨retiring, made, h⟩ := bind_ok h
  rw [pure_ok h]
  exact ⟨rfl, retireTemplate_retires (expect_ok meets) made⟩

theorem protectCut_parts (h : protectCut range protection region = .ok c) :
    PartsOf fresh (.protect ⟨range, protection, authority⟩) region c.replacements := by
  obtain ⟨cut, meets, h⟩ := bind_ok h
  have meets := expect_ok meets
  obtain ⟨left, leftKept, h⟩ := bind_ok h
  obtain ⟨middle, middleCut, h⟩ := bind_ok h
  obtain ⟨right, rightKept, h⟩ := bind_ok h
  obtain ⟨_, _, h⟩ := bind_ok h
  split at h
  case h_2 => exact (panicked_ne_ok h).elim
  have template := templateFromRegion_ok middleCut
  rw [pure_ok h]
  refine parts_around meets leftKept rightKept (Nat.le_refl _) (fun t member => ?_) (fun a m => ?_) fun _ _ out => if_neg out
  · rw [mem_singleton.mp member, template.range_eq]
  · simp only [map_singleton, covers_cons, covers_nil, or_false, Tile.Has, tile_start,
      tile_stop, template.range_eq, Request.rewrite]
    refine and_congr_right fun mid => ?_
    have low := (intersection_some meets).1
    rw [if_pos (has_of_intersection meets mid), Option.some.injEq, template.value (by omega) mid.1]
    rfl

/-- The intents of a Protect for one of the regions that cover it. -/
def protectIntents (q : ProtectRequest) (r : Region) : List TranslationIntent :=
  match r.kind, r.range.intersection q.range with
  | .mapping _ current _, some cut => if current != q.protection then [.protect cut current q.protection] else []
  | _, _ => []

theorem protectCut_retires {q : ProtectRequest} (h : protectCut q.range q.protection region = .ok c) :
    region.key = c.remove ∧ Retires q.range .retain region c.retiring ∧ region.kind.isMapping = true ∧
      c.translations = protectIntents q region := by
  obtain ⟨cut, meets, h⟩ := bind_ok h
  iterate 3 obtain ⟨_, _, h⟩ := bind_ok h
  obtain ⟨retiring, made, h⟩ := bind_ok h
  have meets := expect_ok meets
  split at h
  · rename_i kind
    rw [pure_ok h]
    refine ⟨rfl, retireTemplate_retires meets made, by rw [kind]; rfl, ?_⟩
    rw [protectIntents, kind, meets]
  · exact (panicked_ne_ok h).elim

theorem whole_parts {t : RegionTemplate} (h : templateFromRegion region region.range none = .ok t)
    (outside : ∀ a, region.tile.Has a → ¬range.Has a) :
    PartsOf fresh (.protect ⟨range, protection, authority⟩) region [t] := by
  have template := templateFromRegion_ok h
  refine ⟨fun a m => ?_, pairwise_of_length_le_one (by simp), ?_⟩
  · simp only [map_singleton, covers_cons, covers_nil, or_false, Tile.Has, tile_start, tile_stop, template.range_eq]
    refine and_congr_right fun has => ?_
    rw [Request.rewrite, if_neg (outside a has), Option.some.injEq, template.value (Nat.le_refl _) has.1]
    rfl
  · intro u member
    obtain rfl := mem_singleton.mp member
    rw [template.range_eq]
    exact ⟨Nat.le_refl _, Nat.le_refl _⟩

theorem templatesCompatible_value (fresh : AllocationKey) {left right : RegionTemplate}
    (h : templatesCompatible left right = true) :
    left.range.end_ = right.range.start ∧
      ∀ a, right.range.start ≤ a → (left.tile fresh).value a = (right.tile fresh).value a := by
  unfold templatesCompatible at h
  split at h
  · cases h
  rename_i meets
  simp only [Bool.or_eq_true, Bool.not_eq_true', bne_iff_ne, not_or, ne_eq, not_not] at meets
  obtain ⟨⟨_, meets⟩, owner⟩ := meets
  refine ⟨meets, fun a low => ?_⟩
  split at h
  · rename_i leftKey rightKey leftAllocation rightAllocation
    split at h
    · cases h
    rename_i same
    have same : leftKey = rightKey := by simpa using same
    have nonempty := left.range.start_lt_end
    simp only [tile, owner, leftAllocation, rightAllocation, same, PageMeaning.mk.injEq, true_and]
    split at h
    · rename_i leftKind rightKind
      rw [leftKind, rightKind]
      rfl
    · rename_i leftKind rightKind
      simp only [Bool.and_eq_true, beq_iff_eq] at h
      obtain ⟨⟨⟨current, maximum⟩, _⟩, backing⟩ := h
      have backing := BackingView.shifted_some backing
      rw [leftKind, rightKind, current, maximum]
      have distance : left.range.end_ - left.range.start + (a - right.range.start) = a - left.range.start := by omega
      simp only [RegionKind.shiftedBy, backing, BackingView.offset_withOffset,
        BackingView.withOffset_withOffset, bytes_eq, Nat.add_assoc, distance]
    · cases h
  · cases h

theorem coalesce_ok {previous : RegionTemplate} {rest out : List RegionTemplate}
    (h : coalesce previous rest = .ok out) (ascending : Ascending ((previous :: rest).map (·.tile fresh))) :
    Ascending (out.map (·.tile fresh)) ∧ (∀ t ∈ out, previous.range.start ≤ t.range.start) ∧
    ∀ a m, Covers (out.map (·.tile fresh)) a m ↔ Covers ((previous :: rest).map (·.tile fresh)) a m := by
  induction rest generalizing previous out with
  | nil =>
    rw [coalesce] at h
    rw [pure_ok h]
    exact ⟨ascending, by simp, fun _ _ => Iff.rfl⟩
  | cons t rest ih =>
    rw [coalesce] at h
    rw [map_cons, Ascending, pairwise_cons] at ascending
    obtain ⟨fromHead, tail⟩ := ascending
    have tail' := pairwise_cons.mp tail
    split at h
    · rename_i compatible
      obtain ⟨meets, same⟩ := templatesCompatible_value fresh compatible
      obtain ⟨range, made, h⟩ := bind_ok h
      obtain ⟨from_, to_⟩ := fromBounds_ok (liftRange_ok made)
      have merged : Ascending (({ previous with range } :: rest).map (·.tile fresh)) := by
        rw [map_cons, Ascending, pairwise_cons]
        refine ⟨fun u hu => ?_, tail'.2⟩
        have := tail'.1 u hu
        rw [tile_stop] at this ⊢
        rwa [to_]
      obtain ⟨ascending', low, covers⟩ := ih h merged
      refine ⟨ascending', fun u hu => from_ ▸ low u hu, fun a m => ?_⟩
      rw [covers a m, map_cons, map_cons, map_cons, covers_cons, covers_cons, covers_cons, ← or_assoc]
      refine or_congr_left ?_
      have ends := previous.range.start_lt_end
      have ends' := t.range.start_lt_end
      simp only [Tile.Has, tile_start, tile_stop, from_, to_]
      -- the merged template starts where the previous one did, so its values are the previous one's
      have value : ∀ a, ((({ previous with range } : RegionTemplate)).tile fresh).value a =
          (previous.tile fresh).value a := by
        intro a
        simp only [tile, from_]
      rw [value]
      constructor
      · rintro ⟨⟨low, high⟩, holds⟩
        by_cases before : a < previous.range.end_
        · exact .inl ⟨⟨low, before⟩, holds⟩
        · exact .inr ⟨⟨by omega, high⟩, by rw [← same a (by omega)]; exact holds⟩
      · rintro (⟨has, holds⟩ | ⟨has, holds⟩)
        · exact ⟨by omega, holds⟩
        · exact ⟨by omega, by rw [same a (by omega)]; exact holds⟩
    · obtain ⟨out', made, h⟩ := bind_ok h
      obtain ⟨ascending', low, covers⟩ := ih made tail
      have order := fromHead (t.tile fresh) mem_cons_self
      rw [tile_stop, tile_start] at order
      have ends := previous.range.start_lt_end
      rw [pure_ok h]
      refine ⟨?_, ?_, fun a m => ?_⟩
      · rw [map_cons, Ascending, pairwise_cons]
        refine ⟨?_, ascending'⟩
        rw [forall_mem_map]
        intro u hu
        have := low u hu
        rw [tile_stop, tile_start]
        omega
      · intro u hu
        rcases mem_cons.mp hu with rfl | hu
        · exact Nat.le_refl _
        · have := low u hu
          omega
      · rw [map_cons, covers_cons, covers a m]
        exact covers_cons.symm

theorem normalizeTemplates_ok {heap : Heap} {templates out : List RegionTemplate}
    (h : normalizeTemplates heap templates = .ok out) (apart : (templates.map (·.tile fresh)).Pairwise Tile.Apart) :
    Ascending (out.map (·.tile fresh)) ∧
    ∀ a m, Covers (out.map (·.tile fresh)) a m ↔ Covers (templates.map (·.tile fresh)) a m := by
  have perm := sortByKey_perm (fun t : RegionTemplate => t.range.start) templates
  have ascending := ascending_sort apart (fun t _ => t.range.start_lt_end)
  have same : ∀ a m, Covers ((sortByKey (·.range.start) templates).map (·.tile fresh)) a m ↔
      Covers (templates.map (·.tile fresh)) a m := fun a m => covers_perm (perm.map _)
  obtain ⟨_, _, h⟩ := bind_ok h
  split at h
  · rename_i empty
    rw [pure_ok h]
    refine ⟨List.Pairwise.nil, fun a m => ?_⟩
    rw [← same a m, empty]
  · rename_i first rest sorted
    have sorted' : sortByKey (fun x : RegionTemplate => (x.tile fresh).start) templates = first :: rest := sorted
    rw [sorted'] at ascending
    obtain ⟨ascending', _, covers⟩ := coalesce_ok h ascending
    refine ⟨ascending', fun a m => ?_⟩
    rw [covers a m, ← same a m, sorted]

end Halcyon.Space
