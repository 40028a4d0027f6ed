import Mathlib.Data.Finset.Card
import Mathlib.Data.Finset.Interval
import Mathlib.Order.Interval.Finset.Nat
import Halcyon.Base.Lists

/-!
Half-open spans of natural numbers, and what lists of them cover: merging, clipping, and the gaps that a list
of cuts leaves.
-/

namespace Halcyon

open List

structure Span where
  start : Nat
  stop : Nat
  deriving DecidableEq

namespace Span

def Has (s : Span) (a : Nat) : Prop := s.start ≤ a ∧ a < s.stop

instance (s : Span) (a : Nat) : Decidable (s.Has a) := inferInstanceAs (Decidable (_ ∧ _))

def len (s : Span) : Nat := s.stop - s.start

def Apart (s t : Span) : Prop := s.stop ≤ t.start ∨ t.stop ≤ s.start

def Proper (s : Span) : Prop := s.start < s.stop

theorem not_has_of_apart {s t : Span} {a : Nat} (apart : s.Apart t) (inside : s.Has a) : ¬t.Has a := by
  rintro ⟨low, high⟩
  obtain ⟨low', high'⟩ := inside
  rcases apart with before | after <;> omega

theorem apart_of_no_common {s t : Span} (proper : s.Proper) (proper' : t.Proper) (h : ∀ a, s.Has a → ¬t.Has a) :
    s.Apart t := by
  by_contra close
  unfold Apart at close
  unfold Proper at proper proper'
  by_cases order : s.start ≤ t.start
  · exact h t.start ⟨order, by omega⟩ ⟨Nat.le_refl _, proper'⟩
  · exact h s.start ⟨Nat.le_refl _, proper⟩ ⟨by omega, by omega⟩

end Span

def Within (spans : List Span) (a : Nat) : Prop := ∃ s ∈ spans, s.Has a

instance (spans : List Span) (a : Nat) : Decidable (Within spans a) :=
  inferInstanceAs (Decidable (∃ s ∈ spans, s.Has a))

/-- Proper spans in ascending order, without a common number. -/
structure Ordered (spans : List Span) : Prop where
  proper : ∀ s ∈ spans, s.Proper
  ascending : spans.Pairwise fun s t => s.stop ≤ t.start

variable {spans others : List Span} {s t : Span} {a : Nat}

@[simp] theorem within_nil : ¬Within [] a := by simp [Within]

theorem within_cons : Within (s :: spans) a ↔ s.Has a ∨ Within spans a := by simp [Within]

theorem within_append : Within (spans ++ others) a ↔ Within spans a ∨ Within others a := by
  simp [Within, or_and_right, exists_or]

theorem within_perm (perm : spans.Perm others) : Within spans a ↔ Within others a := by
  simp only [Within, perm.mem_iff]

theorem within_flatMap {α : Type} {f : α → List Span} {xs : List α} :
    Within (xs.flatMap f) a ↔ ∃ x ∈ xs, Within (f x) a := by
  simp only [Within, mem_flatMap]
  constructor
  · rintro ⟨s, ⟨x, member, inside⟩, has⟩
    exact ⟨x, member, s, inside, has⟩
  · rintro ⟨x, member, s, inside, has⟩
    exact ⟨s, ⟨x, member, inside⟩, has⟩

theorem Ordered.apart (h : Ordered spans) : spans.Pairwise Span.Apart :=
  h.ascending.imp fun before => .inl before

theorem Ordered.tail (h : Ordered (s :: spans)) : Ordered spans :=
  ⟨fun t member => h.proper t (mem_cons_of_mem _ member), (pairwise_cons.mp h.ascending).2⟩

theorem ordered_nil : Ordered [] := ⟨nofun, .nil⟩

theorem ordered_append (first : Ordered spans) (second : Ordered others)
    (before : ∀ s ∈ spans, ∀ t ∈ others, s.stop ≤ t.start) : Ordered (spans ++ others) := by
  refine ⟨fun s member => ?_, pairwise_append.mpr ⟨first.ascending, second.ascending, before⟩⟩
  exact (mem_append.mp member).elim (first.proper s) (second.proper s)

theorem ordered_singleton (proper : s.Proper) : Ordered [s] :=
  ⟨fun _ member => mem_singleton.mp member ▸ proper, pairwise_singleton _ _⟩

def size (spans : List Span) : Nat := (spans.map Span.len).sum

theorem size_append : size (spans ++ others) = size spans + size others := by simp [size]

theorem size_eq_card {bound : Nat} (apart : spans.Pairwise Span.Apart) (below : ∀ s ∈ spans, s.stop ≤ bound) :
    size spans = ((Finset.range bound).filter fun a => Within spans a).card := by
  induction spans with
  | nil => simp [size]
  | cons s rest ih =>
    obtain ⟨first, apart⟩ := pairwise_cons.mp apart
    have tail := ih apart fun t member => below t (mem_cons_of_mem _ member)
    have top := below s mem_cons_self
    have one : ((Finset.range bound).filter s.Has).card = s.len := by
      have same : (Finset.range bound).filter s.Has = Finset.Ico s.start s.stop := by
        ext a
        simp only [Finset.mem_filter, Finset.mem_range, Finset.mem_Ico, Span.Has]
        omega
      rw [same, Nat.card_Ico, Span.len]
    have split : (Finset.range bound).filter (fun a => Within (s :: rest) a) =
        (Finset.range bound).filter s.Has ∪ (Finset.range bound).filter fun a => Within rest a := by
      ext a
      simp only [Finset.mem_filter, Finset.mem_union, within_cons]
      tauto
    have disjoint : Disjoint ((Finset.range bound).filter s.Has) ((Finset.range bound).filter fun a => Within rest a) := by
      rw [Finset.disjoint_filter]
      rintro a _ has ⟨t, member, has'⟩
      exact Span.not_has_of_apart (first t member) has has'
    rw [split, Finset.card_union_of_disjoint disjoint, one, ← tail]
    rfl

theorem size_congr (apart : spans.Pairwise Span.Apart) (apart' : others.Pairwise Span.Apart)
    (same : ∀ a, Within spans a ↔ Within others a) : size spans = size others := by
  let bound := ((spans ++ others).map Span.stop).sum
  have below : ∀ s ∈ spans ++ others, s.stop ≤ bound := fun s member => le_sum_of_mem (mem_map_of_mem member)
  rw [size_eq_card apart fun s member => below s (mem_append_left _ member),
    size_eq_card apart' fun s member => below s (mem_append_right _ member)]
  exact congrArg Finset.card (Finset.filter_congr fun a _ => same a)

/-- Merges a span into the last one if it does not start after its end. -/
def mergeLast (merged : List Span) (s : Span) : List Span :=
  match merged.getLast? with
  | some last =>
    if s.start ≤ last.stop then merged.dropLast ++ [{ last with stop := max last.stop s.stop }] else merged ++ [s]
  | none => merged ++ [s]

theorem mergeLast_cases (spans : List Span) (s : Span) :
    (mergeLast spans s = spans ++ [s] ∧ ∀ last, spans.getLast? = some last → last.stop < s.start) ∨
      ∃ front last, spans = front ++ [last] ∧ s.start ≤ last.stop ∧
        mergeLast spans s = front ++ [⟨last.start, max last.stop s.stop⟩] := by
  rcases eq_nil_or_concat spans with rfl | ⟨front, last, rfl⟩
  · exact .inl ⟨rfl, nofun⟩
  · rw [concat_eq_append, mergeLast, getLast?_append, getLast?_singleton, Option.some_or]
    dsimp only
    split
    · rename_i touches
      rw [dropLast_concat]
      exact .inr ⟨front, last, rfl, touches, rfl⟩
    · rename_i beyond
      refine .inl ⟨rfl, fun other same => ?_⟩
      cases same
      exact Nat.lt_of_not_le beyond

/-- Merged so far: in order, and nothing starts after what is still to come. -/
structure MergedTo (from_ : Nat) (spans : List Span) : Prop where
  ordered : Ordered spans
  before : ∀ s ∈ spans, s.start ≤ from_

theorem Ordered.before_last {front : List Span} {last : Span} (h : Ordered (front ++ [last])) :
    ∀ t ∈ front, t.stop ≤ last.start :=
  fun t member => (pairwise_append.mp h.ascending).2.2 t member last (mem_singleton_self _)

theorem Ordered.front {front : List Span} {last : Span} (h : Ordered (front ++ [last])) : Ordered front :=
  ⟨fun t member => h.proper t (mem_append_left _ member), (pairwise_append.mp h.ascending).1⟩

theorem mergeLast_merged (merged : MergedTo s.start spans) (proper : s.Proper) : MergedTo s.start (mergeLast spans s) := by
  have single : ∀ {t u : Span}, t ∈ [u] → t = u := mem_singleton.mp
  rcases mergeLast_cases spans s with ⟨same, beyond⟩ | ⟨front, last, rfl, touches, same⟩
  · rw [same]
    refine ⟨ordered_append merged.ordered (ordered_singleton proper) fun t member u new => ?_, fun t member => ?_⟩
    · cases single new
      rcases eq_nil_or_concat spans with rfl | ⟨front, last, rfl⟩
      · cases member
      · rw [concat_eq_append] at member merged beyond
        have gap := beyond last (by simp)
        rcases mem_append.mp member with old | new
        · have before := merged.ordered.before_last t old
          have proper := merged.ordered.proper last (by simp)
          unfold Span.Proper at proper
          omega
        · cases single new
          omega
    · rcases mem_append.mp member with old | new
      · exact merged.before t old
      · cases single new
        exact Nat.le_refl _
  · rw [same]
    have lastProper : last.start < last.stop := merged.ordered.proper last (by simp)
    refine ⟨ordered_append merged.ordered.front (ordered_singleton ?_) fun t member u new => ?_, fun t member => ?_⟩
    · exact Nat.lt_of_lt_of_le lastProper (Nat.le_max_left _ _)
    · cases single new
      exact merged.ordered.before_last t member
    · rcases mem_append.mp member with old | new
      · exact merged.before t (mem_append_left _ old)
      · cases single new
        exact merged.before last (by simp)

theorem mergeLast_within (merged : MergedTo s.start spans) : Within (mergeLast spans s) a ↔ Within spans a ∨ s.Has a := by
  rcases mergeLast_cases spans s with ⟨same, _⟩ | ⟨front, last, rfl, touches, same⟩
  · rw [same, within_append, within_cons]
    simp
  · have before := merged.before last (by simp)
    have one : Span.Has ⟨last.start, max last.stop s.stop⟩ a ↔ last.Has a ∨ s.Has a := by
      unfold Span.Has
      dsimp only
      omega
    rw [same, within_append, within_append, within_cons, within_cons, one, or_assoc, or_assoc]
    simp only [within_nil, or_false]

variable {P : Nat → Prop}

theorem mergeLast_ends (all : ∀ t ∈ spans, P t.start ∧ P t.stop) (ends : P s.start ∧ P s.stop) :
    ∀ t ∈ mergeLast spans s, P t.start ∧ P t.stop := by
  intro t member
  rcases mergeLast_cases spans s with ⟨same, _⟩ | ⟨front, last, rfl, _, same⟩
  · rw [same] at member
    rcases mem_append.mp member with old | new
    · exact all t old
    · cases mem_singleton.mp new
      exact ends
  · rw [same] at member
    rcases mem_append.mp member with old | new
    · exact all t (mem_append_left _ old)
    · cases mem_singleton.mp new
      have lastEnds := all last (by simp)
      refine ⟨lastEnds.1, ?_⟩
      rcases Nat.le_total last.stop s.stop with le | le
      · rw [show max last.stop s.stop = s.stop from Nat.max_eq_right le]
        exact ends.2
      · rw [show max last.stop s.stop = last.stop from Nat.max_eq_left le]
        exact lastEnds.2

/-- Sorted by their starts, then merged. -/
def normalized (spans : List Span) : List Span := (sortByKey Span.start spans).foldl mergeLast []

theorem foldl_mergeLast {rest : List Span} {from_ : Nat} (merged : MergedTo from_ spans)
    (sorted : rest.Pairwise fun s t => s.start ≤ t.start) (later : ∀ s ∈ rest, from_ ≤ s.start)
    (proper : ∀ s ∈ rest, s.Proper) :
    Ordered (rest.foldl mergeLast spans) ∧ ∀ a, Within (rest.foldl mergeLast spans) a ↔ Within spans a ∨ Within rest a := by
  induction rest generalizing spans from_ with
  | nil => exact ⟨merged.ordered, fun a => by simp⟩
  | cons s rest ih =>
    obtain ⟨least, sorted⟩ := pairwise_cons.mp sorted
    obtain ⟨first, later⟩ := forall_mem_cons.mp later
    obtain ⟨one, proper⟩ := forall_mem_cons.mp proper
    have here : MergedTo s.start spans :=
      ⟨merged.ordered, fun t member => Nat.le_trans (merged.before t member) first⟩
    obtain ⟨ordered, covers⟩ := ih (mergeLast_merged here one) sorted least proper
    refine ⟨ordered, fun a => ?_⟩
    rw [foldl_cons, covers a, mergeLast_within here, within_cons, or_assoc]

theorem normalized_spec (proper : ∀ s ∈ spans, s.Proper) :
    Ordered (normalized spans) ∧ ∀ a, Within (normalized spans) a ↔ Within spans a := by
  have perm := sortByKey_perm Span.start spans
  have start : MergedTo 0 [] := ⟨ordered_nil, nofun⟩
  have spec := foldl_mergeLast start (sortByKey_sorted Span.start spans) (fun s _ => Nat.zero_le _)
    fun s member => proper s (perm.mem_iff.mp member)
  refine ⟨spec.1, fun a => ?_⟩
  rw [normalized, spec.2 a, within_perm perm]
  simp

theorem normalized_ends (all : ∀ s ∈ spans, P s.start ∧ P s.stop) :
    ∀ s ∈ normalized spans, P s.start ∧ P s.stop := by
  have step : ∀ {rest merged : List Span}, (∀ s ∈ rest, P s.start ∧ P s.stop) →
      (∀ s ∈ merged, P s.start ∧ P s.stop) → ∀ s ∈ rest.foldl mergeLast merged, P s.start ∧ P s.stop := by
    intro rest
    induction rest with
    | nil => exact fun _ all => all
    | cons s rest ih =>
      intro merged inRest inMerged
      obtain ⟨one, inRest⟩ := forall_mem_cons.mp inRest
      exact ih inRest (mergeLast_ends inMerged one)
  exact step (fun s member => all s ((sortByKey_perm _ _).mem_iff.mp member)) nofun

theorem mergeLast_length (spans : List Span) (s : Span) : (mergeLast spans s).length ≤ spans.length + 1 := by
  rcases mergeLast_cases spans s with ⟨same, _⟩ | ⟨front, last, rfl, _, same⟩ <;> rw [same] <;> simp

theorem normalized_length (spans : List Span) : (normalized spans).length ≤ spans.length := by
  have step : ∀ {rest merged : List Span}, (rest.foldl mergeLast merged).length ≤ merged.length + rest.length := by
    intro rest
    induction rest with
    | nil => exact Nat.le_refl _
    | cons s rest ih =>
      intro merged
      have one := mergeLast_length merged s
      have others := @ih (mergeLast merged s)
      simp only [foldl_cons, length_cons]
      omega
  rw [← (sortByKey_perm Span.start spans).length_eq]
  exact Nat.le_trans step (by simp)

def between (start stop : Nat) : List Span := if start < stop then [⟨start, stop⟩] else []

variable {start stop : Nat}

theorem mem_between : s ∈ between start stop ↔ start < stop ∧ s = ⟨start, stop⟩ := by
  unfold between
  split <;> simp [*]

theorem within_between : Within (between start stop) a ↔ start ≤ a ∧ a < stop := by
  unfold between
  split
  · simp [within_cons, Span.Has]
  · simp only [within_nil, false_iff]
    omega

theorem between_empty (h : stop ≤ start) : between start stop = [] := if_neg (Nat.not_lt.mpr h)

theorem ordered_between (start stop : Nat) : Ordered (between start stop) := by
  unfold between
  split
  · rename_i less
    exact ordered_singleton less
  · exact ordered_nil

/-- What a list of cuts leaves of the numbers from a cursor up to an end. -/
def gaps (hi : Nat) : Nat → List Span → List Span
  | cursor, [] => between cursor hi
  | cursor, cut :: cuts =>
    if cut.stop ≤ cursor ∨ hi ≤ cut.start then gaps hi cursor cuts
    else between cursor cut.start ++ gaps hi (min cut.stop hi) cuts

section
variable {hi cursor : Nat} {cuts : List Span}

theorem gaps_missed {cut : Span} (missed : cut.stop ≤ cursor ∨ hi ≤ cut.start) :
    gaps hi cursor (cut :: cuts) = gaps hi cursor cuts := if_pos missed

theorem gaps_hit {cut : Span} (hit : ¬(cut.stop ≤ cursor ∨ hi ≤ cut.start)) :
    gaps hi cursor (cut :: cuts) = between cursor cut.start ++ gaps hi (min cut.stop hi) cuts := if_neg hit

theorem gaps_at_end : gaps hi hi cuts = [] := by
  induction cuts with
  | nil => exact between_empty (Nat.le_refl _)
  | cons cut cuts ih =>
    by_cases missed : cut.stop ≤ hi ∨ hi ≤ cut.start
    · rw [gaps_missed missed, ih]
    · rw [gaps_hit missed, between_empty (by omega), Nat.min_eq_right (by omega), ih]
      rfl

theorem gaps_between (ordered : Ordered cuts) (le : cursor ≤ hi) :
    Ordered (gaps hi cursor cuts) ∧ ∀ s ∈ gaps hi cursor cuts, cursor ≤ s.start ∧ s.stop ≤ hi := by
  induction cuts generalizing cursor with
  | nil =>
    refine ⟨ordered_between cursor hi, fun s member => ?_⟩
    obtain ⟨_, rfl⟩ := mem_between.mp member
    exact ⟨Nat.le_refl _, Nat.le_refl _⟩
  | cons cut cuts ih =>
    by_cases missed : cut.stop ≤ cursor ∨ hi ≤ cut.start
    · rw [gaps_missed missed]
      exact ih ordered.tail le
    · rw [gaps_hit missed]
      have proper : cut.start < cut.stop := ordered.proper cut mem_cons_self
      obtain ⟨rest, inside⟩ := ih ordered.tail (Nat.min_le_right cut.stop hi)
      refine ⟨ordered_append (ordered_between _ _) rest fun s member t later => ?_, fun s member => ?_⟩
      · obtain ⟨_, rfl⟩ := mem_between.mp member
        have start := (inside t later).1
        dsimp only
        omega
      · rcases mem_append.mp member with first | later
        · obtain ⟨_, rfl⟩ := mem_between.mp first
          exact ⟨Nat.le_refl _, by dsimp only; omega⟩
        · have bounds := inside s later
          omega

theorem within_gaps (ordered : Ordered cuts) (le : cursor ≤ hi) :
    Within (gaps hi cursor cuts) a ↔ cursor ≤ a ∧ a < hi ∧ ¬Within cuts a := by
  induction cuts generalizing cursor with
  | nil =>
    rw [gaps, within_between]
    simp
  | cons cut cuts ih =>
    have proper : cut.start < cut.stop := ordered.proper cut mem_cons_self
    have later : Within cuts a → cut.stop ≤ a := by
      rintro ⟨t, member, low, _⟩
      exact Nat.le_trans ((pairwise_cons.mp ordered.ascending).1 t member) low
    rw [within_cons]
    unfold Span.Has
    by_cases missed : cut.stop ≤ cursor ∨ hi ≤ cut.start
    · rw [gaps_missed missed, ih ordered.tail le]
      constructor
      · rintro ⟨low, high, outside⟩
        exact ⟨low, high, fun inside => inside.elim (fun has => by omega) outside⟩
      · rintro ⟨low, high, outside⟩
        exact ⟨low, high, fun inside => outside (.inr inside)⟩
    · rw [gaps_hit missed, within_append, within_between, ih ordered.tail (Nat.min_le_right _ _)]
      constructor
      · rintro (⟨low, high⟩ | ⟨low, high, outside⟩)
        · refine ⟨low, by omega, fun inside => inside.elim (fun has => by omega) fun inside => ?_⟩
          have beyond := later inside
          omega
        · exact ⟨by omega, high, fun inside => inside.elim (fun has => by omega) outside⟩
      · rintro ⟨low, high, outside⟩
        by_cases before : a < cut.start
        · exact .inl ⟨low, before⟩
        · refine .inr ⟨?_, high, fun inside => outside (.inr inside)⟩
          have beyond : ¬a < cut.stop := fun less => outside (.inl ⟨by omega, less⟩)
          omega

theorem gaps_ends (low : P cursor) (high : P hi) (all : ∀ s ∈ cuts, P s.start ∧ P s.stop) :
    ∀ s ∈ gaps hi cursor cuts, P s.start ∧ P s.stop := by
  induction cuts generalizing cursor with
  | nil =>
    intro s member
    obtain ⟨_, rfl⟩ := mem_between.mp member
    exact ⟨low, high⟩
  | cons cut cuts ih =>
    obtain ⟨one, all⟩ := forall_mem_cons.mp all
    intro s member
    by_cases missed : cut.stop ≤ cursor ∨ hi ≤ cut.start
    · rw [gaps_missed missed] at member
      exact ih low all s member
    · rw [gaps_hit missed] at member
      rcases mem_append.mp member with first | later
      · obtain ⟨_, rfl⟩ := mem_between.mp first
        exact ⟨low, one.1⟩
      · refine ih ?_ all s later
        rcases Nat.le_total cut.stop hi with le | le
        · rw [Nat.min_eq_left le]
          exact one.2
        · rw [Nat.min_eq_right le]
          exact high

def allGaps (cuts spans : List Span) : List Span := spans.flatMap fun s => gaps s.stop s.start cuts

theorem ordered_allGaps (ordered : Ordered spans) (cut : Ordered cuts) : Ordered (allGaps cuts spans) := by
  induction spans with
  | nil => exact ordered_nil
  | cons s rest ih =>
    obtain ⟨first, inside⟩ := gaps_between cut (Nat.le_of_lt (ordered.proper s mem_cons_self))
    refine ordered_append first (ih ordered.tail) fun piece member other later => ?_
    obtain ⟨next, inRest, member'⟩ := mem_flatMap.mp later
    have nextProper := ordered.proper next (mem_cons_of_mem _ inRest)
    have start := ((gaps_between cut (Nat.le_of_lt nextProper)).2 other member').1
    have stop := (inside piece member).2
    have order := (pairwise_cons.mp ordered.ascending).1 next inRest
    omega

theorem within_allGaps (proper : ∀ s ∈ spans, s.Proper) (cut : Ordered cuts) :
    Within (allGaps cuts spans) a ↔ Within spans a ∧ ¬Within cuts a := by
  rw [allGaps, within_flatMap]
  constructor
  · rintro ⟨s, member, inside⟩
    obtain ⟨low, high, outside⟩ := (within_gaps cut (Nat.le_of_lt (proper s member))).mp inside
    exact ⟨⟨s, member, low, high⟩, outside⟩
  · rintro ⟨⟨s, member, low, high⟩, outside⟩
    exact ⟨s, member, (within_gaps cut (Nat.le_of_lt (proper s member))).mpr ⟨low, high, outside⟩⟩

theorem allGaps_ends (all : ∀ s ∈ spans, P s.start ∧ P s.stop) (inCuts : ∀ s ∈ cuts, P s.start ∧ P s.stop) :
    ∀ s ∈ allGaps cuts spans, P s.start ∧ P s.stop := by
  intro piece member
  obtain ⟨s, inSpans, inside⟩ := mem_flatMap.mp member
  exact gaps_ends (all s inSpans).1 (all s inSpans).2 inCuts piece inside

end

end Halcyon
