import Mathlib.Algebra.BigOperators.Group.Finset.Basic
import Mathlib.Algebra.Order.BigOperators.Group.List
import Mathlib.Algebra.Order.Ring.Nat
import Mathlib.Data.List.Destutter
import Mathlib.Data.List.Sort

/-! Sorting and selection by a numeric key, as the slice and iterator methods define them. -/

namespace Halcyon

open List

variable {α : Type}

/-- `Iterator::min_by_key`: the first least element. -/
def minByKey (key : α → Nat) : List α → Option α
  | [] => none
  | x :: xs => some (xs.foldl (fun best y => if key y < key best then y else best) x)

/-- `Iterator::max_by_key`: the last greatest element. -/
def maxByKey (key : α → Nat) : List α → Option α
  | [] => none
  | x :: xs => some (xs.foldl (fun best y => if key best ≤ key y then y else best) x)

/-- `sort_unstable_by_key`. Ties keep their order here; callers must not rely on it. -/
def sortByKey (key : α → Nat) (xs : List α) : List α :=
  xs.insertionSort (fun x y => key x ≤ key y)

variable {key : α → Nat} {xs : List α}

theorem sortByKey_perm (key : α → Nat) (xs : List α) : (sortByKey key xs).Perm xs := perm_insertionSort _ _

theorem sortByKey_sorted (key : α → Nat) (xs : List α) : (sortByKey key xs).Pairwise (fun x y => key x ≤ key y) := by
  have total : Std.Total (fun x y : α => key x ≤ key y) := ⟨fun x y => Nat.le_total _ _⟩
  have trans : IsTrans α (fun x y : α => key x ≤ key y) := ⟨fun _ _ _ => Nat.le_trans⟩
  exact pairwise_insertionSort _ _

variable {β : Type} {ys : List β} {x : α}

theorem forall₂_mem_right {R : α → β → Prop} (h : List.Forall₂ R xs ys) {y : β} (member : y ∈ ys) :
    ∃ x ∈ xs, R x y := by
  induction h with
  | nil => cases member
  | cons first _ ih =>
    rcases mem_cons.mp member with rfl | later
    · exact ⟨_, mem_cons_self, first⟩
    · obtain ⟨x, hx, holds⟩ := ih later
      exact ⟨x, mem_cons_of_mem _ hx, holds⟩

theorem forall₂_mem_left {R : α → β → Prop} (h : List.Forall₂ R xs ys) (member : x ∈ xs) : ∃ y ∈ ys, R x y :=
  forall₂_mem_right (R := fun y x => R x y) h.flip member

theorem pairwise_of_split {R : α → α → Prop}
    (h : ∀ before x middle y after, xs = before ++ x :: (middle ++ y :: after) → R x y) : xs.Pairwise R := by
  induction xs with
  | nil => exact .nil
  | cons x xs ih =>
    refine .cons (fun y member => ?_) (ih fun before z middle y after split =>
      h (x :: before) z middle y after (by rw [split]; rfl))
    obtain ⟨middle, after, split⟩ := append_of_mem member
    exact h [] x middle y after (by rw [split]; rfl)

theorem pairwise_of_countP {ι : Type} {test : ι → α → Bool} (once : ∀ i, xs.countP (test i) ≤ 1) :
    xs.Pairwise (fun x y => ∀ i, test i x = true → test i y = false) := by
  induction xs with
  | nil => exact .nil
  | cons x xs ih =>
    refine pairwise_cons.mpr ⟨fun y member i passes => ?_, ih fun i => ?_⟩
    · have count := once i
      rw [countP_cons_of_pos passes] at count
      have none : xs.countP (test i) = 0 := by omega
      exact Bool.eq_false_iff.mpr (countP_eq_zero.mp none y member)
    · exact Nat.le_trans ((sublist_cons_self x xs).countP_le) (once i)

theorem split_at_index {i : Nat} (h : xs[i]? = some x) :
    ∃ before after, xs = before ++ x :: after ∧ before.length = i := by
  obtain ⟨inside, rfl⟩ := List.getElem?_eq_some_iff.mp h
  refine ⟨xs.take i, xs.drop (i + 1), ?_, ?_⟩
  · rw [← drop_eq_getElem_cons, take_append_drop]
  · rw [length_take, Nat.min_eq_left (Nat.le_of_lt inside)]

theorem eraseIdx_split {before after : List α} :
    (before ++ x :: after).eraseIdx before.length = before ++ after := by
  rw [eraseIdx_append_of_length_le (Nat.le_refl _), Nat.sub_self]
  rfl

theorem forall_mem_concat {P : α → Prop} (old : ∀ y ∈ xs, P y) (last : P x) : ∀ y ∈ xs ++ [x], P y :=
  forall_mem_append.mpr ⟨old, forall_mem_singleton.mpr last⟩

theorem nodup_map_concat {f : α → β} (distinct : (xs.map f).Nodup) (fresh : ∀ y ∈ xs, f y ≠ f x) :
    ((xs ++ [x]).map f).Nodup := by
  rw [map_append, map_singleton, ← concat_eq_append]
  exact distinct.concat fun member => (mem_map.mp member).elim fun y same => fresh y same.1 same.2

theorem apart_of_eraseIdx {f : α → β} {i : Nat} (distinct : (xs.map f).Nodup) (found : xs[i]? = some x) :
    ∀ y ∈ xs.eraseIdx i, f y ≠ f x := by
  obtain ⟨before, after, rfl, rfl⟩ := split_at_index found
  intro y member same
  rw [eraseIdx_split] at member
  rw [map_append, map_cons, nodup_middle, nodup_cons, ← map_append] at distinct
  exact distinct.1 (mem_map.mpr ⟨y, member, same⟩)

theorem set_split {before after : List α} {y : α} :
    (before ++ x :: after).set before.length y = before ++ y :: after := by
  rw [set_append_right _ _ (Nat.le_refl _), Nat.sub_self]
  rfl

theorem map_eq_of_forall₂ {γ : Type} {f : α → γ} {g : β → γ} (h : List.Forall₂ (fun x y => f x = g y) xs ys) :
    xs.map f = ys.map g := by
  rw [← List.forall₂_eq_eq_eq, List.forall₂_map_left_iff, List.forall₂_map_right_iff]
  exact h

/-- Two marks stand in this order in a list that ends in `last`: both before it, or the second one is `last`. -/
theorem pair_sublist_concat {first second last : α} :
    List.Sublist [first, second] (xs ++ [last]) ↔ List.Sublist [first, second] xs ∨ first ∈ xs ∧ second = last := by
  constructor
  · intro within
    obtain ⟨left, right, split, inside, tail⟩ := sublist_append_iff.mp within
    rcases sublist_singleton.mp tail with rfl | rfl
    · rw [append_nil] at split
      exact .inl (split ▸ inside)
    · have parts : [first] ++ [second] = left ++ [last] := split
      obtain ⟨rfl, same⟩ := append_inj' parts rfl
      exact .inr ⟨singleton_sublist.mp inside, singleton_inj.mp same⟩
  · rintro (within | ⟨member, rfl⟩)
    · exact within.trans (sublist_append_left _ _)
    · exact (singleton_sublist.mpr member).append (List.Sublist.refl [second])

end Halcyon
