import Mathlib.Algebra.BigOperators.Group.Multiset.Basic
import Mathlib.Algebra.Order.BigOperators.Group.Multiset
import Halcyon.Base.Lists

/-!
Claims against accounts. Each claim names a place and an amount; `owed` is what all claims on one place
come to.
-/

namespace Halcyon

variable {α β κ : Type} [DecidableEq κ] {place : α → κ} {amount : α → Nat}

/-- The sum of the claims on a place. -/
def owed (place : α → κ) (amount : α → Nat) (claims : Multiset α) (k : κ) : Nat :=
  ((claims.filter fun claim => place claim = k).map amount).sum

@[simp] theorem owed_zero (k : κ) : owed place amount 0 k = 0 := rfl

@[simp] theorem owed_add (s t : Multiset α) (k : κ) :
    owed place amount (s + t) k = owed place amount s k + owed place amount t k := by
  simp [owed]

theorem owed_singleton (a : α) (k : κ) : owed place amount {a} k = if place a = k then amount a else 0 := by
  unfold owed
  rw [Multiset.filter_singleton]
  split <;> simp

theorem owed_cons (a : α) (s : Multiset α) (k : κ) :
    owed place amount (a ::ₘ s) k = (if place a = k then amount a else 0) + owed place amount s k := by
  rw [← Multiset.singleton_add, owed_add, owed_singleton]

theorem owed_map (f : β → α) (s : Multiset β) (k : κ) :
    owed place amount (s.map f) k = owed (place ∘ f) (amount ∘ f) s k := by
  simp [owed, Multiset.filter_map, Multiset.map_map]

variable {s : Multiset α}

theorem le_owed {a : α} (member : a ∈ s) : amount a ≤ owed place amount s (place a) := by
  obtain ⟨rest, rfl⟩ := Multiset.exists_cons_of_mem member
  rw [owed_cons, if_pos rfl]
  exact Nat.le_add_right _ _

theorem place_of_owed_zero {a : α} {k : κ} (member : a ∈ s) (positive : 0 < amount a)
    (nothing : owed place amount s k = 0) : place a ≠ k := by
  rintro rfl
  have part : amount a ≤ owed place amount s (place a) := le_owed member
  omega

theorem owed_eq_zero {k : κ} (h : ∀ a ∈ s, place a ≠ k) : owed place amount s k = 0 := by
  unfold owed
  rw [Multiset.filter_eq_nil.mpr h]
  rfl

theorem sum_owed {places : Multiset κ} (distinct : places.Nodup) (inside : ∀ a ∈ s, place a ∈ places) :
    (places.map (owed place amount s)).sum = (s.map amount).sum := by
  induction s using Multiset.induction_on with
  | empty =>
    rw [Multiset.map_congr rfl fun k _ => owed_zero k]
    simp
  | cons a s ih =>
    have rest := ih fun b member => inside b (Multiset.mem_cons_of_mem member)
    obtain ⟨others, rfl⟩ := Multiset.exists_cons_of_mem (inside a (Multiset.mem_cons_self a s))
    have apart := (Multiset.nodup_cons.mp distinct).1
    have unmoved : others.map (owed place amount (a ::ₘ s)) = others.map (owed place amount s) := by
      refine Multiset.map_congr rfl fun k member => ?_
      have other : place a ≠ k := by
        rintro rfl
        exact apart member
      rw [owed_cons, if_neg other, Nat.zero_add]
    rw [Multiset.map_cons, Multiset.sum_cons, unmoved, owed_cons, if_pos rfl, Multiset.map_cons, Multiset.sum_cons]
    rw [Multiset.map_cons, Multiset.sum_cons] at rest
    omega

section
variable {xs : List α} {k : Nat} {x : α}

theorem coe_eraseIdx (h : xs[k]? = some x) : (xs : Multiset α) = {x} + (xs.eraseIdx k : Multiset α) := by
  obtain ⟨before, after, rfl, rfl⟩ := split_at_index h
  rw [eraseIdx_split]
  exact Multiset.coe_eq_coe.mpr List.perm_middle

theorem coe_set (h : xs[k]? = some x) (y : α) : (xs.set k y : Multiset α) = {y} + (xs.eraseIdx k : Multiset α) := by
  obtain ⟨before, after, rfl, rfl⟩ := split_at_index h
  rw [eraseIdx_split, set_split]
  exact Multiset.coe_eq_coe.mpr List.perm_middle

theorem set_same (h : xs[k]? = some x) : xs.set k x = xs := by
  obtain ⟨before, after, rfl, rfl⟩ := split_at_index h
  rw [set_split]

end

end Halcyon
