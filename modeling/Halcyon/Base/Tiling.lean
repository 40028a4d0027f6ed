import Mathlib.Data.List.Perm.Basic
import Mathlib.Data.List.Pairwise
import Mathlib.Data.List.Forall2
import Halcyon.Base.Lists

/-!
Tilings: lists of half-open stretches of positions, each with a value at every position it holds. Two lists of tiles
mean the same when they cover the same.
-/

namespace Halcyon

open List

variable {β : Type}

structure Tile (β : Type) where
  start : Nat
  stop : Nat
  value : Nat → β

namespace Tile

def Has (t : Tile β) (a : Nat) : Prop := t.start ≤ a ∧ a < t.stop

instance (t : Tile β) (a : Nat) : Decidable (t.Has a) := inferInstanceAs (Decidable (_ ∧ _))

def Apart (t u : Tile β) : Prop := t.stop ≤ u.start ∨ u.stop ≤ t.start

theorem apart_symm {t u : Tile β} (h : t.Apart u) : u.Apart t := Or.symm h

theorem not_has_of_apart {t u : Tile β} {a : Nat} (apart : t.Apart u) (inT : t.Has a) : ¬u.Has a := by
  intro inU
  unfold Has at inT inU
  rcases apart with h | h <;> omega

theorem apart_of_no_common {t u : Tile β} (ht : t.start < t.stop) (hu : u.start < u.stop)
    (h : ∀ a, t.Has a → ¬u.Has a) : t.Apart u := by
  by_contra close
  unfold Apart at close
  by_cases order : t.start ≤ u.start
  · exact h u.start ⟨order, by omega⟩ ⟨Nat.le_refl _, hu⟩
  · exact h t.start ⟨Nat.le_refl _, ht⟩ ⟨by omega, by omega⟩

end Tile

/-- Some tile holds position `a` with value `v`. -/
def Covers (tiles : List (Tile β)) (a : Nat) (v : β) : Prop := ∃ t ∈ tiles, t.Has a ∧ t.value a = v

def lookup (tiles : List (Tile β)) (a : Nat) : Option β :=
  (tiles.find? (fun t => decide (t.Has a))).map (·.value a)

/-- Tiles in ascending order without a common position. -/
def Ascending (tiles : List (Tile β)) : Prop := tiles.Pairwise (fun t u => t.stop ≤ u.start)

variable {tiles others : List (Tile β)} {t u : Tile β} {a : Nat} {v w : β}

@[simp] theorem covers_nil : ¬Covers ([] : List (Tile β)) a v := by simp [Covers]

theorem covers_cons : Covers (t :: tiles) a v ↔ (t.Has a ∧ t.value a = v) ∨ Covers tiles a v := by
  simp [Covers]

theorem covers_append : Covers (tiles ++ others) a v ↔ Covers tiles a v ∨ Covers others a v := by
  simp [Covers, or_and_right, exists_or]

theorem covers_perm (perm : tiles.Perm others) : Covers tiles a v ↔ Covers others a v := by
  simp only [Covers, perm.mem_iff]

theorem covers_unique (apart : tiles.Pairwise Tile.Apart) (first : Covers tiles a v)
    (second : Covers tiles a w) : v = w := by
  induction tiles with
  | nil => exact (covers_nil first).elim
  | cons t tiles ih =>
    obtain ⟨fromHead, rest⟩ := pairwise_cons.mp apart
    have excluded : ∀ {x : β}, t.Has a → ¬Covers tiles a x := by
      rintro x inHead ⟨u, member, inTail, _⟩
      exact Tile.not_has_of_apart (fromHead u member) inHead inTail
    rcases covers_cons.mp first with ⟨has, rfl⟩ | first <;>
      rcases covers_cons.mp second with ⟨has', rfl⟩ | second
    · rfl
    · exact (excluded has second).elim
    · exact (excluded has' first).elim
    · exact ih rest first second

theorem lookup_eq_some (apart : tiles.Pairwise Tile.Apart) : lookup tiles a = some v ↔ Covers tiles a v := by
  unfold lookup
  constructor
  · intro h
    obtain ⟨t, found, same⟩ := Option.map_eq_some_iff.mp h
    have has := find?_some found
    exact ⟨t, mem_of_find?_eq_some found, of_decide_eq_true has, same⟩
  · intro covers
    cases found : tiles.find? (fun t => decide (t.Has a)) with
    | none =>
      obtain ⟨t, member, has, _⟩ := covers
      exact absurd has (by simpa using find?_eq_none.mp found t member)
    | some t =>
      have has := find?_some found
      have here : Covers tiles a (t.value a) :=
        ⟨t, mem_of_find?_eq_some found, of_decide_eq_true has, rfl⟩
      simp [covers_unique apart here covers]

theorem lookup_eq_none : lookup tiles a = none ↔ ∀ v, ¬Covers tiles a v := by
  constructor
  · intro absent v covers
    obtain ⟨t, member, has, _⟩ := covers
    have missing := find?_eq_none.mp (Option.map_eq_none_iff.mp absent) t member
    simp [has] at missing
  · intro absent
    refine Option.map_eq_none_iff.mpr (find?_eq_none.mpr fun t member => ?_)
    intro has
    exact absent _ ⟨t, member, of_decide_eq_true has, rfl⟩

theorem lookup_congr (apart : tiles.Pairwise Tile.Apart) (apart' : others.Pairwise Tile.Apart)
    (same : ∀ v, Covers tiles a v ↔ Covers others a v) : lookup tiles a = lookup others a := by
  cases found : lookup others a with
  | none => exact lookup_eq_none.mpr fun v covers => lookup_eq_none.mp found v ((same v).mp covers)
  | some v => exact (lookup_eq_some apart).mpr ((same v).mpr ((lookup_eq_some apart').mp found))

theorem Ascending.apart (h : Ascending tiles) : tiles.Pairwise Tile.Apart :=
  List.Pairwise.imp (fun order => .inl order) h

theorem ascending_sort {α : Type} {f : α → Tile β} {xs : List α} (apart : (xs.map f).Pairwise Tile.Apart)
    (nonempty : ∀ x ∈ xs, (f x).start < (f x).stop) : Ascending ((sortByKey (fun x => (f x).start) xs).map f) := by
  have perm := sortByKey_perm (fun x => (f x).start) xs
  have apart' : ((sortByKey (fun x => (f x).start) xs).map f).Pairwise Tile.Apart :=
    (List.Perm.pairwise_iff Tile.apart_symm (perm.map f)).mpr apart
  unfold Ascending
  rw [pairwise_map] at apart' ⊢
  refine (apart'.and (sortByKey_sorted _ _)).imp_of_mem ?_
  intro x y hx hy h
  have hx' := nonempty x (perm.mem_iff.mp hx)
  have hy' := nonempty y (perm.mem_iff.mp hy)
  obtain ⟨order | order, sorted⟩ := h
  · exact order
  · omega

variable {γ : Type} {parts : List (List (Tile γ))} {P : Nat → β → γ → Prop}

/-- When the parts of each tile cover what `P` makes of the tile, all parts together cover what `P`
makes of the tiling. -/
theorem covers_refine {x : γ}
    (refined : List.Forall₂ (fun t us => ∀ a x, Covers us a x ↔ t.Has a ∧ P a (t.value a) x) tiles parts) :
    Covers parts.flatten a x ↔ ∃ v, Covers tiles a v ∧ P a v x := by
  induction refined with
  | nil => simp
  | cons first rest ih =>
    rw [flatten_cons, covers_append, first a x, ih]
    simp only [covers_cons, or_and_right, exists_or, and_assoc]
    refine or_congr_left ⟨fun ⟨has, holds⟩ => ⟨_, has, rfl, holds⟩, ?_⟩
    rintro ⟨v, has, rfl, holds⟩
    exact ⟨has, holds⟩

theorem apart_refine (apart : tiles.Pairwise Tile.Apart)
    (inside : List.Forall₂ (fun t us => us.Pairwise Tile.Apart ∧
      ∀ u ∈ us, t.start ≤ u.start ∧ u.stop ≤ t.stop) tiles parts) : parts.flatten.Pairwise Tile.Apart := by
  induction inside with
  | nil => exact List.Pairwise.nil
  | @cons t us ts uss first rest ih =>
    obtain ⟨fromHead, tail⟩ := pairwise_cons.mp apart
    rw [flatten_cons, pairwise_append]
    refine ⟨first.1, ih tail, ?_⟩
    intro u hu u' hu'
    obtain ⟨part, hp, hu'⟩ := mem_flatten.mp hu'
    obtain ⟨t', ht', _, inside'⟩ := forall₂_mem_right rest hp
    have bounds' := inside' u' hu'
    have bounds := first.2 u hu
    rcases fromHead t' ht' with order | order
    · exact .inl (by omega)
    · exact .inr (by omega)

end Halcyon
