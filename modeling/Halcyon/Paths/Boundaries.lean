import Halcyon.Paths.Resolve

/-! What a provider can make of a walk by the boundaries it reports. -/

namespace Halcyon.Paths

open List

variable {G N : Type}

/-- The reported components, with one between them for a link, are all of `relative`. -/
def Covers (relative : List Text) (consumed remaining : Text) (withLink : Bool) : Prop :=
  ∃ skipped : List Text, skipped.length = withLink.toNat ∧ segments consumed ++ skipped ++ segments remaining = relative

section Verify

variable {relative names : List Text} {consumed remaining : Text} {withLink : Bool} {index count : Nat}

end Verify

namespace Walk

variable {table : List (MountEntry G)} {walk walk' : Walk G} {relative : List Text} {dir : G} {consumed target remaining : Text}

def Plain (walk : Walk G) : Prop := ∀ name ∈ walk.logical, name ≠ ['.'] ∧ name ≠ ['.', '.']

theorem foldl_fold_plain (names : List Text) (state : List Text × (Frame G × List (Frame G)) × Bool)
    (plain : ∀ name ∈ state.1, name ≠ ['.'] ∧ name ≠ ['.', '.']) :
    ∀ name ∈ (names.foldl fold state).1, name ≠ ['.'] ∧ name ≠ ['.', '.'] := by
  induction names generalizing state with
  | nil => exact plain
  | cons _ _ ih =>
    rw [foldl_cons]
    apply ih
    obtain ⟨_, _, _⟩ := state
    dsimp only [fold]
    split
    · exact plain
    · split
      · split
        · exact plain
        · exact fun name listed => plain name (mem_of_mem_dropLast listed)
      · exact forall_mem_concat plain ⟨‹_›, ‹_›⟩

theorem normalize_plain (walk : Walk G) : walk.normalize.Plain := foldl_fold_plain _ _ nofun

end Walk

/-- Where the walk of a path can be when it asks, whatever the providers answer. -/
inductive Reaches (table : List (MountEntry G)) (path : Text) : Walk G → Prop where
  | start {walk : Walk G} (entered : Walk.enter table path ⟨symlinkLimit, 0, 0⟩ = .ok walk) : Reaches table path walk.normalize
  | delegate {walk walk' : Walk G} {dir : G} {consumed remaining : Text} (before : Reaches table path walk)
    (accepted : walk.delegate dir consumed remaining = .ok walk') : Reaches table path walk'.normalize
  | link {walk walk' : Walk G} {consumed target remaining : Text} (before : Reaches table path walk)
    (accepted : walk.link table consumed target remaining = .ok walk') : Reaches table path walk'.normalize

theorem Reaches.plain {table : List (MountEntry G)} {path : Text} {walk : Walk G} (reached : Reaches table path walk) :
    walk.Plain := by
  cases reached with
  | start | delegate | link => exact Walk.normalize_plain _

section Questions

variable {table : List (MountEntry G)} {path : Text} {policy : ResolvePolicy}

end Questions

end Halcyon.Paths
