import Halcyon.Base.Outcome
import Halcyon.Base.SortedMap

/-!
The tree of an ordered table as `shared/ordered_table` builds it: nodes with their height in a byte, rotations, and
the recursive insertion and removal.
-/

namespace Halcyon.Ordered

/-- `Option<Box<Node>>`. -/
inductive Link (K V : Type) where
  | nil
  | node (key : K) (value : V) (height : Nat) (left right : Link K V)
  deriving DecidableEq

def heightMax : Nat := 255

variable {K V : Type}

def height : Link K V → Nat
  | .nil => 0
  | .node _ _ height _ _ => height

/-- A node with its height written; an overflow of the byte panics. -/
def updateHeight (key : K) (value : V) (left right : Link K V) : Outcome Empty (Link K V) := do
  let above := max (height left) (height right)
  assertThat (1 + above ≤ heightMax) "attempt to add with overflow"
  pure (.node key value (1 + above) left right)

def rotateLeft (key : K) (value : V) (left : Link K V) : Link K V → Outcome Empty (Link K V)
  | .nil => panicked "AVL left rotation lost pivot"
  | .node pivotKey pivotValue _ pivotLeft pivotRight => do
    let root ← updateHeight key value left pivotLeft
    updateHeight pivotKey pivotValue root pivotRight

def rotateRight (key : K) (value : V) (left right : Link K V) : Outcome Empty (Link K V) :=
  match left with
  | .nil => panicked "AVL right rotation lost pivot"
  | .node pivotKey pivotValue _ pivotLeft pivotRight => do
    let root ← updateHeight key value pivotRight right
    updateHeight pivotKey pivotValue pivotLeft root

def rebalance (key : K) (value : V) (left right : Link K V) : Outcome Empty (Link K V) := do
  let node ← updateHeight key value left right
  if height right + 1 < height left then
    match left with
    | .nil => panicked "AVL balance lost left child"
    | .node leftKey leftValue _ leftLeft leftRight =>
      if height leftLeft < height leftRight then do
        let left ← rotateLeft leftKey leftValue leftLeft leftRight
        rotateRight key value left right
      else rotateRight key value left right
  else if height left + 1 < height right then
    match right with
    | .nil => panicked "AVL balance lost right child"
    | .node rightKey rightValue _ rightLeft rightRight =>
      if height rightRight < height rightLeft then do
        let right ← rotateRight rightKey rightValue rightLeft rightRight
        rotateLeft key value left right
      else rotateLeft key value left right
  else pure node

def takeMin (key : K) (value : V) : Link K V → Link K V → Outcome Empty (Link K V × (K × V))
  | .nil, right => pure (right, (key, value))
  | .node leftKey leftValue _ leftLeft leftRight, right => do
    let (left, minimum) ← takeMin leftKey leftValue leftLeft leftRight
    let node ← rebalance key value left right
    pure (node, minimum)

variable [LinearOrder K]

def insertNode (key : K) (value : V) : Link K V → Outcome Empty (Link K V)
  | .nil => pure (.node key value 1 .nil .nil)
  | .node rootKey rootValue _ left right =>
    if key < rootKey then do
      let left ← insertNode key value left
      rebalance rootKey rootValue left right
    else if rootKey < key then do
      let right ← insertNode key value right
      rebalance rootKey rootValue left right
    else panicked "ordered table key inserted twice"

/-- The node of the removed key is replaced by its only child, or by the smallest entry of its right child. -/
def joinChildren : Link K V → Link K V → Outcome Empty (Link K V)
  | .nil, right => pure right
  | left, .nil => pure left
  | left, .node rightKey rightValue _ rightLeft rightRight => do
    let (right, successor) ← takeMin rightKey rightValue rightLeft rightRight
    rebalance successor.1 successor.2 left right

def removeNode (key : K) : Link K V → Outcome Empty (Link K V × Option V)
  | .nil => pure (.nil, none)
  | .node rootKey rootValue _ left right =>
    if key < rootKey then do
      let (left, removed) ← removeNode key left
      let node ← rebalance rootKey rootValue left right
      pure (node, removed)
    else if rootKey < key then do
      let (right, removed) ← removeNode key right
      let node ← rebalance rootKey rootValue left right
      pure (node, removed)
    else do
      let node ← joinChildren left right
      pure (node, some rootValue)

/-- The loop of `get_by`. -/
def getBy (key : K) : Link K V → Option V
  | .nil => none
  | .node rootKey rootValue _ left right =>
    if key < rootKey then getBy key left else if rootKey < key then getBy key right else some rootValue

/-- What the caller of `get_mut_by` writes through the reference. -/
def setBy (key : K) (value : V) : Link K V → Link K V
  | .nil => .nil
  | .node rootKey rootValue height left right =>
    if key < rootKey then .node rootKey rootValue height (setBy key value left) right
    else if rootKey < key then .node rootKey rootValue height left (setBy key value right)
    else .node rootKey value height left right

/-- The loop of `next_after`: `next` is the best entry so far. -/
def nextAfterFrom (cursor : Option K) (next : Option (K × V)) : Link K V → Option (K × V)
  | .nil => next
  | .node key value _ left right =>
    if cursor.all (fun cursor => cursor < key) then nextAfterFrom cursor (some (key, value)) left
    else nextAfterFrom cursor next right

/-! ### Balance

A tree stands for the list of its entries in order; rotations keep the list, and insertion and removal change it as a
sorted map does. No rotation misses its pivot and no height leaves its byte. -/

open Entries

section
omit [LinearOrder K]
variable {key k pk : K} {value v pv : V} {h : Nat} {l r t : Link K V}

def entries : Link K V → List (K × V)
  | .nil => []
  | .node key value _ left right => entries left ++ (key, value) :: entries right

def depth : Link K V → Nat
  | .nil => 0
  | .node _ _ _ left right => 1 + max (depth left) (depth right)

/-- At every node the stored height is exact and the children differ by at most one. -/
def Balanced : Link K V → Prop
  | .nil => True
  | .node _ _ height left right => Balanced left ∧ Balanced right ∧ height = 1 + max (depth left) (depth right) ∧
      depth left ≤ depth right + 1 ∧ depth right ≤ depth left + 1

theorem Balanced.height_eq (balanced : Balanced t) : height t = depth t := by
  cases t with
  | nil => rfl
  | node => exact balanced.2.2.1

theorem entries_split : entries (.node k v h l r) = (entries l ++ [(k, v)]) ++ entries r := List.append_cons _ _ _

theorem Balanced.size (balanced : Balanced t) : 2 ^ (depth t / 2) ≤ (entries t).length + 1 := by
  induction t with
  | nil => simp [depth, entries]
  | node _ _ _ left right ihLeft ihRight =>
    obtain ⟨balancedLeft, balancedRight, _, _, _⟩ := balanced
    have smaller := ihLeft balancedLeft
    have smaller' := ihRight balancedRight
    simp only [entries, List.length_append, List.length_cons, depth]
    cases deep : max (depth left) (depth right) with
    | zero => simp
    | succ d =>
      have less : 2 ^ (d / 2) ≤ 2 ^ (depth left / 2) := Nat.pow_le_pow_right Nat.two_pos (by omega)
      have less' : 2 ^ (d / 2) ≤ 2 ^ (depth right / 2) := Nat.pow_le_pow_right Nat.two_pos (by omega)
      have double : 2 ^ ((1 + (d + 1)) / 2) = 2 * 2 ^ (d / 2) := by
        rw [show (1 + (d + 1)) / 2 = d / 2 + 1 by omega, Nat.pow_succ, Nat.mul_comm]
      omega

theorem Balanced.shallow (balanced : Balanced t) (small : (entries t).length < 2 ^ 64) : depth t ≤ 129 := by
  have size := Nat.le_trans balanced.size small
  have half := (Nat.pow_le_pow_iff_right Nat.one_lt_two).mp size
  omega

def grown (key : K) (value : V) (left right : Link K V) : Link K V :=
  .node key value (1 + max (depth left) (depth right)) left right

@[simp] theorem entries_grown : entries (grown k v l r) = entries l ++ (k, v) :: entries r := rfl

@[simp] theorem depth_grown : depth (grown k v l r) = 1 + max (depth l) (depth r) := rfl

theorem Balanced.grown (left : Balanced l) (right : Balanced r) (leftHeavy : depth l ≤ depth r + 1)
    (rightHeavy : depth r ≤ depth l + 1) : Balanced (grown k v l r) :=
  ⟨left, right, rfl, leftHeavy, rightHeavy⟩

theorem updateHeight_grown (left : height l = depth l) (right : height r = depth r)
    (bound : max (depth l) (depth r) < heightMax) : updateHeight k v l r = .ok (grown k v l r) := by
  have fits : 1 + max (depth l) (depth r) ≤ heightMax := by omega
  simp only [updateHeight, left, right, fits, decide_true, assertThat, if_true, ok_bind]
  rfl

theorem rotateLeft_grown {pl pr : Link K V} (left : height l = depth l) (pivotLeft : height pl = depth pl)
    (pivotRight : height pr = depth pr) (bound : depth (grown k v l (.node pk pv h pl pr)) < heightMax) :
    rotateLeft k v l (.node pk pv h pl pr) = .ok (grown pk pv (grown k v l pl) pr) := by
  simp only [depth_grown, depth] at bound
  rw [rotateLeft, updateHeight_grown left pivotLeft (by omega), ok_bind,
    updateHeight_grown rfl pivotRight (by rw [depth_grown]; omega)]

theorem rotateRight_grown {pl pr : Link K V} (right : height r = depth r) (pivotLeft : height pl = depth pl)
    (pivotRight : height pr = depth pr) (bound : depth (grown k v (.node pk pv h pl pr) r) < heightMax) :
    rotateRight k v (.node pk pv h pl pr) r = .ok (grown pk pv pl (grown k v pr r)) := by
  simp only [depth_grown, depth] at bound
  rw [rotateRight, updateHeight_grown pivotRight right (by omega), ok_bind,
    updateHeight_grown pivotLeft rfl (by rw [depth_grown]; omega)]

/-- What `rebalance` makes of two balanced children. -/
structure Rebalanced (k : K) (v : V) (l r t : Link K V) : Prop where
  balanced : Balanced t
  entries : entries t = entries l ++ (k, v) :: entries r
  lower : max (depth l) (depth r) ≤ depth t
  upper : depth t ≤ 1 + max (depth l) (depth r)
  exact : depth l ≤ depth r + 1 → depth r ≤ depth l + 1 → depth t = 1 + max (depth l) (depth r)

theorem rebalance_spec (k : K) (v : V) (left : Balanced l) (right : Balanced r) (leftHeavy : depth l ≤ depth r + 2)
    (rightHeavy : depth r ≤ depth l + 2) (bound : max (depth l) (depth r) + 2 < heightMax) :
    ∃ t, rebalance k v l r = .ok t ∧ Rebalanced k v l r t := by
  unfold rebalance
  rw [updateHeight_grown left.height_eq right.height_eq (by omega), ok_bind, left.height_eq, right.height_eq]
  split
  · rename_i heavy
    cases l with
    | nil => exact absurd heavy (Nat.not_lt_zero _)
    | node lk lv lh ll lr =>
      obtain ⟨balancedLeft, balancedRight, _, close, close'⟩ := left
      simp only [depth] at heavy leftHeavy rightHeavy bound
      simp only [balancedLeft.height_eq, balancedRight.height_eq]
      split
      · -- the inner grandchild is the deep one and comes to the top
        rename_i inner
        cases lr with
        | nil => exact absurd inner (Nat.not_lt_zero _)
        | node mk mv mh ml mr =>
          obtain ⟨balancedMl, balancedMr, _, middle, middle'⟩ := balancedRight
          simp only [depth] at heavy leftHeavy rightHeavy bound close close' inner
          rw [rotateLeft_grown balancedLeft.height_eq balancedMl.height_eq balancedMr.height_eq
            (by simp only [depth_grown, depth]; omega), ok_bind, grown, rotateRight_grown right.height_eq rfl
            balancedMr.height_eq (by simp only [depth_grown, depth]; omega)]
          refine ⟨_, rfl, ?_, ?_, ?_, ?_, ?_⟩
          · exact Balanced.grown (balancedLeft.grown balancedMl (by omega) (by omega))
              (balancedMr.grown right (by omega) (by omega)) (by simp only [depth_grown]; omega)
              (by simp only [depth_grown]; omega)
          · simp [Ordered.entries]
          all_goals simp only [depth_grown, depth]; omega
      · rename_i outer
        rw [rotateRight_grown right.height_eq balancedLeft.height_eq balancedRight.height_eq
          (by simp only [depth_grown, depth]; omega)]
        refine ⟨_, rfl, ?_, ?_, ?_, ?_, ?_⟩
        · exact Balanced.grown balancedLeft (balancedRight.grown right (by omega) (by omega))
            (by simp only [depth_grown]; omega) (by simp only [depth_grown]; omega)
        · simp [Ordered.entries]
        all_goals simp only [depth_grown, depth]; omega
  · split
    · rename_i heavy
      cases r with
      | nil => exact absurd heavy (Nat.not_lt_zero _)
      | node rk rv rh rl rr =>
        obtain ⟨balancedLeft, balancedRight, _, close, close'⟩ := right
        simp only [depth] at heavy leftHeavy rightHeavy bound
        simp only [balancedLeft.height_eq, balancedRight.height_eq]
        split
        · rename_i inner
          cases rl with
          | nil => exact absurd inner (Nat.not_lt_zero _)
          | node mk mv mh ml mr =>
            obtain ⟨balancedMl, balancedMr, _, middle, middle'⟩ := balancedLeft
            simp only [depth] at heavy leftHeavy rightHeavy bound close close' inner
            rw [rotateRight_grown balancedRight.height_eq balancedMl.height_eq balancedMr.height_eq
              (by simp only [depth_grown, depth]; omega), ok_bind, grown, rotateLeft_grown left.height_eq
              balancedMl.height_eq rfl (by simp only [depth_grown, depth]; omega)]
            refine ⟨_, rfl, ?_, ?_, ?_, ?_, ?_⟩
            · exact Balanced.grown (left.grown balancedMl (by omega) (by omega))
                (balancedMr.grown balancedRight (by omega) (by omega)) (by simp only [depth_grown]; omega)
                (by simp only [depth_grown]; omega)
            · simp [Ordered.entries]
            all_goals simp only [depth_grown, depth]; omega
        · rename_i outer
          rw [rotateLeft_grown left.height_eq balancedLeft.height_eq balancedRight.height_eq
            (by simp only [depth_grown, depth]; omega)]
          refine ⟨_, rfl, ?_, ?_, ?_, ?_, ?_⟩
          · exact Balanced.grown (left.grown balancedLeft (by omega) (by omega)) balancedRight
              (by simp only [depth_grown]; omega) (by simp only [depth_grown]; omega)
          · simp [Ordered.entries]
          all_goals simp only [depth_grown, depth]; omega
    · exact ⟨_, rfl, left.grown right (by omega) (by omega), rfl, Nat.le_add_left _ _, Nat.le_refl _, fun _ _ => rfl⟩

theorem takeMin_spec (balanced : Balanced (.node k v h l r)) (bound : depth (.node k v h l r) + 2 < heightMax) :
    ∃ t' minimum, takeMin k v l r = .ok (t', minimum) ∧ Balanced t' ∧
      entries (.node k v h l r) = minimum :: entries t' ∧ depth t' ≤ depth (.node k v h l r) ∧
      depth (.node k v h l r) ≤ depth t' + 1 := by
  induction l generalizing k v h r with
  | nil =>
    obtain ⟨_, right, _, _, rightHeavy⟩ := balanced
    refine ⟨r, (k, v), rfl, right, rfl, ?_, ?_⟩
    all_goals simp only [depth] at rightHeavy ⊢; omega
  | node lk lv lh ll lr ih =>
    obtain ⟨left, right, _, _, _⟩ := balanced
    have deeper : depth (.node lk lv lh ll lr) < depth (.node k v h (.node lk lv lh ll lr) r) := by
      simp only [depth]
      omega
    obtain ⟨_, minimum, taken, balanced', first, _, _⟩ := ih left (by omega)
    have whole : depth (.node k v h (.node lk lv lh ll lr) r) = 1 + max (depth (.node lk lv lh ll lr)) (depth r) := rfl
    obtain ⟨t', done, after, list, _, _, _⟩ := rebalance_spec k v balanced' right (by omega) (by omega)
      (by omega)
    refine ⟨t', minimum, ?_, after, ?_, by omega, by omega⟩
    · rw [takeMin, taken, ok_bind]
      simp only [done, ok_bind]
      rfl
    · rw [list, entries, first, List.cons_append]

theorem joinChildren_spec (left : Balanced l) (right : Balanced r) (leftHeavy : depth l ≤ depth r + 1)
    (rightHeavy : depth r ≤ depth l + 1) (bound : max (depth l) (depth r) + 2 < heightMax) :
    ∃ t', joinChildren l r = .ok t' ∧ Balanced t' ∧ entries t' = entries l ++ entries r ∧
      max (depth l) (depth r) ≤ depth t' ∧ depth t' ≤ 1 + max (depth l) (depth r) := by
  cases l with
  | nil =>
    refine ⟨r, rfl, right, rfl, ?_, ?_⟩
    all_goals simp only [depth]; omega
  | node =>
    cases r with
    | nil =>
      refine ⟨_, rfl, left, (List.append_nil _).symm, ?_, ?_⟩
      all_goals simp only [depth]; omega
    | node =>
      obtain ⟨_, successor, taken, balanced', first, _, _⟩ := takeMin_spec right (by omega)
      obtain ⟨t', done, after, list, _, _, _⟩ := rebalance_spec successor.1 successor.2 left balanced'
        (by omega) (by omega) (by omega)
      refine ⟨t', ?_, after, ?_, by omega, by omega⟩
      · simp only [joinChildren, taken, ok_bind, done]
      · rw [list, first]

end

section
variable {key k : K} {value v : V} {h : Nat} {l r t : Link K V}

theorem absent_behind (above : ∀ e ∈ entries r, k < e.1) (less : key < k) : ∀ e ∈ (k, v) :: entries r, e.1 ≠ key :=
  List.forall_mem_cons.mpr ⟨less.ne', fun e inside => (less.trans (above e inside)).ne'⟩

theorem absent_before (below : ∀ e ∈ entries l, e.1 < k) (more : k < key) : ∀ e ∈ entries l ++ [(k, v)], e.1 ≠ key :=
  forall_mem_concat (fun e inside => ((below e inside).trans more).ne) more.ne

theorem insertNode_spec (value : V) (balanced : Balanced t) (sorted : Sorted (entries t)) (absent : ∀ e ∈ entries t, e.1 ≠ key)
    (bound : depth t + 3 < heightMax) :
    ∃ t', insertNode key value t = .ok t' ∧ Balanced t' ∧ entries t' = insert key value (entries t) ∧
      depth t ≤ depth t' ∧ depth t' ≤ depth t + 1 := by
  induction t with
  | nil => exact ⟨_, rfl, ⟨trivial, trivial, rfl, Nat.zero_le _, Nat.zero_le _⟩, rfl, Nat.zero_le _, Nat.le_refl _⟩
  | node k v h l r ihLeft ihRight =>
    obtain ⟨left, right, _, leftHeavy, rightHeavy⟩ := balanced
    obtain ⟨sortedLeft, sortedRight, below, above⟩ := sorted.split
    have whole : depth (.node k v h l r) = 1 + max (depth l) (depth r) := rfl
    rw [insertNode]
    split
    · rename_i less
      obtain ⟨l', inserted, balanced', list, lower, upper⟩ := ihLeft left sortedLeft
        (fun e inside => absent e (List.mem_append_left _ inside)) (by omega)
      obtain ⟨t', done, after, list', lower', upper', same⟩ := rebalance_spec k v balanced' right (by omega) (by omega)
        (by omega)
      refine ⟨t', ?_, after, ?_, by omega, by omega⟩
      · rw [inserted, ok_bind]
        exact done
      · rw [list', list, entries, insert_append_left]
        exact List.forall_mem_cons.mpr ⟨less, fun e inside => less.trans (above e inside)⟩
    · split
      · rename_i more
        obtain ⟨r', inserted, balanced', list, lower, upper⟩ := ihRight right sortedRight
          (fun e inside => absent e (List.mem_append_right _ (List.mem_cons_of_mem _ inside))) (by omega)
        obtain ⟨t', done, after, list', lower', upper', same⟩ := rebalance_spec k v left balanced' (by omega) (by omega)
          (by omega)
        refine ⟨t', ?_, after, ?_, by omega, by omega⟩
        · rw [inserted, ok_bind]
          exact done
        · have front : ∀ e ∈ entries l ++ [(k, v)], e.1 < key :=
            forall_mem_concat (fun e inside => (below e inside).trans more) more
          rw [list', list, entries_split, insert_append_right front, ← List.append_cons]
      · rename_i less more
        have same : k = key := le_antisymm (not_lt.mp less) (not_lt.mp more)
        exact (absent (k, v) (List.mem_append_right _ List.mem_cons_self) same).elim

theorem removeNode_spec (key : K) (balanced : Balanced t) (sorted : Sorted (entries t)) (bound : depth t + 2 < heightMax) :
    ∃ t', removeNode key t = .ok (t', find key (entries t)) ∧ Balanced t' ∧ entries t' = erase key (entries t) ∧
      depth t' ≤ depth t ∧ depth t ≤ depth t' + 1 := by
  induction t with
  | nil => exact ⟨.nil, rfl, trivial, rfl, Nat.le_refl _, Nat.zero_le _⟩
  | node k v h l r ihLeft ihRight =>
    obtain ⟨left, right, _, leftHeavy, rightHeavy⟩ := balanced
    obtain ⟨sortedLeft, sortedRight, below, above⟩ := sorted.split
    have whole : depth (.node k v h l r) = 1 + max (depth l) (depth r) := rfl
    rw [removeNode]
    split
    · rename_i less
      have others : ∀ e ∈ (k, v) :: entries r, e.1 ≠ key := absent_behind above less
      obtain ⟨l', removed, balanced', list, lower, upper⟩ := ihLeft left sortedLeft (by omega)
      obtain ⟨t', done, after, list', lower', upper', same⟩ := rebalance_spec k v balanced' right (by omega) (by omega)
        (by omega)
      refine ⟨t', ?_, after, ?_, by omega, by omega⟩
      · simp only [removed, ok_bind, done, entries, find_append_left others]
        rfl
      · rw [list', list, entries, erase_append, erase_absent others]
    · split
      · rename_i more
        have others : ∀ e ∈ entries l ++ [(k, v)], e.1 ≠ key := absent_before below more
        obtain ⟨r', removed, balanced', list, lower, upper⟩ := ihRight right sortedRight (by omega)
        obtain ⟨t', done, after, list', lower', upper', same⟩ := rebalance_spec k v left balanced' (by omega) (by omega)
          (by omega)
        refine ⟨t', ?_, after, ?_, by omega, by omega⟩
        · rw [entries_split, find_append_right others]
          simp only [removed, ok_bind, done]
          rfl
        · rw [list', list, entries_split, erase_append, erase_absent others, ← List.append_cons]
      · rename_i less more
        have same : k = key := le_antisymm (not_lt.mp less) (not_lt.mp more)
        subst same
        have before : ∀ e ∈ entries l, e.1 ≠ k := fun e inside => (below e inside).ne
        have behind : ∀ e ∈ entries r, e.1 ≠ k := fun e inside => (above e inside).ne'
        obtain ⟨t', joined, balanced', list, lower, upper⟩ := joinChildren_spec left right leftHeavy rightHeavy (by omega)
        refine ⟨t', ?_, balanced', ?_, by omega, by omega⟩
        · simp only [joined, ok_bind, entries, find_append_right before, find_cons_self]
          rfl
        · rw [list, entries_split, erase_append, erase_append, erase_absent before, erase_absent behind]
          simp [erase]

theorem getBy_eq (sorted : Sorted (entries t)) : getBy key t = find key (entries t) := by
  induction t with
  | nil => rfl
  | node k v h l r ihLeft ihRight =>
    obtain ⟨sortedLeft, sortedRight, below, above⟩ := sorted.split
    rw [getBy, entries]
    split
    · rename_i less
      rw [ihLeft sortedLeft, find_append_left (absent_behind above less)]
    · split
      · rename_i more
        rw [ihRight sortedRight, List.append_cons, find_append_right (absent_before below more)]
      · rename_i less more
        have same : k = key := le_antisymm (not_lt.mp less) (not_lt.mp more)
        subst same
        rw [find_append_right (fun e inside => (below e inside).ne), find_cons_self]

theorem depth_setBy : depth (setBy key value t) = depth t := by
  induction t with
  | nil => rfl
  | node _ _ _ _ _ ihLeft ihRight =>
    rw [setBy]
    split
    · rw [depth, ihLeft, depth]
    · split
      · rw [depth, ihRight, depth]
      · rfl

theorem Balanced.setBy (balanced : Balanced t) : Balanced (setBy key value t) := by
  induction t with
  | nil => exact trivial
  | node _ _ _ _ _ ihLeft ihRight =>
    obtain ⟨left, right, exact_, heavy⟩ := balanced
    rw [Ordered.setBy]
    split
    · refine ⟨ihLeft left, right, ?_⟩
      rw [depth_setBy]
      exact ⟨exact_, heavy⟩
    · split
      · refine ⟨left, ihRight right, ?_⟩
        rw [depth_setBy]
        exact ⟨exact_, heavy⟩
      · exact ⟨left, right, exact_, heavy⟩

theorem entries_setBy (sorted : Sorted (entries t)) : entries (setBy key value t) = write key value (entries t) := by
  induction t with
  | nil => rfl
  | node k v h l r ihLeft ihRight =>
    obtain ⟨sortedLeft, sortedRight, below, above⟩ := sorted.split
    rw [setBy, entries, write_append]
    split
    · rename_i less
      rw [entries, ihLeft sortedLeft, write_absent (absent_behind above less)]
    · split
      · rename_i more
        rw [entries, ihRight sortedRight, write_absent fun e inside => ((below e inside).trans more).ne]
        simp [write, more.ne]
      · rename_i less more
        have same : k = key := le_antisymm (not_lt.mp less) (not_lt.mp more)
        subst same
        rw [entries, write_absent fun e inside => (below e inside).ne, List.append_cancel_left_eq]
        have rest : write k value (entries r) = entries r := write_absent fun e inside => (above e inside).ne'
        simpa [write] using rest.symm

theorem nextAfterFrom_eq {cursor : Option K} {next : Option (K × V)} (sorted : Sorted (entries t)) :
    nextAfterFrom cursor next t = (after cursor (entries t)).or next := by
  induction t generalizing next with
  | nil => cases cursor <;> rfl
  | node k v h l r ihLeft ihRight =>
    obtain ⟨sortedLeft, sortedRight, below, above⟩ := sorted.split
    rw [nextAfterFrom, entries]
    split
    · rename_i before
      rw [ihLeft sortedLeft]
      cases cursor with
      | none =>
        simp only [after, List.head?_append, List.head?_cons]
        cases (entries l).head? <;> rfl
      | some cursor =>
        have before : cursor < k := by simpa using before
        simp only [after, List.find?_append, List.find?_cons, decide_eq_true before]
        cases (entries l).find? fun e => cursor < e.1 <;> rfl
    · rename_i past
      cases cursor with
      | none => exact absurd rfl past
      | some cursor =>
        have past : k ≤ cursor := by simpa using past
        have none_ : ((entries l ++ [(k, v)]).find? fun e => cursor < e.1) = none := by
          refine List.find?_eq_none.mpr (List.forall_mem_append.mpr ⟨fun e inside => ?_, ?_⟩)
          · simpa using (below e inside).le.trans past
          · exact List.forall_mem_singleton.mpr (by simpa using past)
        rw [ihRight sortedRight, List.append_cons, after, after, List.find?_append, none_, Option.none_or]

end

end Halcyon.Ordered
