import Halcyon.Dtb.Blob

/-!
The tree that the tokens of a blob spell. The validator counts depth in one pass and keeps nothing; what it
accepts is nevertheless exactly a tree, and later walks stay inside it.
-/

namespace Halcyon.Dtb

/-- What stands in a node up to its `END_NODE`, in document order. A child begins at `off`. -/
inductive Members where
  | nil
  | nop (rest : Members)
  | prop (name : Text) (data : Bytes) (rest : Members)
  | child (off : Nat) (name : Text) (inside rest : Members)
  deriving DecidableEq

def Members.tokens : Members → Nat
  | .nil => 1
  | .nop rest => rest.tokens + 1
  | .prop _ _ rest => rest.tokens + 1
  | .child _ _ inside rest => inside.tokens + rest.tokens + 1

variable {fdt : Fdt} {item : Item} {name : Text} {data : Bytes} {members rest : Members}
  {pos next stop last turns depth : Nat}

/-- There is a token at this position, and the next one begins at `next`. -/
def Reads (fdt : Fdt) (pos : Nat) (item : Item) (next : Nat) : Prop := fdt.itemAt pos = (.ok item, next)

/-- The tokens from `pos` to `stop` are these members and the end of their node. -/
inductive Spells (fdt : Fdt) : Members → Nat → Nat → Prop where
  | nil {pos stop : Nat} (here : Reads fdt pos .endNode stop) : Spells fdt .nil pos stop
  | nop {rest : Members} {pos next stop : Nat} (here : Reads fdt pos .nop next) (later : Spells fdt rest next stop) :
    Spells fdt (.nop rest) pos stop
  | prop {name : Text} {data : Bytes} {rest : Members} {pos next stop : Nat} (here : Reads fdt pos (.prop name data) next)
    (later : Spells fdt rest next stop) : Spells fdt (.prop name data rest) pos stop
  | child {name : Text} {inside rest : Members} {pos inner next stop : Nat} (here : Reads fdt pos (.beginNode name) inner)
    (within : Spells fdt inside inner next) (later : Spells fdt rest next stop) :
    Spells fdt (.child pos name inside rest) pos stop

/-- A node with this name and these members begins at `off`. -/
structure NodeAt (fdt : Fdt) (off : Nat) (name : Text) (members : Members) (stop : Nat) : Prop where
  inner : ∃ inner, Reads fdt off (.beginNode name) inner ∧ Spells fdt members inner stop

inductive Tail (fdt : Fdt) : Nat → Nat → Prop where
  | fdtEnd {pos last : Nat} (here : Reads fdt pos .fdtEnd last) : Tail fdt pos last
  | nop {pos next last : Nat} (here : Reads fdt pos .nop next) (later : Tail fdt next last) : Tail fdt pos last

/-- The token stream of a blob: a root and what may follow it, up to `last`. -/
structure Document (fdt : Fdt) (name : Text) (members : Members) (last : Nat) : Prop where
  ends : ∃ stop, NodeAt fdt fdt.dtStruct.start name members stop ∧ Tail fdt stop last

variable {bytes : Bytes}

theorem be32_inside {value : Nat} (h : be32 bytes pos = some value) : pos + 4 ≤ bytes.length := by
  obtain ⟨_, found, -⟩ := Option.map_eq_some_iff.mp h
  exact (slice?_some found).2.1

theorem scanNul_le (h : scanNul bytes turns pos = .ok stop) : pos ≤ stop := by
  induction turns generalizing pos with
  | zero => exact Nat.le_of_eq (pure_ok h).symm
  | succ turns ih =>
    obtain ⟨byte, -, h⟩ := bind_ok h
    split at h
    · exact Nat.le_of_eq (pure_ok h).symm
    · have le := ih h
      omega

theorem le_align4 (n : Nat) : n ≤ align4 n := by
  unfold align4
  omega

theorem advance_ok {α : Type} {x : Outcome FdtError (α × Nat)} {value : α} (h : advance pos x = (.ok value, next)) :
    x = .ok (value, next) := by
  cases x with
  | error stop => cases h
  | ok pair =>
    cases h
    rfl

theorem Fdt.beginNodeAt_le (h : fdt.beginNodeAt pos = .ok (item, next)) : pos ≤ next := by
  obtain ⟨stop, scanned, h⟩ := bind_ok h
  obtain ⟨_, _, h⟩ := bind_ok h
  obtain ⟨bytes, _, h⟩ := bind_ok h
  obtain ⟨name, _, h⟩ := bind_ok h
  cases pure_ok h
  have le := scanNul_le scanned
  have aligned := le_align4 (stop + 1)
  omega

theorem Fdt.propValueAt_le {len nameoff : Nat} (h : fdt.propValueAt len nameoff pos = .ok (item, next)) : pos ≤ next := by
  obtain ⟨dataStop, sum, h⟩ := bind_ok h
  obtain ⟨_, _, h⟩ := bind_ok h
  obtain ⟨name, _, h⟩ := bind_ok h
  obtain ⟨data, _, h⟩ := bind_ok h
  cases pure_ok h
  obtain ⟨rfl, -⟩ := checkedAdd_some (okOr_ok sum)
  have aligned := le_align4 (pos + len)
  omega

theorem Fdt.propAt_le (h : fdt.propAt pos = (.ok item, next)) : pos ≤ next := by
  unfold propAt at h
  split at h
  · cases h
  · split at h
    · cases h
    · have le := propValueAt_le (advance_ok h)
      omega

theorem Reads.advances (h : Reads fdt pos item next) : pos + 4 ≤ next ∧ pos + 4 ≤ fdt.data.length := by
  unfold Reads Fdt.itemAt at h
  split at h
  · cases h
  · rename_i tok found
    refine ⟨?_, be32_inside found⟩
    split at h
    · exact Fdt.beginNodeAt_le (advance_ok h)
    split at h
    · cases h
      exact Nat.le_refl _
    split at h
    · exact Fdt.propAt_le h
    split at h
    · cases h
      exact Nat.le_refl _
    split at h
    · cases h
      exact Nat.le_refl _
    · cases h

theorem Reads.unique {item' : Item} {next' : Nat} (h : Reads fdt pos item next) (h' : Reads fdt pos item' next') :
    item = item' ∧ next = next' := by
  have same := h.symm.trans h'
  cases same
  exact ⟨rfl, rfl⟩

variable {members' : Members}

theorem Spells.unique {stop' : Nat} (h : Spells fdt members pos stop)
    (h' : Spells fdt members' pos stop') : members = members' ∧ stop = stop' := by
  induction h generalizing members' stop' with
  | nil here =>
    cases h' with
    | nil here' => exact ⟨rfl, (here.unique here').2⟩
    | nop here' | prop here' | child here' => cases (here.unique here').1
  | nop here later ih =>
    cases h' with
    | nil here' | prop here' | child here' => cases (here.unique here').1
    | nop here' later' =>
      obtain ⟨-, rfl⟩ := here.unique here'
      obtain ⟨rfl, rfl⟩ := ih later'
      exact ⟨rfl, rfl⟩
  | prop here later ih =>
    cases h' with
    | nil here' | nop here' | child here' => cases (here.unique here').1
    | prop here' later' =>
      obtain ⟨same, rfl⟩ := here.unique here'
      cases same
      obtain ⟨rfl, rfl⟩ := ih later'
      exact ⟨rfl, rfl⟩
  | child here within later ihWithin ihLater =>
    cases h' with
    | nil here' | nop here' | prop here' => cases (here.unique here').1
    | child here' within' later' =>
      obtain ⟨same, rfl⟩ := here.unique here'
      cases same
      obtain ⟨rfl, rfl⟩ := ihWithin within'
      obtain ⟨rfl, rfl⟩ := ihLater later'
      exact ⟨rfl, rfl⟩

theorem NodeAt.unique {off stop' : Nat} {name' : Text} (h : NodeAt fdt off name members stop)
    (h' : NodeAt fdt off name' members' stop') : name = name' ∧ members = members' ∧ stop = stop' := by
  obtain ⟨inner, reads, spells⟩ := h
  obtain ⟨inner', reads', spells'⟩ := h'
  obtain ⟨same, rfl⟩ := reads.unique reads'
  cases same
  exact ⟨rfl, spells.unique spells'⟩

theorem Tail.unique {last' : Nat} (h : Tail fdt pos last) (h' : Tail fdt pos last') : last = last' := by
  induction h with
  | fdtEnd here =>
    cases h' with
    | fdtEnd here' => exact (here.unique here').2
    | nop here' => cases (here.unique here').1
  | nop here later ih =>
    cases h' with
    | fdtEnd here' => cases (here.unique here').1
    | nop here' later' =>
      obtain ⟨-, rfl⟩ := here.unique here'
      exact ih later'

theorem Document.unique {name' : Text} {last' : Nat} (h : Document fdt name members last)
    (h' : Document fdt name' members' last') : name = name' ∧ members = members' ∧ last = last' := by
  obtain ⟨stop, node, tail⟩ := h
  obtain ⟨stop', node', tail'⟩ := h'
  obtain ⟨rfl, rfl, rfl⟩ := node.unique node'
  exact ⟨rfl, rfl, tail.unique tail'⟩

theorem Spells.tokens_le (h : Spells fdt members pos stop) :
    pos + 4 * members.tokens ≤ stop ∧ pos + 4 * members.tokens ≤ fdt.data.length := by
  induction h with
  | nil here => exact here.advances
  | nop here later ih | prop here later ih | child here within later ihWithin ihLater =>
    have step := here.advances
    simp only [Members.tokens]
    omega

theorem Spells.enough_turns (h : Spells fdt members pos stop) : ∃ more, fdt.data.length = more + members.tokens := by
  have few := h.tokens_le
  exact ⟨_, (Nat.sub_add_cancel (by omega)).symm⟩

namespace Fdt

theorem skipItems_closed : fdt.skipItems turns 0 pos = .ok pos := by
  cases turns <;> rfl

theorem skipItems_spelled (h : Spells fdt members pos stop) :
    fdt.skipItems (turns + members.tokens) (depth + 1) pos = fdt.skipItems turns depth stop := by
  induction h generalizing turns depth with
  | nil here =>
    rw [Members.tokens, skipItems, here]
  | @nop rest pos next stop here later ih =>
    rw [Members.tokens, ← Nat.add_assoc, skipItems, here]
    exact ih
  | @prop name data rest pos next stop here later ih =>
    rw [Members.tokens, ← Nat.add_assoc, skipItems, here]
    exact ih
  | @child name inside rest pos inner next stop here within later ihWithin ihLater =>
    have turnsIs : turns + (inside.tokens + rest.tokens + 1) = turns + rest.tokens + inside.tokens + 1 := by omega
    rw [Members.tokens, turnsIs, skipItems, here]
    exact ihWithin.trans ihLater

theorem skipSubtree_node {off : Nat} (h : NodeAt fdt off name members stop) : fdt.skipSubtree off = .ok stop := by
  obtain ⟨inner, reads, spells⟩ := h
  obtain ⟨more, enough⟩ := spells.enough_turns
  rw [skipSubtree, reads, enough]
  exact (skipItems_spelled spells).trans skipItems_closed

/-- As many open nodes as the depth says end one after the other. -/
def Closes (fdt : Fdt) : Nat → Nat → Nat → Prop
  | 0, pos, stop => pos = stop
  | depth + 1, pos, stop => ∃ members mid, Spells fdt members pos mid ∧ Closes fdt depth mid stop

theorem Closes.nop (here : Reads fdt pos .nop next) (h : Closes fdt (depth + 1) next stop) :
    Closes fdt (depth + 1) pos stop := by
  obtain ⟨members, mid, spells, rest⟩ := h
  exact ⟨.nop members, mid, .nop here spells, rest⟩

theorem Closes.prop (here : Reads fdt pos (.prop name data) next) (h : Closes fdt (depth + 1) next stop) :
    Closes fdt (depth + 1) pos stop := by
  obtain ⟨members, mid, spells, rest⟩ := h
  exact ⟨.prop name data members, mid, .prop here spells, rest⟩

theorem Closes.begin (here : Reads fdt pos (.beginNode name) next) (h : Closes fdt (depth + 2) next stop) :
    Closes fdt (depth + 1) pos stop := by
  obtain ⟨inside, after, within, rest, mid, later, more⟩ := h
  exact ⟨.child pos name inside rest, mid, .child here within later, more⟩

theorem skipItems_ok (h : fdt.skipItems turns depth pos = .ok stop) : Closes fdt depth pos stop := by
  induction turns generalizing depth pos with
  | zero =>
    cases depth with
    | zero => exact (pure_ok h).symm
    | succ depth => exact absurd h panicked_ne_ok
  | succ turns ih =>
    cases depth with
    | zero => exact (pure_ok h).symm
    | succ depth =>
      rw [skipItems] at h
      cases read : fdt.itemAt pos with
      | mk result next =>
        rw [read] at h
        cases result with
        | error stop => cases h
        | ok item =>
          cases item with
          | beginNode name => exact Closes.begin read (ih h)
          | endNode => exact ⟨.nil, next, .nil read, ih h⟩
          | prop name data => exact Closes.prop read (ih h)
          | nop => exact Closes.nop read (ih h)
          | fdtEnd => exact absurd h fail_ne_ok

theorem checkTail_ok (h : fdt.checkTail turns pos = .ok ()) : ∃ last, Tail fdt pos last := by
  induction turns generalizing pos with
  | zero => exact absurd h panicked_ne_ok
  | succ turns ih =>
    rw [checkTail] at h
    cases read : fdt.itemAt pos with
    | mk result next =>
      rw [read] at h
      cases result with
      | error stop => cases h
      | ok item =>
        cases item with
        | nop =>
          obtain ⟨last, tail⟩ := ih h
          exact ⟨last, .nop read tail⟩
        | fdtEnd => exact ⟨next, .fdtEnd read⟩
        | beginNode name | endNode | prop name data => exact absurd h fail_ne_ok

theorem checkTail_tail (h : Tail fdt pos last) (enough : fdt.data.length ≤ pos + turns) :
    fdt.checkTail turns pos = .ok () := by
  induction h generalizing turns with
  | @fdtEnd pos last here =>
    have step := here.advances
    obtain ⟨more, rfl⟩ : ∃ more, turns = more + 1 := ⟨turns - 1, by omega⟩
    rw [checkTail, here]
    rfl
  | @nop pos next last here later ih =>
    have step := here.advances
    obtain ⟨more, rfl⟩ : ∃ more, turns = more + 1 := ⟨turns - 1, by omega⟩
    rw [checkTail, here]
    exact ih (by omega)

theorem checkTree_ok_iff : fdt.checkTree = .ok () ↔ ∃ name members last, Document fdt name members last := by
  constructor
  · intro h
    obtain ⟨item, read, h⟩ := bind_ok h
    have begins : Reads fdt fdt.dtStruct.start item (fdt.itemAt fdt.dtStruct.start).2 := Prod.ext read rfl
    cases item with
    | beginNode name =>
      obtain ⟨stop, skipped, h⟩ := bind_ok h
      rw [skipSubtree, begins] at skipped
      obtain ⟨members, mid, spells, rfl⟩ := skipItems_ok skipped
      obtain ⟨last, tail⟩ := checkTail_ok h
      exact ⟨name, members, last, _, ⟨_, begins, spells⟩, tail⟩
    | endNode | prop name data | nop | fdtEnd => exact absurd h fail_ne_ok
  · rintro ⟨name, members, last, stop, node, tail⟩
    obtain ⟨inner, begins, spells⟩ := node.inner
    rw [checkTree, begins, ok_bind]
    simp only
    rw [skipSubtree_node node]
    exact checkTail_tail tail (Nat.le_add_left _ _)

theorem new_ok_iff :
    Fdt.new bytes = .ok fdt ↔ Fdt.view bytes = .ok fdt ∧ ∃ name members last, Document fdt name members last := by
  constructor
  · intro h
    obtain ⟨seen, viewed, h⟩ := bind_ok h
    obtain ⟨_, checked, h⟩ := bind_ok h
    cases pure_ok h
    exact ⟨viewed, checkTree_ok_iff.mp checked⟩
  · rintro ⟨viewed, document⟩
    rw [new, viewed, ok_bind, checkTree_ok_iff.mpr document]
    rfl

end Fdt

end Halcyon.Dtb
