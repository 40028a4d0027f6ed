import Mathlib.Algebra.Order.Group.Multiset
import Mathlib.Tactic.Abel
import Halcyon.Handles.Table

/-!
What an operation can do to a table, as moves of single slots. Withdrawing a claim and taking an entry out end the
generation of the slot, and no move goes back to an ended generation.
-/

namespace Halcyon.Handles

variable {T R : Type}

namespace Handle

def index (handle : Handle) : Nat := handle.slot.toNat

theorem raw_fromParts (slot generation : UInt32) :
    (fromParts slot generation).raw.toNat = generation.toNat * 2 ^ 32 + slot.toNat := by
  have low := slot.toNat_lt
  have high := generation.toNat_lt
  have width : (32 : UInt64).toNat % 64 = 32 := rfl
  simp only [fromParts, UInt64.toNat_or, UInt64.toNat_shiftLeft, UInt32.toNat_toUInt64]
  rw [width, Nat.shiftLeft_eq, Nat.mod_eq_of_lt (by omega), ← Nat.shiftLeft_eq, ← Nat.shiftLeft_add_eq_or_of_lt low,
    Nat.shiftLeft_eq]

@[simp] theorem slot_fromParts (slot generation : UInt32) : (fromParts slot generation).slot = slot := by
  have raw := raw_fromParts slot generation
  have low := slot.toNat_lt
  apply UInt32.toNat_inj.mp
  rw [Handle.slot, UInt64.toNat_toUInt32, raw]
  omega

@[simp] theorem generation_fromParts (slot generation : UInt32) : (fromParts slot generation).generation = generation := by
  have raw := raw_fromParts slot generation
  have low := slot.toNat_lt
  have high := generation.toNat_lt
  have width : (32 : UInt64).toNat % 64 = 32 := rfl
  apply UInt32.toNat_inj.mp
  rw [Handle.generation, UInt64.toNat_toUInt32, UInt64.toNat_shiftRight, raw, width, Nat.shiftRight_eq_div_pow]
  omega

theorem eq_of_parts {a b : Handle} (slots : a.index = b.index) (generations : a.generation = b.generation) : a = b := by
  obtain ⟨a⟩ := a
  obtain ⟨b⟩ := b
  have high := congrArg UInt32.toNat generations
  have first := a.toNat_lt
  have second := b.toNat_lt
  have width : (32 : UInt64).toNat % 64 = 32 := rfl
  simp only [index, slot, generation, UInt64.toNat_toUInt32, UInt64.toNat_shiftRight, width,
    Nat.shiftRight_eq_div_pow] at slots high
  congr 1
  apply UInt64.toNat_inj.mp
  omega

theorem valid_iff {handle : Handle} : handle.isValid = true ↔ handle.slot ≠ 0 ∧ handle.generation ≠ 0 := by
  simp only [isValid, Bool.and_eq_true, bne_iff_ne, and_assoc]
  constructor
  · exact fun parts => parts.2
  · refine fun parts => ⟨fun zero => parts.1 ?_, parts⟩
    rw [slot, zero]
    rfl

end Handle

def Slot.entries (slot : Slot T R) : List (Entry T R) :=
  match slot.state with
  | .occupied entry => [entry]
  | .pinned _ entry => [entry]
  | _ => []

def HandleTable.stored (table : HandleTable T R) : List (Entry T R) := table.slots.flatMap Slot.entries

def HandleTable.put (table : HandleTable T R) (index : Nat) (slot : Slot T R) : HandleTable T R :=
  { table with slots := table.slots.set index slot }

inductive Move (T R : Type) where
  | claim (index : Nat) (generation : UInt32)
  | install (index : Nat) (generation : UInt32) (entry : Entry T R)
  | withdraw (index : Nat) (generation : UInt32)
  | hold
  | take (index : Nat) (generation : UInt32) (entry : Entry T R)

inductive SlotMoves (index : Nat) : Slot T R → Move T R → Slot T R → Prop where
  | claim {slot : Slot T R} (token : Nat) (vacant : slot.state = .vacant) :
    SlotMoves index slot (.claim index slot.generation) { slot with state := .reserved token }
  | install {slot : Slot T R} {token : Nat} (entry : Entry T R) (reserved : slot.state = .reserved token) :
    SlotMoves index slot (.install index slot.generation entry) { slot with state := .occupied entry }
  | withdraw {slot : Slot T R} {token : Nat} (reserved : slot.state = .reserved token) :
    SlotMoves index slot (.withdraw index slot.generation) slot.advance
  | pin {slot : Slot T R} {entry : Entry T R} (token : Nat) (occupied : slot.state = .occupied entry) :
    SlotMoves index slot .hold { slot with state := .pinned token entry }
  | restore {slot : Slot T R} {token : Nat} {entry : Entry T R} (pinned : slot.state = .pinned token entry) :
    SlotMoves index slot .hold { slot with state := .occupied entry }
  | take {slot : Slot T R} {entry : Entry T R} (held : slot.entries = [entry]) :
    SlotMoves index slot (.take index slot.generation entry) slot.advance

def Move.installed : Move T R → List (Entry T R)
  | .install _ _ entry => [entry]
  | _ => []

def Move.taken : Move T R → List (Entry T R)
  | .take _ _ entry => [entry]
  | _ => []

inductive Moves (table : HandleTable T R) : Move T R → HandleTable T R → Prop where
  | slot {index occupied : Nat} {move : Move T R} {slot next : Slot T R} (found : table.slots[index]? = some slot)
    (moves : SlotMoves index slot move next)
    (counted : occupied + move.taken.length = table.occupied + move.installed.length) :
    Moves table move { table.put index next with occupied }
  | grow (token : Nat) (room : table.slots.length - 1 < table.limit) :
    Moves table (.claim table.slots.length 1) { table with slots := table.slots ++ [⟨1, .reserved token⟩] }
  | unpin (token : Nat) : Moves table .hold (table.unpin token)

inductive Trace : HandleTable T R → List (Move T R) → HandleTable T R → Prop where
  | nil (table : HandleTable T R) : Trace table [] table
  | cons {table next last : HandleTable T R} {move : Move T R} {rest : List (Move T R)}
    (first : Moves table move next) (tail : Trace next rest last) : Trace table (move :: rest) last

theorem Moves.trace {table next : HandleTable T R} {move : Move T R} (h : Moves table move next) :
    Trace table [move] next := .cons h (.nil _)

theorem Trace.append {table middle last : HandleTable T R} {first second : List (Move T R)}
    (before : Trace table first middle) (after : Trace middle second last) : Trace table (first ++ second) last := by
  induction before with
  | nil => exact after
  | cons move _ ih => exact .cons move (ih after)

def HandleTable.At (table : HandleTable T R) (index : Nat) (generation : UInt32) (slot : Slot T R) : Prop :=
  table.slots[index]? = some slot ∧ slot.generation = generation

def HandleTable.Dead (table : HandleTable T R) (index : Nat) (generation : UInt32) : Prop :=
  ∃ slot, table.slots[index]? = some slot ∧
    (generation < slot.generation ∨ slot.generation = generation ∧ slot.state = .retired)

def HandleTable.Stores (table : HandleTable T R) (index : Nat) (generation : UInt32) (entry : Entry T R) : Prop :=
  ∃ slot, table.At index generation slot ∧ slot.entries = [entry]

def HandleTable.Claimed (table : HandleTable T R) (index : Nat) (generation : UInt32) (token : Nat) : Prop :=
  table.At index generation ⟨generation, .reserved token⟩

section

variable (slot : Slot T R)
include slot

theorem advance_generation : slot.generation < slot.advance.generation ∨ slot.advance = ⟨slot.generation, .retired⟩ := by
  unfold Slot.advance
  split
  · exact .inr rfl
  · rename_i last
    refine .inl ?_
    have bound := slot.generation.toNat_lt
    have other : slot.generation.toNat ≠ 4294967295 := fun same => last (beq_iff_eq.mpr (UInt32.toNat_inj.mp same))
    rw [UInt32.lt_iff_toNat_lt, UInt32.toNat_add]
    have one : (1 : UInt32).toNat = 1 := rfl
    omega

theorem advance_over : slot.generation < slot.advance.generation ∨
      slot.advance.generation = slot.generation ∧ slot.advance.state = .retired := by
  rcases advance_generation slot with later | same
  · exact .inl later
  · rw [same]
    exact .inr ⟨rfl, rfl⟩

theorem advance_entries : slot.advance.entries = [] := by
  unfold Slot.advance
  split <;> rfl

theorem unpin_generation (token : Nat) : (slot.unpin token).generation = slot.generation := by
  unfold Slot.unpin
  split
  · split <;> rfl
  · rfl

theorem unpin_entries (token : Nat) : (slot.unpin token).entries = slot.entries := by
  unfold Slot.unpin
  split
  · rename_i held
    split
    · rw [Slot.entries, Slot.entries, held]
    · rfl
  · rfl

end

theorem unpin_empty {slot : Slot T R} (empty : slot.entries = []) (token : Nat) : slot.unpin token = slot := by
  unfold Slot.unpin
  split
  · rename_i held
    rw [Slot.entries, held] at empty
    cases empty
  · rfl

section
variable {table next : HandleTable T R} {move : Move T R} {index : Nat} {generation : UInt32} {entry : Entry T R}

theorem slotMoves_entries {slot after : Slot T R} (h : SlotMoves index slot move after) :
    after.entries ++ move.taken = slot.entries ++ move.installed := by
  cases h with
  | claim token vacant => simp [Slot.entries, vacant, Move.taken, Move.installed]
  | install entry reserved => simp [Slot.entries, reserved, Move.taken, Move.installed]
  | withdraw reserved =>
    rw [advance_entries, Slot.entries, reserved]
    rfl
  | pin token occupied => simp [Slot.entries, occupied, Move.taken, Move.installed]
  | restore pinned => simp [Slot.entries, pinned, Move.taken, Move.installed]
  | take held => simp [advance_entries, held, Move.taken, Move.installed]

theorem slotMoves_over {slot after : Slot T R} (h : SlotMoves index slot move after) :
    slot.generation ≤ after.generation ∧ slot.state ≠ .retired := by
  have later : slot.generation ≤ slot.advance.generation := by
    rcases advance_over slot with less | ⟨same, _⟩
    · exact UInt32.le_of_lt less
    · rw [same]
      exact UInt32.le_refl _
  cases h with
  | claim token vacant => exact ⟨UInt32.le_refl _, by rw [vacant]; nofun⟩
  | install entry reserved => exact ⟨UInt32.le_refl _, by rw [reserved]; nofun⟩
  | withdraw reserved => exact ⟨later, by rw [reserved]; nofun⟩
  | pin token occupied => exact ⟨UInt32.le_refl _, by rw [occupied]; nofun⟩
  | restore pinned => exact ⟨UInt32.le_refl _, by rw [pinned]; nofun⟩
  | take held =>
    refine ⟨later, fun retired => ?_⟩
    rw [Slot.entries, retired] at held
    cases held

theorem get_put {slots : List (Slot T R)} {slot after : Slot T R} {i : Nat} (found : slots[index]? = some slot) :
    (slots.set index after)[i]? = if index = i then some after else slots[i]? := by
  obtain ⟨inside, _⟩ := List.getElem?_eq_some_iff.mp found
  by_cases same : index = i
  · subst same
    rw [if_pos rfl, List.getElem?_set_self inside]
  · rw [if_neg same, List.getElem?_set_ne same]

section

variable (h : Moves table move next)
include h

theorem Moves.at_ {slot : Slot T R} (found : table.slots[index]? = some slot) : ∃ after, next.slots[index]? = some after ∧
      (after = slot ∨ (∃ token, after = slot.unpin token) ∨ SlotMoves index slot move after) := by
  cases h with
  | @slot i _ _ before after foundBefore moves counted =>
    by_cases same : i = index
    · subst same
      cases found.symm.trans foundBefore
      exact ⟨after, (get_put foundBefore).trans (if_pos rfl), .inr (.inr moves)⟩
    · exact ⟨slot, (get_put foundBefore).trans ((if_neg same).trans found), .inl rfl⟩
  | grow token room =>
    obtain ⟨inside, _⟩ := List.getElem?_eq_some_iff.mp found
    exact ⟨slot, (List.getElem?_append_left inside).trans found, .inl rfl⟩
  | unpin token =>
    refine ⟨slot.unpin token, ?_, .inr (.inl ⟨token, rfl⟩)⟩
    show (table.slots.map fun slot => slot.unpin token)[index]? = _
    rw [List.getElem?_map, found]
    rfl

theorem dead_moves (dead : table.Dead index generation) : next.Dead index generation := by
  obtain ⟨slot, found, beyond⟩ := dead
  obtain ⟨after, read, rfl | ⟨token, rfl⟩ | moves⟩ := h.at_ found
  · exact ⟨after, read, beyond⟩
  · refine ⟨_, read, ?_⟩
    rw [unpin_generation]
    refine beyond.imp_right fun retired => ⟨retired.1, ?_⟩
    rw [unpin_empty (by rw [Slot.entries, retired.2])]
    exact retired.2
  · obtain ⟨le, alive⟩ := slotMoves_over moves
    rcases beyond with less | ⟨_, retired⟩
    · exact ⟨after, read, .inl (UInt32.lt_of_lt_of_le less le)⟩
    · exact (alive retired).elim

theorem stores_moves (stores : table.Stores index generation entry) :
    next.Stores index generation entry ∨ move = .take index generation entry := by
  obtain ⟨slot, ⟨found, current⟩, held⟩ := stores
  obtain ⟨after, read, rfl | ⟨token, rfl⟩ | moves⟩ := h.at_ found
  · exact .inl ⟨after, ⟨read, current⟩, held⟩
  · exact .inl ⟨_, ⟨read, by rw [unpin_generation, current]⟩, by rw [unpin_entries, held]⟩
  · have kept := slotMoves_entries moves
    cases moves with
    | claim token vacant => simp [Slot.entries, vacant] at held
    | install entry reserved | withdraw reserved => simp [Slot.entries, reserved] at held
    | pin token occupied | restore pinned =>
      refine .inl ⟨_, ⟨read, current⟩, ?_⟩
      simpa [Move.taken, Move.installed, held] using kept
    | take other =>
      cases held.symm.trans other
      rw [current]
      exact .inr rfl

theorem claimed_moves {token : Nat} (claimed : table.Claimed index generation token) :
    next.Claimed index generation token ∨ (∃ entry, move = .install index generation entry) ∨
      move = .withdraw index generation := by
  obtain ⟨after, read, rfl | ⟨token, rfl⟩ | moves⟩ := h.at_ claimed.1
  · exact .inl ⟨read, rfl⟩
  · exact .inl ⟨read, rfl⟩
  · cases moves with
    | claim token vacant => cases vacant
    | install entry reserved => exact .inr (.inl ⟨entry, rfl⟩)
    | withdraw reserved => exact .inr (.inr rfl)
    | pin token occupied => cases occupied
    | restore pinned => cases pinned
    | take other => cases other

end

theorem install_stores (h : Moves table (.install index generation entry) next) : next.Stores index generation entry := by
  cases h with
  | slot found moves counted =>
    cases moves with
    | install _ reserved => exact ⟨_, ⟨(get_put found).trans (if_pos rfl), rfl⟩, rfl⟩

theorem take_dead (h : Moves table (.take index generation entry) next) : next.Dead index generation := by
  cases h with
  | slot found moves counted =>
    cases moves with
    | take held => exact ⟨_, (get_put found).trans (if_pos rfl), advance_over _⟩

theorem withdraw_dead (h : Moves table (.withdraw index generation) next) : next.Dead index generation := by
  cases h with
  | slot found moves counted =>
    cases moves with
    | withdraw reserved => exact ⟨_, (get_put found).trans (if_pos rfl), advance_over _⟩

theorem stored_put {slots : List (Slot T R)} {slot : Slot T R} (after : Slot T R) (found : slots[index]? = some slot) :
    ((slots.set index after).flatMap Slot.entries : Multiset (Entry T R)) + slot.entries =
      slots.flatMap Slot.entries + after.entries := by
  obtain ⟨before, rest, rfl, rfl⟩ := split_at_index found
  rw [set_split]
  simp only [List.flatMap_append, List.flatMap_cons, ← Multiset.coe_add]
  abel

theorem stored_moves (h : Moves table move next) :
    (next.stored : Multiset (Entry T R)) + move.taken = table.stored + move.installed := by
  cases h with
  | @slot i _ _ before after found moves counted =>
    have one := congrArg (fun l : List (Entry T R) => (l : Multiset (Entry T R))) (slotMoves_entries moves)
    simp only [← Multiset.coe_add] at one
    have all := stored_put after found
    apply add_right_cancel (b := (before.entries : Multiset (Entry T R)))
    calc ((table.slots.set i after).flatMap Slot.entries : Multiset (Entry T R)) + move.taken + before.entries
        = (table.slots.set i after).flatMap Slot.entries + before.entries + move.taken := by abel
      _ = table.slots.flatMap Slot.entries + (after.entries + move.taken) := by rw [all]; abel
      _ = table.slots.flatMap Slot.entries + move.installed + before.entries := by rw [one]; abel
  | grow token room => simp [HandleTable.stored, Move.taken, Move.installed, Slot.entries]
  | unpin token =>
    simp only [HandleTable.stored, HandleTable.unpin, List.flatMap_map, unpin_entries, Move.taken, Move.installed]

end

end Halcyon.Handles
