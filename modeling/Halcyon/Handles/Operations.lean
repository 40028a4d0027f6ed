import Halcyon.Handles.Moves

/-!
Well-formed tables, and what sequences of moves keep. `Ended` collects what an operation that takes
entries out, or gives reservations up, does to a table.
-/

namespace Halcyon.Handles

open HandleTable List

section

variable {T R : Type}

/-- The limit bounds the slots, so that a handle can name each of them; slot zero is never used. -/
structure TableSound (table : HandleTable T R) : Prop where
  bounded : table.limit ≤ lastGeneration.toNat
  first : table.slots[0]? = some ⟨0, .retired⟩
  room : table.slots.length ≤ table.limit + 1
  started : ∀ {i slot}, table.slots[i]? = some slot → 1 ≤ i → slot.generation ≠ 0
  counted : table.occupied = table.stored.length

theorem withLimit_sound (limit : Nat) : TableSound (HandleTable.withLimit limit : HandleTable T R) where
  bounded := Nat.min_le_right _ _
  first := rfl
  room := Nat.le_add_left _ _
  started := by
    intro i slot found positive
    rw [withLimit, getElem?_singleton, if_neg (by omega)] at found
    cases found
  counted := rfl

section
variable {table next : HandleTable T R} {move : Move T R} {moves : List (Move T R)} {index : Nat}
  {generation : UInt32} {entry : Entry T R}

theorem occupied_moves (h : Moves table move next) :
    next.occupied + move.taken.length = table.occupied + move.installed.length := by
  cases h with
  | slot _ _ counted => exact counted
  | grow | unpin => rfl

theorem sound_moves (h : Moves table move next) (sound : TableSound table) : TableSound next := by
  have counted : next.occupied = next.stored.length := by
    have entries := congrArg Multiset.card (stored_moves h)
    simp only [Multiset.card_add, Multiset.coe_card] at entries
    have count := occupied_moves h
    have before := sound.counted
    omega
  cases h with
  | @slot i _ _ before after found moves _ =>
    obtain ⟨later, alive⟩ := slotMoves_over moves
    have used : i ≠ 0 := by
      rintro rfl
      cases sound.first.symm.trans found
      exact alive rfl
    refine { sound with first := ?_, room := ?_, started := ?_, counted }
    · exact (get_put found).trans ((if_neg used).trans sound.first)
    · show (table.slots.set i after).length ≤ _
      rw [length_set]
      exact sound.room
    · intro j slot read positive
      by_cases same : i = j
      · subst same
        cases read.symm.trans ((get_put found).trans (if_pos rfl))
        have started := sound.started found positive
        rintro zero
        rw [zero] at later
        exact started (UInt32.le_zero_iff.mp later)
      · exact sound.started (((get_put found).trans (if_neg same)).symm.trans read) positive
  | grow token room =>
    obtain ⟨inside, _⟩ := List.getElem?_eq_some_iff.mp sound.first
    refine ⟨sound.bounded, (getElem?_append_left inside).trans sound.first, ?_, ?_, counted⟩
    · simp only [length_append, length_singleton]
      omega
    · intro j slot read positive
      rcases Nat.lt_or_ge j table.slots.length with old | new
      · exact sound.started ((getElem?_append_left old).symm.trans read) positive
      · rw [getElem?_append_right new, getElem?_singleton] at read
        split at read
        · cases read
          nofun
        · cases read
  | unpin token =>
    refine ⟨sound.bounded, ?_, ?_, ?_, counted⟩
    · show (table.slots.map fun slot => slot.unpin token)[0]? = _
      rw [getElem?_map, sound.first]
      rfl
    · show (table.slots.map fun slot => slot.unpin token).length ≤ _
      rw [length_map]
      exact sound.room
    · intro j slot read positive
      rw [unpin, getElem?_map] at read
      obtain ⟨_, found, rfl⟩ := Option.map_eq_some_iff.mp read
      rw [unpin_generation]
      exact sound.started found positive

theorem claim_fresh (h : Moves table (.claim index generation) next) :
    ¬table.Dead index generation ∧ ∀ token, ¬table.Claimed index generation token := by
  cases h with
  | slot found moves =>
    cases moves with
    | claim token vacant =>
      constructor
      · rintro ⟨slot, same, beyond⟩
        cases found.symm.trans same
        rcases beyond with less | ⟨_, retired⟩
        · exact UInt32.lt_irrefl _ less
        · rw [vacant] at retired
          cases retired
      · rintro token ⟨same, _⟩
        rw [Option.some.inj (found.symm.trans same)] at vacant
        cases vacant
  | grow =>
    have none_ : table.slots[table.slots.length]? = none := getElem?_eq_none (Nat.le_refl _)
    constructor
    · rintro ⟨_, same, _⟩
      cases none_.symm.trans same
    · rintro _ ⟨same, _⟩
      cases none_.symm.trans same

section

variable (h : Trace table moves next)
include h

theorem trace_sound (sound : TableSound table) : TableSound next := by
  induction h with
  | nil => exact sound
  | cons first _ ih => exact ih (sound_moves first sound)

theorem trace_dead (dead : table.Dead index generation) : next.Dead index generation := by
  induction h with
  | nil => exact dead
  | cons first _ ih => exact ih (dead_moves first dead)

theorem trace_stores (stores : table.Stores index generation entry) :
    next.Stores index generation entry ∨ .take index generation entry ∈ moves := by
  induction h with
  | nil => exact .inl stores
  | cons first _ ih =>
    rcases stores_moves first stores with kept | rfl
    · exact (ih kept).imp_right (mem_cons_of_mem _)
    · exact .inr mem_cons_self

theorem trace_claimed {token : Nat} (claimed : table.Claimed index generation token) :
    next.Claimed index generation token ∨ (∃ entry, .install index generation entry ∈ moves) ∨
      .withdraw index generation ∈ moves := by
  induction h with
  | nil => exact .inl claimed
  | cons first _ ih =>
    rcases claimed_moves first claimed with kept | ⟨entry, rfl⟩ | rfl
    · rcases ih kept with still | ⟨entry, later⟩ | later
      · exact .inl still
      · exact .inr (.inl ⟨entry, mem_cons_of_mem _ later⟩)
      · exact .inr (.inr (mem_cons_of_mem _ later))
    · exact .inr (.inl ⟨entry, mem_cons_self⟩)
    · exact .inr (.inr mem_cons_self)

theorem trace_stored : (next.stored : Multiset (Entry T R)) + (moves.flatMap Move.taken : List _) =
      table.stored + (moves.flatMap Move.installed : List _) := by
  induction h with
  | nil => rfl
  | @cons table middle last move rest first _ ih =>
    have one := stored_moves first
    simp only [flatMap_cons, ← Multiset.coe_add]
    calc (last.stored : Multiset (Entry T R)) + (move.taken + (rest.flatMap Move.taken : List _))
        = last.stored + (rest.flatMap Move.taken : List _) + move.taken := by abel
      _ = middle.stored + move.taken + (rest.flatMap Move.installed : List _) := by rw [ih]; abel
      _ = _ := by rw [one]; abel

end

theorem stores_before (h : Moves table move next) (stores : next.Stores index generation entry) :
    table.Stores index generation entry ∨ move = .install index generation entry := by
  obtain ⟨slot, ⟨found, current⟩, held⟩ := stores
  cases h with
  | @slot i _ _ before after foundBefore moves counted =>
    have after_ : (table.slots.set i after)[index]? = some slot := found
    rw [get_put foundBefore] at after_
    by_cases same : i = index
    · rw [if_pos same] at after_
      cases after_
      subst same
      have kept := slotMoves_entries moves
      rw [held] at kept
      cases moves with
      | claim token => simp [Slot.entries] at held
      | install _ reserved =>
        simp only [Slot.entries, List.cons.injEq, and_true] at held
        exact .inr (by rw [held, ← current])
      | withdraw reserved | take =>
        rw [advance_entries] at held
        cases held
      | pin token | restore =>
        exact .inl ⟨before, ⟨foundBefore, current⟩, by simpa [Move.taken, Move.installed] using kept.symm⟩
    · rw [if_neg same] at after_
      exact .inl ⟨slot, ⟨after_, current⟩, held⟩
  | grow token =>
    have after_ : (table.slots ++ [⟨1, .reserved token⟩])[index]? = some slot := found
    by_cases inside : index < table.slots.length
    · rw [getElem?_append_left inside] at after_
      exact .inl ⟨slot, ⟨after_, current⟩, held⟩
    · rw [getElem?_append_right (Nat.le_of_not_lt inside)] at after_
      rw [getElem?_singleton] at after_
      split at after_
      · cases after_
        cases held
      · cases after_
  | unpin token =>
    have after_ : (table.slots.map fun slot => slot.unpin token)[index]? = some slot := found
    rw [getElem?_map] at after_
    obtain ⟨before, foundBefore, rfl⟩ := Option.map_eq_some_iff.mp after_
    rw [unpin_generation] at current
    rw [unpin_entries] at held
    exact .inl ⟨before, ⟨foundBefore, current⟩, held⟩

theorem trace_before (h : Trace table moves next) (stores : next.Stores index generation entry) :
    table.Stores index generation entry ∨ .install index generation entry ∈ moves := by
  induction h with
  | nil => exact .inl stores
  | cons first _ ih =>
    rcases ih stores with stored | later
    · rcases stores_before first stored with before | rfl
      · exact .inl before
      · exact .inr mem_cons_self
    · exact .inr (mem_cons_of_mem _ later)

def Entry.body (entry : Entry T R) : T × R := (entry.object, entry.role)

/-- The moves end generations named by the handles, and nothing else. -/
def EndsOnly (handles : List Handle) (moves : List (Move T R)) : Prop := ∀ move ∈ moves, move = .hold ∨ ∃ handle ∈ handles,
    move = .withdraw handle.index handle.generation ∨ ∃ entry, move = .take handle.index handle.generation entry

structure Ended (table next : HandleTable T R) (handles : List Handle) (entries : List (Entry T R)) : Prop where
  trace : ∃ moves, Trace table moves next ∧ EndsOnly handles moves ∧
    (moves.flatMap Move.taken).map Entry.body = entries.map Entry.body
  dead : ∀ handle ∈ handles, handle.isValid = true ∧ next.Dead handle.index handle.generation

theorem Ended.refl (table : HandleTable T R) : Ended table table [] [] where
  trace := ⟨[], .nil _, nofun, rfl⟩
  dead := nofun

theorem EndsOnly.mono {few many : List Handle} (h : EndsOnly few moves) (subset : few ⊆ many) : EndsOnly many moves := by
  intro move member
  rcases h move member with rfl | ⟨handle, inside, ends⟩
  · exact .inl rfl
  · exact .inr ⟨handle, subset inside, ends⟩

theorem Ended.append {middle : HandleTable T R} {first second : List Handle} {one two : List (Entry T R)}
    (before : Ended table middle first one) (after : Ended middle next second two) :
    Ended table next (first ++ second) (one ++ two) := by
  obtain ⟨early, runs, ends, taken⟩ := before.trace
  obtain ⟨late, runs', ends', taken'⟩ := after.trace
  constructor
  · refine ⟨early ++ late, runs.append runs', forall_mem_append.mpr ⟨?_, ?_⟩, ?_⟩
    · exact ends.mono (subset_append_left _ _)
    · exact ends'.mono (subset_append_right _ _)
    · rw [flatMap_append, map_append, map_append, taken, taken']
  · refine forall_mem_append.mpr ⟨fun handle inside => ?_, after.dead⟩
    exact (before.dead handle inside).imp_right (trace_dead runs')

theorem Ended.hold (h : Moves table .hold next) : Ended table next [] [] where
  trace := ⟨[.hold], h.trace, forall_mem_singleton.mpr (.inl rfl), rfl⟩
  dead := nofun

variable {handle : Handle}

section

variable (valid : handle.isValid = true)
include valid

theorem Ended.take
    (h : Moves table (.take handle.index handle.generation entry) next) : Ended table next [handle] [entry] where
  trace := ⟨[.take handle.index handle.generation entry], h.trace,
    forall_mem_singleton.mpr (.inr ⟨handle, mem_singleton_self _, .inr ⟨entry, rfl⟩⟩), rfl⟩
  dead := forall_mem_singleton.mpr ⟨valid, take_dead h⟩

theorem Ended.withdraw (h : Moves table (.withdraw handle.index handle.generation) next) : Ended table next [handle] [] where
  trace := ⟨[.withdraw handle.index handle.generation], h.trace,
    forall_mem_singleton.mpr (.inr ⟨handle, mem_singleton_self _, .inl rfl⟩), rfl⟩
  dead := forall_mem_singleton.mpr ⟨valid, withdraw_dead h⟩

theorem Ended.already (dead : table.Dead handle.index handle.generation) : Ended table table [handle] [] where
  trace := ⟨[], .nil _, nofun, rfl⟩
  dead := forall_mem_singleton.mpr ⟨valid, dead⟩

end

theorem Ended.sound {handles : List Handle} {entries : List (Entry T R)} (h : Ended table next handles entries)
    (sound : TableSound table) : TableSound next := by
  obtain ⟨_, runs, _, _⟩ := h.trace
  exact trace_sound runs sound

end

end

/-! What each operation of the table does, as moves. -/

section

variable {T R : Type} {table next : HandleTable T R} {handle : Handle} {entry : Entry T R}

theorem modify_eq_set {α : Type} {xs : List α} {i : Nat} {x : α} (found : xs[i]? = some x) (f : α → α) :
    xs.modify i f = xs.set i (f x) := by
  apply ext_getElem?
  intro j
  obtain ⟨inside, _⟩ := List.getElem?_eq_some_iff.mp found
  by_cases same : i = j
  · subst same
    rw [getElem?_modify_eq, getElem?_set_self inside, found]
    rfl
  · rw [getElem?_modify_ne _ _ same, getElem?_set_ne same]

namespace HandleTable

theorem setState_put {index : Nat} {slot : Slot T R} (found : table.slots[index]? = some slot) (state : SlotState T R) :
    table.setState index state = table.put index { slot with state } := by
  rw [setState, put, modify_eq_set found]

theorem advance_put {index : Nat} {slot : Slot T R} (found : table.slots[index]? = some slot)
    (state : SlotState T R) (occupied : Nat) :
    { table.setState index state with occupied }.advanceGeneration index =
      { table.put index slot.advance with occupied } := by
  have written : (table.slots.set index { slot with state })[index]? = some { slot with state } :=
    (get_put found).trans (if_pos rfl)
  rw [setState_put found, advanceGeneration, put, put, modify_eq_set written, set_set]
  rfl

end HandleTable

theorem occupiedIndex_ok {index : Nat} (h : table.occupiedIndex handle = .ok index) :
    handle.isValid = true ∧ index = handle.index ∧
      ∃ entry, table.slots[index]? = some ⟨handle.generation, .occupied entry⟩ := by
  unfold occupiedIndex at h
  obtain ⟨_, valid, h⟩ := bind_ok h
  obtain ⟨slot, found, h⟩ := bind_ok h
  obtain ⟨_, current, h⟩ := bind_ok h
  have valid := refuseIf_ok valid
  have found := okOr_ok found
  have current : slot.generation = handle.generation := by simpa using refuseIf_ok current
  obtain ⟨_, state⟩ := slot
  cases current
  cases state with
  | occupied entry => exact ⟨by simpa using valid, pure_ok h, entry, by rw [pure_ok h]; exact found⟩
  | pinned | vacant | reserved | retired => exact (fail_ne_ok h).elim

theorem entryAt_ok {ε : Type} {index : Nat} (h : (table.entryAt index : Outcome ε _) = .ok entry) :
    ∃ generation, table.slots[index]? = some ⟨generation, .occupied entry⟩ := by
  unfold entryAt at h
  split at h
  · rename_i generation other found
    cases pure_ok h
    exact ⟨generation, found⟩
  · exact (panicked_ne_ok h).elim

theorem accepted_at {ε : Type} {index : Nat} (accepted : table.occupiedIndex handle = .ok index)
    (read : (table.entryAt index : Outcome ε _) = .ok entry) : handle.isValid = true ∧ index = handle.index ∧
      table.slots[handle.index]? = some ⟨handle.generation, .occupied entry⟩ := by
  obtain ⟨valid, rfl, _, found⟩ := occupiedIndex_ok accepted
  obtain ⟨_, same⟩ := entryAt_ok read
  cases found.symm.trans same
  exact ⟨valid, rfl, found⟩

theorem get_ok {required : Rights} (h : table.get handle required = .ok entry) :
    handle.isValid = true ∧ table.slots[handle.index]? = some ⟨handle.generation, .occupied entry⟩ ∧
      entry.rights.contains required = true := by
  obtain ⟨_, accepted, h⟩ := bind_ok h
  obtain ⟨_, read, h⟩ := bind_ok h
  obtain ⟨_, allowed, h⟩ := bind_ok h
  cases pure_ok h
  obtain ⟨valid, _, at_⟩ := accepted_at accepted read
  exact ⟨valid, at_, by simpa using refuseIf_ok allowed⟩

theorem fresh_handle (sound : TableSound table) (index : Nat) (positive : 1 ≤ index)
    (room : index ≤ table.limit) (generation : UInt32) (started : generation ≠ 0) :
    (Handle.fromParts (.ofNat index) generation).isValid = true ∧
      (Handle.fromParts (.ofNat index) generation).index = index := by
  have bound := sound.bounded
  have last : lastGeneration.toNat = 4294967295 := rfl
  have exact_ : (UInt32.ofNat index).toNat = index := UInt32.toNat_ofNat_of_lt' (by rw [UInt32.size]; omega)
  constructor
  · rw [Handle.valid_iff, Handle.slot_fromParts, Handle.generation_fromParts]
    refine ⟨fun zero => ?_, started⟩
    rw [zero] at exact_
    have none_ : (0 : UInt32).toNat = 0 := rfl
    omega
  · rw [Handle.index, Handle.slot_fromParts, exact_]

variable {heap : Heap} {token : Nat} {handles : List Handle} {items : List (Handle × Rights)}
    {entries : List (Entry T R)}

theorem reserveSlot_ok (sound : TableSound table) (h : table.reserveSlot heap token = .ok (handle, next)) :
    handle.isValid = true ∧ Moves table (.claim handle.index handle.generation) next ∧
      next.Claimed handle.index handle.generation token := by
  have nonempty := (List.getElem?_eq_some_iff.mp sound.first).1
  have room := sound.room
  unfold reserveSlot at h
  split at h
  · rename_i index chosen
    obtain ⟨slot, found, h⟩ := bind_ok h
    have found := expect_ok found
    have vacant : slot.state = .vacant := by
      have test := find?_some chosen
      simp only [found, Option.any_some, Slot.isVacant] at test
      split at test
      · assumption
      · cases test
    have member := mem_range'_1.mp (mem_of_find?_eq_some chosen)
    obtain ⟨valid, index_eq⟩ := fresh_handle sound index member.1 (by omega) slot.generation
      (sound.started found member.1)
    cases pure_ok h
    rw [index_eq, Handle.generation_fromParts]
    refine ⟨valid, ?_, ?_, rfl⟩
    · rw [setState_put found]
      exact .slot found (.claim token vacant) rfl
    · rw [setState_put found]
      exact (get_put found).trans (if_pos rfl)
  · obtain ⟨_, below, h⟩ := bind_ok h
    obtain ⟨_, _, h⟩ := bind_ok h
    have below : table.slots.length - 1 < table.limit := by simpa using refuseIf_ok below
    obtain ⟨valid, index_eq⟩ := fresh_handle sound table.slots.length nonempty (by omega) 1 (by decide)
    cases pure_ok h
    rw [index_eq, Handle.generation_fromParts]
    refine ⟨valid, .grow token below, ?_, rfl⟩
    rw [getElem?_append_right (Nat.le_refl _), Nat.sub_self]
    rfl

theorem insert_ok (sound : TableSound table) (h : table.insert heap entry = .ok (handle, next)) :
    handle.isValid = true ∧ ∃ middle, Moves table (.claim handle.index handle.generation) middle ∧
      Moves middle (.install handle.index handle.generation entry) next := by
  obtain ⟨⟨_, middle⟩, reserved, h⟩ := bind_ok h
  cases pure_ok h
  obtain ⟨valid, claim, found, _⟩ := reserveSlot_ok sound reserved
  refine ⟨valid, middle, claim, ?_⟩
  rw [show handle.slot.toNat = handle.index from rfl, setState_put found]
  exact .slot found (.install entry rfl) rfl

theorem validateItems_ok {transport : Rights} {protect : Option Handle} {prior : List Handle} {done : Unit}
    (h : table.validateItems transport protect prior items = .ok done) :
    (items.map Prod.fst).Nodup ∧ ∀ item ∈ items, item.1 ∉ prior ∧ protect ≠ some item.1 ∧
      ∃ entry, table.get item.1 transport = .ok entry ∧ item.2.isSubsetOf entry.rights = true := by
  induction items generalizing prior with
  | nil => exact ⟨.nil, nofun⟩
  | cons item _ ih =>
    obtain ⟨_, apart, h⟩ := bind_ok h
    obtain ⟨_, _, h⟩ := bind_ok h
    obtain ⟨entry, read, h⟩ := bind_ok h
    obtain ⟨_, less, h⟩ := bind_ok h
    obtain ⟨distinct, each⟩ := ih h
    have apart : item.1 ∉ prior ∧ protect ≠ some item.1 := by simpa using refuseIf_ok apart
    constructor
    · refine nodup_cons.mpr ⟨fun again => ?_, distinct⟩
      obtain ⟨other, member, same⟩ := mem_map.mp again
      exact (each other member).1 (by simp [same])
    · refine forall_mem_cons.mpr ⟨⟨apart.1, apart.2, entry, read, by simpa using refuseIf_ok less⟩, ?_⟩
      exact fun other member => (each other member).imp_left fun out inside => out (mem_append_left _ inside)

structure Takes (table next : HandleTable T R) (handle : Handle) (entry : Entry T R) : Prop where
  stores : table.Stores handle.index handle.generation entry
  ended : Ended table next [handle] [entry]

theorem takes_slot {state : SlotState T R} {ε : Type} {occupied : Nat} (valid : handle.isValid = true)
    (found : table.slots[handle.index]? = some ⟨handle.generation, state⟩)
    (held : Slot.entries ⟨handle.generation, state⟩ = [entry])
    (less : (subtract table.occupied 1 : Outcome ε Nat) = .ok occupied) :
    Takes table ({ table.setState handle.index .vacant with occupied }.advanceGeneration handle.index) handle entry := by
  refine ⟨⟨_, ⟨found, rfl⟩, held⟩, .take valid ?_⟩
  rw [advance_put found]
  exact .slot found (.take held) (subtract_ok less)

theorem remove_ok (h : table.remove handle = .ok (entry, next)) : Takes table next handle entry := by
  obtain ⟨_, accepted, h⟩ := bind_ok h
  obtain ⟨_, read, h⟩ := bind_ok h
  obtain ⟨_, less, h⟩ := bind_ok h
  cases pure_ok h
  obtain ⟨valid, rfl, at_⟩ := accepted_at accepted read
  exact takes_slot valid at_ rfl less

theorem Ended.before {index : Nat} {generation : UInt32} (h : Ended table next handles entries)
    (stores : next.Stores index generation entry) : table.Stores index generation entry := by
  obtain ⟨_, runs, only, _⟩ := h.trace
  refine (trace_before runs stores).resolve_right fun installed => ?_
  rcases only _ installed with wrong | ⟨_, _, wrong | ⟨_, wrong⟩⟩ <;> cases wrong

def Clips (table : HandleTable T R) (item : Handle × Rights) (entry : Entry T R) : Prop :=
  ∃ source, table.Stores item.1.index item.1.generation source ∧ entry = source.withRights item.2

structure Leaves (table next : HandleTable T R) (items : List (Handle × Rights)) (entries : List (Entry T R)) :
    Prop where
  ended : Ended table next (items.map Prod.fst) entries
  clips : List.Forall₂ (Clips table) items entries

theorem Leaves.nil (table : HandleTable T R) : Leaves table table [] [] := ⟨.refl _, .nil⟩

theorem Takes.leaves {item : Handle × Rights} {middle : HandleTable T R} (takes : Takes table middle item.1 entry)
    (rest : Leaves middle next items entries) : Leaves table next (item :: items) (entry.withRights item.2 :: entries) := by
  have clipped : Ended table middle [item.1] [entry.withRights item.2] := ⟨takes.ended.trace, takes.ended.dead⟩
  refine ⟨clipped.append rest.ended, .cons ⟨entry, takes.stores, rfl⟩ (rest.clips.imp fun _ _ clips => ?_)⟩
  obtain ⟨source, stores, same⟩ := clips
  exact ⟨source, takes.ended.before stores, same⟩

theorem commitExtraction_ok {extracted : List (Entry T R)}
    (h : commitExtraction items extracted table = .ok entries next) :
    ∃ taken, entries = extracted ++ taken ∧ Leaves table next items taken := by
  induction items generalizing table extracted with
  | nil =>
    cases h
    exact ⟨[], (append_nil _).symm, .nil _⟩
  | cons _ _ ih =>
    obtain ⟨⟨_, _⟩, removed, h⟩ := look_step (get_step h)
    obtain ⟨_, rfl, leaves⟩ := ih h
    exact ⟨_, append_assoc .., (remove_ok (expectOk_ok removed)).leaves leaves⟩

theorem extractWith_ok {transport : Rights} (h : extractWith heap items transport table = .ok entries next) :
    (∃ done, table.validateItems transport none [] items = .ok done) ∧ Leaves table next items entries := by
  obtain ⟨_, _, h⟩ := look_step (get_step h)
  obtain ⟨_, checked, h⟩ := look_step h
  obtain ⟨_, rfl, leaves⟩ := commitExtraction_ok (perform_ok h)
  exact ⟨⟨_, checked⟩, leaves⟩

theorem extractWith_refuses {transport : Rights} :
    Refuses (fun _ => True) (extractWith heap items transport : Method TableError T R _) :=
  .get fun _ => .look (fun _ _ => trivial) fun _ => .look (fun _ _ => trivial) fun _ => .perform

theorem pinEntry_ok {done : Unit} (h : pinEntry token handle table = .ok done next) : Moves table .hold next := by
  obtain ⟨_, accepted, h⟩ := look_step (get_step h)
  obtain ⟨_, read, h⟩ := look_step h
  cases h
  obtain ⟨_, rfl, at_⟩ := accepted_at (expectOk_ok accepted) read
  rw [setState_put at_]
  exact .slot at_ (.pin token rfl) rfl

theorem pinEntries_ok {done : Unit} (h : (items.forM fun item => pinEntry token item.1) table = .ok done next) :
    Ended table next [] [] := by
  induction items generalizing table with
  | nil =>
    cases h
    exact .refl _
  | cons _ _ ih =>
    obtain ⟨_, _, first, h⟩ := seq_ok h
    exact (Ended.hold (pinEntry_ok first)).append (ih h)

theorem pinTransaction_ok {protect : Handle × Rights} {grants : List (Handle × Rights)} {done : Unit}
    (h : pinTransaction protect grants token table = .ok done next) :
    (∃ entry, table.get protect.1 protect.2 = .ok entry) ∧
      (∃ done, table.validateItems .grant (some protect.1) [] grants = .ok done) ∧ Ended table next [] [] := by
  obtain ⟨_, _, h⟩ := look_step (get_step h)
  obtain ⟨entry, got, h⟩ := look_step h
  obtain ⟨_, checked, h⟩ := look_step h
  obtain ⟨_, _, pinned, h⟩ := seq_ok (perform_ok h)
  exact ⟨⟨entry, got⟩, ⟨_, checked⟩, (pinEntries_ok pinned).append (.hold (pinEntry_ok h))⟩

theorem pinTransaction_refuses {protect : Handle × Rights} {grants : List (Handle × Rights)} :
    Refuses (fun _ => True) (pinTransaction protect grants token : Method TableError T R _) :=
  .get fun _ => .look (fun _ _ => trivial) fun _ => .look (fun _ _ => trivial) fun _ =>
    .look (fun _ _ => trivial) fun _ => .perform

theorem pinnedEntry_ok (h : table.pinnedEntry token handle = .ok entry) :
    handle.isValid = true ∧ table.slots[handle.index]? = some ⟨handle.generation, .pinned token entry⟩ := by
  unfold pinnedEntry at h
  obtain ⟨_, valid, h⟩ := bind_ok h
  obtain ⟨slot, found, h⟩ := bind_ok h
  obtain ⟨_, current, h⟩ := bind_ok h
  have found := expect_ok found
  have current : slot.generation = handle.generation := by simpa using assertThat_ok current
  obtain ⟨_, state⟩ := slot
  cases current
  cases state with
  | pinned actual =>
    obtain ⟨_, own, h⟩ := bind_ok h
    cases pure_ok h
    have own : actual = token := by simpa using assertThat_ok own
    subst own
    exact ⟨assertThat_ok valid, found⟩
  | occupied | vacant | reserved | retired => exact (panicked_ne_ok h).elim

theorem takePinned_ok (h : table.takePinned token handle = .ok (entry, next)) : Takes table next handle entry := by
  obtain ⟨_, read, h⟩ := bind_ok h
  obtain ⟨_, less, h⟩ := bind_ok h
  cases pure_ok h
  obtain ⟨valid, at_⟩ := pinnedEntry_ok read
  exact takes_slot valid at_ rfl less

theorem restorePinned_ok (h : table.restorePinned token handle = .ok next) : Moves table .hold next := by
  obtain ⟨_, read, h⟩ := bind_ok h
  cases pure_ok h
  obtain ⟨_, at_⟩ := pinnedEntry_ok read
  rw [show handle.slot.toNat = handle.index from rfl, setState_put at_]
  exact .slot at_ (.restore rfl) rfl

theorem takeGrants_ok {grants : List (Entry T R)}
    (h : HandleTable.takeGrants token table items grants = .ok (entries, next)) :
    ∃ taken, entries = grants ++ taken ∧ Leaves table next items taken := by
  induction items generalizing table grants with
  | nil =>
    cases pure_ok h
    exact ⟨[], (append_nil _).symm, .nil _⟩
  | cons _ _ ih =>
    obtain ⟨⟨_, _⟩, taken, h⟩ := bind_ok h
    obtain ⟨_, rfl, leaves⟩ := ih h
    exact ⟨_, append_assoc .., (takePinned_ok taken).leaves leaves⟩

theorem commitPinnedTransfer_ok {protect : Handle}
    (h : table.commitPinnedTransfer token protect items [] = .ok (entries, next)) : Leaves table next items entries := by
  obtain ⟨⟨_, _⟩, taken, h⟩ := bind_ok h
  obtain ⟨_, restored, h⟩ := bind_ok h
  cases pure_ok h
  obtain ⟨_, rfl, leaves⟩ := takeGrants_ok taken
  have all := leaves.ended.append (.hold (restorePinned_ok restored))
  rw [append_nil, append_nil] at all
  exact ⟨all, leaves.clips⟩

/-- A handle of a reservation is claimed for it, or its generation is over. -/
def HandleTable.Holds (table : HandleTable T R) (token : Nat) (handle : Handle) : Prop := handle.isValid = true ∧
    (table.Dead handle.index handle.generation ∨ table.Claimed handle.index handle.generation token)

theorem isReserved_iff : table.isReserved handle token = true ↔
      handle.isValid = true ∧ table.Claimed handle.index handle.generation token := by
  unfold isReserved HandleTable.Claimed HandleTable.At
  rw [Bool.and_eq_true, show handle.slot.toNat = handle.index from rfl]
  refine and_congr_right fun _ => ?_
  cases found : table.slots[handle.index]? with
  | none => simp
  | some slot =>
    obtain ⟨_, state⟩ := slot
    cases state <;> simp [Slot.isReservedFor]

theorem rollbackHandle_ok (holds : table.Holds token handle) :
    Ended table (table.rollbackHandle token handle) [handle] [] := by
  obtain ⟨valid, beyond⟩ := holds
  unfold rollbackHandle
  by_cases reserved : table.isReserved handle token = true
  · obtain ⟨_, at_, _⟩ := isReserved_iff.mp reserved
    rw [if_pos reserved, show handle.slot.toNat = handle.index from rfl]
    refine .withdraw valid ?_
    have written := advance_put at_ .vacant table.occupied
    rw [show (table.setState handle.index .vacant).advanceGeneration handle.index = _ from written]
    exact .slot at_ (.withdraw rfl) rfl
  · rw [if_neg reserved]
    refine .already valid (beyond.resolve_right fun claimed => ?_)
    exact reserved (isReserved_iff.mpr ⟨valid, claimed⟩)

theorem holds_ended (ended : Ended table next handles entries) (holds : table.Holds token handle) :
    next.Holds token handle := by
  obtain ⟨_, runs, only, _⟩ := ended.trace
  obtain ⟨valid, dead | claimed⟩ := holds
  · exact ⟨valid, .inl (trace_dead runs dead)⟩
  refine ⟨valid, ?_⟩
  rcases trace_claimed runs claimed with still | ⟨entry, installed⟩ | withdrawn
  · exact .inr still
  · rcases only _ installed with wrong | ⟨_, _, wrong | ⟨_, wrong⟩⟩ <;> cases wrong
  · rcases only _ withdrawn with wrong | ⟨other, member, same | ⟨_, wrong⟩⟩
    · cases wrong
    · obtain ⟨index, generation⟩ := Move.withdraw.inj same
      rw [Handle.eq_of_parts index generation]
      exact .inl (ended.dead other member).2
    · cases wrong

theorem rollbackHandles_ok (holds : ∀ handle ∈ handles, table.Holds token handle) :
    Ended table (table.rollbackHandles handles token) handles [] := by
  induction handles generalizing table with
  | nil => exact .refl _
  | cons first _ ih =>
    have one := rollbackHandle_ok (holds first mem_cons_self)
    have others := ih fun handle member => holds_ended one (holds handle (mem_cons_of_mem _ member))
    exact one.append others

end

end Halcyon.Handles
