import Halcyon.Base.Bytes
import Halcyon.Handles.Conservation

/-!
Calls that fail have no visible effect. A reservation that fails, or cannot be committed, ends the generations it has used
and leaves the rest alone.
-/

namespace Halcyon.Handles

open HandleTable List

variable {T R : Type} {table middle next : HandleTable T R} {handle : Handle} {token : Nat} {handles : List Handle}
  {items : List (Handle × Rights)}

/-- How slot `i` may differ after a call that failed: one of the handles `own` of that call named it, either as the
slot was before the call or as a new slot, and that generation has ended. -/
def Spent (own : List Handle) (lent : SlotState T R) (i : Nat) (before after : Option (Slot T R)) : Prop :=
  after = before ∨ ∃ handle ∈ own, handle.index = i ∧ after = some (Slot.advance ⟨handle.generation, lent⟩) ∧
    (before = some ⟨handle.generation, lent⟩ ∨ before = none ∧ handle.generation = 1 ∧ lent = .vacant)

structure Unseen (own : List Handle) (lent : SlotState T R) (table next : HandleTable T R) : Prop where
  get : ∀ handle required, next.get handle required = table.get handle required
  occupied : next.occupied = table.occupied
  slots : ∀ i : Nat, Spent own lent i table.slots[i]? next.slots[i]?

/-- The states of a slot that a reservation may use. -/
def Blank (lent : SlotState T R) : Prop := ∀ generation, (Slot.mk generation lent).entries = []

theorem get_congr (same : next.slots[handle.index]? = table.slots[handle.index]?) (required : Rights) :
    next.get handle required = table.get handle required := by
  have accepted : next.occupiedIndex handle = table.occupiedIndex handle := by
    unfold occupiedIndex
    rw [show handle.slot.toNat = handle.index from rfl, same]
  rw [HandleTable.get, HandleTable.get, accepted]
  cases found : table.occupiedIndex handle with
  | error => rfl
  | ok =>
    obtain ⟨_, rfl, _⟩ := occupiedIndex_ok found
    rw [ok_bind, ok_bind, entryAt, entryAt, same]

theorem get_blank (blank : ∀ slot, table.slots[handle.index]? = some slot → slot.entries = []) (required : Rights) :
    table.get handle required = fail (if handle.isValid then .staleHandle else .invalidHandle) := by
  have refused : table.occupiedIndex handle = fail (if handle.isValid then .staleHandle else .invalidHandle) := by
    cases valid : handle.isValid with
    | false =>
      unfold occupiedIndex
      rw [valid]
      rfl
    | true =>
      cases found : table.slots[handle.index]? with
      | none =>
        unfold occupiedIndex
        rw [valid, show handle.slot.toNat = handle.index from rfl, found]
        rfl
      | some slot =>
        rw [occupiedIndex_at valid found]
        have empty := blank slot found
        obtain ⟨_, state⟩ := slot
        cases state with
        | occupied | pinned => cases empty
        | _ => exact ite_self _
  rw [HandleTable.get, refused]
  rfl

variable {own : List Handle} {lent : SlotState T R}

theorem Spent.get (blank : Blank lent) (h : Spent own lent handle.index table.slots[handle.index]? next.slots[handle.index]?)
    (required : Rights) : next.get handle required = table.get handle required := by
  rcases h with same | ⟨_, _, _, after, before⟩
  · exact get_congr same required
  · rw [get_blank, get_blank]
    · intro slot found
      rcases before with before | ⟨before, _⟩
      · cases before.symm.trans found
        exact blank _
      · cases before.symm.trans found
    · intro slot found
      cases after.symm.trans found
      exact advance_entries _

theorem unseen_of_spent (blank : Blank lent) (occupied : next.occupied = table.occupied)
    (slots : ∀ i : Nat, Spent own lent i table.slots[i]? next.slots[i]?) : Unseen own lent table next :=
  ⟨fun handle => (slots handle.index).get blank, occupied, slots⟩

theorem Unseen.refl (table : HandleTable T R) : Unseen [] .vacant table table :=
  ⟨fun _ _ => rfl, rfl, fun _ => .inl rfl⟩

theorem isReserved_congr (same : next.slots[handle.index]? = table.slots[handle.index]?) :
    next.isReserved handle token = table.isReserved handle token := by
  unfold isReserved
  rw [show handle.slot.toNat = handle.index from rfl, same]

theorem rollbackHandle_at (table : HandleTable T R) (token : Nat) (handle : Handle) (i : Nat) :
    (table.rollbackHandle token handle).slots[i]? =
      if handle.index = i ∧ table.isReserved handle token = true then table.slots[i]?.map Slot.advance
      else table.slots[i]? := by
  unfold rollbackHandle
  by_cases reserved : table.isReserved handle token = true
  · obtain ⟨_, at_, _⟩ := isReserved_iff.mp reserved
    have written := advance_put at_ .vacant table.occupied
    rw [if_pos reserved, show (table.setState handle.slot.toNat .vacant).advanceGeneration handle.slot.toNat = _ from written]
    show (table.slots.set handle.index _)[i]? = _
    rw [get_put at_]
    by_cases same : handle.index = i
    · subst same
      simp [reserved, at_]
    · simp [same]
  · rw [if_neg reserved, if_neg fun both => reserved both.2]

theorem rollbackHandles_occupied : (table.rollbackHandles handles token).occupied = table.occupied := by
  induction handles generalizing table with
  | nil => rfl
  | cons first _ ih =>
    refine ih.trans ?_
    show (table.rollbackHandle token first).occupied = _
    unfold rollbackHandle
    split <;> rfl

theorem rollbackHandles_at (table : HandleTable T R) (handles : List Handle) (token i : Nat) :
    ((table.rollbackHandles handles token).slots[i]? = table.slots[i]? ∧
      ∀ handle ∈ handles, handle.index = i → table.isReserved handle token = false) ∨
    ∃ handle ∈ handles, handle.index = i ∧ table.isReserved handle token = true ∧
      (table.rollbackHandles handles token).slots[i]? = some (Slot.advance ⟨handle.generation, .reserved token⟩) := by
  induction handles generalizing table with
  | nil => exact .inl ⟨rfl, nofun⟩
  | cons first _ ih =>
    have step := rollbackHandle_at table token first i
    by_cases hit : first.index = i ∧ table.isReserved first token = true
    · obtain ⟨rfl, reserved⟩ := hit
      obtain ⟨_, found, _⟩ := isReserved_iff.mp reserved
      rw [if_pos ⟨rfl, reserved⟩, found] at step
      refine .inr ⟨first, mem_cons_self, rfl, reserved, ?_⟩
      rcases ih (table.rollbackHandle token first) with ⟨kept, _⟩ | ⟨other, _, same, again, _⟩
      · exact kept.trans step
      · obtain ⟨_, claimed, _⟩ := isReserved_iff.mp again
        rw [same, step] at claimed
        have state := congrArg Slot.state (Option.some.inj claimed)
        rw [Slot.advance] at state
        split at state <;> cases state
    · rw [if_neg hit] at step
      rcases ih (table.rollbackHandle token first) with ⟨kept, none_⟩ | ⟨other, member, rfl, again, ended⟩
      · refine .inl ⟨kept.trans step, forall_mem_cons.mpr ⟨fun same => ?_, fun other member same => ?_⟩⟩
        · exact Bool.eq_false_iff.mpr fun reserved => hit ⟨same, reserved⟩
        · rw [← isReserved_congr (same ▸ step)]
          exact none_ other member same
      · exact .inr ⟨other, mem_cons_of_mem _ member, rfl, isReserved_congr step ▸ again, ended⟩

theorem rollbackHandles_unseen : Unseen handles (.reserved token) table (table.rollbackHandles handles token) := by
  refine unseen_of_spent (fun _ => rfl) rollbackHandles_occupied fun i => ?_
  rcases rollbackHandles_at table handles token i with
    ⟨kept, _⟩ | ⟨handle, member, rfl, reserved, ended⟩
  · exact .inl kept
  · exact .inr ⟨handle, member, rfl, ended, .inl (isReserved_iff.mp reserved).2.1⟩

theorem claim_at {index : Nat} {generation : UInt32} (h : Moves table (.claim index generation) next) :
    (∀ i, i ≠ index → next.slots[i]? = table.slots[i]?) ∧
    (∃ token, next.slots[index]? = some ⟨generation, .reserved token⟩) ∧ next.occupied = table.occupied ∧
    (table.slots[index]? = some ⟨generation, .vacant⟩ ∨ table.slots[index]? = none ∧ generation = 1) := by
  have kept := occupied_moves h
  cases h with
  | slot found moves =>
    cases moves with
    | claim token vacant =>
      refine ⟨fun i other => (get_put found).trans (if_neg (Ne.symm other)), ⟨token, ?_⟩, kept, .inl ?_⟩
      · exact (get_put found).trans (if_pos rfl)
      · rw [found, ← vacant]
  | grow token =>
    refine ⟨fun i other => ?_, ⟨token, getElem?_concat_length⟩, kept, .inr ⟨getElem?_eq_none (Nat.le_refl _), rfl⟩⟩
    rcases Nat.lt_or_gt_of_ne other with below | above
    · exact getElem?_append_left below
    · rw [getElem?_eq_none (Nat.le_of_lt above), getElem?_eq_none]
      rw [length_append]
      exact above

theorem claims_at {moves : List (Move T R)} (runs : Trace table moves next)
    (claims : ∀ move ∈ moves, ∃ handle ∈ handles, move = .claim handle.index handle.generation) :
    next.occupied = table.occupied ∧ ∀ i : Nat, next.slots[i]? = table.slots[i]? ∨
      ∃ handle ∈ handles, handle.index = i ∧ (table.slots[i]? = some ⟨handle.generation, .vacant⟩ ∨
        table.slots[i]? = none ∧ handle.generation = 1) := by
  induction runs with
  | nil => exact ⟨rfl, fun _ => .inl rfl⟩
  | cons first _ ih =>
    obtain ⟨handle, member, rfl⟩ := claims _ mem_cons_self
    obtain ⟨occupied, others⟩ := ih fun move inside => claims move (mem_cons_of_mem _ inside)
    obtain ⟨apart, ⟨_, _⟩, same, before⟩ := claim_at first
    refine ⟨occupied.trans same, fun i => ?_⟩
    by_cases here : i = handle.index
    · exact .inr ⟨handle, member, here.symm, here ▸ before⟩
    · rw [← apart i here]
      exact others i

theorem Reserves.unseen (h : Reserves table middle token handles) :
    Unseen handles .vacant table (middle.rollbackHandles handles token) := by
  obtain ⟨_, runs, claims⟩ := h.trace
  obtain ⟨occupied, lent⟩ := claims_at runs claims
  refine unseen_of_spent (fun _ => rfl) (rollbackHandles_occupied.trans occupied) fun i => ?_
  rcases rollbackHandles_at middle handles token i with
    ⟨kept, unreserved⟩ | ⟨handle, member, rfl, reserved, ended⟩
  · rcases lent i with same | ⟨handle, member, rfl, _⟩
    · exact .inl (kept.trans same)
    · have reserved := isReserved_iff.mpr (h.claimed handle member)
      rw [unreserved handle member rfl] at reserved
      cases reserved
  · obtain ⟨_, found, _⟩ := isReserved_iff.mp reserved
    rcases lent handle.index with same | ⟨other, inside, index, before⟩
    · exact absurd ⟨same.symm.trans found, rfl⟩ ((h.fresh handle member).2 token)
    · obtain ⟨_, held, _⟩ := h.claimed other inside
      rw [index, found] at held
      have generation : other.generation = handle.generation := congrArg Slot.generation (Option.some.inj held.symm)
      rw [generation] at before
      exact .inr ⟨handle, member, rfl, ended, before.imp_right fun new => ⟨new.1, new.2, rfl⟩⟩

theorem get_calm (required : Rights) : Calm (table.get handle required) := by
  have index : Calm (table.occupiedIndex handle) := by
    refine (calm_refuseIf _ _).bind fun _ _ => (calm_okOr _ _).bind fun slot _ => (calm_refuseIf _ _).bind fun _ _ => ?_
    split
    · exact avoids_ok _
    all_goals exact calm_fail _
  refine index.bind fun i accepted => ?_
  obtain ⟨_, rfl, _, found⟩ := occupiedIndex_ok accepted
  rw [entryAt, found]
  exact (calm_refuseIf _ _).bind fun _ _ => avoids_ok _

variable {transport : Rights}

theorem validateItems_calm {protect : Option Handle} {prior : List Handle} :
    Calm (table.validateItems transport protect prior items) := by
  induction items generalizing prior with
  | nil => exact avoids_ok _
  | cons _ _ ih =>
    exact (calm_refuseIf _ _).bind fun _ _ => (calm_refuseIf _ _).bind fun _ _ => (get_calm _).bind fun _ _ =>
      (calm_refuseIf _ _).bind fun _ _ => ih

def Names (table : HandleTable T R) (handles : List Handle) : Prop := ∀ handle ∈ handles, handle.isValid = true ∧
    ∃ entry, table.slots[handle.index]? = some ⟨handle.generation, .occupied entry⟩

theorem Names.put {slot : Slot T R} {occupied : Nat} (names : Names table (handle :: handles))
    (distinct : (handle :: handles).Nodup) : Names { table.put handle.index slot with occupied } handles := by
  intro other member
  obtain ⟨valid, entry, found⟩ := names other (mem_cons_of_mem _ member)
  obtain ⟨_, _, own⟩ := names handle mem_cons_self
  refine ⟨valid, entry, (get_put own).trans ((if_neg fun same => ?_).trans found)⟩
  rw [← same, own] at found
  have generation : handle.generation = other.generation := congrArg Slot.generation (Option.some.inj found)
  exact (nodup_cons.mp distinct).1 (Handle.eq_of_parts same generation ▸ member)

theorem validateItems_names {protect : Option Handle} {prior : List Handle} {done : Unit}
    (h : table.validateItems transport protect prior items = .ok done) : Names table (items.map Prod.fst) := by
  intro handle member
  obtain ⟨item, inside, rfl⟩ := mem_map.mp member
  obtain ⟨_, _, entry, read, _⟩ := (validateItems_ok h).2 item inside
  obtain ⟨valid, found, _⟩ := get_ok read
  exact ⟨valid, entry, found⟩

theorem commitExtraction_returns (sound : TableSound table) (distinct : (items.map Prod.fst).Nodup)
    (names : Names table (items.map Prod.fst)) (extracted : List (Entry T R)) :
    ∃ entries next, commitExtraction items extracted table = .ok entries next := by
  induction items generalizing table extracted with
  | nil => exact ⟨_, _, rfl⟩
  | cons item _ ih =>
    obtain ⟨valid, entry, found⟩ := names _ mem_cons_self
    have removed : table.remove item.1 = .ok (entry, { table.put item.1.index
        (Slot.advance ⟨item.1.generation, .occupied entry⟩) with occupied := table.occupied - 1 }) := by
      rw [remove, occupiedIndex_at valid found, if_pos rfl, ok_bind, entryAt, found,
        subtract_returns (counted_slot sound found rfl), ← advance_put found .vacant]
      rfl
    rw [commitExtraction, seq_run (get_run table), removed]
    exact ih ((remove_ok removed).ended.sound sound) (nodup_cons.mp distinct).2 (names.put distinct) _

theorem pinEntry_returns {entry : Entry T R} (valid : handle.isValid = true)
    (found : table.slots[handle.index]? = some ⟨handle.generation, .occupied entry⟩) :
    pinEntry token handle table = .ok () (table.put handle.index ⟨handle.generation, .pinned token entry⟩) := by
  have read : (table.entryAt handle.index : Outcome Empty _) = .ok entry := by
    rw [entryAt, found]
    rfl
  rw [pinEntry, seq_run (get_run table), occupiedIndex_at valid found, if_pos rfl, ← setState_put found]
  show (look (table.entryAt handle.index) >>= _) table = _
  rw [read]
  rfl

theorem pinEntries_returns (distinct : (items.map Prod.fst ++ handles).Nodup)
    (names : Names table (items.map Prod.fst ++ handles)) :
    ∃ next, (items.forM fun item => pinEntry token item.1) table = .ok () next ∧ Names next handles := by
  induction items generalizing table with
  | nil => exact ⟨table, rfl, names⟩
  | cons _ _ ih =>
    obtain ⟨valid, _, found⟩ := names _ mem_cons_self
    have first : pinEntry token _ table = .ok () _ := pinEntry_returns valid found
    obtain ⟨next, pinned, left⟩ := ih (nodup_cons.mp distinct).2 (names.put distinct)
    exact ⟨next, (seq_run first).trans pinned, left⟩

variable {α β : Type} {stop : Stop TableError}

theorem calm_fails {x : Outcome TableError α} {f : α → Method TableError T R β} (calm : Calm x)
    (h : (look x >>= f) table = .error stop next) (rest : ∀ a, x = .ok a → f a table = .error stop next →
      (∃ reason, stop = .error reason) ∧ next = table) : (∃ reason, stop = .error reason) ∧ next = table := by
  rcases look_fails h with ⟨failed, same⟩ | ⟨a, passed, h⟩
  · cases stop with
    | error reason => exact ⟨⟨reason, rfl⟩, same⟩
    | panic => exact absurd trivial (calm _ failed)
  · exact rest a passed h

theorem extractWith_fails {heap : Heap} (sound : TableSound table)
    (h : extractWith heap items transport table = .error stop next) : (∃ reason, stop = .error reason) ∧ next = table := by
  refine calm_fails (calm_refuseIf _ _) (get_fails h) fun _ _ h => calm_fails validateItems_calm h fun _ checked h => ?_
  obtain ⟨_, _, commits⟩ :=
    commitExtraction_returns sound (validateItems_ok checked).1 (validateItems_names checked) []
  cases (perform_run commits).symm.trans h

theorem pinTransaction_fails {protect : Handle × Rights}
    (h : pinTransaction protect items token table = .error stop next) : (∃ reason, stop = .error reason) ∧ next = table := by
  refine calm_fails (calm_refuseIf _ _) (get_fails h) fun _ _ h => calm_fails (get_calm _) h fun entry read h =>
    calm_fails validateItems_calm h fun _ checked h => ?_
  obtain ⟨valid, found, _⟩ := get_ok read
  obtain ⟨distinct, each⟩ := validateItems_ok checked
  have apart : (items.map Prod.fst ++ [protect.1]).Nodup := by
    refine List.Nodup.append distinct (nodup_singleton _) fun handle member last => ?_
    obtain ⟨item, inside, rfl⟩ := mem_map.mp member
    exact (each item inside).2.1 (congrArg some (mem_singleton.mp last).symm)
  have names : Names table (items.map Prod.fst ++ [protect.1]) := by
    exact forall_mem_concat (validateItems_names checked) ⟨valid, entry, found⟩
  obtain ⟨_, pinned, left⟩ := pinEntries_returns apart names
  obtain ⟨valid, _, found⟩ := left _ (mem_singleton_self _)
  cases (perform_run ((seq_run pinned).trans (pinEntry_returns valid found))).symm.trans h

def World.Reached (w : World T R) : Prop := ∃ limit events, runEvents step (initial limit) events = .ok w

/-- Failed calls have no visible effect. An extraction or a pin returns an error, never a panic, and the table as it
was. A reservation that fails has ended the generations it had used so far, which are those that a shorter one gets. One
that cannot be committed has ended its own, and its entries come back as they were. The handles of a reservation are
stale as long as it is not committed. -/
theorem failed_calls_unseen : ∀ w : World T R, w.Reached →
    (∀ heap items transport stop next, extractWith heap items transport w.table = .error stop next →
      (∃ reason, stop = .error reason) ∧ Unseen [] .vacant w.table next) ∧
    (∀ protect grants token stop next, pinTransaction protect grants token w.table = .error stop next →
      (∃ reason, stop = .error reason) ∧ Unseen [] .vacant w.table next) ∧
    (∀ heap count token error next, w.table.reserve heap count token = .ok (.error error, next) →
      ∃ own middle, UsedUpTo heap token count w.table [] own middle ∧ Unseen own .vacant w.table next) ∧
    (∀ reservation entries failure next, w.table.prepareCommit reservation entries = (.error failure, next) →
      Unseen reservation.handles (.reserved reservation.token) w.table next ∧ failure.entries = entries) ∧
    ∀ reservation ∈ w.holders, ∀ handle ∈ reservation.handles, ∀ required,
      w.table.get handle required = fail .staleHandle := by
  rintro w ⟨limit, events, run⟩
  refine ⟨fun heap items transport stop next h => ?_, fun protect grants token stop next h => ?_,
    fun heap count token error next h => ?_, fun reservation entries failure next h => ?_,
    fun reservation holder handle member => ?_⟩
  · obtain ⟨failed, rfl⟩ := extractWith_fails (run_sound run).tracked.table h
    exact ⟨failed, .refl _⟩
  · obtain ⟨failed, rfl⟩ := pinTransaction_fails h
    exact ⟨failed, .refl _⟩
  · rcases reserve_ok (run_sound run).tracked.table h with ⟨_, wrong, _⟩ | ⟨_, _, middle, own, reserves, rfl, used⟩
    · cases wrong
    · exact ⟨own, middle, used, reserves.unseen⟩
  · rcases prepareCommit_cases w.table reservation entries with ⟨accepted, _⟩ | refused
    · cases accepted.symm.trans h
    · cases refused.symm.trans h
      exact ⟨rollbackHandles_unseen, rfl⟩
  · exact (holds_rejected ((run_sound run).tracked.holds reservation holder handle member)).get

/-- A table with an entry and a reservation. An extraction and a pin that name the entry twice are refused; a reservation
of two slots gets the last one and gives it back; the reservation cannot be committed without an entry. -/
theorem failed_calls_unseen_full : ∃ w : World Nat Unit, ∃ next last,
    runEvents step (.initial 3) [.insert .ample ⟨7, (), ⟨3⟩⟩, .reserve .ample 1 5] = .ok w ∧
    extractWith .ample [(.fromParts 1 1, ⟨3⟩), (.fromParts 1 1, ⟨3⟩)] ⟨1⟩ w.table =
      .error (.error .duplicateHandle) w.table ∧ Unseen [] .vacant w.table w.table ∧
    pinTransaction (.fromParts 1 1, ⟨1⟩) [(.fromParts 1 1, ⟨3⟩)] 6 w.table =
      .error (.error .duplicateHandle) w.table ∧
    w.table.reserve .ample 2 6 = .ok (.error .reachLimit, next) ∧ next.slots[3]? = some ⟨2, .vacant⟩ ∧
    (∃ own middle, UsedUpTo .ample 6 2 w.table [] own middle ∧ Unseen own .vacant w.table next) ∧
    w.table.prepareCommit ⟨5, [.fromParts 2 1]⟩ [] = (.error ⟨.badReservation, []⟩, last) ∧
    Unseen [.fromParts 2 1] (.reserved 5) w.table last := by
  let slots : List (Slot Nat Unit) := [⟨0, .retired⟩, ⟨1, .occupied ⟨7, (), ⟨3⟩⟩⟩]
  let w : World Nat Unit := ⟨⟨slots ++ [⟨1, .reserved 5⟩], 3, 1⟩, [⟨5, [.fromParts 2 1]⟩], [],
    [(.fromParts 1 1, ⟨7, (), ⟨3⟩⟩)], [], [], [⟨7, (), ⟨3⟩⟩], [], []⟩
  have run : runEvents step (.initial 3) [.insert .ample ⟨7, (), ⟨3⟩⟩, .reserve .ample 1 5] = .ok w := rfl
  let next : HandleTable Nat Unit := ⟨slots ++ [⟨1, .reserved 5⟩, ⟨2, .vacant⟩], 3, 1⟩
  let last : HandleTable Nat Unit := ⟨slots ++ [⟨2, .vacant⟩], 3, 1⟩
  have reserves : w.table.reserve .ample 2 6 = .ok (.error .reachLimit, next) := by decide +kernel
  have commits : w.table.prepareCommit ⟨5, [.fromParts 2 1]⟩ [] = (.error ⟨.badReservation, []⟩, last) := rfl
  obtain ⟨extract, _, reserve, commit, _⟩ := failed_calls_unseen w ⟨3, _, run⟩
  exact ⟨w, next, last, run, rfl, (extract .ample [(.fromParts 1 1, ⟨3⟩), (.fromParts 1 1, ⟨3⟩)] ⟨1⟩ _ _ rfl).2, rfl,
    reserves, rfl, reserve _ _ _ _ _ reserves, commits, (commit _ _ _ _ commits).1⟩

end Halcyon.Handles
