import Halcyon.Handles.Guarantees

/-!
Entries are conserved, and a drain is complete. Draining goes over the slots once; what it finds are the
entries that are not pinned, in the order of the slots.
-/

namespace Halcyon.Handles

open HandleTable List

variable {T R : Type} {w next : World T R}

open World

def Slot.loose (slot : Slot T R) : List (Entry T R) :=
  match slot.state with
  | .occupied entry => [entry]
  | _ => []

def HandleTable.loose (table : HandleTable T R) : List (Entry T R) := table.slots.flatMap Slot.loose

def Slot.isPinned (slot : Slot T R) : Bool :=
  match slot.state with
  | .pinned _ _ => true
  | _ => false

def Slot.holdsEntry (slot : Slot T R) : Bool :=
  match slot.state with
  | .occupied _ => true
  | .pinned _ _ => true
  | _ => false

/-- A caller that calls `take_next` until it finds nothing. -/
def HandleTable.drain : Nat → HandleTable T R → Nat → Outcome Empty (List (Entry T R) × HandleTable T R)
  | 0, _, _ => panicked "the drain has not ended"
  | turns + 1, table, cursor => do
    let (found, cursor, table) ← table.takeNext cursor
    match found with
    | none => pure ([], table)
    | some entry => do
      let (rest, table) ← drain turns table cursor
      pure (entry :: rest, table)

/-- A caller that calls `take_next_bounded`, each time with a budget, until the table is exhausted. -/
def HandleTable.drainBounded : List Nat → HandleTable T R → Nat → Outcome Empty (List (Entry T R) × HandleTable T R)
  | [], _, _ => panicked "the drain has not ended"
  | budget :: budgets, table, cursor => do
    let (answer, cursor, table) ← HandleTable.takeNextBounded budget table cursor
    match answer with
    | .exhausted => pure ([], table)
    | .progress => drainBounded budgets table cursor
    | .entry entry => do
      let (rest, table) ← drainBounded budgets table cursor
      pure (entry :: rest, table)

structure Drained (table next : HandleTable T R) : Prop where
  emptied : ∀ index, next.drainable index = none
  pinned : ∀ {index : Nat} {slot : Slot T R}, slot.isPinned = true → table.slots[index]? = some slot →
    next.slots[index]? = some slot

/-- Slots below the cursor are drained into `out`; the others are as they were. -/
structure Swept (table now : HandleTable T R) (cursor : Nat) (out : List (Entry T R)) : Prop where
  sound : TableSound now
  length : now.slots.length = table.slots.length
  ahead : ∀ index, cursor ≤ index → now.slots[index]? = table.slots[index]?
  emptied : ∀ index < cursor, now.drainable index = none
  pinned : ∀ {index : Nat} {slot : Slot T R}, slot.isPinned = true → table.slots[index]? = some slot →
    now.slots[index]? = some slot
  out : out = (table.slots.take cursor).flatMap Slot.loose

section
variable {table now : HandleTable T R} {cursor : Nat} {out : List (Entry T R)}

theorem counted_slot {index : Nat} {slot : Slot T R} {entry : Entry T R} (sound : TableSound table)
    (found : table.slots[index]? = some slot) (held : slot.entries = [entry]) : 1 ≤ table.occupied := by
  rw [sound.counted, stored]
  have member : entry ∈ table.slots.flatMap Slot.entries :=
    mem_flatMap.mpr ⟨slot, mem_of_getElem? found, by rw [held]; exact mem_singleton_self _⟩
  exact length_pos_of_mem member

theorem drainSlot_returns (sound : TableSound table) (index : Nat) : ∃ next, table.drainSlot index =
      .ok ((table.slots[index]?.elim [] Slot.loose).head?, next) := by
  unfold drainSlot
  split
  · rename_i generation entry found
    rw [subtract_returns (counted_slot sound found rfl), ok_bind, found]
    exact ⟨_, rfl⟩
  · rename_i generation token found
    rw [found]
    exact ⟨_, rfl⟩
  · rename_i free busy
    refine ⟨table, ?_⟩
    cases found : table.slots[index]? with
    | none => rfl
    | some slot =>
      obtain ⟨generation, state⟩ := slot
      cases state with
      | occupied entry => exact (free _ _ found).elim
      | reserved token => exact (busy _ _ found).elim
      | vacant | pinned token entry | retired => rfl

theorem loose_head (slot : Slot T R) : slot.loose.head?.toList = slot.loose := by
  unfold Slot.loose
  split <;> rfl

theorem drainable_unpinned {index : Nat} {slot : Slot T R} (pinned : slot.isPinned = true)
    (found : table.slots[index]? = some slot) : table.drainable index = none := by
  obtain ⟨generation, state⟩ := slot
  cases state with
  | pinned token entry =>
    unfold drainable
    rw [found]
  | _ => cases pinned

theorem drainSlot_undrainable {index : Nat} {found : Option (Entry T R)} {next : HandleTable T R}
    (none_ : table.drainable index = none) (h : table.drainSlot index = .ok (found, next)) : next = table := by
  unfold drainSlot at h
  unfold drainable at none_
  split at h
  · rename_i at_
    rw [at_] at none_
    cases none_
  · rename_i at_
    rw [at_] at none_
    cases none_
  · cases pure_ok h
    rfl

theorem swept_step (swept : Swept table now cursor out) (inside : cursor < table.slots.length) :
    ∃ found next, now.drainSlot cursor = .ok (found, next) ∧ Swept table next (cursor + 1) (out ++ found.toList) := by
  obtain ⟨slot, at_⟩ : ∃ slot, table.slots[cursor]? = some slot := ⟨_, getElem?_eq_getElem inside⟩
  obtain ⟨next, drained⟩ := drainSlot_returns swept.sound cursor
  obtain ⟨ended, passes⟩ := drainSlot_ok swept.sound drained
  refine ⟨_, next, drained, ended.sound swept.sound, passes.length.trans swept.length, ?_, ?_, ?_, ?_⟩
  · intro index beyond
    exact (passes.others (by omega)).trans (swept.ahead index (by omega))
  · intro index below
    rcases Nat.lt_or_eq_of_le (Nat.le_of_lt_succ below) with earlier | rfl
    · rw [drainable, passes.others (by omega)]
      exact swept.emptied index earlier
    · exact passes.passed
  · intro index other pinned read
    by_cases same : index = cursor
    · subst same
      have before := (swept.ahead index (Nat.le_refl _)).trans read
      cases drainSlot_undrainable (drainable_unpinned pinned before) drained
      exact before
    · rw [passes.others same]
      exact swept.pinned pinned read
  · rw [swept.ahead cursor (Nat.le_refl _), at_, swept.out, take_add_one, at_, flatMap_append]
    show _ = _ ++ [slot].flatMap Slot.loose
    rw [flatMap_singleton]
    exact congrArg _ (loose_head slot)

theorem swept_loop (left : Nat) (swept : Swept table now cursor out) (inside : cursor + left ≤ table.slots.length) :
    ∃ found last next, HandleTable.takeNextLoop left now cursor = .ok (found, last, next) ∧
      Swept table next last (out ++ found.toList) ∧ last ≤ table.slots.length ∧
      (found = none → last = cursor + left) ∧ (found ≠ none → cursor < last) := by
  induction left generalizing now cursor out with
  | zero => exact ⟨none, cursor, now, rfl, by simpa using swept, inside, fun _ => rfl, fun some_ => (some_ rfl).elim⟩
  | succ left ih =>
    obtain ⟨found, next, drained, after⟩ := swept_step swept (by omega)
    unfold takeNextLoop
    rw [drained, ok_bind]
    cases found with
    | some entry =>
      exact ⟨some entry, cursor + 1, next, rfl, after, by omega, (fun none_ => by cases none_), fun _ => Nat.lt_succ_self cursor⟩
    | none =>
      rw [Option.toList_none, append_nil] at after
      obtain ⟨found, last, final, looped, swept, le, ends, moves⟩ := ih after (by omega)
      exact ⟨found, last, final, looped, swept, le, fun none_ => by rw [ends none_]; omega,
        fun some_ => by have := moves some_; omega⟩

theorem swept_start (sound : TableSound table) : Swept table table 0 [] :=
  ⟨sound, rfl, fun _ _ => rfl, fun _ below => (Nat.not_lt_zero _ below).elim, fun _ read => read, rfl⟩

theorem swept_end (swept : Swept table now table.slots.length out) : out = table.loose ∧ Drained table now := by
  refine ⟨by rw [swept.out, take_length]; rfl, fun index => ?_, swept.pinned⟩
  rcases Nat.lt_or_ge index table.slots.length with inside | outside
  · exact swept.emptied index inside
  · rw [drainable, getElem?_eq_none (by rw [swept.length]; exact outside)]

theorem drain_swept {turns : Nat} (swept : Swept table now cursor out) (inside : cursor ≤ table.slots.length)
    (enough : table.slots.length - cursor < turns) :
    ∃ rest next, HandleTable.drain turns now cursor = .ok (rest, next) ∧ out ++ rest = table.loose ∧ Drained table next := by
  induction turns generalizing now cursor out with
  | zero => omega
  | succ turns ih =>
    obtain ⟨found, last, next, looped, after, le, ends, moves⟩ := swept_loop (table.slots.length - cursor) swept (by omega)
    have taken : now.takeNext cursor = .ok (found, last, next) := by
      rw [takeNext, swept.length]
      exact looped
    unfold drain
    rw [taken, ok_bind]
    cases found with
    | none =>
      rw [ends rfl, Nat.add_sub_cancel' inside, Option.toList_none, append_nil] at after
      obtain ⟨all, drained⟩ := swept_end after
      exact ⟨[], next, rfl, by rw [append_nil, all], drained⟩
    | some entry =>
      have further := moves nofun
      obtain ⟨rest, final, drains, all, drained⟩ := ih after le (by omega)
      dsimp only
      rw [drains]
      refine ⟨entry :: rest, final, rfl, ?_, drained⟩
      rw [← all, Option.toList_some, append_assoc, singleton_append]

theorem drainBounded_swept {budgets : List Nat} (swept : Swept table now cursor out)
    (inside : cursor ≤ table.slots.length) (positive : ∀ budget ∈ budgets, 0 < budget)
    (enough : table.slots.length - cursor < budgets.length) :
    ∃ rest next, HandleTable.drainBounded budgets now cursor = .ok (rest, next) ∧ out ++ rest = table.loose ∧
      Drained table next := by
  induction budgets generalizing now cursor out with
  | nil => simp at enough
  | cons budget budgets ih =>
    rw [length_cons] at enough
    have some_ := positive budget mem_cons_self
    have later : ∀ budget ∈ budgets, 0 < budget := fun b member => positive b (mem_cons_of_mem _ member)
    obtain ⟨found, last, next, looped, after, le, ends, moves⟩ :=
      swept_loop (min budget (table.slots.length - cursor)) swept (by omega)
    have taken := takeNextBounded_loop budget cursor swept.sound
    rw [swept.length, looped] at taken
    unfold drainBounded
    rw [taken]
    show ∃ rest final, (match TakeNext.ofFound table.slots.length found last with
      | .exhausted => _
      | .progress => _
      | .entry entry => _) = Except.ok (rest, final) ∧ _
    cases found with
    | some entry =>
      have further := moves nofun
      obtain ⟨rest, final, drains, all, drained⟩ := ih after le later (by omega)
      refine ⟨entry :: rest, final, ?_, ?_, drained⟩
      · dsimp only [TakeNext.ofFound]
        rw [drains]
        rfl
      · rw [← all, Option.toList_some, append_assoc, singleton_append]
    | none =>
      rw [Option.toList_none, append_nil] at after
      have stop := ends rfl
      dsimp only [TakeNext.ofFound]
      by_cases more : last < table.slots.length
      · rw [if_pos more]
        exact ih after le later (by omega)
      · rw [if_neg more]
        obtain rfl : last = table.slots.length := by omega
        obtain ⟨all, drained⟩ := swept_end after
        exact ⟨[], next, rfl, by rw [append_nil, all], drained⟩

end

theorem stored_length (table : HandleTable T R) : table.stored.length = table.slots.countP Slot.holdsEntry := by
  unfold stored
  induction table.slots with
  | nil => rfl
  | cons slot rest ih =>
    obtain ⟨generation, state⟩ := slot
    rw [flatMap_cons, length_append, ih, countP_cons]
    cases state <;> simp [Slot.entries, Slot.holdsEntry, Nat.add_comm]

theorem step_drops {event : Event T R} (tracked : Tracked w) (accepts : Accepts w event) (h : step w event = .ok next) :
    next.dropped = w.dropped := by
  cases step_turns tracked h with
  | stays | ended | inserted | quiet | reserved => rfl
  | lost refused | refused refused => exact absurd accepts refused
  | prepared releases | returned releases | committed releases | abandoned releases => exact releases.dropped

/-- Every entry that went in is in one slot, waits in a prepared commit, came back once, or was dropped by a
call that refused it; the counter and the limit are right; and a drain is complete. -/
theorem entries_conserved {limit : Nat} {events : List (Event T R)} (run : runEvents step (initial limit) events = .ok w) :
    ((w.table.stored ++ w.inFlight ++ w.returned ++ w.dropped).map Entry.body).Perm (w.received.map Entry.body) ∧
    (RunMeets step Accepts (initial limit) events → w.dropped = []) ∧
    w.table.occupied = w.table.slots.countP Slot.holdsEntry ∧ w.table.slots.length - 1 ≤ w.table.limit ∧
    (∀ turns, w.table.slots.length < turns →
      ∃ next, HandleTable.drain turns w.table 0 = .ok (w.table.loose, next) ∧ Drained w.table next) ∧
    ∀ budgets, w.table.slots.length < budgets.length → (∀ budget ∈ budgets, 0 < budget) →
      ∃ next, HandleTable.drainBounded budgets w.table 0 = .ok (w.table.loose, next) ∧ Drained w.table next := by
  have sound := run_sound run
  have table := sound.tracked.table
  refine ⟨?_, fun accepts => ?_, ?_, ?_, fun turns enough => ?_, fun budgets enough positive => ?_⟩
  · have conserved := sound.conserved
    unfold Conserved at conserved
    simp only [← bodies_append] at conserved
    exact Multiset.coe_eq_coe.mp conserved
  · exact (run_invariant_of_meets (I := fun w => Sound w ∧ w.dropped = []) (fun _ _ _ kept accepts h =>
      ⟨step_sound kept.1 h, (step_drops kept.1.tracked accepts h).trans kept.2⟩) ⟨initial_sound limit, rfl⟩ accepts run).2
  · rw [table.counted, stored_length]
  · have room := table.room
    omega
  · obtain ⟨rest, next, drains, all, drained⟩ := drain_swept (swept_start table) (Nat.zero_le _) (by omega)
    rw [nil_append] at all
    exact ⟨next, all ▸ drains, drained⟩
  · obtain ⟨rest, next, drains, all, drained⟩ := drainBounded_swept (swept_start table) (Nat.zero_le _) positive (by omega)
    rw [nil_append] at all
    exact ⟨next, all ▸ drains, drained⟩

/-- A table without room takes the entry in, and neither stores it nor gives it back. -/
theorem failed_insert_drops : ∃ w : World Nat Unit, runEvents step (initial 0) [.insert .ample ⟨7, (), ⟨3⟩⟩] = .ok w ∧
      w.received = [⟨7, (), ⟨3⟩⟩] ∧ w.table.stored = [] ∧ w.inFlight = [] ∧ w.returned = [] :=
  ⟨⟨⟨[⟨0, .retired⟩], 0, 0⟩, [], [], [], [], [], [⟨7, (), ⟨3⟩⟩], [], [⟨7, (), ⟨3⟩⟩]⟩, rfl, rfl, rfl, rfl, rfl⟩

/-- One entry is pinned and one is drained. -/
theorem entries_conserved_pinned : ∃ w : World Nat Unit,
      runEvents step (initial 4) [.insert .ample ⟨7, (), ⟨3⟩⟩, .insert .ample ⟨8, (), ⟨3⟩⟩,
        .pinConsume (.fromParts 1 1) ⟨1⟩ 5] = .ok w ∧ w.dropped = [] ∧ w.table.occupied = 2 ∧
      ∃ next, HandleTable.drain 4 w.table 0 = .ok ([⟨8, (), ⟨3⟩⟩], next) ∧ Drained w.table next := by
  let w : World Nat Unit := ⟨⟨[⟨0, .retired⟩, ⟨1, .pinned 5 ⟨7, (), ⟨3⟩⟩⟩, ⟨1, .occupied ⟨8, (), ⟨3⟩⟩⟩], 4, 2⟩, [], [],
    [(.fromParts 2 1, ⟨8, (), ⟨3⟩⟩), (.fromParts 1 1, ⟨7, (), ⟨3⟩⟩)], [], [], [⟨7, (), ⟨3⟩⟩, ⟨8, (), ⟨3⟩⟩], [], []⟩
  have run : runEvents step (initial 4) [.insert .ample ⟨7, (), ⟨3⟩⟩, .insert .ample ⟨8, (), ⟨3⟩⟩,
      .pinConsume (.fromParts 1 1) ⟨1⟩ 5] = .ok w := rfl
  obtain ⟨_, _, count, _, drains, _⟩ := entries_conserved run
  exact ⟨w, run, rfl, count.trans rfl, drains 4 (by decide)⟩

end Halcyon.Handles
