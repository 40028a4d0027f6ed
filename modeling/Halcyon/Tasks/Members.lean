import Halcyon.Tasks.Lifecycle

/-!
The table of members as a map from keys to entries. A slot keeps its generation apart from its entry, so a key of an
earlier member of the slot maps to nothing.
-/

namespace Halcyon.Tasks

open List

def entryOf (members : List MemberSlot) (key : MemberKey) : Option MemberEntry := members[key.slot]?.bind fun slot =>
    if slot.generation = key.generation then slot.entry.filter fun entry => entry.tid == key.tid else none

def occupied (members : List MemberSlot) : Nat := members.countP fun slot => slot.entry.isSome

section
variable {members members' : List MemberSlot} {key other : MemberKey} {entry : MemberEntry}

theorem MemberKey.eq_of_parts (slot : other.slot = key.slot) (generation : other.generation = key.generation)
    (tid : other.tid = key.tid) : other = key := by
  cases other
  cases key
  cases slot
  cases generation
  cases tid
  rfl

theorem entryOf_some : entryOf members key = some entry ↔
    ∃ retired, members[key.slot]? = some ⟨key.generation, retired, some entry⟩ ∧ entry.tid = key.tid := by
  unfold entryOf
  cases found : members[key.slot]? with
  | none => simp
  | some slot =>
    obtain ⟨generation, retired, held⟩ := slot
    simp only [Option.bind_some, Option.some.injEq, MemberSlot.mk.injEq]
    split
    · rename_i same
      simp [same, Option.filter_eq_some_iff]
    · rename_i different
      simp [different]

theorem entryOf_slot_inj {entry' : MemberEntry} (h : entryOf members key = some entry)
    (h' : entryOf members other = some entry') (same : other.slot = key.slot) : other = key := by
  obtain ⟨_, found, tid⟩ := entryOf_some.mp h
  obtain ⟨_, found', tid'⟩ := entryOf_some.mp h'
  rw [same, found] at found'
  injection found' with slots
  injection slots with generation _ entries
  injection entries with entries
  exact MemberKey.eq_of_parts same generation.symm (by rw [← tid, ← tid', entries])

theorem entryOf_put (retired : Bool) (here : members'[key.slot]? = some ⟨key.generation, retired, some entry⟩)
    (elsewhere : ∀ i, i ≠ key.slot → members'[i]? = members[i]?) (tid : entry.tid = key.tid)
    (alone : ∀ other, other.slot = key.slot → other ≠ key → entryOf members other = none) :
    entryOf members' other = if other = key then some entry else entryOf members other := by
  by_cases same : other = key
  · subst same
    rw [if_pos rfl]
    exact entryOf_some.mpr ⟨retired, here, tid⟩
  · rw [if_neg same]
    by_cases slot : other.slot = key.slot
    · rw [alone other slot same]
      cases found : entryOf members' other with
      | none => rfl
      | some entry' =>
        exact (same (entryOf_slot_inj (entryOf_some.mpr ⟨retired, here, tid⟩) found slot)).elim
    · unfold entryOf
      rw [elsewhere _ slot]

theorem entryOf_drop {slot : MemberSlot} (here : members'[key.slot]? = some slot) (empty : slot.entry = none)
    (elsewhere : ∀ i, i ≠ key.slot → members'[i]? = members[i]?) (current : entryOf members key = some entry) :
    entryOf members' other = if other = key then none else entryOf members other := by
  by_cases place : other.slot = key.slot
  · have gone : entryOf members' other = none := by simp [entryOf, place, here, empty]
    rw [gone]
    by_cases same : other = key
    · rw [if_pos same]
    · rw [if_neg same]
      cases found : entryOf members other with
      | none => rfl
      | some entry' => exact (same (entryOf_slot_inj current found place)).elim
  · rw [if_neg fun same => place (congrArg MemberKey.slot same)]
    unfold entryOf
    rw [elsewhere _ place]

theorem vacated_entry (slot : MemberSlot) : slot.vacated.entry = none := by
  unfold MemberSlot.vacated
  split <;> rfl

theorem occupied_set {i : Nat} {slot : MemberSlot} (found : members[i]? = some slot) (slot' : MemberSlot) :
    occupied (members.set i slot') + (if slot.entry.isSome then 1 else 0) =
      occupied members + if slot'.entry.isSome then 1 else 0 := by
  unfold occupied
  obtain ⟨less, same⟩ := List.getElem?_eq_some_iff.mp found
  rw [countP_set less, same]
  have positive : slot.entry.isSome = true → 0 < members.countP fun slot => slot.entry.isSome := by
    intro taken
    exact countP_pos_iff.mpr ⟨slot, mem_of_getElem? found, taken⟩
  by_cases taken : slot.entry.isSome = true
  · have some_ := positive taken
    simp only [taken, if_true]
    omega
  · simp only [taken, Bool.false_eq_true, if_false]
    omega

theorem occupied_pos (current : entryOf members key = some entry) : 0 < occupied members := by
  obtain ⟨_, found, _⟩ := entryOf_some.mp current
  exact countP_pos_iff.mpr ⟨_, mem_of_getElem? found, rfl⟩

end

namespace Lifecycle

variable {ε : Type} {self next : Lifecycle} {key other : MemberKey} {entry : MemberEntry}

def stateOf (self : Lifecycle) (key : MemberKey) : Option ThreadState := (entryOf self.members key).map MemberEntry.state

theorem stateOf_iff {state : ThreadState} : self.stateOf key = some state ↔
    ∃ entry, entryOf self.members key = some entry ∧ entry.state = state := Option.map_eq_some_iff

theorem memberMut_ok {slot : MemberSlot} (h : (self.memberMut key : Outcome ε _) = .ok (slot, entry)) :
    self.members[key.slot]? = some slot ∧ slot.generation = key.generation ∧ slot.entry = some entry ∧
      entryOf self.members key = some entry := by
  obtain ⟨slot', read, h⟩ := bind_ok h
  obtain ⟨_, generation, h⟩ := bind_ok h
  obtain ⟨entry', taken, h⟩ := bind_ok h
  obtain ⟨_, tid, h⟩ := bind_ok h
  cases pure_ok h
  have found := expect_ok read
  have same := beq_iff_eq.mp (assertThat_ok generation)
  have held := expect_ok taken
  refine ⟨found, same, held, entryOf_some.mpr ⟨slot.retired, ?_, beq_iff_eq.mp (assertThat_ok tid)⟩⟩
  rw [found]
  cases slot
  cases same
  cases held
  rfl

theorem memberMut_returns (current : entryOf self.members key = some entry) :
    ∃ slot, (self.memberMut key : Outcome ε _) = .ok (slot, entry) := by
  obtain ⟨retired, found, tid⟩ := entryOf_some.mp current
  refine ⟨⟨key.generation, retired, some entry⟩, ?_⟩
  simp [memberMut, found, expect, ok_bind, assertThat, tid]

variable {state : ThreadState} {append : Bool}

theorem setState_ok (h : (self.setState key state : Outcome ε _) = .ok next) :
    ∃ entry members, entryOf self.members key = some entry ∧ next = { self with members } ∧
      members.length = self.members.length ∧ occupied members = occupied self.members ∧
      ∀ other, entryOf members other = if other = key then some { entry with state } else entryOf self.members other := by
  obtain ⟨⟨slot, entry⟩, read, h⟩ := bind_ok h
  cases pure_ok h
  obtain ⟨found, generation, held, current⟩ := memberMut_ok read
  have less := (List.getElem?_eq_some_iff.mp found).1
  refine ⟨entry, _, current, rfl, length_set, ?_, fun other => ?_⟩
  · have counted := occupied_set found { slot with entry := some { entry with state } }
    simpa [held] using counted
  · refine entryOf_put slot.retired ?_ (fun i different => List.getElem?_set_ne (Ne.symm different)) ?_ ?_
    · rw [getElem?_set_self less, generation]
    · exact (entryOf_some.mp current).choose_spec.2
    · intro other place different
      cases taken : entryOf self.members other with
      | none => rfl
      | some entry' => exact (different (entryOf_slot_inj current taken place)).elim

theorem setState_at {index : Nat} {slot : MemberSlot} (found : self.members[index]? = some slot)
    (held : slot.entry = some entry) : (self.setState ⟨index, slot.generation, entry.tid⟩ state : Outcome ε _) =
      .ok { self with members := self.members.set index { slot with entry := some { entry with state } } } := by
  simp only [setState, memberMut, found, held, expect, ok_bind, assertThat, beq_self_eq_true, if_true, pure_bind_ok]
  rfl

theorem removeMember_ok (h : (self.removeMember key : Outcome ε _) = .ok (entry, next)) :
    ∃ members, entryOf self.members key = some entry ∧ 0 < self.memberCount ∧
      next = { self with members, memberCount := self.memberCount - 1 } ∧
      members.length = self.members.length ∧ occupied members + 1 = occupied self.members ∧
      ∀ other, entryOf members other = if other = key then none else entryOf self.members other := by
  obtain ⟨slot, read, h⟩ := bind_ok h
  obtain ⟨_, generation, h⟩ := bind_ok h
  obtain ⟨entry', taken, h⟩ := bind_ok h
  obtain ⟨_, tid, h⟩ := bind_ok h
  obtain ⟨count, less, h⟩ := bind_ok h
  have found := expect_ok read
  have held := expect_ok taken
  have same := beq_iff_eq.mp (assertThat_ok generation)
  have current : entryOf self.members key = some entry' := by
    refine entryOf_some.mpr ⟨slot.retired, ?_, beq_iff_eq.mp (assertThat_ok tid)⟩
    rw [found, ← same, ← held]
  have counts := checkedSub_some (expect_ok less)
  cases pure_ok h
  have inside := (List.getElem?_eq_some_iff.mp found).1
  refine ⟨self.members.set key.slot slot.vacated, current, by omega, ?_, length_set, ?_, fun other => ?_⟩
  · congr 1
    omega
  · have counted := occupied_set found slot.vacated
    simpa [held, vacated_entry] using counted
  · exact entryOf_drop (getElem?_set_self inside) (vacated_entry slot)
      (fun i different => getElem?_set_ne (Ne.symm different)) current

theorem advanceExecution_ok (h : (self.advanceExecution : Outcome ε _) = .ok next) :
    next = { self with executionSequence := self.executionSequence + 1 } := by
  obtain ⟨sequence, added, h⟩ := bind_ok h
  obtain ⟨rfl, _⟩ := checkedAdd_some (expect_ok added)
  exact pure_ok h

theorem consumeTid_ok {tid : Tid} (h : (self.consumeTid tid : Outcome ε _) = .ok next) :
    tid = self.nextTid ∧ next = { self with nextTid := tid + 1 } := by
  obtain ⟨_, same, h⟩ := bind_ok h
  obtain ⟨_, _, h⟩ := bind_ok h
  exact ⟨(beq_iff_eq.mp (assertThat_ok same)).symm, pure_ok h⟩

theorem freeSlot_some {slot : Nat} (h : self.freeSlot = some slot) :
    ∃ free, self.members[slot]? = some free ∧ free.entry = none := by
  obtain ⟨less, test, _⟩ := findIdx?_eq_some_iff_getElem.mp h
  refine ⟨self.members[slot], getElem?_eq_getElem less, ?_⟩
  simpa using (Bool.and_eq_true_iff.mp test).1

/-- A place for a new member: a free slot with its generation, or the next one. -/
def Place (self : Lifecycle) (key : MemberKey) (append : Bool) : Prop := key.tid = self.nextTid ∧
    if append then key.slot = self.members.length ∧ key.generation = 1
    else ∃ free, self.members[key.slot]? = some free ∧ free.entry = none

theorem prepareMember_ok {reserves : Bool} {tid : Tid} (h : self.prepareMember reserves = .ok (tid, key, append)) :
    tid = self.nextTid ∧ self.memberCount < processMaxThreads ∧ self.Place key append := by
  obtain ⟨_, room, h⟩ := bind_ok h
  obtain ⟨_, _, h⟩ := bind_ok h
  obtain ⟨_, _, h⟩ := bind_ok h
  cases pure_ok h
  refine ⟨rfl, ?_, rfl, ?_⟩
  · have below := refuseIf_ok room
    simpa using below
  · cases free : self.freeSlot with
    | none => simp
    | some slot =>
      obtain ⟨held, found, empty⟩ := freeSlot_some free
      have less := (List.getElem?_eq_some_iff.mp found).1
      have different := beq_eq_false_iff_ne.mpr (Nat.ne_of_lt less)
      simp only [Option.getD_some, different, Bool.false_eq_true, if_false]
      exact ⟨held, found, empty⟩

theorem Place.absent (place : self.Place key append) : entryOf self.members key = none := by
  obtain ⟨_, where_⟩ := place
  unfold entryOf
  cases append with
  | true => rw [where_.1, getElem?_eq_none (Nat.le_refl _), Option.bind_none]
  | false =>
    obtain ⟨free, found, empty⟩ := where_
    simp [found, empty]

theorem installMember_ok (place : self.Place key append)
    (h : (self.installMember key append state : Outcome ε _) = .ok next) :
    ∃ members, next = { self with members, memberCount := self.memberCount + 1, nextTid := self.nextTid + 1 } ∧
      self.members.length ≤ members.length ∧ occupied members = occupied self.members + 1 ∧
      ∀ other, entryOf members other = if other = key then some ⟨key.tid, state⟩ else entryOf self.members other := by
  obtain ⟨middle, consumed, h⟩ := bind_ok h
  obtain ⟨tid, rfl⟩ := consumeTid_ok consumed
  obtain ⟨_, where_⟩ := place
  cases append with
  | true =>
    obtain ⟨last, first⟩ := where_
    cases pure_ok h
    refine ⟨self.members ++ [.new ⟨key.tid, state⟩], by simp [tid], by simp, by simp [occupied, MemberSlot.new],
      fun other => ?_⟩
    refine entryOf_put false ?_ (fun i different => ?_) rfl fun other there _ => ?_
    · rw [last, getElem?_concat_length, first]
      rfl
    · rw [last] at different
      by_cases less : i < self.members.length
      · exact getElem?_append_left less
      · rw [getElem?_eq_none (by simp; omega), getElem?_eq_none (by omega)]
    · simp [entryOf, there, last]
  | false =>
    obtain ⟨free, found, empty⟩ := where_
    obtain ⟨slot, read, h⟩ := bind_ok h
    obtain ⟨_, generation, h⟩ := bind_ok h
    obtain ⟨_, _, h⟩ := bind_ok h
    cases pure_ok h
    cases found.symm.trans (expect_ok read)
    have same := beq_iff_eq.mp (assertThat_ok generation)
    refine ⟨self.members.set key.slot { free with entry := some ⟨key.tid, state⟩ }, by simp [tid], by simp, ?_,
      fun other => ?_⟩
    · have counted := occupied_set found { free with entry := some ⟨key.tid, state⟩ }
      simpa [empty] using counted
    · refine entryOf_put free.retired ?_ (fun i different => getElem?_set_ne (Ne.symm different)) rfl
        fun other there _ => ?_
      · rw [List.getElem?_set_self (List.getElem?_eq_some_iff.mp found).1, same]
      · simp [entryOf, there, found, empty]

theorem createdThread_some {thread : ThreadRef} (h : state.createdThread = some thread) : state = .created thread := by
  cases state with
  | created other =>
    cases h
    rfl
  | _ => cases h

theorem readyAll_ok {members members' : List MemberSlot} {threads : List ThreadRef}
    (h : readyAll members = .ok (threads, members')) :
    members'.length = members.length ∧ occupied members' = occupied members ∧
      ∀ key, entryOf members' key = (entryOf members key).map fun entry => { entry with state := .ready } := by
  induction members generalizing threads members' with
  | nil =>
    cases pure_ok h
    exact ⟨rfl, rfl, fun _ => rfl⟩
  | cons slot slots ih =>
    have tail : ∀ {slot' : MemberSlot} {slots' : List MemberSlot} {key : MemberKey},
        (∀ key, entryOf slots' key = (entryOf slots key).map fun entry => { entry with state := .ready }) →
        slot'.generation = slot.generation →
        slot'.entry = slot.entry.map (fun entry => { entry with state := .ready }) →
        entryOf (slot' :: slots') key = (entryOf (slot :: slots) key).map fun entry => { entry with state := .ready } := by
      intro slot' slots' key rest generation entries
      obtain ⟨place, generation', tid⟩ := key
      cases place with
      | zero =>
        simp only [entryOf, getElem?_cons_zero, Option.bind_some, generation, entries]
        split
        · cases slot.entry with
          | none => rfl
          | some entry =>
            by_cases same : entry.tid = tid
            · simp [Option.filter, same]
            · simp [Option.filter, same]
        · rfl
      | succ place => exact rest ⟨place, generation', tid⟩
    rw [readyAll] at h
    cases held : slot.entry with
    | none =>
      rw [held] at h
      obtain ⟨⟨threads', slots'⟩, rest, h⟩ := bind_ok h
      cases pure_ok h
      obtain ⟨length, counted, maps⟩ := ih rest
      refine ⟨by simp [length], ?_, fun key => tail maps rfl (by rw [held]; rfl)⟩
      unfold occupied at counted ⊢
      rw [countP_cons, countP_cons, counted]
    | some entry =>
      rw [held] at h
      obtain ⟨thread, _, h⟩ := bind_ok h
      obtain ⟨⟨threads', slots'⟩, rest, h⟩ := bind_ok h
      cases pure_ok h
      obtain ⟨length, counted, maps⟩ := ih rest
      refine ⟨by simp [length], ?_, fun key => tail maps rfl (by rw [held]; rfl)⟩
      unfold occupied at counted ⊢
      rw [countP_cons, countP_cons, counted, held]
      rfl

theorem claimCreatedDeparture_ok {claimed : Option ThreadRef} (h : self.claimCreatedDeparture key = .ok (claimed, next)) :
    claimed = none ∧ next = self ∧ (∀ thread, self.stateOf key ≠ some (.created thread)) ∨
      ∃ thread middle, claimed = some thread ∧ self.stateOf key = some (.created thread) ∧
        (self.setState key .exiting : Outcome Empty _) = .ok middle ∧
        next = { middle with executionSequence := self.executionSequence + 1 } := by
  unfold claimCreatedDeparture at h
  unfold stateOf entryOf
  split at h
  · rename_i missing
    cases pure_ok h
    exact .inl ⟨rfl, rfl, by simp [missing]⟩
  · rename_i slot found
    split at h
    · rename_i empty
      cases pure_ok h
      exact .inl ⟨rfl, rfl, by simp [found, empty]⟩
    · rename_i entry held
      split at h
      · rename_i stale
        cases pure_ok h
        refine .inl ⟨rfl, rfl, fun thread => ?_⟩
        simp only [Bool.or_eq_true, bne_iff_ne] at stale
        simp only [found, held, Option.bind_some]
        by_cases generation : slot.generation = key.generation
        · have other := stale.resolve_left (not_not_intro generation)
          simp [generation, other]
        · simp [generation]
      · rename_i fresh
        simp only [Bool.or_eq_true, bne_iff_ne, not_or, Classical.not_not] at fresh
        obtain ⟨generation, tid⟩ := fresh
        split at h
        · rename_i thread created
          obtain ⟨advanced, sequence, h⟩ := bind_ok h
          cases pure_ok h
          cases advanceExecution_ok sequence
          refine .inr ⟨thread, _, rfl, by simp [found, generation, held, tid, created], ?_, rfl⟩
          cases key
          cases generation
          cases tid
          exact setState_at found held
        · rename_i other
          cases pure_ok h
          refine .inl ⟨rfl, rfl, fun thread same => other thread ?_⟩
          simpa [found, generation, held, tid] using same

theorem takeTerminationSlot_ok {index : Nat} {taken : TerminationSlot} (h : self.takeTerminationSlot index = (taken, next)) :
    (∀ thread, taken ≠ .created thread) ∧ next = self ∨ ∃ key, (self.setState key .exiting : Outcome Empty _) = .ok next ∧
      ((∃ context, taken = .waiting context ∧ self.stateOf key = some (.waiting context)) ∨
        ∃ thread, taken = .created thread ∧ self.stateOf key = some (.created thread)) := by
  unfold takeTerminationSlot at h
  split at h
  · cases h
    exact .inl ⟨(fun _ same => by cases same), rfl⟩
  · rename_i slot found
    split at h
    · cases h
      exact .inl ⟨(fun _ same => by cases same), rfl⟩
    · rename_i entry held
      have current : entryOf self.members ⟨index, slot.generation, entry.tid⟩ = some entry := by
        simp [entryOf, found, held]
      split at h
      · rename_i context waits
        cases h
        exact .inr ⟨_, setState_at found held, .inl ⟨context, rfl, stateOf_iff.mpr ⟨entry, current, waits⟩⟩⟩
      · rename_i thread created
        cases h
        exact .inr ⟨_, setState_at found held, .inr ⟨thread, rfl, stateOf_iff.mpr ⟨entry, current, created⟩⟩⟩
      · cases h
        exact .inl ⟨(fun _ same => by cases same), rfl⟩

end Lifecycle

end Halcyon.Tasks
