import Halcyon.Tasks.Members

/-!
What the calls that the threads of a process make do to its table: each changes one member, or none. A key that is a
member's is always found.
-/

namespace Halcyon.Tasks

structure Updates (before after : Lifecycle) (key : MemberKey) (entry : Option MemberEntry) : Prop where
  nextTid : after.nextTid = before.nextTid
  counted : before.memberCount = occupied before.members → after.memberCount = occupied after.members
  current : (entryOf before.members key).isSome = true
  maps : ∀ other, entryOf after.members other = if other = key then entry else entryOf before.members other
  started : ∀ e, entry = some e → e.state.createdThread = none

theorem Updates.not_created {before after : Lifecycle} {key : MemberKey} {entry : Option MemberEntry} {thread : ThreadRef}
    (updates : Updates before after key entry) : after.stateOf key ≠ some (.created thread) := by
  intro created
  obtain ⟨held, current, state⟩ := Lifecycle.stateOf_iff.mp created
  rw [updates.maps, if_pos rfl] at current
  have started := updates.started held current
  rw [state] at started
  cases started

structure SameMembers (before after : Lifecycle) : Prop where
  nextTid : after.nextTid = before.nextTid
  members : after.members = before.members
  memberCount : after.memberCount = before.memberCount

def Changes (before after : Lifecycle) (key : MemberKey) : Prop :=
  SameMembers before after ∨ ∃ entry, Updates before after key (some entry)

section
variable {self middle next : Lifecycle} {key : MemberKey} {entry : Option MemberEntry}

theorem Updates.advance {executionSequence : Nat} (updates : Updates self next key entry) :
    Updates self { next with executionSequence } key entry := { updates with }

theorem SameMembers.updates (same : SameMembers self middle) (updates : Updates middle next key entry) :
    Updates self next key entry := by
  refine ⟨updates.nextTid.trans same.nextTid, fun count => updates.counted ?_, ?_, fun other => ?_, updates.started⟩
  · rw [same.memberCount, same.members, count]
  · exact same.members ▸ updates.current
  · exact same.members ▸ updates.maps other

end

namespace Lifecycle

variable {self next : Lifecycle} {key : MemberKey} {entry : MemberEntry}

theorem setState_updates {ε : Type} {state : ThreadState} (later : state.createdThread = none)
    (h : (self.setState key state : Outcome ε _) = .ok next) :
    ∃ entry, Updates self next key (some entry) := by
  obtain ⟨entry, members, current, rfl, _, counted, maps⟩ := setState_ok h
  refine ⟨_, rfl, fun count => count.trans counted.symm, by rw [current]; rfl, maps, ?_⟩
  rintro _ ⟨⟩
  exact later

variable {thread : ThreadRef} {slot : HartSlot} {synchronized : Bool}

theorem createRunning_ok {reserves : Bool} {build : Build}
    (h : self.createRunning reserves build = .ok (key, thread, next)) :
    key.tid = self.nextTid ∧ next.nextTid = self.nextTid + 1 ∧ entryOf self.members key = none ∧
      (self.memberCount = occupied self.members → next.memberCount = occupied next.members) ∧
      build key.tid key = .ok thread ∧ ∀ other, entryOf next.members other =
        if other = key then some ⟨key.tid, .created thread⟩ else entryOf self.members other := by
  obtain ⟨_, _, h⟩ := bind_ok h
  obtain ⟨⟨tid, key', append⟩, prepared, h⟩ := bind_ok h
  obtain ⟨thread', built, h⟩ := bind_ok h
  obtain ⟨middle, installed, h⟩ := bind_ok h
  obtain ⟨last, advanced, h⟩ := bind_ok h
  cases pure_ok h
  cases advanceExecution_ok advanced
  obtain ⟨number, _, place⟩ := prepareMember_ok prepared
  obtain ⟨members, rfl, _, counted, maps⟩ := installMember_ok place installed
  refine ⟨place.1, rfl, place.absent, fun count => ?_, ?_, maps⟩
  · show self.memberCount + 1 = occupied members
    rw [count, counted]
  · rw [place.1, ← number]
    exact built

theorem startCreated_ok (h : self.startCreated key = .ok (thread, next)) :
    self.stateOf key = some (.created thread) ∧ ∃ entry, Updates self next key (some entry) := by
  obtain ⟨_, _, h⟩ := bind_ok h
  obtain ⟨⟨slot, entry⟩, read, h⟩ := bind_ok h
  obtain ⟨_, _, h⟩ := bind_ok h
  obtain ⟨middle, written, h⟩ := bind_ok h
  obtain ⟨last, advanced, h⟩ := bind_ok h
  obtain ⟨thread', taken, h⟩ := bind_ok h
  cases pure_ok h
  cases advanceExecution_ok advanced
  obtain ⟨_, _, _, current⟩ := memberMut_ok read
  obtain ⟨_, updates⟩ := setState_updates rfl written
  exact ⟨stateOf_iff.mpr ⟨entry, current, createdThread_some (expect_ok taken)⟩, _, updates.advance⟩

theorem claimCreatedDeparture_updates {claimed : Option ThreadRef}
    (h : self.claimCreatedDeparture key = .ok (claimed, next)) :
    claimed = none ∧ next = self ∧ (∀ thread, self.stateOf key ≠ some (.created thread)) ∨
      ∃ thread entry, claimed = some thread ∧ self.stateOf key = some (.created thread) ∧
        Updates self next key (some entry) := by
  rcases claimCreatedDeparture_ok h with same | ⟨thread, middle, rfl, created, written, rfl⟩
  · exact .inl same
  · obtain ⟨entry, updates⟩ := setState_updates rfl written
    exact .inr ⟨thread, entry, rfl, created, updates.advance⟩

theorem removeMember_updates {ε : Type} (h : (self.removeMember key : Outcome ε _) = .ok (entry, next)) :
    entryOf self.members key = some entry ∧ Updates self next key none := by
  obtain ⟨members, current, some_, rfl, _, counted, maps⟩ := removeMember_ok h
  refine ⟨current, rfl, fun count => ?_, by rw [current]; rfl, maps, nofun⟩
  show self.memberCount - 1 = occupied members
  omega

theorem rollbackCreated_ok {reapable : Bool} (h : self.rollbackCreated key = .ok ((thread, reapable), next)) :
    self.stateOf key = some (.created thread) ∧ Updates self next key none := by
  obtain ⟨⟨entry, middle⟩, removed, h⟩ := bind_ok h
  obtain ⟨last, advanced, h⟩ := bind_ok h
  obtain ⟨thread', taken, h⟩ := bind_ok h
  cases pure_ok h
  cases advanceExecution_ok advanced
  obtain ⟨current, updates⟩ := removeMember_updates removed
  exact ⟨stateOf_iff.mpr ⟨entry, current, createdThread_some (expect_ok taken)⟩, updates.advance⟩

theorem threadDeparted_updates {result : Option TerminationTodo × Bool}
    (h : self.threadDeparted key = .ok (result, next)) : Updates self next key none := by
  obtain ⟨⟨entry, middle⟩, removed, h⟩ := bind_ok h
  obtain ⟨_, updates⟩ := removeMember_updates removed
  dsimp only at h
  split at h
  · obtain ⟨after, advanced, h⟩ := bind_ok h
    cases pure_ok h
    cases advanceExecution_ok advanced
    exact { updates with }
  · cases pure_ok h
    exact updates

theorem created_before {other : MemberKey} {entry : Option MemberEntry} (updates : Updates self next key entry)
    (created : next.stateOf other = some (.created thread)) : self.stateOf other = some (.created thread) := by
  obtain ⟨held, current, state⟩ := stateOf_iff.mp created
  rw [updates.maps] at current
  split at current
  · have started := updates.started held current
    rw [state] at started
    cases started
  · exact stateOf_iff.mpr ⟨held, current, state⟩

theorem takeTerminationSlot_updates {index : Nat} {taken : TerminationSlot}
    (h : self.takeTerminationSlot index = (taken, next)) :
    (∃ thread key entry, taken = .created thread ∧ self.stateOf key = some (.created thread) ∧
        Updates self next key (some entry)) ∨ (∀ thread, taken ≠ .created thread) ∧ (next = self ∨
      ∃ key context entry, self.stateOf key = some (.waiting context) ∧ Updates self next key (some entry)) := by
  rcases takeTerminationSlot_ok h with ⟨other, rfl⟩ | ⟨key, written, ⟨context, rfl, waits⟩ | ⟨thread, rfl, created⟩⟩
  · exact .inr ⟨other, .inl rfl⟩
  · obtain ⟨entry, updates⟩ := setState_updates rfl written
    exact .inr ⟨(fun _ same => by cases same), .inr ⟨key, context, entry, waits, updates⟩⟩
  · obtain ⟨entry, updates⟩ := setState_updates rfl written
    exact .inl ⟨thread, key, entry, rfl, created, updates⟩

theorem requestTermination_changes {cause : TerminationCause} {detail : TerminationDetail}
    {exiting : Option (MemberKey × HartSlot)} {todo : TerminationTodo}
    (h : self.requestTermination cause detail exiting = .ok (todo, next)) :
    match exiting with
    | none => SameMembers self next
    | some (member, _) => Changes self next member := by
  unfold requestTermination at h
  split at h
  · cases pure_ok h
    cases exiting with
    | none => exact ⟨rfl, rfl, rfl⟩
    | some who => exact .inl ⟨rfl, rfl, rfl⟩
  · obtain ⟨⟨ipiSlots, middle⟩, marked, h⟩ := bind_ok h
    obtain ⟨last, advanced, h⟩ := bind_ok h
    cases pure_ok h
    cases advanceExecution_ok advanced
    cases exiting with
    | none =>
      cases pure_ok marked
      exact ⟨rfl, rfl, rfl⟩
    | some who =>
      obtain ⟨after, written, marked⟩ := bind_ok marked
      cases pure_ok marked
      obtain ⟨_, updates⟩ := setState_updates rfl written
      exact .inr ⟨_, { updates with }⟩

theorem clearActive_same {message : String} (h : self.clearActive slot message = .ok next) : SameMembers self next := by
  obtain ⟨_, _, h⟩ := bind_ok h
  cases advanceExecution_ok h
  exact ⟨rfl, rfl, rfl⟩

theorem clearActiveIf_changes {left : Bool} (h : self.clearActiveIf slot synchronized = .ok (left, next)) :
    Changes self next key := by
  unfold clearActiveIf at h
  split at h
  · cases pure_ok h
    exact .inl ⟨rfl, rfl, rfl⟩
  · obtain ⟨middle, cleared, h⟩ := bind_ok h
    cases pure_ok h
    exact .inl (clearActive_same cleared)

theorem onRequeueIf_changes {left : Bool} (h : self.onRequeueIf key slot synchronized = .ok (left, next)) :
    Changes self next key := by
  unfold onRequeueIf at h
  split at h
  · cases pure_ok h
    exact .inl ⟨rfl, rfl, rfl⟩
  · obtain ⟨middle, cleared, h⟩ := bind_ok h
    have same := clearActive_same cleared
    split at h
    · cases pure_ok h
      exact .inl same
    · obtain ⟨⟨place, entry⟩, _, h⟩ := bind_ok h
      dsimp only at h
      split at h
      · obtain ⟨last, written, h⟩ := bind_ok h
        cases pure_ok h
        obtain ⟨_, updates⟩ := setState_updates rfl written
        exact .inr ⟨_, same.updates updates⟩
      · cases pure_ok h
        exact .inl same

theorem enterRunningIf_changes {result : EnterRunning}
    (h : self.enterRunningIf key slot synchronized = .ok (result, next)) : Changes self next key := by
  unfold enterRunningIf at h
  split at h
  · cases pure_ok h
    exact .inl ⟨rfl, rfl, rfl⟩
  · split at h
    · cases pure_ok h
      exact .inl ⟨rfl, rfl, rfl⟩
    · obtain ⟨middle, written, h⟩ := bind_ok h
      obtain ⟨_, _, h⟩ := bind_ok h
      obtain ⟨last, advanced, h⟩ := bind_ok h
      cases pure_ok h
      cases advanceExecution_ok advanced
      obtain ⟨_, updates⟩ := setState_updates rfl written
      exact .inr ⟨_, { updates with }⟩

end Lifecycle

end Halcyon.Tasks
