import Halcyon.Threads.Preservation

/-!
A key of a member is copied out of the lock and used by a later section. `start` and the rollback of `create` own nothing:
they run into an assertion when the member has departed in between.
-/

namespace Halcyon.Threads

open Tasks Threads.World

/-- The messages of the assertions in `member_mut`, `remove_member`, `start_created` and `rollback_created`. -/
def staleMessages : List String :=
  ["thread member slot escaped its process", "stale thread member key", "thread member key was retired",
    "thread member removed twice", "thread member key changed identity",
    "created member state changed under lifecycle lock", "only Created member can roll back"]

def IsStale {ε : Type} : Stop ε → Prop
  | .panic message => message ∈ staleMessages
  | .error _ => False

def StalePanic {ε α : Type} (x : Outcome ε α) : Prop := ∃ stop, x = .error stop ∧ IsStale stop

abbrev Finds {ε α : Type} (x : Outcome ε α) : Prop := Avoids IsStale x

variable {ε α : Type} {x : Outcome ε α}

theorem not_stalePanic (finds : Finds x) : ¬StalePanic x := fun ⟨stop, same, stale⟩ => finds stop same stale

theorem StalePanic.bind {β : Type} {f : α → Outcome ε β} (h : StalePanic x) : StalePanic (x >>= f) := by
  obtain ⟨stop, rfl, stale⟩ := h
  exact ⟨stop, rfl, stale⟩

theorem stalePanic_settle {β : Type} {onOk : α → β} {onError : ε → β} (h : StalePanic x) :
    StalePanic (settle x onOk onError) := by
  obtain ⟨stop, rfl, stale⟩ := h
  cases stop with
  | error reason => exact stale.elim
  | panic message => exact ⟨.panic message, rfl, stale⟩

section
variable {ε : Type} {self : Lifecycle} {key : MemberKey} {entry : MemberEntry}

variable {α : Type} {message : String} {slot : HartSlot} {synchronized : Bool}

theorem stalePanic_panicked (stale : message ∈ staleMessages) :
    StalePanic (panicked message : Outcome ε α) := ⟨.panic message, rfl, stale⟩

theorem lookUp_stale {escaped retired : String} {f : MemberSlot → MemberEntry → Outcome ε α}
    (gone : entryOf self.members key = none) (first : escaped ∈ staleMessages) (third : retired ∈ staleMessages) :
    StalePanic (do
      let slot ← expect escaped self.members[key.slot]?
      assertThat (slot.generation == key.generation) "stale thread member key"
      let entry ← expect retired slot.entry
      assertThat (entry.tid == key.tid) "thread member key changed identity"
      f slot entry) := by
  unfold entryOf at gone
  cases found : self.members[key.slot]? with
  | none => exact (stalePanic_panicked first).bind
  | some slot =>
    rw [found, Option.bind_some] at gone
    rw [expect, ok_bind]
    by_cases generation : slot.generation = key.generation
    · rw [if_pos generation] at gone
      rw [generation, beq_self_eq_true]
      show StalePanic (expect retired slot.entry >>= _)
      cases held : slot.entry with
      | none => exact (stalePanic_panicked third).bind
      | some entry =>
        rw [held] at gone
        have other : (entry.tid == key.tid) = false := by simpa [Option.filter] using gone
        rw [expect, ok_bind, other]
        exact (stalePanic_panicked (by decide)).bind
    · rw [beq_eq_false_iff_ne.mpr generation]
      exact (stalePanic_panicked (by decide)).bind

theorem memberMut_stale (gone : entryOf self.members key = none) : StalePanic (self.memberMut key : Outcome ε _) :=
  lookUp_stale gone (by decide) (by decide)

theorem removeMember_stale (gone : entryOf self.members key = none) :
    StalePanic (self.removeMember key : Outcome ε _) := lookUp_stale gone (by decide) (by decide)

theorem finds_expect {found : Option α} (other : message ∉ staleMessages) :
    Finds (expect message found : Outcome ε α) := avoids_expect other

theorem finds_assertThat {test : Bool} (other : message ∉ staleMessages) :
    Finds (assertThat test message : Outcome ε Unit) := avoids_assertThat other

theorem finds_refuseIf {test : Bool} {reason : ε} : Finds (refuseIf test reason) := avoids_refuseIf not_false

theorem advanceExecution_finds : Finds (self.advanceExecution : Outcome ε _) :=
  (finds_expect (by decide)).bind fun _ _ => avoids_ok _

theorem clearActive_finds (other : message ∉ staleMessages) : Finds (self.clearActive slot message) :=
  (finds_assertThat other).bind fun _ _ => advanceExecution_finds

section

variable (current : entryOf self.members key = some entry)
include current

theorem memberMut_finds : Finds (self.memberMut key : Outcome ε _) := by
  obtain ⟨slot, returned⟩ := Lifecycle.memberMut_returns current
  rw [returned]
  exact avoids_ok _

theorem setState_finds {state : ThreadState} :
    Finds (self.setState key state : Outcome ε _) := (memberMut_finds current).bind fun _ _ => avoids_ok _

theorem removeMember_finds : Finds (self.removeMember key : Outcome ε _) := by
  obtain ⟨retired, found, tid⟩ := entryOf_some.mp current
  unfold Lifecycle.removeMember
  simp only [found, expect, ok_bind, assertThat, beq_self_eq_true, if_true, tid]
  exact (finds_expect (by decide)).bind fun _ _ => avoids_ok _

theorem threadDeparted_finds : Finds (self.threadDeparted key) := by
  refine (removeMember_finds current).bind fun removed _ => ?_
  obtain ⟨entry, next⟩ := removed
  dsimp only
  split
  · exact advanceExecution_finds.bind fun _ _ => avoids_ok _
  · exact avoids_ok _

/-- A member that is not created stops the rollback at its last check, unless an earlier one has stopped it. -/
theorem rollbackCreated_finds (created : entry.state.createdThread = none → ¬self.executionSequence < usizeMax) :
    Finds (self.rollbackCreated key) := by
  refine (removeMember_finds current).bind fun removed returned => ?_
  obtain ⟨entry', next⟩ := removed
  obtain ⟨_, same, _, rfl, _⟩ := Lifecycle.removeMember_ok returned
  cases current.symm.trans same
  refine advanceExecution_finds.bind fun last advanced => Avoids.bind ?_ fun _ _ => avoids_ok _
  cases state : entry.state.createdThread with
  | none =>
    obtain ⟨_, added, _⟩ := bind_ok advanced
    exact (created state (checkedAdd_some (expect_ok added)).2).elim
  | some thread => exact avoids_ok _

theorem enterRunningIf_finds : Finds (self.enterRunningIf key slot synchronized) := by
  unfold Lifecycle.enterRunningIf
  split
  · exact avoids_ok _
  · split
    · exact avoids_ok _
    · exact (setState_finds current).bind fun _ _ => (finds_assertThat (by decide)).bind fun _ _ =>
        advanceExecution_finds.bind fun _ _ => avoids_ok _

theorem onRequeueIf_finds : Finds (self.onRequeueIf key slot synchronized) := by
  unfold Lifecycle.onRequeueIf
  split
  · exact avoids_ok _
  · refine (clearActive_finds (by decide)).bind fun next cleared => ?_
    have held := (Lifecycle.clearActive_same cleared).members ▸ current
    split
    · exact avoids_ok _
    · refine (memberMut_finds held).bind fun read _ => ?_
      obtain ⟨slot, entry'⟩ := read
      dsimp only
      split
      · exact (setState_finds held).bind fun _ _ => avoids_ok _
      · exact avoids_ok _

end

theorem consumeTid_finds {tid : Tid} : Finds (self.consumeTid tid : Outcome ε _) :=
  (finds_assertThat (by decide)).bind fun _ _ => (finds_assertThat (by decide)).bind fun _ _ => avoids_ok _

theorem installMember_finds {append : Bool} {state : ThreadState} :
    Finds (self.installMember key append state : Outcome ε _) := by
  refine consumeTid_finds.bind fun self _ => ?_
  dsimp only
  split
  · exact avoids_ok _
  · exact (finds_expect (by decide)).bind fun _ _ => (finds_assertThat (by decide)).bind fun _ _ =>
      (finds_assertThat (by decide)).bind fun _ _ => avoids_ok _

theorem createRunning_finds {reserves : Bool} {build : Lifecycle.Build} (builds : ∀ tid key, Finds (build tid key)) :
    Finds (self.createRunning reserves build) := by
  refine finds_refuseIf.bind fun _ _ => ?_
  refine Avoids.bind ?_ fun prepared _ => (builds _ _).bind fun _ _ => installMember_finds.bind fun _ _ =>
    advanceExecution_finds.bind fun _ _ => avoids_ok _
  exact finds_refuseIf.bind fun _ _ => finds_refuseIf.bind fun _ _ =>
    finds_refuseIf.bind fun _ _ => avoids_ok _

theorem startCreated_finds (current : self.state = .running → ∃ entry, entryOf self.members key = some entry) :
    Finds (self.startCreated key) := by
  refine finds_refuseIf.bind fun _ gate => ?_
  obtain ⟨entry, held⟩ := current (bne_eq_false_iff_eq.mp (refuseIf_ok gate))
  refine (memberMut_finds held).bind fun read returned => finds_refuseIf.bind fun _ busy => ?_
  refine (setState_finds held).bind fun _ _ => advanceExecution_finds.bind fun _ _ => Avoids.bind ?_ fun _ _ => avoids_ok _
  cases thread : read.2.state.createdThread with
  | none =>
    rw [thread] at busy
    exact (fail_ne_ok busy).elim
  | some thread => exact avoids_ok _

theorem claimCreatedDeparture_finds : Finds (self.claimCreatedDeparture key) := by
  unfold Lifecycle.claimCreatedDeparture
  split
  · exact avoids_ok _
  · split
    · exact avoids_ok _
    · split
      · exact avoids_ok _
      · split
        · exact advanceExecution_finds.bind fun _ _ => avoids_ok _
        · exact avoids_ok _

theorem requestTermination_finds {cause : TerminationCause} {detail : TerminationDetail}
    {exiting : Option (MemberKey × HartSlot)}
    (current : ∀ member slot, exiting = some (member, slot) → ∃ entry, entryOf self.members member = some entry) :
    Finds (self.requestTermination cause detail exiting) := by
  unfold Lifecycle.requestTermination
  split
  · exact avoids_ok _
  · refine Avoids.bind ?_ fun marked _ => advanceExecution_finds.bind fun _ _ => avoids_ok _
    cases exiting with
    | none => exact avoids_ok _
    | some who =>
      obtain ⟨entry, held⟩ := current who.1 who.2 rfl
      have finds : Finds (({ self with cause, detail } : Lifecycle).setState who.1 .exiting : Outcome Empty _) := by
        apply setState_finds
        exact held
      exact finds.bind fun _ _ => avoids_ok _

theorem clearActiveIf_finds : Finds (self.clearActiveIf slot synchronized) := by
  unfold Lifecycle.clearActiveIf
  split
  · exact avoids_ok _
  · exact (clearActive_finds (by decide)).bind fun _ _ => avoids_ok _

end

section
variable {w : World} {t : ThreadRef} {call : Pending}

theorem Sound.finds (sound : Sound (w.await call)) (owns : call.owner = some t) :
    ∃ entry, entryOf w.lifecycle.members (w.thread t).member = some entry := by
  obtain ⟨_, _, entry, current, _⟩ := sound.moving owns
  exact ⟨entry, current⟩

theorem advance_finds (sound : Sound (w.await call)) (fresh : ∀ t, call = .upgraded t → w.lifecycle.state = .running →
    ∃ entry, entryOf w.lifecycle.members (w.thread t).member = some entry) : Finds (w.advance call) := by
  cases call with
  | bound t => exact (finds_assertThat (by decide)).bind fun _ _ => avoids_ok _
  | upgraded t => exact avoids_settle (startCreated_finds (fresh t rfl)) fun _ => id
  | abandoning t => exact claimCreatedDeparture_finds.bind fun _ _ => avoids_ok _
  | finalizing t holds cleanup =>
    obtain ⟨entry, current⟩ := sound.finds rfl
    exact (threadDeparted_finds current).bind fun _ _ => avoids_ok _
  | started t | requeued slot t | todo reapable =>
    rw [advance]
    split <;> exact avoids_ok _
  | cleanup cursor slots =>
    rw [advance]
    split
    · split <;> exact avoids_ok _
    · exact avoids_ok _
  | _ => exact avoids_ok _

theorem fault_finds (fresh : ∀ c t, call = .staged c t →
    ∃ entry, entryOf w.lifecycle.members (w.thread t).member = some entry ∧
      (entry.state.createdThread = none → ¬w.lifecycle.executionSequence < usizeMax)) : Finds (w.fault call) := by
  unfold fault
  split
  · rename_i c t
    obtain ⟨entry, current, created⟩ := fresh c t rfl
    exact (rollbackCreated_finds current created).bind fun _ _ => avoids_ok _
  · exact avoids_ok _

variable {synchronized : Bool}

theorem enter_finds (sound : Sound (w.await call)) : Finds (w.enter synchronized call) := by
  unfold enter
  split
  · obtain ⟨entry, current⟩ := sound.finds rfl
    exact (enterRunningIf_finds current).bind fun _ _ => avoids_ok _
  · exact avoids_ok _

theorem requeue_finds (sound : Sound (w.await call)) : Finds (w.requeue synchronized call) := by
  unfold requeue
  split
  · obtain ⟨entry, current⟩ := sound.finds rfl
    exact (onRequeueIf_finds current).bind fun _ _ => avoids_ok _
  · exact avoids_ok _

theorem exit_finds : Finds (w.exit synchronized call) := by
  unfold exit
  split
  · exact clearActiveIf_finds.bind fun _ _ => avoids_ok _
  · exact avoids_ok _

theorem endProcess_finds {cause : TerminationCause} {detail : TerminationDetail} (sound : Sound (w.await call)) :
    Finds (w.endProcess cause detail call) := by
  unfold endProcess
  split
  · rename_i slot t
    obtain ⟨entry, current⟩ := sound.finds rfl
    refine (requestTermination_finds ?_).bind fun _ _ => avoids_ok _
    rintro _ _ ⟨⟩
    exact ⟨entry, current⟩
  · exact avoids_ok _

theorem proceed_finds {index : Nat} {part : World → Pending → Outcome Empty World}
    (finds : ∀ call, w.pending[index]? = some call → Finds (part { w with pending := w.pending.eraseIdx index } call)) :
    Finds (w.proceed index part) := by
  unfold proceed
  split
  · rename_i call found
    exact finds call found
  · exact avoids_ok _

/-- A call uses the key of a member after another one has changed it: `start` finds its member departed while the process
still runs, or the rollback of `create` finds its member departed or no longer created. -/
def Overtaken (w : World) : Event → Prop
  | .advance index => ∃ t, w.pending[index]? = some (.upgraded t) ∧ w.lifecycle.state = .running ∧
      entryOf w.lifecycle.members (w.thread t).member = none
  | .fault index => ∃ c t, w.pending[index]? = some (.staged c t) ∧
      match entryOf w.lifecycle.members (w.thread t).member with
      | none => True
      | some entry => entry.state.createdThread = none ∧ w.lifecycle.executionSequence < usizeMax
  | _ => False

theorem rollbackCreated_stale {self : Lifecycle} {key : MemberKey} {entry : MemberEntry} (some_ : 0 < self.memberCount)
    (current : entryOf self.members key = some entry) (started : entry.state.createdThread = none)
    (more : self.executionSequence < usizeMax) : StalePanic (self.rollbackCreated key) := by
  obtain ⟨retired, found, tid⟩ := entryOf_some.mp current
  have removed : (self.removeMember key : Outcome Empty _) = .ok (entry, { self with
      members := self.members.set key.slot (MemberSlot.vacated ⟨key.generation, retired, some entry⟩)
      memberCount := self.memberCount - 1 }) := by
    have less : checkedSub self.memberCount 1 = some (self.memberCount - 1) := if_pos some_
    simp only [Lifecycle.removeMember, found, expect, ok_bind, assertThat, beq_self_eq_true, if_true, tid, subtract, less]
    rfl
  have next : checkedAdd self.executionSequence 1 = some (self.executionSequence + 1) := if_pos more
  unfold Lifecycle.rollbackCreated
  rw [removed, ok_bind]
  simp only [Lifecycle.advanceExecution, next, expect, ok_bind, pure_bind_ok, started]
  exact (stalePanic_panicked (by decide)).bind

theorem step_finds {event : Event} (sound : Sound w) (fresh : ¬Overtaken w event) : Finds (step w event) := by
  cases event with
  | create reserves builds =>
    refine avoids_settle (createRunning_finds fun _ _ => ?_) fun _ => id
    split
    · exact avoids_ok _
    · exact avoids_fail not_false
  | duplicate c =>
    rw [step]
    split
    · exact (finds_expect (by decide)).bind fun _ _ => avoids_ok _
    · exact avoids_ok _
  | close c =>
    rw [step]
    split <;> exact avoids_ok _
  | resolve c => exact avoids_ok _
  | pick slot =>
    rw [step]
    split
    · split <;> exact avoids_ok _
    · exact avoids_ok _
  | terminate cause detail =>
    refine (requestTermination_finds fun _ _ which => ?_).bind fun _ _ => avoids_ok _
    cases which
  | advance index =>
    rw [step]
    refine proceed_finds fun call found => advance_finds (sound.take found) ?_
    rintro t rfl running
    exact Option.ne_none_iff_exists'.mp fun gone => fresh ⟨t, found, running, gone⟩
  | fault index =>
    rw [step]
    refine proceed_finds fun call found => fault_finds ?_
    rintro c t rfl
    cases current : entryOf w.lifecycle.members (w.thread t).member with
    | none => exact (fresh ⟨c, t, found, by rw [current]; trivial⟩).elim
    | some entry =>
      refine ⟨entry, current, fun created more => fresh ⟨c, t, found, ?_⟩⟩
      rw [current]
      exact ⟨created, more⟩
  | enter index synchronized =>
    rw [step]
    exact proceed_finds fun _ found => enter_finds (sound.take found)
  | requeue index synchronized =>
    rw [step]
    exact proceed_finds fun _ found => requeue_finds (sound.take found)
  | exit index synchronized =>
    rw [step]
    exact proceed_finds fun _ _ => exit_finds
  | endProcess index cause detail =>
    rw [step]
    exact proceed_finds fun _ found => endProcess_finds (sound.take found)

theorem step_stale {event : Event} (sound : Sound w) (overtaken : Overtaken w event) : StalePanic (step w event) := by
  cases event with
  | advance index =>
    obtain ⟨t, found, running, gone⟩ := overtaken
    rw [step, proceed, found]
    refine stalePanic_settle ?_
    unfold Lifecycle.startCreated
    rw [running]
    exact (memberMut_stale gone).bind
  | fault index =>
    obtain ⟨c, t, found, overtaken⟩ := overtaken
    rw [step, proceed, found]
    refine StalePanic.bind ?_
    cases current : entryOf w.lifecycle.members (w.thread t).member with
    | none => exact (removeMember_stale current).bind
    | some entry =>
      rw [current] at overtaken
      refine rollbackCreated_stale ?_ current overtaken.1 overtaken.2
      exact sound.counted ▸ occupied_pos current
  | _ => exact overtaken.elim

/-- In every run: an assertion about a stale member fires in the next step if and only if that step uses a key that was
overtaken. -/
theorem stale_panic_iff_overtaken {events : List Event} (h : runEvents step initial events = .ok w) (event : Event) :
    StalePanic (step w event) ↔ Overtaken w event := by
  have sound := run_sound h
  constructor
  · intro panics
    by_contra fresh
    exact not_stalePanic (step_finds sound fresh) panics
  · exact step_stale sound

end

/-- The first thread makes and starts a second one; both are on harts. -/
def twoThreads : List Event :=
  [.pick 0, .enter 0 true, .create true true, .advance 0, .advance 0, .advance 0, .advance 0, .resolve 0, .advance 0,
    .advance 0, .advance 0, .advance 0, .pick 1, .enter 0 true]

/-- One of them makes a third thread. The other starts it and has read its key when the first closes the handle: the
member departs. -/
def closedWhileStarting : List Event := twoThreads ++
  [.create true true, .advance 0, .advance 0, .advance 0, .advance 0, .resolve 1, .advance 0, .close 1, .advance 0,
    .advance 0, .advance 0, .advance 0]

theorem start_panics : panicMessage (runEvents step initial (closedWhileStarting ++ [.advance 0])) =
    some "stale thread member key" ∧ "stale thread member key" ∈ staleMessages := by
  decide +kernel

theorem stale_panic_iff_overtaken_closed : ∃ w, runEvents step initial closedWhileStarting = .ok w ∧
    StalePanic (step w (.advance 0)) := by
  obtain ⟨w, run, test⟩ := returnsWith_ok (runEvents step initial closedWhileStarting)
    (fun w => w.pending.head? == some (.upgraded 2) && w.lifecycle.state == .running &&
      entryOf w.lifecycle.members (w.thread 2).member == none) (by decide +kernel)
  simp only [Bool.and_eq_true, beq_iff_eq] at test
  obtain ⟨⟨first, running⟩, gone⟩ := test
  refine ⟨w, run, (stale_panic_iff_overtaken run (.advance 0)).mpr ⟨2, ?_, running, gone⟩⟩
  rw [← List.head?_eq_getElem?]
  exact first

end Halcyon.Threads
