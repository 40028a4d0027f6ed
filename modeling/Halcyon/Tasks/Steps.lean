import Halcyon.Tasks.Invariant

/-!
Every disciplined call is one of the moves, so the invariant holds in every run.
-/

namespace Halcyon.Tasks

open Lifecycle World

section
variable {w w' : World} {self next : Lifecycle} {key : MemberKey}

variable {ε : Type} {reserves reapable synchronized : Bool} {tid : Tid} {build : Build} {thread : ThreadRef}
    {slot : HartSlot}

theorem setState_keeps {state : ThreadState} (later : state.createdThread = none)
    (h : (self.setState key state : Outcome ε _) = .ok next) :
    ∃ members, ∃ entry : MemberEntry, next = { self with members } ∧ Keeps self.members members ∧
      entryOf members key = some { entry with state } := by
  obtain ⟨entry, members, current, rfl, _, counted, maps⟩ := setState_ok h
  exact ⟨members, entry, rfl, keeps_of_write current counted later maps, (maps key).trans (if_pos rfl)⟩

theorem admitted_moves {append : Bool} {state : ThreadState} (executionSequence : Nat)
    (alive : w.lifecycle.isTerminating = false)
    (prepared : w.lifecycle.prepareMember reserves = .ok (tid, key, append))
    (installed : (w.lifecycle.installMember key append state : Outcome ε _) = .ok next) :
    tid = w.lifecycle.nextTid ∧ key.tid = w.lifecycle.nextTid ∧
      Moves w { w with lifecycle := { next with executionSequence }, tids := w.lifecycle.nextTid :: w.tids } := by
  obtain ⟨number, room, place⟩ := prepareMember_ok prepared
  obtain ⟨members, rfl, _, counted, maps⟩ := installMember_ok place installed
  exact ⟨number, place.1, .admitted key state members executionSequence alive room place.1 place.absent counted maps⟩

theorem removed_moves {entry : MemberEntry} (off : ∀ pair ∈ w.entered, pair.2 ≠ key)
    (h : (w.lifecycle.removeMember key : Outcome ε _) = .ok (entry, next)) : (∀ executionSequence, Moves w
      (w.report ({ next with executionSequence } : Lifecycle).isReapable { next with executionSequence })) ∧
    (w.lifecycle.state = .running → ∀ executionSequence, Moves w
      (w.report ({ next with executionSequence, cause := .completed, detail := .none, state := .terminating } :
          Lifecycle).isReapable
        { next with executionSequence, cause := .completed, detail := .none, state := .terminating })) := by
  obtain ⟨members, current, some_, rfl, _, counted, maps⟩ := removeMember_ok h
  constructor
  · intro executionSequence
    exact .removed key entry members executionSequence current off some_ counted maps _ (.inl rfl)
  · intro running executionSequence
    exact .removed key entry members executionSequence current off some_ counted maps _ (.inr ⟨running, rfl⟩)

theorem takeTerminationSlot_keeps (self : Lifecycle) (index : Nat) :
    ∃ members, (self.takeTerminationSlot index).2 = { self with members } ∧ Keeps self.members members := by
  rcases takeTerminationSlot_ok (Prod.mk.eta (p := self.takeTerminationSlot index)).symm with ⟨_, same⟩ | ⟨_, written, _⟩
  · exact ⟨self.members, same, .refl _⟩
  · obtain ⟨members, _, same, keeps, _⟩ := setState_keeps rfl written
    exact ⟨members, same, keeps⟩

theorem alive_of_state {state : ProcessState} (same : self.state = state) (early : stateIndex state < 2) :
    self.isTerminating = false := alive_iff.mpr (same ▸ early)

theorem commitRunning_moves {snapshot : Option ExecutionSnapshot} {mandatory : Bool} {active : BitVec 64}
    (h : w.lifecycle.commitRunning snapshot mandatory = .ok (active, next)) :
    Moves w { w with lifecycle := next } := by
  obtain ⟨_, gate, h⟩ := bind_ok h
  have running : w.lifecycle.state = .running := by
    have passed := (Bool.or_eq_false_iff.mp (refuseIf_ok gate)).1
    exact bne_eq_false_iff_eq.mp passed
  split at h
  · obtain ⟨count, _, h⟩ := bind_ok h
    cases pure_ok h
    exact .held w.lifecycle.buildingOps count (alive_of_state running (by decide))
  · cases pure_ok h
    exact .same

theorem completeMandatory_moves (h : w.lifecycle.completeMandatory = .ok (reapable, next)) :
    Moves w (w.report reapable next) := by
  obtain ⟨count, less, h⟩ := bind_ok h
  have positive := checkedSub_some (expect_ok less)
  cases pure_ok h
  exact .released w.lifecycle.buildingOps count (by omega) _ rfl

theorem enterBuildingOp_moves {entered : Bool} (h : w.lifecycle.enterBuildingOp = .ok (entered, next)) :
    Moves w { w with lifecycle := next } := by
  unfold enterBuildingOp at h
  split at h
  · cases pure_ok h
    exact .same
  · rename_i state
    obtain ⟨count, _, h⟩ := bind_ok h
    cases pure_ok h
    have building : w.lifecycle.state = .building := by simpa using state
    exact .held count w.lifecycle.mandatoryOps (alive_of_state building (by decide))

theorem leaveBuildingOp_moves (h : w.lifecycle.leaveBuildingOp = .ok (reapable, next)) :
    Moves w (w.report reapable next) := by
  obtain ⟨count, less, h⟩ := bind_ok h
  have positive := checkedSub_some (expect_ok less)
  cases pure_ok h
  exact .released count w.lifecycle.mandatoryOps (by omega) _ rfl

theorem attachMember_moves (h : w.lifecycle.attachMember reserves build = .ok (tid, next)) :
    Moves w { w with lifecycle := next, tids := tid :: w.tids } := by
  obtain ⟨_, gate, h⟩ := bind_ok h
  obtain ⟨⟨tid', key, append⟩, prepared, h⟩ := bind_ok h
  obtain ⟨thread, _, h⟩ := bind_ok h
  obtain ⟨middle, installed, h⟩ := bind_ok h
  cases pure_ok h
  have building := bne_eq_false_iff_eq.mp (refuseIf_ok gate)
  obtain ⟨rfl, _, moves⟩ := admitted_moves next.executionSequence
    (alive_of_state building (by decide)) prepared installed
  exact moves

theorem attachRegisteredMember_moves {back : Option ThreadRef}
    (h : w.lifecycle.attachRegisteredMember reserves build = .ok (tid, back, next)) :
    Moves w { w with lifecycle := next, tids := tid :: w.tids } := by
  obtain ⟨⟨tid', key, append⟩, prepared, h⟩ := bind_ok h
  obtain ⟨thread, _, h⟩ := bind_ok h
  split at h
  · rename_i building
    obtain ⟨middle, installed, h⟩ := bind_ok h
    cases pure_ok h
    obtain ⟨rfl, _, moves⟩ := admitted_moves next.executionSequence
      (alive_of_state building (by decide)) prepared installed
    exact moves
  · obtain ⟨middle, consumed, h⟩ := bind_ok h
    cases pure_ok h
    obtain ⟨rfl, rfl⟩ := consumeTid_ok consumed
    exact .numbered
  · exact (panicked_ne_ok h).elim

theorem createRunning_moves (h : w.lifecycle.createRunning reserves build = .ok (key, thread, next)) :
    Moves w { w with lifecycle := next, tids := key.tid :: w.tids } := by
  obtain ⟨_, gate, h⟩ := bind_ok h
  obtain ⟨⟨tid, key', append⟩, prepared, h⟩ := bind_ok h
  obtain ⟨thread', _, h⟩ := bind_ok h
  obtain ⟨middle, installed, h⟩ := bind_ok h
  obtain ⟨last, advanced, h⟩ := bind_ok h
  cases pure_ok h
  cases advanceExecution_ok advanced
  have running := bne_eq_false_iff_eq.mp (refuseIf_ok gate)
  obtain ⟨_, number, moves⟩ := admitted_moves (middle.executionSequence + 1)
    (alive_of_state running (by decide)) prepared installed
  rw [number]
  exact moves

theorem startCreated_moves (h : w.lifecycle.startCreated key = .ok (thread, next)) :
    Moves w { w with lifecycle := next } := by
  obtain ⟨_, _, h⟩ := bind_ok h
  obtain ⟨⟨slot, entry⟩, _, h⟩ := bind_ok h
  obtain ⟨_, _, h⟩ := bind_ok h
  obtain ⟨middle, written, h⟩ := bind_ok h
  obtain ⟨last, advanced, h⟩ := bind_ok h
  obtain ⟨thread', _, h⟩ := bind_ok h
  cases pure_ok h
  cases advanceExecution_ok advanced
  obtain ⟨members, _, rfl, keeps, _⟩ := setState_keeps rfl written
  exact .rewritten members _ keeps

theorem claimCreatedDeparture_moves {claimed : Option ThreadRef}
    (h : w.lifecycle.claimCreatedDeparture key = .ok (claimed, next)) : Moves w { w with lifecycle := next } := by
  rcases claimCreatedDeparture_ok h with ⟨_, rfl, _⟩ | ⟨_, middle, _, _, written, rfl⟩
  · exact .same
  · obtain ⟨members, _, rfl, keeps, _⟩ := setState_keeps rfl written
    exact .rewritten members _ keeps

theorem rollbackCreated_moves (sound : Sound w)
    (h : w.lifecycle.rollbackCreated key = .ok ((thread, reapable), next)) : Moves w (w.report reapable next) := by
  obtain ⟨⟨entry, middle⟩, removed, h⟩ := bind_ok h
  obtain ⟨last, advanced, h⟩ := bind_ok h
  obtain ⟨thread', taken, h⟩ := bind_ok h
  cases pure_ok h
  cases advanceExecution_ok advanced
  -- a member that is still created has entered no hart
  have off : ∀ pair ∈ w.entered, pair.2 ≠ key := by
    rintro pair inside rfl
    obtain ⟨entry', held, started⟩ := sound.onHart _ inside
    obtain ⟨_, current, _⟩ := removeMember_ok removed
    cases held.symm.trans current
    rw [started] at taken
    exact panicked_ne_ok taken
  exact (removed_moves off removed).1 _

theorem beginRunning_moves {expected : Nat} {threads : List ThreadRef}
    (h : w.lifecycle.beginRunning expected = .ok (threads, next)) : Moves w { w with lifecycle := next } := by
  obtain ⟨_, gate, h⟩ := bind_ok h
  iterate 3 obtain ⟨_, _, h⟩ := bind_ok h
  obtain ⟨buildingOps, _, h⟩ := bind_ok h
  obtain ⟨⟨threads', members⟩, readied, h⟩ := bind_ok h
  obtain ⟨last, advanced, h⟩ := bind_ok h
  cases pure_ok h
  cases advanceExecution_ok advanced
  obtain ⟨_, counted, maps⟩ := readyAll_ok readied
  refine .begun buildingOps _ members (bne_eq_false_iff_eq.mp (refuseIf_ok gate)) ⟨counted, fun key => ?_, ?_⟩
  · rw [maps key, Option.isSome_map]
  · intro key entry held new
    rw [maps key] at held
    obtain ⟨_, _, rfl⟩ := Option.map_eq_some_iff.mp held
    exact (new rfl).elim

theorem requestTermination_moves {cause : TerminationCause} {detail : TerminationDetail}
    {exiting : Option (MemberKey × HartSlot)} {todo : TerminationTodo}
    (h : w.lifecycle.requestTermination cause detail exiting = .ok (todo, next)) :
    Moves w (w.report todo.reapable next) := by
  unfold requestTermination at h
  split at h
  · cases pure_ok h
    exact .same
  · rename_i ended
    have alive : w.lifecycle.isTerminating = false := by simpa using ended
    obtain ⟨⟨ipiSlots, middle⟩, marked, h⟩ := bind_ok h
    obtain ⟨last, advanced, h⟩ := bind_ok h
    cases pure_ok h
    cases advanceExecution_ok advanced
    have kept : ∃ members, middle = { w.lifecycle with cause, detail, members } ∧ Keeps w.lifecycle.members members := by
      cases exiting with
      | none =>
        cases pure_ok marked
        exact ⟨_, rfl, .refl _⟩
      | some who =>
        obtain ⟨after, written, marked⟩ := bind_ok marked
        cases pure_ok marked
        obtain ⟨members, _, rfl, keeps, _⟩ := setState_keeps rfl written
        exact ⟨members, rfl, keeps⟩
    obtain ⟨members, rfl, keeps⟩ := kept
    exact .terminated cause detail members _ alive keeps _ rfl

theorem parkWaiting_moves {context : ContextRef} {parked : Bool}
    (h : w.lifecycle.parkWaiting key context = .ok (parked, next)) : Moves w { w with lifecycle := next } := by
  unfold parkWaiting at h
  split at h
  · cases pure_ok h
    exact .same
  · obtain ⟨middle, written, h⟩ := bind_ok h
    cases pure_ok h
    obtain ⟨members, _, rfl, keeps, _⟩ := setState_keeps rfl written
    exact .rewritten members _ keeps

theorem clearActive_ok {message : String} (h : self.clearActive slot message = .ok next) :
    ∃ active, next = { self with active, executionSequence := self.executionSequence + 1 } := by
  obtain ⟨_, _, h⟩ := bind_ok h
  exact ⟨self.active &&& ~~~hartBit slot, advanceExecution_ok h⟩

theorem onRequeueIf_moves {member : MemberKey} {left : Bool} (entered : ∃ pair ∈ w.entered, pair.1 = slot)
    (h : w.lifecycle.onRequeueIf member slot synchronized = .ok (left, next)) :
    Moves w (w.leave slot left next) := by
  unfold onRequeueIf at h
  split at h
  · cases pure_ok h
    exact .same
  · obtain ⟨middle, cleared, h⟩ := bind_ok h
    obtain ⟨active, rfl⟩ := clearActive_ok cleared
    have stays : Moves w (w.leave slot true
        { w.lifecycle with active, executionSequence := w.lifecycle.executionSequence + 1 }) :=
      .left slot w.lifecycle.members active _ entered (.refl _)
    split at h
    · cases pure_ok h
      exact stays
    · obtain ⟨⟨place, entry⟩, _, h⟩ := bind_ok h
      dsimp only at h
      split at h
      · obtain ⟨last, written, h⟩ := bind_ok h
        cases pure_ok h
        obtain ⟨members, _, rfl, keeps, _⟩ := setState_keeps rfl written
        exact .left slot members active _ entered keeps
      · cases pure_ok h
        exact stays

theorem clearActiveIf_moves {left : Bool} (entered : ∃ pair ∈ w.entered, pair.1 = slot)
    (h : w.lifecycle.clearActiveIf slot synchronized = .ok (left, next)) : Moves w (w.leave slot left next) := by
  unfold clearActiveIf at h
  split at h
  · cases pure_ok h
    exact .same
  · obtain ⟨middle, cleared, h⟩ := bind_ok h
    cases pure_ok h
    obtain ⟨active, rfl⟩ := clearActive_ok cleared
    exact .left slot w.lifecycle.members active _ entered (.refl _)

theorem enterRunningIf_moves {result : EnterRunning}
    (h : w.lifecycle.enterRunningIf key slot synchronized = .ok (result, next)) : Moves w { w with
      lifecycle := next
      entered := if result = .entered then (slot, key) :: w.entered else w.entered } := by
  unfold enterRunningIf at h
  split at h
  · cases pure_ok h
    exact .same
  · rename_i ended
    have alive : w.lifecycle.isTerminating = false := by simpa using ended
    split at h
    · cases pure_ok h
      exact .same
    · obtain ⟨middle, written, h⟩ := bind_ok h
      obtain ⟨_, _, h⟩ := bind_ok h
      obtain ⟨last, advanced, h⟩ := bind_ok h
      cases pure_ok h
      cases advanceExecution_ok advanced
      obtain ⟨members, entry, rfl, keeps, current⟩ := setState_keeps rfl written
      exact .dispatched slot key _ members _ _ alive keeps current rfl

theorem threadDeparted_moves {result : Option TerminationTodo} (off : ∀ pair ∈ w.entered, pair.2 ≠ key)
    (h : w.lifecycle.threadDeparted key = .ok ((result, reapable), next)) : Moves w (w.report reapable next) := by
  obtain ⟨⟨entry, middle⟩, removed, h⟩ := bind_ok h
  dsimp only at h
  split at h
  · rename_i last
    obtain ⟨after, advanced, h⟩ := bind_ok h
    cases pure_ok h
    cases advanceExecution_ok advanced
    have running : w.lifecycle.state = .running := by
      obtain ⟨_, _, _, rfl, _⟩ := removeMember_ok removed
      exact beq_iff_eq.mp (Bool.and_eq_true_iff.mp last).1
    exact (removed_moves off removed).2 running _
  · cases pure_ok h
    exact (removed_moves off removed).1 next.executionSequence

theorem Moves.returned {α : Type} {x : Outcome ε α} {after : α → World}
    (h : (x >>= fun result => pure (after result)) = .ok w') (moves : ∀ result, x = .ok result → Moves w (after result)) :
    Moves w w' := by
  obtain ⟨result, returned, h⟩ := bind_ok h
  cases pure_ok h
  exact moves result returned

theorem Moves.settled {α : Type} {x : Outcome ε α} {after : α → World} (h : settle x after (fun _ => w) = .ok w')
    (moves : ∀ result, x = .ok result → Moves w (after result)) : Moves w w' := by
  rcases settle_ok h with ⟨result, returned, rfl⟩ | ⟨_, _, rfl⟩
  · exact moves result returned
  · exact .same

theorem step_moves {call : Call} (sound : Sound w) (disciplined : w.Disciplined call) (h : w.step call = .ok w') :
    Moves w w' := by
  cases call with
  | commitRunning => exact .settled h fun _ => commitRunning_moves
  | completeMandatory => exact .returned h fun _ => completeMandatory_moves
  | enterBuildingOp => exact .returned h fun _ => enterBuildingOp_moves
  | leaveBuildingOp => exact .returned h fun _ => leaveBuildingOp_moves
  | attachMember => exact .settled h fun _ => attachMember_moves
  | attachRegisteredMember => exact .settled h fun _ => attachRegisteredMember_moves
  | createRunning => exact .settled h fun _ => createRunning_moves
  | startCreated => exact .settled h fun _ => startCreated_moves
  | claimCreatedDeparture => exact .returned h fun _ => claimCreatedDeparture_moves
  | rollbackCreated => exact .returned h fun _ => rollbackCreated_moves sound
  | beginRunning => exact .settled h fun _ => beginRunning_moves
  | requestTermination => exact .returned h fun _ => requestTermination_moves
  | parkWaiting => exact .returned h fun _ => parkWaiting_moves
  | onRequeueIf => exact .returned h fun _ => onRequeueIf_moves disciplined
  | clearActiveIf => exact .returned h fun _ => clearActiveIf_moves disciplined
  | enterRunningIf => exact .returned h fun _ => enterRunningIf_moves
  | threadDeparted => exact .returned h fun _ => threadDeparted_moves disciplined
  | takeTerminationSlot index =>
    cases pure_ok h
    obtain ⟨members, same, keeps⟩ := takeTerminationSlot_keeps w.lifecycle index
    rw [same]
    exact .rewritten members _ keeps
  | markDead =>
    refine .returned h fun _ h => ?_
    obtain ⟨_, reapable, h⟩ := bind_ok h
    cases pure_ok h
    exact .died (assertThat_ok reapable)

theorem initial_sound : Sound initial :=
  ⟨rfl, by decide, .nil, nofun, fun key entry held => by simp [initial, building, entryOf] at held, nofun, rfl⟩

theorem run_sound {calls : List Call} (sound : Sound w) (disciplined : RunMeets step Disciplined w calls)
    (h : runEvents step w calls = .ok w') : Sound w' :=
  run_invariant_of_meets (fun _ _ _ sound meets h => (step_moves sound meets h).sound sound) sound disciplined h

theorem run_forward {calls : List Call} (sound : Sound w) (disciplined : RunMeets step Disciplined w calls)
    (h : runEvents step w calls = .ok w') : Forward w.lifecycle w'.lifecycle := by
  have both := run_invariant_of_meets (I := fun s => Sound s ∧ Forward w.lifecycle s.lifecycle)
    (fun s call next holds meets h => by
      have moves := step_moves holds.1 meets h
      exact ⟨moves.sound holds.1, holds.2.trans (moves.forward holds.1)⟩) ⟨sound, .refl _⟩ disciplined h
  exact both.2

/-- From the birth of a process on, whatever calls are made: the state only moves forward, a cause that is set stays, and
a process that can be reaped stays so. The members are counted and within their limit, no thread number is given out
twice, and one call has reported that the process can be reaped if it can, none if it cannot. -/
theorem process_lifecycle {before after : List Call} (early : RunMeets step Disciplined initial before)
    (h : runEvents step initial before = .ok w) (late : RunMeets step Disciplined w after)
    (h' : runEvents step w after = .ok w') : Forward w.lifecycle w'.lifecycle ∧
      w'.lifecycle.memberCount = occupied w'.lifecycle.members ∧ w'.lifecycle.memberCount ≤ processMaxThreads ∧
      w'.tids.Nodup ∧ (∀ key entry, entryOf w'.lifecycle.members key = some entry → key.tid ∈ w'.tids) ∧
      w'.reports = w'.lifecycle.isReapable.toNat := by
  have sound := run_sound initial_sound early h
  have sound' := run_sound sound late h'
  exact ⟨run_forward sound late h', sound'.counted, sound'.limit, sound'.nodup, sound'.known, sound'.reports⟩

end

/-- A thread is attached and started, and killed while it runs on the first hart. -/
def killedWhileRunning : List Call :=
  [.enterBuildingOp, .attachRegisteredMember true fun _ _ => .ok 7, .beginRunning 1, .enterRunningIf ⟨0, 1, 1⟩ 0 true,
    .requestTermination .killed .processControlKill none, .clearActiveIf 0 true]

def killedProcess : World where
  lifecycle := {
    state := .terminating
    cause := .killed
    detail := .processControlKill
    members := [⟨1, false, some ⟨1, .running 0⟩⟩]
    memberCount := 1
    nextTid := 2
    active := 0
    executionSequence := 5
    buildingOps := 0
    mandatoryOps := 0 }
  entered := []
  tids := [1]
  reports := 0

theorem process_lifecycle_killed : runEvents step initial killedWhileRunning = .ok killedProcess ∧
    ∃ w', runEvents step killedProcess [.threadDeparted ⟨0, 1, 1⟩, .markDead] = .ok w' ∧
      w'.lifecycle.state = .dead ∧ Forward killedProcess.lifecycle w'.lifecycle ∧ w'.reports = 1 := by
  have run : runEvents step initial killedWhileRunning = .ok killedProcess := rfl
  obtain ⟨w', later, state⟩ := returnsWith_ok (runEvents step killedProcess [.threadDeparted ⟨0, 1, 1⟩, .markDead])
    (fun w => w.lifecycle.state == .dead && w.lifecycle.isReapable) (by decide +kernel)
  obtain ⟨dead, reapable⟩ := Bool.and_eq_true_iff.mp state
  have holds := process_lifecycle (by decide +kernel) run (by decide +kernel) later
  refine ⟨run, w', later, beq_iff_eq.mp dead, holds.1, ?_⟩
  rw [holds.2.2.2.2.2, reapable]
  rfl

end Halcyon.Tasks
