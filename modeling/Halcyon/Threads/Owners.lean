import Mathlib.Data.List.Nodup
import Halcyon.Base.Runs
import Halcyon.Tasks.Updates

/-!
The threads of one running process. Each call is a sequence of critical sections; a call in progress stands in the
world with the place it has come to, and any of them may go on next.
-/

namespace Halcyon.Threads

open List Tasks

structure Thread where
  member : MemberKey
  control : Option Nat
  readyBatch : Bool
  requested : Bool
  deriving DecidableEq, Inhabited

/-- A `ThreadControl`. The thread is a weak reference; `visible` once a handle to it is in the table. -/
structure Control where
  thread : Option ThreadRef
  capabilities : Nat
  visible : Bool
  deriving DecidableEq, Inhabited

inductive Pending where
  /-- `create` after `create_running`, before the result is written. -/
  | staged (control : Nat) (thread : ThreadRef)
  /-- `create` after its handle is committed. -/
  | published (control : Nat) (thread : ThreadRef)
  /-- `create` after `bind_thread`. -/
  | bound (thread : ThreadRef)
  /-- `create` after `install_ready_batch`. -/
  | installed (thread : ThreadRef)
  /-- `start` with the control of its handle. -/
  | resolved (control : Nat)
  /-- `start` with the thread of its control. -/
  | upgraded (thread : ThreadRef)
  /-- `start` after `start_created`. -/
  | started (thread : ThreadRef)
  /-- `start` with the ready batch of the thread. -/
  | publishing (thread : ThreadRef)
  /-- The last capability of the control is released. -/
  | releasing (control : Nat)
  /-- `abandon_created` of the thread of a released control. -/
  | abandoning (thread : ThreadRef)
  /-- The departure of a created thread; `cleanup` is the cursor that took it, with the number of slots. -/
  | departing (thread : ThreadRef) (cleanup : Option (Nat × Nat))
  /-- The departure is final; `holds` says whether the caller still has the thread. -/
  | finalizing (thread : ThreadRef) (holds : Bool) (cleanup : Option (Nat × Nat))
  /-- The loop of a hart with a thread from the queue. -/
  | picked (slot : HartSlot) (thread : ThreadRef)
  | onHart (slot : HartSlot) (thread : ThreadRef)
  /-- The loop of a hart after `on_requeue_if`. -/
  | requeued (slot : HartSlot) (thread : ThreadRef)
  /-- `reap` after the thread is dropped. -/
  | reaping (thread : ThreadRef)
  /-- `run_termination_todo`. -/
  | todo (reapable : Bool)
  /-- The cleanup of the member slots. -/
  | cleanup (cursor slots : Nat)
  deriving DecidableEq

def Pending.held : Pending → Option ThreadRef
  | .staged _ thread | .published _ thread | .bound thread | .installed thread | .upgraded thread | .started thread
  | .publishing thread | .abandoning thread | .departing thread _ | .finalizing thread true _ | .picked _ thread
  | .onHart _ thread | .requeued _ thread => some thread
  | _ => none

def Pending.hart : Pending → Option HartSlot
  | .picked slot _ | .onHart slot _ | .requeued slot _ => some slot
  | _ => none

structure World where
  lifecycle : Lifecycle
  threads : List Thread
  controls : List Control
  queue : List ThreadRef
  pending : List Pending
  deriving DecidableEq

inductive Event where
  | create (reserves builds : Bool)
  | duplicate (control : Nat)
  | close (control : Nat)
  | resolve (control : Nat)
  | pick (slot : HartSlot)
  | terminate (cause : TerminationCause) (detail : TerminationDetail)
  /-- A call in progress goes on. -/
  | advance (index : Nat)
  /-- The result of `create` cannot be written. -/
  | fault (index : Nat)
  | enter (index : Nat) (synchronized : Bool)
  | requeue (index : Nat) (synchronized : Bool)
  | exit (index : Nat) (synchronized : Bool)
  /-- A running thread ends its process. -/
  | endProcess (index : Nat) (cause : TerminationCause) (detail : TerminationDetail)
  deriving DecidableEq

namespace World

def initial : World where
  lifecycle := { Lifecycle.building with
    state := .running
    members := [⟨1, false, some ⟨1, .ready⟩⟩]
    memberCount := 1
    nextTid := 2
    executionSequence := 2 }
  threads := [⟨⟨0, 1, 1⟩, none, false, false⟩]
  controls := []
  queue := [0]
  pending := []

variable (w : World)

def thread (t : ThreadRef) : Thread := w.threads.getD t default

def control (c : Nat) : Control := w.controls.getD c default

def setThread (t : ThreadRef) (thread : Thread) : World := { w with threads := w.threads.set t thread }

def setControl (c : Nat) (control : Control) : World := { w with controls := w.controls.set c control }

def await (call : Pending) : World := { w with pending := call :: w.pending }

/-- A new member has a thread and a control with one capability. -/
def created (key : MemberKey) (lifecycle : Lifecycle) : World where
  lifecycle := lifecycle
  threads := w.threads ++ [⟨key, some w.controls.length, false, false⟩]
  controls := w.controls ++ [⟨none, 1, false⟩]
  queue := w.queue
  pending := w.pending

/-- `Weak::upgrade`: someone holds the thread. -/
def alive (t : ThreadRef) : Bool :=
  w.lifecycle.members.any (fun slot => slot.entry.any fun entry => entry.state == .created t) ||
    w.queue.contains t || w.pending.any fun call => call.held == some t

def upgrade (c : Nat) : Option ThreadRef := (w.control c).thread.filter w.alive

def resume : Option (Nat × Nat) → World
  | some (cursor, slots) => w.await (.cleanup cursor slots)
  | none => w

/-- `ThreadDeparture::request`. -/
def request (t : ThreadRef) (holds : Bool) (cleanup : Option (Nat × Nat)) : World :=
  if (w.thread t).requested then w.resume cleanup
  else (w.setThread t { w.thread t with requested := true }).await (.finalizing t holds cleanup)

/-- What there is to do after the end of the process has begun. -/
def awaitTodo (todo : Option TerminationTodo) : World :=
  match todo with
  | some todo => if todo.started then w.await (.todo todo.reapable) else w
  | none => w

def advance : Pending → Outcome Empty World
  | .staged c t => pure ((w.setControl c { w.control c with visible := true }).await (.published c t))
  | .published c t => pure ((w.setControl c { w.control c with thread := some t }).await (.bound t))
  | .bound t => do
    assertThat (!(w.thread t).readyBatch) "thread ready batch installed twice"
    pure ((w.setThread t { w.thread t with readyBatch := true }).await (.installed t))
  | .installed _ => pure w
  | .resolved c => pure (match w.upgrade c with | some t => w.await (.upgraded t) | none => w)
  | .upgraded t =>
    settle (w.lifecycle.startCreated (w.thread t).member)
      (fun done => { w with lifecycle := done.2 }.await (.started t)) fun _ => w
  | .started t =>
    -- without a ready batch the call fails and the thread stays behind
    if (w.thread t).readyBatch then
      pure ((w.setThread t { w.thread t with readyBatch := false }).await (.publishing t))
    else pure w
  | .publishing t => pure { w with queue := w.queue ++ [t] }
  | .releasing c => pure (match w.upgrade c with | some t => w.await (.abandoning t) | none => w)
  | .abandoning t => do
    let (claimed, lifecycle) ← w.lifecycle.claimCreatedDeparture (w.thread t).member
    let w := { w with lifecycle }
    pure (if claimed.isSome then w.await (.departing t none) else w)
  | .departing t cleanup => pure (w.request t true cleanup)
  | .reaping t => pure (w.request t false none)
  | .finalizing t _ cleanup => do
    let ((todo, _), lifecycle) ← w.lifecycle.threadDeparted (w.thread t).member
    pure ({ w with lifecycle }.resume cleanup |>.awaitTodo todo)
  | .todo reapable =>
    if reapable || w.lifecycle.terminationSlotCount == 0 then pure w
    else pure (w.await (.cleanup 0 w.lifecycle.terminationSlotCount))
  | .cleanup cursor slots =>
    if cursor < slots then
      match w.lifecycle.takeTerminationSlot cursor with
      | (.created t, lifecycle) => pure ({ w with lifecycle }.await (.departing t (some (cursor + 1, slots))))
      | (_, lifecycle) => pure ({ w with lifecycle }.await (.cleanup (cursor + 1) slots))
    else pure w
  | .requeued _ t =>
    if w.lifecycle.isTerminating then pure (w.await (.reaping t)) else pure { w with queue := w.queue ++ [t] }
  | call => pure (w.await call)

/-- The output of `create` failed: its member is taken back and its entry is dropped. -/
def fault : Pending → Outcome Empty World
  | .staged c t => do
    let (_, lifecycle) ← w.lifecycle.rollbackCreated (w.thread t).member
    pure ({ w with lifecycle }.setControl c { w.control c with capabilities := (w.control c).capabilities - 1 })
  | call => pure (w.await call)

def enter (synchronized : Bool) : Pending → Outcome Empty World
  | .picked slot t => do
    let (result, lifecycle) ← w.lifecycle.enterRunningIf (w.thread t).member slot synchronized
    let w := { w with lifecycle }
    pure (match result with
      | .entered => w.await (.onHart slot t)
      | .retry => w.await (.picked slot t)
      | .closed => w.await (.reaping t))
  | call => pure (w.await call)

def requeue (synchronized : Bool) : Pending → Outcome Empty World
  | .onHart slot t => do
    let (left, lifecycle) ← w.lifecycle.onRequeueIf (w.thread t).member slot synchronized
    let w := { w with lifecycle }
    pure (w.await (if left then .requeued slot t else .onHart slot t))
  | call => pure (w.await call)

def exit (synchronized : Bool) : Pending → Outcome Empty World
  | .onHart slot t => do
    let (left, lifecycle) ← w.lifecycle.clearActiveIf slot synchronized
    let w := { w with lifecycle }
    pure (w.await (if left then .reaping t else .onHart slot t))
  | call => pure (w.await call)

def endProcess (cause : TerminationCause) (detail : TerminationDetail) : Pending → Outcome Empty World
  | .onHart slot t => do
    let (todo, lifecycle) ← w.lifecycle.requestTermination cause detail (some ((w.thread t).member, slot))
    pure (({ w with lifecycle }.await (.onHart slot t)).awaitTodo (some todo))
  | call => pure (w.await call)

def proceed (index : Nat) (section_ : World → Pending → Outcome Empty World) : Outcome Empty World :=
  match w.pending[index]? with
  | some call => section_ { w with pending := w.pending.eraseIdx index } call
  | none => pure w

def reachable (c : Nat) : Bool := (w.control c).visible && 0 < (w.control c).capabilities

def step (w : World) : Event → Outcome Empty World
  | .create reserves builds =>
    let t := w.threads.length
    let c := w.controls.length
    settle (w.lifecycle.createRunning reserves fun _ _ => if builds then .ok t else fail .oom)
      (fun done => (w.created done.1 done.2.2).await (.staged c t)) fun _ => w
  | .duplicate c =>
    if w.reachable c then do
      let capabilities ← expect "ThreadControl capability count exhausted" (checkedAdd (w.control c).capabilities 1)
      pure (w.setControl c { w.control c with capabilities })
    else pure w
  | .close c =>
    if w.reachable c then
      let next := w.setControl c { w.control c with capabilities := (w.control c).capabilities - 1 }
      pure (if (w.control c).capabilities = 1 then next.await (.releasing c) else next)
    else pure w
  | .resolve c => pure (if w.reachable c then w.await (.resolved c) else w)
  | .pick slot =>
    match w.queue with
    | t :: queue =>
      if w.pending.any fun call => call.hart == some slot then pure w
      else pure ({ w with queue }.await (.picked slot t))
    | [] => pure w
  | .terminate cause detail => do
    let (todo, lifecycle) ← w.lifecycle.requestTermination cause detail none
    pure ({ w with lifecycle }.awaitTodo (some todo))
  | .advance index => w.proceed index advance
  | .fault index => w.proceed index fault
  | .enter index synchronized => w.proceed index (enter · synchronized)
  | .requeue index synchronized => w.proceed index (requeue · synchronized)
  | .exit index synchronized => w.proceed index (exit · synchronized)
  | .endProcess index cause detail => w.proceed index (endProcess · cause detail)

end World

/-! ### Owners

Every thread has at most one owner: the table while it is created, then the queue, a hart or a call in progress, until
it has departed. An owned thread is a member of its process. -/

def Pending.thread : Pending → Option ThreadRef
  | .staged _ thread | .published _ thread | .bound thread | .installed thread | .upgraded thread | .started thread
  | .publishing thread | .abandoning thread | .departing thread _ | .finalizing thread _ _ | .picked _ thread
  | .onHart _ thread | .requeued _ thread | .reaping thread => some thread
  | _ => none

def Pending.owner : Pending → Option ThreadRef
  | .started thread | .publishing thread | .departing thread _ | .finalizing thread _ _ | .picked _ thread
  | .onHart _ thread | .requeued _ thread | .reaping thread => some thread
  | _ => none

def World.owned (w : World) : List ThreadRef := w.queue ++ w.pending.filterMap Pending.owner

def World.Started (w : World) (t : ThreadRef) : Prop :=
  ∃ entry, entryOf w.lifecycle.members (w.thread t).member = some entry ∧ entry.state.createdThread = none

structure Sound (w : World) : Prop where
  counted : w.lifecycle.memberCount = occupied w.lifecycle.members
  numbered : ∀ key ∈ w.threads.map Thread.member, key.tid < w.lifecycle.nextTid
  distinct : (w.threads.map Thread.member).Nodup
  created : ∀ key entry t, entryOf w.lifecycle.members key = some entry → entry.state = .created t →
    t < w.threads.length ∧ (w.thread t).member = key
  calls : ∀ call ∈ w.pending, ∀ t, call.thread = some t → t < w.threads.length
  queued : ∀ t ∈ w.queue, t < w.threads.length
  bound : ∀ control ∈ w.controls, ∀ t, control.thread = some t → t < w.threads.length
  single : w.owned.Nodup
  member : ∀ t ∈ w.owned, w.Started t

section
variable {w : World} {t t' : ThreadRef} {call : Pending}

theorem World.thread_eq (less : t < w.threads.length) : w.thread t = w.threads[t] := by
  simp [World.thread, List.getD, less]

theorem Sound.member_inj (sound : Sound w) (less : t < w.threads.length) (less' : t' < w.threads.length)
    (same : (w.thread t).member = (w.thread t').member) : t = t' := by
  rw [World.thread_eq less, World.thread_eq less'] at same
  have positions := (sound.distinct.get_inj_iff (i := ⟨t, by simpa using less⟩) (j := ⟨t', by simpa using less'⟩)).mp
    (by simpa using same)
  exact congrArg Fin.val positions

theorem Pending.owner_thread (h : call.owner = some t) : call.thread = some t := by
  cases call <;> first | exact h | cases h

section

variable (sound : Sound w)
include sound

theorem Sound.owned_less (inside : t ∈ w.owned) : t < w.threads.length := by
  rcases mem_append.mp inside with queued | pending
  · exact sound.queued t queued
  · obtain ⟨call, member, owns⟩ := mem_filterMap.mp pending
    exact sound.calls call member t (Pending.owner_thread owns)

variable {key : MemberKey}

theorem Sound.created_at (created : w.lifecycle.stateOf key = some (.created t)) :
    t < w.threads.length ∧ (w.thread t).member = key := by
  obtain ⟨entry, current, state⟩ := Lifecycle.stateOf_iff.mp created
  exact sound.created key entry t current state

theorem Sound.created_free {thread : ThreadRef} (less : t < w.threads.length)
    (created : w.lifecycle.stateOf (w.thread t).member = some (.created thread)) : thread = t ∧ t ∉ w.owned := by
  obtain ⟨less', same⟩ := sound.created_at created
  refine ⟨sound.member_inj less' less same, fun inside => ?_⟩
  obtain ⟨entry, current, state⟩ := Lifecycle.stateOf_iff.mp created
  obtain ⟨entry', current', started⟩ := sound.member t inside
  cases current.symm.trans current'
  rw [state] at started
  cases started

theorem Sound.moved {controls : List Control} {queue : List ThreadRef} {pending : List Pending}
    (calls : ∀ call ∈ pending, ∀ t, call.thread = some t → t < w.threads.length)
    (queued : ∀ t ∈ queue, t < w.threads.length)
    (bound : ∀ control ∈ controls, ∀ t, control.thread = some t → t < w.threads.length)
    (owned : ∀ t, ({ w with controls, queue, pending } : World).owned.count t ≤ w.owned.count t) :
    Sound { w with controls, queue, pending } :=
  { sound with
    calls, queued, bound
    single := nodup_iff_count_le_one.mpr fun t =>
      Nat.le_trans (owned t) (nodup_iff_count_le_one.mp sound.single t)
    member := fun t inside =>
      sound.member t (count_pos_iff.mp (Nat.lt_of_lt_of_le (count_pos_iff.mpr inside) (owned t))) }

variable {next : Lifecycle}

theorem Sound.relaxed {entry : Option MemberEntry} (updates : Updates w.lifecycle next key entry)
    (member : ∀ t ∈ w.owned, ({ w with lifecycle := next } : World).Started t) : Sound { w with lifecycle := next } :=
  { sound with
    counted := updates.counted sound.counted
    numbered := fun key inside => updates.nextTid ▸ sound.numbered key inside
    created := fun _ _ _ held state => sound.created_at
      (Lifecycle.created_before updates (Lifecycle.stateOf_iff.mpr ⟨_, held, state⟩))
    member }

theorem Sound.updated {entry : MemberEntry}
    (updates : Updates w.lifecycle next key (some entry)) : Sound { w with lifecycle := next } := by
  refine sound.relaxed updates fun t inside => ?_
  have here := updates.maps (w.thread t).member
  split at here
  · exact ⟨entry, here, updates.started entry rfl⟩
  · obtain ⟨entry', held, started⟩ := sound.member t inside
    exact ⟨entry', here.trans held, started⟩

theorem Sound.departed (less : t < w.threads.length) (free : t ∉ w.owned)
    (updates : Updates w.lifecycle next (w.thread t).member none) : Sound { w with lifecycle := next } := by
  refine sound.relaxed updates fun t' inside => ?_
  have different : (w.thread t').member ≠ (w.thread t).member := fun same =>
    free (sound.member_inj (sound.owned_less inside) less same ▸ inside)
  obtain ⟨entry', held, started⟩ := sound.member t' inside
  exact ⟨entry', (updates.maps _).trans ((if_neg different).trans held), started⟩

theorem Sound.same (same : SameMembers w.lifecycle next) : Sound { w with lifecycle := next } := by
  obtain ⟨nextTid, members, memberCount⟩ := same
  refine ⟨?_, ?_, sound.distinct, ?_, sound.calls, sound.queued, sound.bound, sound.single, ?_⟩
  · show next.memberCount = occupied next.members
    rw [memberCount, members]
    exact sound.counted
  · exact fun key inside => nextTid ▸ sound.numbered key inside
  · show ∀ key entry t, entryOf next.members key = some entry → _
    rw [members]
    exact sound.created
  · intro t inside
    show ∃ entry, entryOf next.members _ = some entry ∧ _
    rw [members]
    exact sound.member t inside

theorem Sound.relabeled {threads : List Thread}
    (same : threads.map Thread.member = w.threads.map Thread.member) : Sound { w with threads } := by
  have length : threads.length = w.threads.length := by simpa using congrArg List.length same
  have members : ∀ t, (({ w with threads } : World).thread t).member = (w.thread t).member := by
    intro t
    have here := congrArg (·[t]?) same
    simp only [getElem?_map] at here
    simp only [World.thread, getD_eq_getElem?_getD]
    cases found : threads[t]? <;> cases found' : w.threads[t]? <;> simp_all
  refine ⟨sound.counted, ?_, ?_, ?_, ?_, ?_, ?_, sound.single, ?_⟩
  · show ∀ key ∈ threads.map Thread.member, _
    rw [same]
    exact sound.numbered
  · show (threads.map Thread.member).Nodup
    rw [same]
    exact sound.distinct
  · intro key entry t held state
    rw [members]
    show t < threads.length ∧ _
    rw [length]
    exact sound.created key entry t held state
  · exact length ▸ sound.calls
  · exact length ▸ sound.queued
  · exact length ▸ sound.bound
  · intro t inside
    rw [World.Started, members]
    exact sound.member t inside

theorem Sound.setThread {thread : Thread} (same : thread.member = (w.thread t).member) : Sound (w.setThread t thread) := by
  refine sound.relabeled (ext_getElem? fun i => ?_)
  rw [getElem?_map, getElem?_map, getElem?_set]
  split
  · rename_i here
    subst here
    split
    · rename_i less
      rw [getElem?_eq_getElem less, Option.map_some, Option.map_some, same, World.thread_eq less]
    · rename_i outside
      rw [getElem?_eq_none (Nat.le_of_not_lt outside)]
  · rfl

end

end

end Halcyon.Threads
