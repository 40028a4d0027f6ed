import Halcyon.Base.Word

/-!
The lifecycle of a process, the table of its thread members, the harts it is active on and the operations that keep it from
being reaped. Every method is one critical section of the lifecycle lock.
-/

namespace Halcyon.Tasks

abbrev Tid := Nat

abbrev ThreadRef := Nat

abbrev ContextRef := Nat

def processMaxThreads : Nat := 1024

def tidMax : Nat := 2 ^ 32 - 1

abbrev hartNumLimit : Nat := 8

abbrev HartSlot := Fin hartNumLimit

instance : NeZero hartNumLimit := ⟨by decide⟩

inductive ProcessState where
  | building | running | terminating | dead
  deriving DecidableEq

def stateIndex : ProcessState → Nat
  | .building => 0
  | .running => 1
  | .terminating => 2
  | .dead => 3

inductive TerminationCause where
  | none | completed | terminated | aborted | killed | faulted | abandoned
  deriving DecidableEq

structure TerminationDetail where
  word0 : Nat
  word1 : Nat
  deriving DecidableEq

def TerminationDetail.none : TerminationDetail := ⟨0, 0⟩

def TerminationDetail.processControlKill : TerminationDetail := ⟨1, 0⟩

inductive ThreadState where
  | ready
  | created (thread : ThreadRef)
  | running (slot : HartSlot)
  | waiting (context : ContextRef)
  | exiting
  deriving DecidableEq

def ThreadState.createdThread : ThreadState → Option ThreadRef
  | .created thread => some thread
  | _ => none

inductive AttachFault where
  | closed | limit | oom
  deriving DecidableEq

structure MemberKey where
  slot : Nat
  generation : Nat
  tid : Tid
  deriving DecidableEq, Inhabited

inductive BeginFault where
  | closed | staleCount | busy
  deriving DecidableEq

inductive StartFault where
  | objectClosed | objectBusy
  deriving DecidableEq

structure MemberEntry where
  tid : Tid
  state : ThreadState
  deriving DecidableEq

structure MemberSlot where
  generation : Nat
  retired : Bool
  entry : Option MemberEntry
  deriving DecidableEq

def MemberSlot.new (entry : MemberEntry) : MemberSlot := ⟨1, false, some entry⟩

/-- Without its member. A generation that cannot grow retires the slot. -/
def MemberSlot.vacated (slot : MemberSlot) : MemberSlot :=
  if slot.generation == u64Max then ⟨slot.generation, true, none⟩ else ⟨slot.generation + 1, slot.retired, none⟩

inductive TerminationSlot where
  | vacant
  | waiting (context : ContextRef)
  | created (thread : ThreadRef)
  deriving DecidableEq

structure TerminationTodo where
  started : Bool := false
  ipiSlots : BitVec 64 := 0
  reapable : Bool := false
  deriving DecidableEq

structure ExecutionSnapshot where
  sequence : Nat
  active : BitVec 64
  deriving DecidableEq

structure ExecutionChanged where
  deriving DecidableEq

inductive EnterRunning where
  | entered | retry | closed
  deriving DecidableEq

structure Lifecycle where
  state : ProcessState
  cause : TerminationCause
  detail : TerminationDetail
  members : List MemberSlot
  memberCount : Nat
  nextTid : Tid
  active : BitVec 64
  executionSequence : Nat
  buildingOps : Nat
  mandatoryOps : Nat
  deriving DecidableEq

def hartBit (slot : HartSlot) : BitVec 64 := 1#64 <<< slot.val

namespace Lifecycle

def building : Lifecycle where
  state := .building
  cause := .none
  detail := .none
  members := []
  memberCount := 0
  nextTid := 1
  active := 0
  executionSequence := 1
  buildingOps := 0
  mandatoryOps := 0

variable {ε : Type} (self : Lifecycle)

def isTerminating : Bool := stateIndex .terminating ≤ stateIndex self.state

def reapableWhen (terminating : Bool) : Bool :=
  terminating && self.memberCount == 0 && self.active == 0 && self.buildingOps == 0 && self.mandatoryOps == 0

def isReapable : Bool := self.reapableWhen self.isTerminating

def freeSlot : Option Nat := self.members.findIdx? fun slot => slot.entry.isNone && !slot.retired

/-- `reserves` says whether the table can grow. -/
def prepareMember (reserves : Bool) : Outcome AttachFault (Tid × MemberKey × Bool) := do
  refuseIf (processMaxThreads ≤ self.memberCount) .limit
  let tid := self.nextTid
  refuseIf (tidMax < tid + 1) .limit
  let slot := self.freeSlot.getD self.members.length
  let append := slot == self.members.length
  refuseIf (append && !reserves) .oom
  let generation := if append then 1 else (self.members[slot]?.map MemberSlot.generation).getD 1
  pure (tid, ⟨slot, generation, tid⟩, append)

def consumeTid (tid : Tid) : Outcome ε Lifecycle := do
  assertThat (self.nextTid == tid) "thread identity committed out of order"
  assertThat (tid + 1 ≤ tidMax) "validated thread identity overflowed"
  pure { self with nextTid := tid + 1 }

def installMember (key : MemberKey) (append : Bool) (state : ThreadState) : Outcome ε Lifecycle := do
  let self ← self.consumeTid key.tid
  let entry := ⟨key.tid, state⟩
  if append then
    pure { self with members := self.members ++ [.new entry], memberCount := self.memberCount + 1 }
  else
    let slot ← expect "index out of bounds" self.members[key.slot]?
    assertThat (slot.generation == key.generation) "left == right"
    assertThat slot.entry.isNone "slot.entry.replace(entry).is_none()"
    pure { self with
      members := self.members.set key.slot { slot with entry := some entry }
      memberCount := self.memberCount + 1 }

def memberMut (key : MemberKey) : Outcome ε (MemberSlot × MemberEntry) := do
  let slot ← expect "thread member slot escaped its process" self.members[key.slot]?
  assertThat (slot.generation == key.generation) "stale thread member key"
  let entry ← expect "thread member key was retired" slot.entry
  assertThat (entry.tid == key.tid) "thread member key changed identity"
  pure (slot, entry)

/-- `member_mut(key).state = state`. -/
def setState (key : MemberKey) (state : ThreadState) : Outcome ε Lifecycle := do
  let (slot, entry) ← self.memberMut key
  pure { self with members := self.members.set key.slot { slot with entry := some { entry with state } } }

def removeMember (key : MemberKey) : Outcome ε (MemberEntry × Lifecycle) := do
  let slot ← expect "thread member slot escaped its process" self.members[key.slot]?
  assertThat (slot.generation == key.generation) "stale thread member key"
  let entry ← expect "thread member removed twice" slot.entry
  assertThat (entry.tid == key.tid) "thread member key changed identity"
  let memberCount ← subtract self.memberCount 1
  pure (entry, { self with members := self.members.set key.slot slot.vacated, memberCount })

def advanceExecution : Outcome ε Lifecycle := do
  let executionSequence ← expect "process execution sequence exhausted" (checkedAdd self.executionSequence 1)
  pure { self with executionSequence }

def commitRunning (snapshot : Option ExecutionSnapshot) (mandatory : Bool) :
    Outcome ExecutionChanged (BitVec 64 × Lifecycle) := do
  let executionChanged := snapshot.any fun snapshot =>
    self.executionSequence != snapshot.sequence || self.active != snapshot.active
  refuseIf (self.state != .running || executionChanged) ⟨⟩
  if mandatory then
    let mandatoryOps ← expect "process mandatory operation count exhausted" (checkedAdd self.mandatoryOps 1)
    pure (self.active, { self with mandatoryOps })
  else
    pure (self.active, self)

def completeMandatory : Outcome Empty (Bool × Lifecycle) := do
  let mandatoryOps ← expect "mandatory operation completed without registration" (checkedSub self.mandatoryOps 1)
  let self := { self with mandatoryOps }
  pure (self.isReapable, self)

def enterBuildingOp : Outcome Empty (Bool × Lifecycle) := do
  if self.state != .building then
    pure (false, self)
  else
    let buildingOps ← expect "process Building operation count exhausted" (checkedAdd self.buildingOps 1)
    pure (true, { self with buildingOps })

def leaveBuildingOp : Outcome Empty (Bool × Lifecycle) := do
  let buildingOps ← subtract self.buildingOps 1
  let self := { self with buildingOps }
  pure (self.isReapable, self)

abbrev Build := Tid → MemberKey → Outcome AttachFault ThreadRef

def attachMember (reserves : Bool) (build : Build) : Outcome AttachFault (Tid × Lifecycle) := do
  refuseIf (self.state != .building) .closed
  let (tid, key, append) ← self.prepareMember reserves
  let thread ← build tid key
  let self ← self.installMember key append (.created thread)
  pure (tid, self)

/-- The thread is handed back when the process terminates already. -/
def attachRegisteredMember (reserves : Bool) (build : Build) : Outcome AttachFault (Tid × Option ThreadRef × Lifecycle) := do
  let (tid, key, append) ← self.prepareMember reserves
  let thread ← build tid key
  match self.state with
  | .building =>
    let self ← self.installMember key append (.created thread)
    pure (tid, none, self)
  | .terminating =>
    let self ← self.consumeTid tid
    pure (tid, some thread, self)
  | _ => panicked "registered Building attach crossed an impossible lifecycle state"

def createRunning (reserves : Bool) (build : Build) : Outcome AttachFault (MemberKey × ThreadRef × Lifecycle) := do
  refuseIf (self.state != .running) .closed
  let (tid, key, append) ← self.prepareMember reserves
  let thread ← build tid key
  let self ← self.installMember key append (.created thread)
  let self ← self.advanceExecution
  pure (key, thread, self)

def startCreated (member : MemberKey) : Outcome StartFault (ThreadRef × Lifecycle) := do
  refuseIf (self.state != .running) .objectClosed
  let (_, entry) ← self.memberMut member
  refuseIf entry.state.createdThread.isNone .objectBusy
  let self ← self.setState member .ready
  let self ← self.advanceExecution
  let thread ← expect "created member state changed under lifecycle lock" entry.state.createdThread
  pure (thread, self)

def claimCreatedDeparture (member : MemberKey) : Outcome Empty (Option ThreadRef × Lifecycle) := do
  match self.members[member.slot]? with
  | none => pure (none, self)
  | some slot =>
    match slot.entry with
    | none => pure (none, self)
    | some entry =>
      if slot.generation != member.generation || entry.tid != member.tid then
        pure (none, self)
      else
        match entry.state with
        | .created thread =>
          let members := self.members.set member.slot { slot with entry := some { entry with state := .exiting } }
          let self ← { self with members }.advanceExecution
          pure (some thread, self)
        | _ => pure (none, self)

def rollbackCreated (member : MemberKey) : Outcome Empty ((ThreadRef × Bool) × Lifecycle) := do
  let (entry, self) ← self.removeMember member
  let self ← self.advanceExecution
  let thread ← expect "only Created member can roll back" entry.state.createdThread
  pure ((thread, self.isReapable), self)

def readyAll : List MemberSlot → Outcome BeginFault (List ThreadRef × List MemberSlot)
  | [] => pure ([], [])
  | slot :: slots => do
    match slot.entry with
    | none =>
      let (threads, slots) ← readyAll slots
      pure (threads, slot :: slots)
    | some entry =>
      let thread ← expect "Building member must be Created before start commit" entry.state.createdThread
      let (threads, slots) ← readyAll slots
      pure (thread :: threads, { slot with entry := some { entry with state := .ready } } :: slots)

def beginRunning (expected : Nat) : Outcome BeginFault (List ThreadRef × Lifecycle) := do
  refuseIf (self.state != .building) .closed
  refuseIf (self.memberCount == 0) .closed
  refuseIf (self.memberCount != expected) .staleCount
  refuseIf (self.buildingOps != 1) .busy
  let buildingOps ← subtract self.buildingOps 1
  let (threads, members) ← readyAll self.members
  let self ← { self with buildingOps, members }.advanceExecution
  pure (threads, { self with state := .running })

/-- A member that ends itself exits; the harts to interrupt are all the other active ones. -/
def markExiting : Option (MemberKey × HartSlot) → Outcome Empty (BitVec 64 × Lifecycle)
  | some (member, slot) => do
    let self ← self.setState member .exiting
    pure (self.active &&& ~~~hartBit slot, self)
  | none => pure (self.active, self)

/-- The member that ends itself comes with the hart it runs on. -/
def requestTermination (cause : TerminationCause) (detail : TerminationDetail)
    (exiting : Option (MemberKey × HartSlot)) : Outcome Empty (TerminationTodo × Lifecycle) := do
  if self.isTerminating then
    pure ({}, self)
  else
    let (ipiSlots, self) ← { self with cause, detail }.markExiting exiting
    let todo := { started := true, ipiSlots, reapable := self.reapableWhen true }
    let self ← self.advanceExecution
    pure (todo, { self with state := .terminating })

def parkWaiting (member : MemberKey) (context : ContextRef) : Outcome Empty (Bool × Lifecycle) := do
  if self.isTerminating then
    pure (false, self)
  else
    let self ← self.setState member (.waiting context)
    pure (true, self)

/-- `inner.active &= !(1 << slot)`, for a hart that must be active. -/
def clearActive (slot : HartSlot) (message : String) : Outcome Empty Lifecycle := do
  assertThat (self.active &&& hartBit slot != 0) message
  { self with active := self.active &&& ~~~hartBit slot }.advanceExecution

def onRequeueIf (member : MemberKey) (slot : HartSlot) (synchronized : Bool) : Outcome Empty (Bool × Lifecycle) := do
  if !synchronized then
    pure (false, self)
  else
    let self ← self.clearActive slot "requeued hart must be active for process"
    if self.isTerminating then
      pure (true, self)
    else
      let (_, entry) ← self.memberMut member
      match entry.state with
      | .running _ =>
        let self ← self.setState member .ready
        pure (true, self)
      | _ => pure (true, self)

def clearActiveIf (slot : HartSlot) (synchronized : Bool) : Outcome Empty (Bool × Lifecycle) := do
  if !synchronized then
    pure (false, self)
  else
    let self ← self.clearActive slot "departing hart must be active for process"
    pure (true, self)

def enterRunningIf (member : MemberKey) (slot : HartSlot) (synchronized : Bool) :
    Outcome Empty (EnterRunning × Lifecycle) := do
  if self.isTerminating then
    pure (.closed, self)
  else if !synchronized then
    pure (.retry, self)
  else
    let self ← self.setState member (.running slot)
    assertThat (self.active &&& hartBit slot == 0) "hart cannot enter one process twice"
    let self ← { self with active := self.active ||| hartBit slot }.advanceExecution
    pure (.entered, self)

def threadDeparted (member : MemberKey) : Outcome Empty ((Option TerminationTodo × Bool) × Lifecycle) := do
  let (_, self) ← self.removeMember member
  if self.state == .running && self.memberCount == 0 then
    let ipiSlots := self.active
    let self ← { self with cause := .completed, detail := .none }.advanceExecution
    let self := { self with state := .terminating }
    pure ((some { started := true, ipiSlots, reapable := self.isReapable }, self.isReapable), self)
  else
    pure ((none, self.isReapable), self)

def terminationSlotCount : Nat := self.members.length

def takeTerminationSlot (index : Nat) : TerminationSlot × Lifecycle :=
  match self.members[index]? with
  | none => (.vacant, self)
  | some slot =>
    match slot.entry with
    | none => (.vacant, self)
    | some entry =>
      let members := self.members.set index { slot with entry := some { entry with state := .exiting } }
      match entry.state with
      | .waiting context => (.waiting context, { self with members })
      | .created thread => (.created thread, { self with members })
      | _ => (.vacant, self)

def markDead : Outcome Empty ((TerminationCause × TerminationDetail) × Lifecycle) := do
  assertThat self.isReapable "process reached Dead with live lifecycle obligations"
  pure ((self.cause, self.detail), { self with state := .dead })

end Lifecycle

end Halcyon.Tasks
