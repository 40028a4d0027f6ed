import Halcyon.Base.Runs
import Halcyon.Tasks.Members

/-!
Calls on one lifecycle, in any order. Next to it stands what its callers know: which member entered on which hart,
which thread numbers were given out, and how often a call reported that the process can be reaped.
-/

namespace Halcyon.Tasks

open List

structure World where
  lifecycle : Lifecycle
  entered : List (HartSlot × MemberKey)
  tids : List Tid
  reports : Nat

namespace World

def initial : World := ⟨.building, [], [], 0⟩

inductive Call where
  | commitRunning (snapshot : Option ExecutionSnapshot) (mandatory : Bool)
  | completeMandatory
  | enterBuildingOp
  | leaveBuildingOp
  | attachMember (reserves : Bool) (build : Lifecycle.Build)
  | attachRegisteredMember (reserves : Bool) (build : Lifecycle.Build)
  | createRunning (reserves : Bool) (build : Lifecycle.Build)
  | startCreated (member : MemberKey)
  | claimCreatedDeparture (member : MemberKey)
  | rollbackCreated (member : MemberKey)
  | beginRunning (expected : Nat)
  | requestTermination (cause : TerminationCause) (detail : TerminationDetail) (exiting : Option (MemberKey × HartSlot))
  | parkWaiting (member : MemberKey) (context : ContextRef)
  | onRequeueIf (member : MemberKey) (slot : HartSlot) (synchronized : Bool)
  | clearActiveIf (slot : HartSlot) (synchronized : Bool)
  | enterRunningIf (member : MemberKey) (slot : HartSlot) (synchronized : Bool)
  | threadDeparted (member : MemberKey)
  | takeTerminationSlot (index : Nat)
  | markDead

def report (w : World) (reapable : Bool) (lifecycle : Lifecycle) : World :=
  { w with lifecycle, reports := w.reports + reapable.toNat }

def leave (w : World) (slot : HartSlot) (left : Bool) (lifecycle : Lifecycle) : World :=
  { w with lifecycle, entered := if left then w.entered.filter fun pair => pair.1 != slot else w.entered }

def step (w : World) : Call → Outcome Empty World
  | .commitRunning snapshot mandatory =>
    settle (w.lifecycle.commitRunning snapshot mandatory) (fun done => { w with lifecycle := done.2 }) fun _ => w
  | .completeMandatory => do
    let (reapable, lifecycle) ← w.lifecycle.completeMandatory
    pure (w.report reapable lifecycle)
  | .enterBuildingOp => do
    let (_, lifecycle) ← w.lifecycle.enterBuildingOp
    pure { w with lifecycle }
  | .leaveBuildingOp => do
    let (reapable, lifecycle) ← w.lifecycle.leaveBuildingOp
    pure (w.report reapable lifecycle)
  | .attachMember reserves build =>
    settle (w.lifecycle.attachMember reserves build)
      (fun done => { w with lifecycle := done.2, tids := done.1 :: w.tids }) fun _ => w
  | .attachRegisteredMember reserves build =>
    settle (w.lifecycle.attachRegisteredMember reserves build)
      (fun done => { w with lifecycle := done.2.2, tids := done.1 :: w.tids }) fun _ => w
  | .createRunning reserves build =>
    settle (w.lifecycle.createRunning reserves build)
      (fun done => { w with lifecycle := done.2.2, tids := done.1.tid :: w.tids }) fun _ => w
  | .startCreated member =>
    settle (w.lifecycle.startCreated member) (fun done => { w with lifecycle := done.2 }) fun _ => w
  | .claimCreatedDeparture member => do
    let (_, lifecycle) ← w.lifecycle.claimCreatedDeparture member
    pure { w with lifecycle }
  | .rollbackCreated member => do
    let ((_, reapable), lifecycle) ← w.lifecycle.rollbackCreated member
    pure (w.report reapable lifecycle)
  | .beginRunning expected =>
    settle (w.lifecycle.beginRunning expected) (fun done => { w with lifecycle := done.2 }) fun _ => w
  | .requestTermination cause detail exiting => do
    let (todo, lifecycle) ← w.lifecycle.requestTermination cause detail exiting
    pure (w.report todo.reapable lifecycle)
  | .parkWaiting member context => do
    let (_, lifecycle) ← w.lifecycle.parkWaiting member context
    pure { w with lifecycle }
  | .onRequeueIf member slot synchronized => do
    let (left, lifecycle) ← w.lifecycle.onRequeueIf member slot synchronized
    pure (w.leave slot left lifecycle)
  | .clearActiveIf slot synchronized => do
    let (left, lifecycle) ← w.lifecycle.clearActiveIf slot synchronized
    pure (w.leave slot left lifecycle)
  | .enterRunningIf member slot synchronized => do
    let (result, lifecycle) ← w.lifecycle.enterRunningIf member slot synchronized
    pure { w with lifecycle, entered := if result = .entered then (slot, member) :: w.entered else w.entered }
  | .threadDeparted member => do
    let ((_, reapable), lifecycle) ← w.lifecycle.threadDeparted member
    pure (w.report reapable lifecycle)
  | .takeTerminationSlot index => pure { w with lifecycle := (w.lifecycle.takeTerminationSlot index).2 }
  | .markDead => do
    let (_, lifecycle) ← w.lifecycle.markDead
    pure { w with lifecycle }

/-- What the callers owe: a hart is left by a member that entered on it, and a member departs when it has left its
harts. All else they must keep to is asserted by the calls themselves. -/
def Disciplined (w : World) : Call → Prop
  | .onRequeueIf _ slot _ | .clearActiveIf slot _ => ∃ pair ∈ w.entered, pair.1 = slot
  | .threadDeparted member => ∀ pair ∈ w.entered, pair.2 ≠ member
  | _ => True

instance (w : World) : ∀ call, Decidable (w.Disciplined call)
  | .onRequeueIf _ slot _ | .clearActiveIf slot _ => inferInstanceAs (Decidable (∃ pair ∈ w.entered, pair.1 = slot))
  | .threadDeparted member => inferInstanceAs (Decidable (∀ pair ∈ w.entered, pair.2 ≠ member))
  | .commitRunning .. | .completeMandatory | .enterBuildingOp | .leaveBuildingOp | .attachMember ..
  | .attachRegisteredMember .. | .createRunning .. | .startCreated _ | .claimCreatedDeparture _ | .rollbackCreated _
  | .beginRunning _ | .requestTermination .. | .parkWaiting .. | .enterRunningIf .. | .takeTerminationSlot _
  | .markDead => isTrue trivial

end World

structure Keeps (members members' : List MemberSlot) : Prop where
  occupied : occupied members' = occupied members
  present : ∀ key, (entryOf members' key).isSome = (entryOf members key).isSome
  created : ∀ key entry', entryOf members' key = some entry' → entry'.state.createdThread ≠ none →
    entryOf members key = some entry'

theorem Keeps.refl (members : List MemberSlot) : Keeps members members := ⟨rfl, fun _ => rfl, fun _ _ held _ => held⟩

theorem keeps_of_write {members members' : List MemberSlot} {key : MemberKey} {entry entry' : MemberEntry}
    (current : entryOf members key = some entry) (counted : occupied members' = occupied members)
    (later : entry'.state.createdThread = none)
    (maps : ∀ other, entryOf members' other = if other = key then some entry' else entryOf members other) :
    Keeps members members' := by
  refine ⟨counted, fun other => ?_, fun other held found new => ?_⟩
  · rw [maps other]
    by_cases same : other = key
    · rw [if_pos same, same, current]
      rfl
    · rw [if_neg same]
  · rw [maps other] at found
    by_cases same : other = key
    · rw [if_pos same] at found
      cases found
      exact (new later).elim
    · rwa [if_neg same] at found

/-- Everything a call can do, and what it reports. -/
inductive Moves (w : World) : World → Prop
  | same : Moves w w
  | held (buildingOps mandatoryOps : Nat) (alive : w.lifecycle.isTerminating = false) :
      Moves w { w with lifecycle := { w.lifecycle with buildingOps, mandatoryOps } }
  | released (buildingOps mandatoryOps : Nat) (busy : 0 < w.lifecycle.buildingOps + w.lifecycle.mandatoryOps)
      (next : Lifecycle) (update : next = { w.lifecycle with buildingOps, mandatoryOps }) :
      Moves w (w.report next.isReapable next)
  | numbered : Moves w { w with
      lifecycle := { w.lifecycle with nextTid := w.lifecycle.nextTid + 1 }
      tids := w.lifecycle.nextTid :: w.tids }
  | admitted (key : MemberKey) (state : ThreadState) (members : List MemberSlot) (executionSequence : Nat)
      (alive : w.lifecycle.isTerminating = false) (room : w.lifecycle.memberCount < processMaxThreads)
      (tid : key.tid = w.lifecycle.nextTid) (absent : entryOf w.lifecycle.members key = none)
      (counted : occupied members = occupied w.lifecycle.members + 1)
      (maps : ∀ other, entryOf members other =
        if other = key then some ⟨key.tid, state⟩ else entryOf w.lifecycle.members other) :
      Moves w { w with
        lifecycle := { w.lifecycle with
          members, executionSequence
          memberCount := w.lifecycle.memberCount + 1
          nextTid := w.lifecycle.nextTid + 1 }
        tids := w.lifecycle.nextTid :: w.tids }
  | rewritten (members : List MemberSlot) (executionSequence : Nat) (keeps : Keeps w.lifecycle.members members) :
      Moves w { w with lifecycle := { w.lifecycle with members, executionSequence } }
  | removed (key : MemberKey) (entry : MemberEntry) (members : List MemberSlot) (executionSequence : Nat)
      (current : entryOf w.lifecycle.members key = some entry) (off : ∀ pair ∈ w.entered, pair.2 ≠ key)
      (some_ : 0 < w.lifecycle.memberCount) (counted : occupied members + 1 = occupied w.lifecycle.members)
      (maps : ∀ other, entryOf members other = if other = key then none else entryOf w.lifecycle.members other)
      (next : Lifecycle)
      (update : next = { w.lifecycle with members, executionSequence, memberCount := w.lifecycle.memberCount - 1 } ∨
        w.lifecycle.state = .running ∧ next = { w.lifecycle with
          members, executionSequence
          memberCount := w.lifecycle.memberCount - 1
          cause := .completed
          detail := .none
          state := .terminating }) :
      Moves w (w.report next.isReapable next)
  | begun (buildingOps executionSequence : Nat) (members : List MemberSlot) (alive : w.lifecycle.state = .building)
      (keeps : Keeps w.lifecycle.members members) :
      Moves w { w with lifecycle := { w.lifecycle with buildingOps, members, executionSequence, state := .running } }
  | terminated (cause : TerminationCause) (detail : TerminationDetail) (members : List MemberSlot)
      (executionSequence : Nat) (alive : w.lifecycle.isTerminating = false)
      (keeps : Keeps w.lifecycle.members members) (next : Lifecycle)
      (update : next = { w.lifecycle with cause, detail, members, executionSequence, state := .terminating }) :
      Moves w (w.report next.isReapable next)
  | dispatched (slot : HartSlot) (key : MemberKey) (entry : MemberEntry) (members : List MemberSlot)
      (active : BitVec 64) (executionSequence : Nat) (alive : w.lifecycle.isTerminating = false)
      (keeps : Keeps w.lifecycle.members members) (current : entryOf members key = some entry)
      (started : entry.state.createdThread = none) :
      Moves w { w with
        lifecycle := { w.lifecycle with members, active, executionSequence }
        entered := (slot, key) :: w.entered }
  | left (slot : HartSlot) (members : List MemberSlot) (active : BitVec 64) (executionSequence : Nat)
      (entered : ∃ pair ∈ w.entered, pair.1 = slot) (keeps : Keeps w.lifecycle.members members) :
      Moves w (w.leave slot true { w.lifecycle with members, active, executionSequence })
  | died (reapable : w.lifecycle.isReapable = true) :
      Moves w { w with lifecycle := { w.lifecycle with state := .dead } }

/-!
What holds of every run of disciplined calls: the process only moves forward, its end keeps its cause, the members are
counted and numbered apart, and that it can be reaped is reported once.
-/

open Lifecycle

structure Sound (w : World) : Prop where
  counted : w.lifecycle.memberCount = occupied w.lifecycle.members
  limit : w.lifecycle.memberCount ≤ processMaxThreads
  nodup : w.tids.Nodup
  below : ∀ tid ∈ w.tids, tid < w.lifecycle.nextTid
  known : ∀ key entry, entryOf w.lifecycle.members key = some entry → key.tid ∈ w.tids
  onHart : ∀ pair ∈ w.entered, ∃ entry, entryOf w.lifecycle.members pair.2 = some entry ∧ entry.state.createdThread = none
  reports : w.reports = w.lifecycle.isReapable.toNat

structure Forward (before after : Lifecycle) : Prop where
  state : stateIndex before.state ≤ stateIndex after.state
  cause : before.isTerminating = true → after.cause = before.cause ∧ after.detail = before.detail
  reapable : before.isReapable = true → after.isReapable = true

theorem Forward.refl (l : Lifecycle) : Forward l l := ⟨Nat.le_refl _, fun _ => ⟨rfl, rfl⟩, id⟩

variable {l : Lifecycle}

theorem isTerminating_iff : l.isTerminating = true ↔ 2 ≤ stateIndex l.state := by
  unfold isTerminating
  exact decide_eq_true_iff

theorem stateIndex_le (state : ProcessState) : stateIndex state ≤ 3 := by
  cases state <;> decide

theorem alive_iff : l.isTerminating = false ↔ stateIndex l.state < 2 := by
  rw [← Bool.not_eq_true, isTerminating_iff, Nat.not_le]

theorem Forward.trans {a b c : Lifecycle} (first : Forward a b) (second : Forward b c) : Forward a c := by
  refine ⟨Nat.le_trans first.state second.state, fun ended => ?_, fun can => second.reapable (first.reapable can)⟩
  obtain ⟨cause, detail⟩ := first.cause ended
  obtain ⟨cause', detail'⟩ := second.cause (isTerminating_iff.mpr (Nat.le_trans (isTerminating_iff.mp ended) first.state))
  exact ⟨cause'.trans cause, detail'.trans detail⟩

theorem isReapable_iff : l.isReapable = true ↔
    l.isTerminating = true ∧ l.memberCount = 0 ∧ l.active = 0 ∧ l.buildingOps = 0 ∧ l.mandatoryOps = 0 := by
  simp [isReapable, reapableWhen, and_assoc]

theorem not_reapable_of_alive (alive : l.isTerminating = false) : l.isReapable = false := by
  simp [isReapable, reapableWhen, alive]

theorem not_reapable_of_members (some_ : 0 < l.memberCount) : l.isReapable = false := by
  have none : l.memberCount ≠ 0 := Nat.ne_of_gt some_
  simp [isReapable, reapableWhen, none]

theorem forward_of_alive {l next : Lifecycle} (alive : l.isTerminating = false)
    (state : stateIndex l.state ≤ stateIndex next.state) : Forward l next := by
  refine ⟨state, fun ended => ?_, fun can => ?_⟩
  · rw [alive] at ended
    cases ended
  · rw [not_reapable_of_alive alive] at can
    cases can

section
variable {w w' : World}

variable {members members' : List MemberSlot} {key : MemberKey}

section

variable (keeps : Keeps members members')
include keeps

theorem Keeps.present_entry {entry : MemberEntry}
    (held : entryOf members key = some entry) : ∃ entry', entryOf members' key = some entry' := by
  have present := keeps.present key
  rw [held] at present
  exact Option.isSome_iff_exists.mp present

theorem Keeps.entry_present {entry' : MemberEntry}
    (held : entryOf members' key = some entry') : ∃ entry, entryOf members key = some entry := by
  have present := keeps.present key
  rw [held] at present
  exact Option.isSome_iff_exists.mp present.symm

theorem Keeps.started (held : ∃ entry, entryOf members key = some entry ∧ entry.state.createdThread = none) :
    ∃ entry, entryOf members' key = some entry ∧ entry.state.createdThread = none := by
  obtain ⟨entry, found, started⟩ := held
  obtain ⟨entry', found'⟩ := keeps.present_entry found
  refine ⟨entry', found', ?_⟩
  by_cases new : entry'.state.createdThread = none
  · exact new
  · rw [keeps.created key entry' found' new] at found
    cases found
    exact started

end

theorem Sound.kept (sound : Sound w) {next : Lifecycle} {entered : List (HartSlot × MemberKey)} {reports : Nat}
    (keeps : Keeps w.lifecycle.members next.members) (count : next.memberCount = w.lifecycle.memberCount)
    (tid : next.nextTid = w.lifecycle.nextTid)
    (onHart : ∀ pair ∈ entered, ∃ entry, entryOf next.members pair.2 = some entry ∧ entry.state.createdThread = none)
    (reported : reports = next.isReapable.toNat) : Sound ⟨next, entered, w.tids, reports⟩ := by
  refine ⟨?_, ?_, sound.nodup, ?_, fun key entry held => ?_, onHart, reported⟩
  · exact count.trans (sound.counted.trans keeps.occupied.symm)
  · exact count ▸ sound.limit
  · exact fun t member => tid ▸ sound.below t member
  · obtain ⟨entry', held'⟩ := keeps.entry_present held
    exact sound.known key entry' held'

theorem Sound.entered_count (sound : Sound w) {pair : HartSlot × MemberKey} (member : pair ∈ w.entered) :
    0 < w.lifecycle.memberCount := by
  obtain ⟨entry, held, _⟩ := sound.onHart pair member
  rw [sound.counted]
  exact occupied_pos held

theorem Moves.sound (sound : Sound w) (moves : Moves w w') : Sound w' := by
  have none_ : w.lifecycle.isReapable = false → w.reports = 0 := fun no => by rw [sound.reports, no]; rfl
  have quiet : ∀ {next : Lifecycle}, w.lifecycle.isTerminating = false → next.isTerminating = false →
      w.reports = next.isReapable.toNat := by
    intro next before after
    rw [none_ (not_reapable_of_alive before), not_reapable_of_alive after]
    rfl
  have numbers : (w.lifecycle.nextTid :: w.tids).Nodup ∧
      ∀ tid ∈ w.lifecycle.nextTid :: w.tids, tid < w.lifecycle.nextTid + 1 := by
    refine ⟨nodup_cons.mpr ⟨fun member => Nat.lt_irrefl _ (sound.below _ member), sound.nodup⟩, ?_⟩
    exact forall_mem_cons.mpr ⟨Nat.lt_succ_self _, fun tid member => Nat.lt_succ_of_lt (sound.below tid member)⟩
  have same := fun pair member => (Keeps.refl w.lifecycle.members).started (sound.onHart pair member)
  cases moves with
  | same => exact sound
  | held buildingOps mandatoryOps alive => exact sound.kept (Keeps.refl _) rfl rfl same (quiet alive alive)
  | released buildingOps mandatoryOps busy next update =>
    subst update
    refine sound.kept (Keeps.refl _) rfl rfl same ?_
    have before : w.lifecycle.isReapable = false := by
      cases can : w.lifecycle.isReapable with
      | false => rfl
      | true =>
        obtain ⟨_, _, _, building, mandatory⟩ := isReapable_iff.mp can
        omega
    rw [none_ before, Nat.zero_add]
  | numbered =>
    refine ⟨sound.counted, sound.limit, numbers.1, numbers.2, ?_, same, sound.reports⟩
    exact fun key entry held => mem_cons_of_mem _ (sound.known key entry held)
  | admitted key state members executionSequence alive room tid absent counted maps =>
    refine ⟨?_, room, numbers.1, numbers.2, fun other entry held => ?_, fun pair member => ?_, quiet alive alive⟩
    · exact (congrArg (· + 1) sound.counted).trans counted.symm
    · have here := maps other
      by_cases new : other = key
      · rw [new, tid]
        exact mem_cons_self
      · rw [if_neg new] at here
        exact mem_cons_of_mem _ (sound.known other entry (here.symm.trans held))
    · obtain ⟨entry, held, started⟩ := sound.onHart pair member
      refine ⟨entry, ?_, started⟩
      have different : pair.2 ≠ key := by
        rintro rfl
        rw [absent] at held
        cases held
      exact (maps pair.2).trans ((if_neg different).trans held)
  | rewritten members executionSequence keeps =>
    exact sound.kept keeps rfl rfl (fun pair member => keeps.started (sound.onHart pair member)) sound.reports
  | removed key entry members executionSequence current off some_ counted maps next update =>
    have fields : next.members = members ∧ next.memberCount = w.lifecycle.memberCount - 1 ∧
        next.nextTid = w.lifecycle.nextTid := by
      rcases update with rfl | ⟨_, rfl⟩ <;> exact ⟨rfl, rfl, rfl⟩
    obtain ⟨table, count, nextTid⟩ := fields
    refine ⟨?_, ?_, sound.nodup, ?_, fun other entry held => ?_, fun pair member => ?_, ?_⟩
    · show next.memberCount = occupied next.members
      have total := sound.counted
      rw [table]
      omega
    · show next.memberCount ≤ processMaxThreads
      have limit := sound.limit
      omega
    · show ∀ tid ∈ w.tids, tid < next.nextTid
      rw [nextTid]
      exact sound.below
    · have here := maps other
      have held := table ▸ held
      by_cases gone : other = key
      · rw [if_pos gone, held] at here
        cases here
      · rw [if_neg gone] at here
        exact sound.known other entry (here.symm.trans held)
    · obtain ⟨entry, held, started⟩ := sound.onHart pair member
      refine ⟨entry, ?_, started⟩
      show entryOf next.members pair.2 = some entry
      rw [table, maps pair.2, if_neg (off pair member)]
      exact held
    · show w.reports + _ = _
      rw [none_ (not_reapable_of_members some_), Nat.zero_add]
      rfl
  | begun buildingOps executionSequence members alive keeps =>
    refine sound.kept keeps rfl rfl (fun pair member => keeps.started (sound.onHart pair member)) (quiet ?_ rfl)
    simp [isTerminating, alive, stateIndex]
  | terminated cause detail members executionSequence alive keeps next update =>
    subst update
    refine sound.kept keeps rfl rfl (fun pair member => keeps.started (sound.onHart pair member)) ?_
    rw [none_ (not_reapable_of_alive alive), Nat.zero_add]
  | dispatched slot key entry members active executionSequence alive keeps current started =>
    refine sound.kept keeps rfl rfl ?_ (quiet alive alive)
    exact forall_mem_cons.mpr
      ⟨⟨entry, current, started⟩, fun pair member => keeps.started (sound.onHart pair member)⟩
  | left slot members active executionSequence entered keeps =>
    -- the member that leaves the hart has not departed, so nothing can be reaped yet
    obtain ⟨_, member, _⟩ := entered
    have some_ := sound.entered_count member
    refine sound.kept keeps rfl rfl (fun pair inside => ?_) ?_
    · exact keeps.started (sound.onHart pair (mem_of_mem_filter inside))
    · rw [none_ (not_reapable_of_members some_), not_reapable_of_members]
      · rfl
      · exact some_
  | died reapable =>
    refine sound.kept (Keeps.refl _) rfl rfl same ?_
    obtain ⟨_, members, active, building, mandatory⟩ := isReapable_iff.mp reapable
    have after : ({ w.lifecycle with state := .dead } : Lifecycle).isReapable = true :=
      isReapable_iff.mpr ⟨rfl, members, active, building, mandatory⟩
    rw [sound.reports, reapable, after]

theorem Moves.forward (sound : Sound w) (moves : Moves w w') : Forward w.lifecycle w'.lifecycle := by
  cases moves with
  | same => exact .refl _
  | held buildingOps mandatoryOps alive => exact forward_of_alive alive (Nat.le_refl _)
  | released buildingOps mandatoryOps busy next update =>
    subst update
    refine ⟨Nat.le_refl _, fun _ => ⟨rfl, rfl⟩, fun can => ?_⟩
    obtain ⟨_, _, _, building, mandatory⟩ := isReapable_iff.mp can
    omega
  | numbered | rewritten members executionSequence keeps => exact ⟨Nat.le_refl _, fun _ => ⟨rfl, rfl⟩, id⟩
  | admitted key state members executionSequence alive => exact forward_of_alive alive (Nat.le_refl _)
  | removed key entry members executionSequence current off some_ counted maps next update =>
    have never : w.lifecycle.isReapable = true → next.isReapable = true := fun can => by
      rw [not_reapable_of_members some_] at can
      cases can
    rcases update with rfl | ⟨running, rfl⟩
    · exact ⟨Nat.le_refl _, fun _ => ⟨rfl, rfl⟩, never⟩
    · refine forward_of_alive ?_ ?_
      · simp [isTerminating, running, stateIndex]
      · simp [World.report, running, stateIndex]
  | begun buildingOps executionSequence members alive keeps =>
    refine forward_of_alive ?_ ?_
    · simp [isTerminating, alive, stateIndex]
    · simp [alive, stateIndex]
  | terminated cause detail members executionSequence alive keeps next update =>
    subst update
    refine forward_of_alive alive ?_
    exact Nat.le_of_lt (alive_iff.mp alive)
  | dispatched slot key entry members active executionSequence alive => exact forward_of_alive alive (Nat.le_refl _)
  | left slot members active executionSequence entered keeps =>
    refine ⟨Nat.le_refl _, fun _ => ⟨rfl, rfl⟩, fun can => ?_⟩
    obtain ⟨_, member, _⟩ := entered
    rw [not_reapable_of_members (sound.entered_count member)] at can
    cases can
  | died reapable =>
    obtain ⟨_, members, active, building, mandatory⟩ := isReapable_iff.mp reapable
    exact ⟨stateIndex_le _, fun _ => ⟨rfl, rfl⟩, fun _ => isReapable_iff.mpr ⟨rfl, members, active, building, mandatory⟩⟩

end

end Halcyon.Tasks
