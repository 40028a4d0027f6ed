import Halcyon.Jobs.Runs

/-!
Sealing is a barrier for the whole subtree, and a complete job is published and removed once. A job that is sealed and empty
is dead where no rollback takes the last entry of a sealed job.
-/

namespace Halcyon.Jobs

open World

/-- What holds of the jobs and their history whenever no lock is held. -/
structure World.Settled (w : World) : Prop where
  /-- No gate is passed for a job after a job of its chain was sealed. -/
  barrier : w.history.Pairwise w.Apart
  /-- A job dies once, then closes once, then is removed once. -/
  once : ∀ j, w.marks j <+: [.died j, .closed j, .removed j]
  /-- What is left to do for a dead job is in the hands of a cursor. -/
  accounted : ∀ j job, w.job j = some job → Accounted w j job
  empty : ∀ j, .died j ∈ w.history → ∃ job, w.job j = some job ∧ job.state.dead = true ∧
    ∀ kind id, (job.state.table kind).find id = none
  /-- The marks say what the jobs say: `CLOSED` is published, and the parent has the job no more. -/
  published : ∀ j job, w.job j = some job → (job.closed = true ↔ .closed j ∈ w.history)
  removed : ∀ j job p, w.job j = some job → job.parent = some p →
    ∃ above, w.job p = some above ∧ (.removed j ∈ w.history ↔ above.state.children.find j = none)
  depth : ∀ j job, w.job j = some job → ∃ chain, Upward w j chain ∧ chain.length ≤ jobDepthMax

/-- What an advance of `cursor` has done: a first one publishes `CLOSED` and leaves the removal to do; a second one
takes the job from its parent and leaves nothing. -/
structure World.Discharged (w : World) (cursor : CompletionCursor) : Prop where
  publishes : cursor.published = false →
    ⟨cursor.child, true⟩ ∈ w.cursors ∧ ∃ job, w.job cursor.child = some job ∧ job.closed = true
  leaves : cursor.published = true → w.Idle cursor.child ∧ ∃ job, w.job cursor.child = some job ∧
    ∀ p, job.parent = some p → ∃ above, w.job p = some above ∧ above.state.children.find cursor.child = none

variable {w : World}

theorem Accounted.once {j : JobId} {job : Job} (accounted : Accounted w j job) :
    w.marks j <+: [.died j, .closed j, .removed j] := by
  cases accounted with
  | alive _ _ _ marks => exact ⟨_, by rw [marks]; rfl⟩
  | died _ _ _ marks => exact ⟨[.closed j, .removed j], by rw [marks]; rfl⟩
  | closed _ _ _ marks | root _ _ _ _ marks => exact ⟨[.removed j], by rw [marks]; rfl⟩
  | removed _ _ _ _ marks => exact ⟨[], by rw [marks]; rfl⟩

theorem mem_marks (mark : Mark) {j : JobId} (own : mark.completes j = true) : mark ∈ w.history ↔ mark ∈ w.marks j := by
  simp [World.marks, own]

theorem Accounted.published {j : JobId} {job : Job} (accounted : Accounted w j job) :
    job.closed = true ↔ .closed j ∈ w.history := by
  rw [mem_marks (.closed j) (beq_self_eq_true j)]
  cases accounted with
  | alive _ closed _ marks | died _ closed _ marks | closed _ closed _ marks | removed _ closed _ _ marks
  | root _ closed _ _ marks => simp [closed, marks]

theorem Accounted.idle {j : JobId} {job : Job} (accounted : Accounted w j job) (gone : .removed j ∈ w.history) :
    w.Idle j := by
  rw [mem_marks (.removed j) (beq_self_eq_true j)] at gone
  cases accounted with
  | alive _ _ idle | removed _ _ idle | root _ _ idle => exact idle
  | died _ _ _ marks | closed _ _ _ marks => simp [marks] at gone

theorem Sound.absent_iff {j p : JobId} {job : Job} (sound : Sound none w) (found : w.job j = some job)
    (parent : job.parent = some p) :
    ∃ above, w.job p = some above ∧ (.removed j ∈ w.history ↔ above.state.children.find j = none) := by
  by_cases gone : .removed j ∈ w.history
  · obtain ⟨_, up, _⟩ := sound.depth j job found
    cases up with
    | root found' top =>
      cases found.symm.trans found'
      cases top.symm.trans parent
    | child found' parent' up =>
      cases found.symm.trans found'
      cases parent.symm.trans parent'
      obtain ⟨above, there⟩ := up.found
      exact ⟨above, there, iff_of_true gone (sound.gone j job p above found nofun parent gone there)⟩
  · obtain ⟨above, there, inside⟩ := sound.attached j job p found nofun parent gone
    exact ⟨above, there, iff_of_false gone (by rw [inside]; nofun)⟩

theorem Sound.settled (sound : Sound none w) : w.Settled where
  barrier := sound.barrier
  once := by
    intro j
    by_cases born : w.job j = none
    · have none_ : w.marks j = [] := List.filter_eq_nil_iff.mpr fun mark inside completes =>
        sound.born mark inside j (.inl completes) born
      rw [none_]
      exact List.nil_prefix
    · obtain ⟨job, found⟩ := Option.ne_none_iff_exists'.mp born
      exact (sound.accounted j job found).once
  accounted := sound.accounted
  empty := by
    intro j inside
    obtain ⟨job, found⟩ := Option.ne_none_iff_exists'.mp (sound.born _ inside j (.inl (beq_self_eq_true j)))
    have there : .died j ∈ w.marks j := List.mem_filter.mpr ⟨inside, beq_self_eq_true j⟩
    have dead : job.state.dead = true := by
      cases sound.accounted j job found with
      | alive _ _ _ marks =>
        rw [marks] at there
        cases there
      | died dead | closed dead | removed dead | root dead => exact dead
    exact ⟨job, found, dead, (sound.closed j job found dead).2⟩
  published := fun j job found => (sound.accounted j job found).published
  removed := fun _ _ _ => sound.absent_iff
  depth := sound.depth

theorem Sound.discharges {index : Nat} {cursor : CompletionCursor} (sound : Sound none w)
    (at_ : w.cursors[index]? = some cursor) :
    ∃ next, step w (.advance index) = .ok next ∧ next.Settled ∧ next.Discharged cursor := by
  obtain ⟨job, taken⟩ := sound.takeCursor at_
  obtain ⟨next, advanced, after⟩ := advance_sound sound taken
  obtain ⟨publishes, leaves⟩ := advance_marks taken advanced
  have born : ∀ {mark}, mark ∈ next.history → mark.completes cursor.child = true →
      ∃ job, next.job cursor.child = some job := fun inside own =>
    Option.ne_none_iff_exists'.mp (after.born _ inside cursor.child (.inl own))
  refine ⟨next, by rw [step, at_]; exact advanced, after.settled, fun waits => ?_, fun done => ?_⟩
  · obtain ⟨waits, marked⟩ := publishes waits
    obtain ⟨job, found⟩ := born marked (beq_self_eq_true _)
    exact ⟨waits, job, found, (after.accounted _ _ found).published.mpr marked⟩
  · rcases leaves done with gone | ⟨top, same, idle⟩
    · obtain ⟨job, found⟩ := born gone (beq_self_eq_true _)
      refine ⟨(after.accounted _ _ found).idle gone, job, found, fun p parent => ?_⟩
      obtain ⟨above, there, iff⟩ := after.absent_iff found parent
      exact ⟨above, there, iff.mp gone⟩
    · refine ⟨idle, job, same ▸ taken.found, fun p parent => ?_⟩
      cases top.symm.trans parent

/-- No assertion fails in any run, the jobs are settled at its end, and every cursor that is left can be advanced and
does its part. -/
theorem runs_settled (events : List Event) : ∃ w, runEvents step initial events = .ok w ∧ w.Settled ∧
    ∀ index cursor, w.cursors[index]? = some cursor →
      ∃ next, step w (.advance index) = .ok next ∧ next.Settled ∧ next.Discharged cursor := by
  obtain ⟨w, run, sound⟩ := run_sound events
  exact ⟨w, run, sound.settled, fun _ _ => sound.discharges⟩

/-- A child of the root is made and sealed, and dies at once. -/
def sealsChild : List Event :=
  [.collect (.reserve .child) 1 true, .admitGate 0 true true true, .commit 0, .close 2]

theorem runs_settled_sealsChild : ∃ w next v last, runEvents step initial sealsChild = .ok w ∧
    w.cursors = [⟨2, false⟩] ∧ step w (.advance 0) = .ok next ∧ next.Discharged ⟨2, false⟩ ∧
    runEvents step initial (sealsChild ++ [.advance 0]) = .ok v ∧ v.cursors = [⟨2, true⟩] ∧
    step v (.advance 0) = .ok last ∧ last.Settled ∧ last.Discharged ⟨2, true⟩ := by
  obtain ⟨w, run, waits⟩ := returnsWith_ok (runEvents step initial sealsChild) (fun w => w.cursors == [⟨2, false⟩])
    (by decide +kernel)
  obtain ⟨v, run', waits'⟩ := returnsWith_ok (runEvents step initial (sealsChild ++ [.advance 0]))
    (fun w => w.cursors == [⟨2, true⟩]) (by decide +kernel)
  obtain ⟨_, same, _, advances⟩ := runs_settled sealsChild
  cases run.symm.trans same
  obtain ⟨_, same, _, advances'⟩ := runs_settled (sealsChild ++ [.advance 0])
  cases run'.symm.trans same
  rw [beq_iff_eq] at waits waits'
  obtain ⟨next, first, _, published⟩ := advances 0 ⟨2, false⟩ (by rw [waits]; rfl)
  obtain ⟨last, second, settled, left⟩ := advances' 0 ⟨2, true⟩ (by rw [waits']; rfl)
  exact ⟨w, next, v, last, run, waits, first, published, run', waits', second, settled, left⟩

def JobInner.Ready (state : JobInner) : Prop :=
  state.isSealed = true → state.members.size = 0 → state.children.size = 0 → state.dead = true

def Timely (w : World) : Event → Prop
  | .rollback index => ∀ r ∈ w.reservations[index]?, ∀ job ∈ w.job r.owner,
      job.state.isSealed = true → job.state.members.size + job.state.children.size ≠ 1
  | _ => True

section
variable {w next : World} {j : JobId} {job : Job} {state : JobInner}

theorem completeIfReady_ready : state.completeIfReady.2.Ready := by
  intro barred members children
  unfold JobInner.completeIfReady at *
  split at barred
  · rename_i ready
    rw [if_pos ready]
  · rename_i waits
    rw [if_neg waits] at members children ⊢
    by_contra alive
    refine waits ?_
    simp only [Bool.and_eq_true, Bool.not_eq_true', beq_iff_eq]
    exact ⟨⟨⟨barred, Bool.eq_false_of_not_eq_true alive⟩, members⟩, children⟩

variable {kind : Kind} {id : Nat} {allocates : Bool}

theorem ready_insert {entry : Entry} : (state.insert kind id entry).Ready := by
  have here : ((state.insert kind id entry).table kind).find id ≠ none := by
    rw [find_insertTable, if_pos ⟨rfl, rfl⟩]
    nofun
  intro _ members children
  cases kind with
  | member => exact (here (SortedMap.size_eq_zero_iff.mp members id)).elim
  | child => exact (here (SortedMap.size_eq_zero_iff.mp children id)).elim

def World.AllReady (w : World) : Prop := ∀ j job, w.job j = some job → job.state.Ready

theorem World.AllReady.setJob {a : Job} (ready : w.AllReady) (own : a.state.Ready) : (w.setJob j a).AllReady :=
  forall_setJob own ready

theorem collect_job {purpose : Purpose} {memory : Bool} : (w.collect purpose j memory).job = w.job := by
  unfold collect
  split
  · split
    · rfl
    · split <;> rfl
  · rfl

theorem allocateId_job (h : w.allocateId kind = some (id, next)) : next.job = w.job := by
  cases kind <;> (obtain ⟨_, _, same⟩ := Option.map_eq_some_iff.mp h; cases same; rfl)

section

variable (ready : w.AllReady)
include ready

theorem reserve_ready (h : w.reserve kind j allocates = .ok next) : next.AllReady := by
  unfold reserve at h
  split at h
  · cases pure_ok h
    exact ready
  · split at h
    · cases pure_ok h
      exact ready
    · rename_i id after taken
      have same : after.job = w.job := (allocateId_job taken).trans rfl
      have ready : after.AllReady := fun i x there => ready i x (same ▸ there)
      split at h
      · cases pure_ok h
        exact ready
      · rcases settle_ok h with ⟨state, inserted, rfl⟩ | ⟨_, _, rfl⟩
        · iterate 3 obtain ⟨_, _, inserted⟩ := bind_ok inserted
          cases pure_ok inserted
          exact ready.setJob ready_insert
        · exact ready

theorem admit_ready {gate : Gate} {memory begins : Bool}
    (h : w.admitGate gate memory allocates begins = .ok next) : next.AllReady := by
  unfold admitGate at h
  split at h
  · cases pure_ok h
    exact ready
  · split at h
    · cases pure_ok h
      exact ready
    · split at h
      · exact reserve_ready ready h
      · cases pure_ok h
        split <;> exact ready

theorem commit_ready {r : Reservation} (h : w.commit r = .ok next) : next.AllReady := by
  unfold commit at h
  split at h
  · cases pure_ok h
    exact ready
  · rename_i job found
    obtain ⟨state, committed, h⟩ := bind_ok h
    obtain ⟨_, _, committed⟩ := bind_ok committed
    obtain ⟨_, _, committed⟩ := bind_ok committed
    cases pure_ok committed
    cases pure_ok h
    split
    · exact ready.setJob ready_insert
    · exact (ready.setJob ready_insert).setJob nofun

theorem finish_ready {completed : Bool} {a : Job} (own : a.state.Ready) :
    (if completed then (w.setJob j a).complete j else w.setJob j a).AllReady := by
  split <;> exact ready.setJob own

theorem rollback_ready {r : Reservation} (timely : ∀ job, w.job r.owner = some job → job.state.isSealed = true →
      job.state.members.size + job.state.children.size ≠ 1) (h : w.rollback r = .ok next) : next.AllReady := by
  unfold rollback at h
  split at h
  · cases pure_ok h
    exact ready
  · rename_i job found
    obtain ⟨state, rolled, h⟩ := bind_ok h
    cases pure_ok h
    obtain ⟨entry, there, rolled⟩ := bind_ok rolled
    obtain ⟨_, _, rolled⟩ := bind_ok rolled
    cases pure_ok rolled
    have shrinks : ((job.state.table r.kind).erase r.id).size + 1 = (job.state.table r.kind).size :=
      Entries.length_erase (job.state.table r.kind).sorted (expect_ok there)
    refine ready.setJob fun barred members children => (timely job found (setTable_isSealed.symm.trans barred) ?_).elim
    cases kind : r.kind with
    | member =>
      rw [kind] at shrinks members children
      have members : ((job.state.table .member).erase r.id).size = 0 := members
      have children : job.state.children.size = 0 := children
      rw [members] at shrinks
      rw [children]
      exact shrinks.symm
    | child =>
      rw [kind] at shrinks members children
      have children : ((job.state.table .child).erase r.id).size = 0 := children
      have members : job.state.members.size = 0 := members
      rw [children] at shrinks
      rw [members, Nat.zero_add]
      exact shrinks.symm

end

theorem remove_ready {completed : Bool} {state' : JobInner} (h : state.remove kind id = .ok (completed, state')) :
    state'.Ready := by
  obtain ⟨_, _, h⟩ := bind_ok h
  obtain ⟨_, _, h⟩ := bind_ok h
  have done := pure_ok h
  rw [show state' = (completed, state').2 from rfl, done]
  exact completeIfReady_ready

theorem step_ready {event : Event} (ready : w.AllReady) (timely : Timely w event) (h : step w event = .ok next) :
    next.AllReady := by
  cases event with
  | collect purpose j memory =>
    have kept : (w.collect purpose j memory).AllReady := fun i x there => ready i x (collect_job ▸ there)
    cases purpose with
    | reserve kind =>
      cases pure_ok h
      exact kept
    | start pid =>
      cases pure_ok h
      split
      · exact kept
      · exact ready
  | admitGate index memory allocates begins =>
    rw [step] at h
    split at h
    · cases pure_ok h
      exact ready
    · exact admit_ready (w := { w with gates := w.gates.eraseIdx index }) ready h
  | commit index =>
    rw [step] at h
    split at h
    · cases pure_ok h
      exact ready
    · exact commit_ready (w := { w with reservations := w.reservations.eraseIdx index }) ready h
  | rollback index =>
    rw [step] at h
    split at h
    · cases pure_ok h
      exact ready
    · rename_i r found
      refine rollback_ready (w := { w with reservations := w.reservations.eraseIdx index }) ready (fun job there => ?_) h
      exact timely r found job there
  | remove index =>
    rw [step] at h
    split at h
    · cases pure_ok h
      exact ready
    · obtain ⟨job, _, h⟩ := bind_ok h
      obtain ⟨⟨completed, state⟩, removed, h⟩ := bind_ok h
      cases pure_ok h
      exact finish_ready (w := { w with processes := w.processes.eraseIdx index }) ready (remove_ready removed)
  | close j =>
    cases pure_ok h
    unfold close
    split
    · exact ready
    · rename_i job _
      split
      · exact ready
      · exact finish_ready (w := w.note (.closing j)) ready completeIfReady_ready
  | advance index =>
    rw [step] at h
    split at h
    · cases pure_ok h
      exact ready
    · rename_i cursor _
      unfold advance at h
      split at h
      · cases pure_ok h
        exact ready
      · rename_i job found
        split at h
        · cases pure_ok h
          exact World.AllReady.setJob (w := w) ready (ready _ job found)
        · split at h
          · cases pure_ok h
            exact ready
          · obtain ⟨above, _, h⟩ := bind_ok h
            obtain ⟨⟨completed, state⟩, removed, h⟩ := bind_ok h
            cases pure_ok h
            have own : ({ above with state } : Job).state.Ready := remove_ready removed
            exact finish_ready (w := { w with cursors := w.cursors.eraseIdx index }.note (.removed cursor.child)) ready own
  | drop j =>
    cases pure_ok h
    unfold drop
    split
    · exact ready
    · rename_i job found
      split
      · exact ready
      · exact ready.setJob (ready j job found)

end

/-- A cursor has the publication and the removal of the job before it, or they are done. -/
def World.Completing (w : World) (j : JobId) (job : Job) : Prop := (∃ cursor ∈ w.cursors, cursor.child = j) ∨
    job.closed = true ∧ ∀ p, job.parent = some p →
      ∃ above, w.job p = some above ∧ above.state.children.find j = none

theorem Sound.completing {j : JobId} {job : Job} (sound : Sound none w) (found : w.job j = some job)
    (dead : job.state.dead = true) : w.Completing j job := by
  cases sound.accounted j job found with
  | alive alive => cases alive.symm.trans dead
  | died _ _ there | closed _ _ there => exact .inl ⟨_, there, rfl⟩
  | removed _ closed _ _ marks =>
    refine .inr ⟨closed, fun p parent => ?_⟩
    obtain ⟨above, there, iff⟩ := sound.absent_iff found parent
    exact ⟨above, there, iff.mp ((mem_marks (.removed j) (beq_self_eq_true j)).mpr (by simp [marks]))⟩
  | root _ closed _ top => exact .inr ⟨closed, fun p parent => nomatch top.symm.trans parent⟩

theorem sealed_empty_dead {events : List Event} {w : World} (timely : RunMeets step Timely initial events)
    (h : runEvents step initial events = .ok w) (j : JobId) (job : Job) (found : w.job j = some job)
    (barred : job.state.isSealed = true) (members : job.state.members.size = 0) (children : job.state.children.size = 0) :
    job.state.dead = true ∧ w.Completing j job := by
  have ready : w.AllReady := by
    refine run_invariant_of_meets (fun _ _ _ ready timely h => step_ready ready timely h) (fun i x there => ?_) timely h
    simp only [initial] at there
    split at there
    · cases there
      intro barred
      cases barred
    · cases there
  obtain ⟨w', run, sound⟩ := run_sound events
  cases run.symm.trans h
  have dead := ready j job found barred members children
  exact ⟨dead, sound.completing found dead⟩

instance (w : World) (event : Event) : Decidable (Timely w event) := by
  cases event <;> unfold Timely <;> infer_instance

/-- The root is sealed while a process is made in it, the process is committed and dies. -/
def sealedWhileCreating : List Event :=
  [.collect (.reserve .member) 1 true, .admitGate 0 true true true, .close 1, .commit 0, .remove 0, .advance 0]

theorem sealed_empty_dead_committed : ∃ w job, runEvents step initial sealedWhileCreating = .ok w ∧
    w.job 1 = some job ∧ job.state.dead = true ∧ w.Completing 1 job := by
  obtain ⟨w, run, test⟩ := returnsWith_ok (runEvents step initial sealedWhileCreating)
    (fun w => (w.job 1).any fun job => job.state.isSealed && job.state.members.size == 0 && job.state.children.size == 0)
    (by decide +kernel)
  obtain ⟨job, found, state⟩ := (Option.any_eq_true _ _).mp test
  simp only [Bool.and_eq_true, beq_iff_eq] at state
  obtain ⟨⟨barred, members⟩, children⟩ := state
  exact ⟨w, job, run, found, sealed_empty_dead (by decide +kernel) run 1 job found barred members children⟩

def sealedWhileFailing : List Event :=
  [.collect (.reserve .member) 1 true, .admitGate 0 true true true, .close 1, .rollback 0]

theorem sealed_empty_lives : ∃ w job, runEvents step initial sealedWhileFailing = .ok w ∧ w.job 1 = some job ∧
    job.state.isSealed = true ∧ job.state.members.size = 0 ∧ job.state.children.size = 0 ∧ job.state.dead = false ∧
    w.cursors = [] ∧ w.reservations = [] ∧ w.processes = [] := by
  obtain ⟨w, run, test⟩ := returnsWith_ok (runEvents step initial sealedWhileFailing)
    (fun w => (w.job 1).any (fun job => job.state.isSealed && job.state.members.size == 0 &&
      job.state.children.size == 0 && !job.state.dead) && w.cursors == [] && w.reservations == [] && w.processes == [])
    (by decide +kernel)
  simp only [Bool.and_eq_true, beq_iff_eq] at test
  obtain ⟨⟨⟨some_, cursors⟩, reservations⟩, processes⟩ := test
  obtain ⟨job, found, state⟩ := (Option.any_eq_true _ _).mp some_
  simp only [Bool.and_eq_true, Bool.not_eq_true', beq_iff_eq] at state
  obtain ⟨⟨⟨barred, members⟩, children⟩, alive⟩ := state
  exact ⟨w, job, run, found, barred, members, children, alive, cursors, reservations, processes⟩

end Halcyon.Jobs
