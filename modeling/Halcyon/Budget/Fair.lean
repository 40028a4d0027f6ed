import Halcyon.Base.Runs
import Halcyon.Base.Word

/-!
`FairBudget` of `work_debt` and the two safe-point drains that spend it. A budget keeps one unit back for every later class
that was pending on entry; a drain may charge what it was granted and nothing else.
-/

namespace Halcyon.Budget

open List

structure FairBudget where
  total : Nat
  turnLimit : Nat
  pending : List Bool
  used : Nat
  current : Nat
  deriving DecidableEq

variable {ε : Type}

namespace FairBudget

/-- Classes from `first` on that were pending on entry. -/
def reserved (budget : FairBudget) (first : Nat) : Nat := (budget.pending.drop first).count true

def new (total turnLimit : Nat) (pending : List Bool) : Outcome ε FairBudget := do
  assertThat (decide (turnLimit > 0)) "fair budget turn limit must be nonzero"
  assertThat (decide (pending.count true ≤ total)) "fair budget cannot reserve more classes than total work"
  pure { total, turnLimit, pending, used := 0, current := 0 }

def remaining (budget : FairBudget) (cls : Nat) : Outcome ε (Nat × FairBudget) := do
  assertThat (decide (cls < budget.pending.length)) "fair budget class is out of range"
  assertThat (decide (cls ≥ budget.current)) "fair budget classes must advance monotonically"
  pure (budget.total - budget.reserved (cls + 1) - budget.used, { budget with current := cls })

def turn (budget : FairBudget) (cls : Nat) : Outcome ε (Nat × FairBudget) := do
  let (remaining, budget) ← budget.remaining cls
  pure (min remaining budget.turnLimit, budget)

def charge (budget : FairBudget) (cls work : Nat) : Outcome ε FairBudget := do
  let (remaining, budget) ← budget.remaining cls
  assertThat (decide (work ≤ remaining)) "fair budget charge exceeded the class allowance"
  let used ← add budget.used work
  pure { budget with used }

theorem reserved_antitone (budget : FairBudget) {first later : Nat} (h : first ≤ later) :
    budget.reserved later ≤ budget.reserved first := by
  unfold reserved
  apply List.Sublist.count_le
  exact drop_sublist_drop_left budget.pending h

theorem reserved_pending {budget : FairBudget} {cls : Nat} (pending : budget.pending[cls]? = some true) :
    budget.reserved cls = budget.reserved (cls + 1) + 1 := by
  obtain ⟨inside, value⟩ := List.getElem?_eq_some_iff.mp pending
  rw [reserved, drop_eq_getElem_cons inside, value, count_cons_self, reserved]

/-- What `remaining` answers once its class is accepted. -/
def allowance (budget : FairBudget) (cls : Nat) : Nat := budget.total - budget.reserved (cls + 1) - budget.used

theorem remaining_returns {budget : FairBudget} {cls : Nat} (inside : cls < budget.pending.length)
    (later : budget.current ≤ cls) :
    (budget.remaining cls : Outcome ε _) = .ok (budget.allowance cls, { budget with current := cls }) := by
  simp only [remaining, assertThat, inside, ge_iff_le, later, decide_true, if_true]
  rfl

end FairBudget

/-- A call on the budget: ask for a turn (`limited`) or for all that remains, or charge work. -/
inductive Call where
  | grant (cls : Nat) (limited : Bool)
  | charge (cls work : Nat)
  deriving DecidableEq

def Call.work : Call → Nat
  | .grant _ _ => 0
  | .charge _ work => work

/-- A budget with what its holder was last granted and has not charged yet, and the classes it has asked
for so far (those below `reached`, whether asked for or skipped). -/
structure Meter where
  budget : FairBudget
  granted : Nat
  reached : Nat
  deriving DecidableEq

namespace Meter

def fresh (budget : FairBudget) : Meter := { budget, granted := 0, reached := 0 }

def step (m : Meter) : Call → Outcome ε Meter
  | .grant cls limited => do
    let (granted, budget) ← if limited then m.budget.turn cls else m.budget.remaining cls
    pure { budget, granted, reached := cls + 1 }
  | .charge cls work => do
    let budget ← m.budget.charge cls work
    pure { m with budget, granted := m.granted - work }

def afterGrant (m : Meter) (cls : Nat) (limited : Bool) : Meter :=
  { budget := { m.budget with current := cls }
    granted := if limited then min (m.budget.allowance cls) m.budget.turnLimit else m.budget.allowance cls
    reached := cls + 1 }

/-- Classes are visited in increasing order, and no more is charged than was granted. -/
def Allows (m : Meter) : Call → Prop
  | .grant cls _ => m.budget.current ≤ cls ∧ cls < m.budget.pending.length
  | .charge cls work => cls = m.budget.current ∧ cls < m.reached ∧ work ≤ m.granted

instance (m : Meter) (call : Call) : Decidable (m.Allows call) := by
  cases call <;> unfold Allows <;> infer_instance

/-- What holds between two calls: every class not yet reached still has its unit, and so has what is
granted. -/
structure Holds (start : FairBudget) (m : Meter) : Prop where
  total : m.budget.total = start.total
  turnLimit : m.budget.turnLimit = start.turnLimit
  pending : m.budget.pending = start.pending
  small : start.total ≤ usizeMax
  positive : 0 < start.turnLimit
  inside : m.reached ≤ start.pending.length
  entered : m.reached = 0 ∨ m.reached = m.budget.current + 1
  kept : m.granted + m.budget.used + m.budget.reserved m.reached ≤ start.total

theorem fresh_holds {total turnLimit : Nat} {pending : List Bool} {budget : FairBudget}
    (small : total ≤ usizeMax) (h : (FairBudget.new total turnLimit pending : Outcome ε _) = .ok budget) :
    Holds budget (fresh budget) ∧ budget.total = total ∧ budget.pending = pending ∧ budget.used = 0 := by
  unfold FairBudget.new at h
  obtain ⟨_, positive, h⟩ := bind_ok h
  obtain ⟨_, fits, h⟩ := bind_ok h
  cases pure_ok h
  have positive := of_decide_eq_true (assertThat_ok positive)
  have fits := of_decide_eq_true (assertThat_ok fits)
  refine ⟨⟨rfl, rfl, rfl, small, positive, Nat.zero_le _, .inl rfl, ?_⟩, rfl, rfl, rfl⟩
  simpa [fresh, FairBudget.reserved] using fits

section
variable {start : FairBudget} {m : Meter} {cls work : Nat} {limited : Bool}

theorem step_grant (inside : cls < m.budget.pending.length) (later : m.budget.current ≤ cls) :
    (m.step (.grant cls limited) : Outcome ε _) = .ok (m.afterGrant cls limited) := by
  cases limited with
  | true =>
    simp only [step, if_true, FairBudget.turn, FairBudget.remaining_returns inside later]
    rfl
  | false =>
    simp only [step, Bool.false_eq_true, if_false, FairBudget.remaining_returns inside later]
    rfl

theorem granted_le : (m.afterGrant cls limited).granted ≤ m.budget.allowance cls := by
  unfold afterGrant
  cases limited with
  | true => exact Nat.min_le_left _ _
  | false => exact Nat.le_refl _

section

variable (holds : Holds start m)
include holds

theorem granted_pos (first : m.reached ≤ cls) (pending : start.pending[cls]? = some true) :
    1 ≤ (m.afterGrant cls limited).granted := by
  -- the class's own unit is part of what was kept back until now
  have unit : m.budget.reserved (cls + 1) + 1 ≤ m.budget.reserved m.reached := by
    rw [← FairBudget.reserved_pending (holds.pending ▸ pending)]
    exact m.budget.reserved_antitone first
  have room : 1 ≤ m.budget.allowance cls := by
    have kept := holds.kept
    have total := holds.total
    unfold FairBudget.allowance
    omega
  cases limited with
  | true =>
    have limit : 0 < m.budget.turnLimit := by
      rw [holds.turnLimit]
      exact holds.positive
    exact Nat.le_min.mpr ⟨room, limit⟩
  | false => exact room

theorem afterGrant_holds (inside : cls < m.budget.pending.length)
    (later : m.budget.current ≤ cls) : Holds start (m.afterGrant cls limited) := by
  have kept := holds.kept
  have entered := holds.entered
  have total := holds.total
  have fewer : m.budget.reserved (cls + 1) ≤ m.budget.reserved m.reached := m.budget.reserved_antitone (by omega)
  have most : (m.afterGrant cls limited).granted ≤ m.budget.allowance cls := granted_le
  refine ⟨total, holds.turnLimit, holds.pending, holds.small, holds.positive, holds.pending ▸ inside, .inr rfl, ?_⟩
  show (m.afterGrant cls limited).granted + m.budget.used + m.budget.reserved (cls + 1) ≤ start.total
  unfold FairBudget.allowance at most
  omega

theorem charge_returns (allowed : m.Allows (.charge cls work)) :
    ∃ next, (m.step (.charge cls work) : Outcome ε _) = .ok next ∧ Holds start next ∧
      next.budget.current = cls ∧ next.reached = m.reached ∧ next.budget.used = m.budget.used + work := by
  obtain ⟨same, reached, _⟩ := allowed
  have entered : m.reached = cls + 1 := by
    have := holds.entered
    omega
  have kept := holds.kept
  have total := holds.total
  have inside : cls < m.budget.pending.length := by
    have := holds.inside
    rw [holds.pending]
    omega
  rw [entered] at kept
  have small := holds.small
  have within : work ≤ m.budget.allowance cls := by
    unfold FairBudget.allowance
    omega
  have charged : (m.budget.charge cls work : Outcome ε _) =
      .ok { m.budget with current := cls, used := m.budget.used + work } := by
    simp only [FairBudget.charge, FairBudget.remaining_returns inside (Nat.le_of_eq same.symm), ok_bind,
      assertThat, within, decide_true, if_true, add_returns (show m.budget.used + work ≤ usizeMax by omega)]
    rfl
  refine ⟨{ m with
    budget := { m.budget with current := cls, used := m.budget.used + work }
    granted := m.granted - work }, ?_, ?_, rfl, rfl, rfl⟩
  · rw [step, charged]
    rfl
  · refine ⟨total, holds.turnLimit, holds.pending, small, holds.positive, holds.inside, .inr entered, ?_⟩
    show m.granted - work + (m.budget.used + work) + m.budget.reserved m.reached ≤ start.total
    rw [entered]
    omega

theorem step_returns {call : Call} (allowed : m.Allows call) :
    ∃ next, (m.step call : Outcome ε _) = .ok next ∧ Holds start next ∧ next.budget.used = m.budget.used + call.work := by
  cases call with
  | grant cls =>
    exact ⟨_, step_grant allowed.2 allowed.1, afterGrant_holds holds allowed.2 allowed.1, rfl⟩
  | charge =>
    obtain ⟨next, returned, holds, _, _, used⟩ := charge_returns holds allowed
    exact ⟨next, returned, holds, used⟩

theorem run_holds {calls : List Call} (meets : RunMeets step Allows m calls) :
    ∃ last, runEvents step m calls = .ok last ∧ Holds start last ∧
      last.budget.used = m.budget.used + (calls.map Call.work).sum := by
  induction calls generalizing m with
  | nil => exact ⟨m, rfl, holds, rfl⟩
  | cons _ _ ih =>
    obtain ⟨next, returned, holds, first⟩ := step_returns holds meets.1
    obtain ⟨last, run, final, used⟩ := ih holds (meets.2 next returned)
    refine ⟨last, ?_, final, ?_⟩
    · rw [runEvents, returned]
      exact run
    · rw [used, first, map_cons, sum_cons, Nat.add_assoc]

end

end

end Meter

/-!
A payload is given its turn and answers the work to charge. Its own asserts stop the drain with an error, so that a panic
is always one of the budget, or of `perform`.
-/

abbrev Payload := Nat → Outcome String Nat

def maxStepsPerSafePoint : Nat := 16

def maxStepsPerDebtTurn : Nat := 4

def safePointBudget (pending : List Bool) : Outcome String FairBudget :=
  FairBudget.new maxStepsPerSafePoint maxStepsPerDebtTurn pending

def Meter.perform (m : Meter) (call : Call) : Outcome String Meter :=
  if m.Allows call then m.step call else panicked "call outside the charging discipline"

/-- `while budget.turn(cls) != 0`: the list holds what `take` returns, one debt after another. -/
def drainClass (cls : Nat) : List Payload → Meter → Outcome String Meter
  | debts, m => do
    let m ← m.perform (.grant cls true)
    if m.granted = 0 then pure m
    else
      match debts with
      | [] => pure m
      | debt :: rest => do
        let m ← m.perform (.grant cls true)
        let work ← debt m.granted
        let m ← m.perform (.charge cls work)
        drainClass cls rest m

inductive DrainBatchOutcome where
  | blocked
  | complete
  | more
  deriving DecidableEq

def strictDebt (message : String) (advance : Nat → Nat) : Payload := fun turn => do
  let used := advance turn
  refuseIf (!decide (used > 0 ∧ used ≤ turn)) message
  pure used

def memoryDebt : (Nat → Nat) → Payload := strictDebt "advance.work_done > 0 && advance.work_done <= turn"

/-- A process debt that cannot advance registers its dependency, one unit of work. -/
def processDebt (exceeded noProgress : String) (advance : Nat → Option (Nat × DrainBatchOutcome)) : Payload := fun turn =>
    match advance turn with
    | none => pure 1
    | some (used, outcome) => do
      refuseIf (!decide (used ≤ turn)) exceeded
      match outcome with
      | .blocked => pure 1
      | .complete => pure used
      | .more => do
        refuseIf (!decide (used > 0)) noProgress
        pure used

/-- `none` when the process is not reapable. -/
def unpublishedDebt : (Nat → Option (Nat × DrainBatchOutcome)) → Payload :=
  processDebt "unpublished drain exceeded its debt turn" "unpublished drain made no progress"

def terminationDebt : (Nat → Nat) → Payload := strictDebt "termination cleanup exceeded its debt turn"

def finalizationDebt : (Nat → Option (Nat × DrainBatchOutcome)) → Payload :=
  processDebt "finalization debt exceeded its debt turn" "finalization drain made no progress"

/-- The waiters one turn advances, the advance after the last of them finishing the object. -/
def advanceWaiters (turn : Nat) : (waiters used : Nat) → Nat × Bool
  | waiters, used =>
    if used < turn then
      match waiters with
      | 0 => (used, true)
      | waiters + 1 => advanceWaiters turn waiters (used + 1)
    else (used, false)

def notificationDebt (waiters : Nat) : Payload := fun turn => do
  let (used, complete) := advanceWaiters turn waiters 0
  refuseIf (!decide (used ≤ turn)) "notification drain exceeded its debt turn"
  refuseIf (!decide (complete ∨ used > 0)) "incomplete notification drain made no progress"
  pure (max used 1)

def finishDebt (finishStep : Nat → Nat × Bool) : Payload := fun turn => do
  let (used, complete) := finishStep turn
  refuseIf (!decide (used ≤ turn ∧ (used > 0 ∨ complete))) "wait completion exceeded its debt turn"
  pure (max used 1)

inductive StepState where
  | complete
  | runnable
  | blocked
  deriving DecidableEq

/-- `while used < budget` of the request and retirement drains. -/
def drainWithin (budget : Nat) : List Payload → (used : Nat) → Outcome String Nat
  | debts, used =>
    if used < budget then
      match debts with
      | [] => pure used
      | debt :: rest => do
        let work ← debt (min (budget - used) maxStepsPerDebtTurn)
        drainWithin budget rest (used + max work 1)
    else pure used

/-- `DrainRequest::step`: `none` for a cancelled request, else what is left of the request's own budget and
the work of `advance_managed_drain`. -/
def requestDebt (request : Option (Nat × (Nat → Nat × StepState))) : Payload := fun turn =>
  match request with
  | none => pure 0
  | some (remaining, advance) => do
    let (used, state) := advance (min remaining turn)
    refuseIf (!decide (used ≤ min remaining turn)) "drain request exceeded its remaining budget"
    refuseIf (!decide (state = .runnable → used > 0)) "drain batch made no progress without blocking"
    pure used

def retirementDebt (step : Nat → Nat × StepState) : Payload := fun turn => do
  let (workDone, state) := step turn
  refuseIf (!decide (workDone ≤ turn)) "object retirement exceeded its budget"
  refuseIf (!decide (state = .runnable → workDone > 0)) "runnable object retirement made no progress"
  pure workDone

/-- `deferred_work::drain_current`, from its budget on. -/
def drainDeferred (pending : List Bool) (memory : List (Nat → Nat))
    (unpublished : List (Nat → Option (Nat × DrainBatchOutcome))) (termination : List (Nat → Nat))
    (finalization : List (Nat → Option (Nat × DrainBatchOutcome))) : Outcome String Nat := do
  let budget ← safePointBudget pending
  let m ← drainClass 0 (memory.map memoryDebt) (Meter.fresh budget)
  let m ← drainClass 1 (unpublished.map unpublishedDebt) m
  let m ← drainClass 2 (termination.map terminationDebt) m
  let m ← drainClass 3 (finalization.map finalizationDebt) m
  pure m.budget.used

/-- `notify_work::drain_current`. -/
def drainNotify (pending : List Bool) (notifications : List Nat) (finishes : List (Nat → Nat × Bool))
    (requests : List (Option (Nat × (Nat → Nat × StepState)))) (retirements : List (Nat → Nat × StepState)) :
    Outcome String Nat := do
  let budget ← safePointBudget pending
  let m ← drainClass 0 (notifications.map notificationDebt) (Meter.fresh budget)
  let m ← drainClass 1 (finishes.map finishDebt) m
  let m ← m.perform (.grant 2 false)
  let requestWork ← drainWithin m.granted (requests.map requestDebt) 0
  let m ← m.perform (.charge 2 requestWork)
  let m ← m.perform (.grant 3 false)
  let retirementWork ← drainWithin m.granted (retirements.map retirementDebt) 0
  let m ← m.perform (.charge 3 retirementWork)
  pure m.budget.used

/-- A payload with a nonzero turn charges no more than the turn, and stops only by its own asserts. -/
def Payload.Modest (debt : Payload) : Prop := ∀ turn, 0 < turn → Ends (· ≤ turn) Stop.IsPanic (debt turn)

theorem ends_pure {α : Type} {good : α → Prop} {bad : Stop ε → Prop} {a : α} (h : good a) :
    Ends good bad (pure a : Outcome ε α) := by
  refine ⟨?_, avoids_ok a⟩
  intro b same
  cases pure_ok same
  exact h

theorem ends_check {good : Nat → Prop} {p : Prop} [Decidable p] {message : String} {f : Unit → Outcome String Nat}
    (rest : p → Ends good Stop.IsPanic (f ())) : Ends good Stop.IsPanic (refuseIf (!decide p) message >>= f) := by
  apply Ends.bind (avoids_refuseIf (fun is => is))
  intro _ passed
  have holds := refuseIf_ok passed
  exact rest (of_decide_eq_true (by simpa using holds))

theorem strictDebt_modest (message : String) (advance : Nat → Nat) : (strictDebt message advance).Modest := by
  intro turn _
  apply ends_check
  intro fits
  exact ends_pure fits.2

theorem processDebt_modest (exceeded noProgress : String) (advance : Nat → Option (Nat × DrainBatchOutcome)) :
    (processDebt exceeded noProgress advance).Modest := by
  intro turn positive
  unfold processDebt
  cases advance turn with
  | none => exact ends_pure positive
  | some advanced =>
    obtain ⟨_, outcome⟩ := advanced
    apply ends_check
    intro fits
    cases outcome with
    | blocked => exact ends_pure positive
    | complete => exact ends_pure fits
    | more =>
      apply ends_check
      intro _
      exact ends_pure fits

theorem notificationDebt_modest (waiters : Nat) : (notificationDebt waiters).Modest := by
  intro turn positive
  apply ends_check
  intro fits
  apply ends_check
  intro _
  apply ends_pure
  omega

theorem finishDebt_modest (finishStep : Nat → Nat × Bool) : (finishDebt finishStep).Modest := by
  intro turn positive
  apply ends_check
  intro fits
  apply ends_pure
  omega

theorem requestDebt_modest (request : Option (Nat × (Nat → Nat × StepState))) : (requestDebt request).Modest := by
  intro turn _
  cases request with
  | none => exact ends_pure (Nat.zero_le _)
  | some =>
    apply ends_check
    intro fits
    apply ends_check
    intro _
    apply ends_pure
    omega

theorem retirementDebt_modest (step : Nat → Nat × StepState) : (retirementDebt step).Modest := by
  intro turn _
  apply ends_check
  intro fits
  apply ends_check
  intro _
  exact ends_pure fits

theorem map_modest {α : Type} {f : α → Payload} (each : ∀ a, (f a).Modest) (as : List α) :
    ∀ debt ∈ as.map f, debt.Modest := by
  intro debt member
  obtain ⟨a, _, rfl⟩ := mem_map.mp member
  exact each a

structure Ready (start : FairBudget) (cls : Nat) (m : Meter) : Prop where
  holds : m.Holds start
  before : m.budget.current ≤ cls

section
variable {start : FairBudget} {m : Meter} {cls : Nat}

theorem perform_grant {limited : Bool} (ready : Ready start cls m) (inside : cls < start.pending.length) :
    m.perform (.grant cls limited) = .ok (m.afterGrant cls limited) ∧ Ready start cls (m.afterGrant cls limited) := by
  have inside : cls < m.budget.pending.length := by
    rw [ready.holds.pending]
    exact inside
  have allowed : m.Allows (.grant cls limited) := ⟨ready.before, inside⟩
  constructor
  · rw [Meter.perform, if_pos allowed, Meter.step_grant inside ready.before]
  · exact ⟨Meter.afterGrant_holds ready.holds inside ready.before, Nat.le_refl _⟩

theorem afterGrant_again {limited : Bool} :
    (m.afterGrant cls limited).afterGrant cls limited = m.afterGrant cls limited := rfl

theorem perform_charge {work : Nat} (ready : Ready start cls m) (current : m.budget.current = cls)
    (reached : m.reached = cls + 1) (fits : work ≤ m.granted) :
    ∃ next, m.perform (.charge cls work) = .ok next ∧ Ready start cls next := by
  have allowed : m.Allows (.charge cls work) := ⟨current.symm, by omega, fits⟩
  obtain ⟨next, returned, holds, current, _⟩ := Meter.charge_returns ready.holds allowed
  refine ⟨next, ?_, ⟨holds, Nat.le_of_eq current⟩⟩
  rw [Meter.perform, if_pos allowed, returned]

theorem Ready.later {later : Nat} (ready : Ready start cls m) (h : cls ≤ later) : Ready start later m :=
  ⟨ready.holds, Nat.le_trans ready.before h⟩

theorem ends_ok_bind {α β : Type} {x : Outcome ε α} {f : α → Outcome ε β} {a : α} {good : β → Prop}
    {bad : Stop ε → Prop} (returned : x = .ok a) (rest : Ends good bad (f a)) : Ends good bad (x >>= f) := by
  rw [returned]
  exact rest

theorem drainClass_ends {debts : List Payload} (ready : Ready start cls m) (inside : cls < start.pending.length)
    (modest : ∀ debt ∈ debts, debt.Modest) : Ends (Ready start cls) Stop.IsPanic (drainClass cls debts m) := by
  induction debts generalizing m with
  | nil =>
    obtain ⟨granted, ready⟩ := perform_grant ready inside
    rw [drainClass]
    apply ends_ok_bind granted
    split
    · exact ends_pure ready
    · exact ends_pure ready
  | cons debt rest ih =>
    obtain ⟨granted, ready⟩ := perform_grant ready inside
    rw [drainClass]
    apply ends_ok_bind granted
    split
    · exact ends_pure ready
    · rename_i nonzero
      obtain ⟨again, _⟩ := perform_grant ready inside
      rw [afterGrant_again] at again
      apply ends_ok_bind again
      have turn := modest debt mem_cons_self _ (Nat.pos_of_ne_zero nonzero)
      apply Ends.bind turn.2
      intro work answered
      obtain ⟨next, charged, ready⟩ := perform_charge ready rfl rfl (turn.1 work answered)
      apply ends_ok_bind charged
      exact ih ready (fun debt member => modest debt (mem_cons_of_mem _ member))

end

variable {debts : List Payload}

theorem drainWithin_ends {budget used : Nat} (within : used ≤ budget)
    (modest : ∀ debt ∈ debts, debt.Modest) : Ends (· ≤ budget) Stop.IsPanic (drainWithin budget debts used) := by
  induction debts generalizing used with
  | nil =>
    rw [drainWithin]
    split
    · exact ends_pure within
    · exact ends_pure within
  | cons debt _ ih =>
    rw [drainWithin]
    split
    · have positive : 0 < min (budget - used) maxStepsPerDebtTurn := by
        unfold maxStepsPerDebtTurn
        omega
      have turn := modest debt mem_cons_self _ positive
      apply Ends.bind turn.2
      intro work answered
      have fits := turn.1 work answered
      apply ih
      · omega
      · intro debt member
        exact modest debt (mem_cons_of_mem _ member)
    · exact ends_pure within

variable {pending : List Bool}

theorem safePointBudget_returns (four : pending.length = 4) :
    ∃ budget, safePointBudget pending = .ok budget ∧ Ready budget 0 (Meter.fresh budget) ∧
      budget.total = maxStepsPerSafePoint ∧ budget.pending.length = 4 := by
  have fits : pending.count true ≤ maxStepsPerSafePoint := by
    have := count_le_length (a := true) (l := pending)
    unfold maxStepsPerSafePoint
    omega
  have made : safePointBudget pending =
      .ok { total := maxStepsPerSafePoint, turnLimit := maxStepsPerDebtTurn, pending, used := 0, current := 0 } := by
    simp only [safePointBudget, FairBudget.new, assertThat, fits]
    rfl
  obtain ⟨holds, total, _⟩ := Meter.fresh_holds (by decide) made
  exact ⟨_, made, ⟨holds, Nat.le_refl _⟩, total, four⟩

theorem used_le {start : FairBudget} {cls : Nat} {m : Meter} (ready : Ready start cls m) : m.budget.used ≤ start.total := by
  have kept := ready.holds.kept
  omega

section
variable {budget : FairBudget} {cls : Nat} {m : Meter} {f : Meter → Outcome String Nat} {good : Nat → Prop}

theorem loop_ends (inside : cls < budget.pending.length) (ready : Ready budget cls m) (modest : ∀ debt ∈ debts, debt.Modest)
    (rest : ∀ next, Ready budget cls next → Ends good Stop.IsPanic (f next)) :
    Ends good Stop.IsPanic (drainClass cls debts m >>= f) := by
  have ends := drainClass_ends ready inside modest
  apply Ends.bind ends.2
  intro next returned
  exact rest next (ends.1 next returned)

theorem subdrain_ends (inside : cls < budget.pending.length) (ready : Ready budget cls m)
    (modest : ∀ debt ∈ debts, debt.Modest)
    (rest : ∀ next, Ready budget cls next → Ends good Stop.IsPanic (f next)) : Ends good Stop.IsPanic (do
      let m ← m.perform (.grant cls false)
      let work ← drainWithin m.granted debts 0
      let m ← m.perform (.charge cls work)
      f m) := by
  obtain ⟨granted, ready⟩ := perform_grant ready inside
  apply ends_ok_bind granted
  have ends := drainWithin_ends (Nat.zero_le (m.afterGrant cls false).granted) modest
  apply Ends.bind ends.2
  intro work returned
  obtain ⟨next, charged, ready⟩ := perform_charge ready rfl rfl (ends.1 work returned)
  apply ends_ok_bind charged
  exact rest next ready

end

theorem drainDeferred_ends (four : pending.length = 4) (memory : List (Nat → Nat))
    (unpublished : List (Nat → Option (Nat × DrainBatchOutcome))) (termination : List (Nat → Nat))
    (finalization : List (Nat → Option (Nat × DrainBatchOutcome))) : Ends (· ≤ maxStepsPerSafePoint) Stop.IsPanic
      (drainDeferred pending memory unpublished termination finalization) := by
  obtain ⟨_, made, ready, total, _⟩ := safePointBudget_returns four
  apply ends_ok_bind made
  apply loop_ends (by omega) ready (map_modest (strictDebt_modest _) memory)
  intro m ready
  apply loop_ends (by omega) (ready.later (by decide)) (map_modest (processDebt_modest _ _) unpublished)
  intro m ready
  apply loop_ends (by omega) (ready.later (by decide)) (map_modest (strictDebt_modest _) termination)
  intro m ready
  apply loop_ends (by omega) (ready.later (by decide)) (map_modest (processDebt_modest _ _) finalization)
  intro m ready
  apply ends_pure
  rw [← total]
  exact used_le ready

theorem drainNotify_ends (four : pending.length = 4) (notifications : List Nat)
    (finishes : List (Nat → Nat × Bool)) (requests : List (Option (Nat × (Nat → Nat × StepState))))
    (retirements : List (Nat → Nat × StepState)) : Ends (· ≤ maxStepsPerSafePoint) Stop.IsPanic
      (drainNotify pending notifications finishes requests retirements) := by
  obtain ⟨_, made, ready, total, _⟩ := safePointBudget_returns four
  apply ends_ok_bind made
  apply loop_ends (by omega) ready (map_modest notificationDebt_modest notifications)
  intro m ready
  apply loop_ends (by omega) (ready.later (by decide)) (map_modest finishDebt_modest finishes)
  intro m ready
  apply subdrain_ends (by omega) (ready.later (by decide)) (map_modest requestDebt_modest requests)
  intro m ready
  apply subdrain_ends (by omega) (ready.later (by decide)) (map_modest retirementDebt_modest retirements)
  intro m ready
  apply ends_pure
  rw [← total]
  exact used_le ready

/-- Whatever runs by the discipline passes every assert, stays within the total and finds the unit of each
class that was pending on entry; and both drains of the kernel run by the discipline. -/
theorem no_class_starves : (∀ (total turnLimit : Nat) (pending : List Bool) (budget : FairBudget), total ≤ usizeMax →
      (FairBudget.new total turnLimit pending : Outcome Empty _) = .ok budget →
      ∀ calls, RunMeets Meter.step Meter.Allows (Meter.fresh budget) calls →
      ∃ m, runEvents Meter.step (Meter.fresh budget) calls = .ok m ∧ m.budget.used = (calls.map Call.work).sum ∧
        m.budget.used ≤ total ∧
        ∀ cls limited, m.Allows (.grant cls limited) → m.reached ≤ cls → pending[cls]? = some true →
          ∃ next, (m.step (.grant cls limited) : Outcome Empty _) = .ok next ∧ 1 ≤ next.granted) ∧
    (∀ pending memory unpublished termination finalization, pending.length = 4 →
      ¬Panics (drainDeferred pending memory unpublished termination finalization) ∧
      ∀ used, drainDeferred pending memory unpublished termination finalization = .ok used →
        used ≤ maxStepsPerSafePoint) ∧ ∀ pending notifications finishes requests retirements, pending.length = 4 →
      ¬Panics (drainNotify pending notifications finishes requests retirements) ∧
      ∀ used, drainNotify pending notifications finishes requests retirements = .ok used → used ≤ maxStepsPerSafePoint := by
  refine ⟨?_, ?_, ?_⟩
  · intro total turnLimit pending budget small accepted calls meets
    obtain ⟨fresh, sameTotal, samePending, unused⟩ := Meter.fresh_holds small accepted
    obtain ⟨m, run, holds, used⟩ := Meter.run_holds fresh meets
    refine ⟨m, run, ?_, ?_, ?_⟩
    · rw [used, Meter.fresh, unused, Nat.zero_add]
    · have kept := holds.kept
      omega
    · intro cls limited allowed first waiting
      rw [← samePending] at waiting
      exact ⟨_, Meter.step_grant allowed.2 allowed.1, Meter.granted_pos holds first waiting⟩
  · intro pending memory unpublished termination finalization four
    have ends := drainDeferred_ends four memory unpublished termination finalization
    exact ⟨not_panics_iff.mpr ends.2, ends.1⟩
  · intro pending notifications finishes requests retirements four
    have ends := drainNotify_ends four notifications finishes requests retirements
    exact ⟨not_panics_iff.mpr ends.2, ends.1⟩

/-- The first class takes all it may, and the last one finds the unit that was kept for it. -/
theorem no_class_starves_last : ∃ m next,
    runEvents Meter.step (Meter.fresh ⟨3, 2, [true, false, true], 0, 0⟩) [.grant 0 false, .charge 0 2] = .ok m ∧
      m.budget.used = 2 ∧ (m.step (.grant 2 true) : Outcome Empty _) = .ok next ∧ 1 ≤ next.granted := by
  obtain ⟨m, run, used, _, unit⟩ := no_class_starves.1 3 2 [true, false, true] ⟨3, 2, [true, false, true], 0, 0⟩ (by decide)
    rfl [.grant 0 false, .charge 0 2] (by decide)
  have same : m = ⟨⟨3, 2, [true, false, true], 2, 0⟩, 0, 1⟩ := (Except.ok.inj run).symm
  obtain ⟨next, granted, some_⟩ := unit 2 true (by rw [same]; decide) (by rw [same]; decide) rfl
  exact ⟨m, next, run, used, granted, some_⟩

end Halcyon.Budget
