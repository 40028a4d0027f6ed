import Halcyon.Base.Outcome
import Mathlib.Logic.Function.Basic

/-!
The harts of a scheduling domain, its ready queue and the doorbells between them: harts go to sleep while threads
are enqueued, and no thread is left in the queue with every hart asleep.
-/

namespace Halcyon.Sched

open Function

abbrev hartNumLimit : Nat := 8

abbrev Slot := Fin hartNumLimit

def bit (slot : Slot) : BitVec 64 := 1#64 <<< slot.val

/-- The next action of a hart in `run` and `idle`. -/
inductive Place where
  | pick | run | register | recheck | withdraw | wfi | clearSsip | unregister
  deriving DecidableEq

/-- The next action of a call of `enqueue`; the loop of `try_ipi_slots` is at a slot. -/
inductive Call where
  | quiet
  | wakeOne
  | ringing (targets : BitVec 64) (slot : Nat)
  deriving DecidableEq

structure Domain (τ : Type) where
  ready : List τ
  idleMask : BitVec 64
  harts : Slot → Place
  ssip : Slot → Bool
  calls : Nat → Call

/-- The harts of one domain, all of them admitted: at least the one that `plan` made the domain for. -/
structure Members where
  slots : List Slot
  admitted : BitVec 64
  inhabited : slots ≠ []
  known : ∀ slot ∈ slots, admitted.getLsbD slot = true

inductive Event (τ : Type) where
  | enqueue (caller : Nat) (thread : τ)
  | ring (caller : Nat)
  | ipi (slot : Slot)
  | trap (slot : Slot)
  | requeue (slot : Slot) (thread : τ)
  | advance (slot : Slot) (other : Bool)

namespace Domain

variable {τ : Type}

def new : Domain τ := ⟨[], 0, fun _ => .pick, fun _ => false, fun _ => .quiet⟩

def goTo (self : Domain τ) (slot : Slot) (place : Place) : Domain τ := { self with harts := update self.harts slot place }

/-- One action of a hart; `other` says that other work is left, or that another interrupt ends the sleep. -/
def advance (self : Domain τ) (slot : Slot) (other : Bool) : Domain τ :=
  match self.harts slot with
  | .pick =>
    match self.ready with
    | [] => self.goTo slot .register
    | _ :: rest => { self with ready := rest }.goTo slot .run
  | .run => self.goTo slot .pick
  | .register => { self with idleMask := self.idleMask ||| bit slot }.goTo slot .recheck
  | .recheck => self.goTo slot (if !self.ready.isEmpty || other then .withdraw else .wfi)
  | .wfi => if self.ssip slot || other then self.goTo slot .clearSsip else self
  | .clearSsip => { self with ssip := update self.ssip slot false }.goTo slot .unregister
  | .withdraw | .unregister => { self with idleMask := self.idleMask &&& ~~~bit slot }.goTo slot .pick

def answer (self : Domain τ) (caller : Nat) (call : Call) : Domain τ := { self with calls := update self.calls caller call }

/-- What cannot happen in a state leaves it as it is. -/
def step (members : Members) (self : Domain τ) : Event τ → Domain τ
  | .enqueue caller thread =>
    if self.calls caller = .quiet then { self with ready := self.ready ++ [thread] }.answer caller .wakeOne else self
  | .ring caller =>
    match self.calls caller with
    | .quiet => self
    | .wakeOne =>
      self.answer caller (if self.idleMask ≠ 0 then .ringing (self.idleMask &&& members.admitted) 0 else .quiet)
    | .ringing targets slot =>
      if inside : slot < hartNumLimit then
        { self with ssip := if targets.getLsbD slot then update self.ssip ⟨slot, inside⟩ true else self.ssip }.answer
          caller (.ringing targets (slot + 1))
      else self.answer caller .quiet
  | .ipi slot => { self with ssip := update self.ssip slot true }
  | .trap slot =>
    if slot ∈ members.slots ∧ self.harts slot = .run then { self with ssip := update self.ssip slot false } else self
  -- no doorbell: this hart is about to pick
  | .requeue slot thread =>
    if slot ∈ members.slots ∧ self.harts slot = .run then { self with ready := self.ready ++ [thread] }.goTo slot .pick
    else self
  | .advance slot other => if slot ∈ members.slots then self.advance slot other else self

def run (members : Members) (events : List (Event τ)) : Domain τ := events.foldl (step members) new

end Domain

def Place.listed : Place → Bool
  | .pick | .run | .register => false
  | _ => true

/-- The call will still ring the hart, if its bit is in the mask. -/
def Call.Reaches (slot : Slot) : Call → Prop
  | .quiet => False
  | .wakeOne => True
  | .ringing targets next => next ≤ slot ∧ targets.getLsbD slot = true

theorem bit_getLsbD : ∀ slot other : Slot, (bit slot).getLsbD other = decide (slot = other) := by decide

theorem mask_getLsbD (mask : BitVec 64) {slot other : Slot} (apart : slot ≠ other) :
    (mask ||| bit slot).getLsbD other = mask.getLsbD other ∧ (mask &&& ~~~bit slot).getLsbD other = mask.getLsbD other := by
  have inside : other.val < 64 := Nat.lt_trans other.isLt (by decide)
  simp only [BitVec.getLsbD_or, BitVec.getLsbD_and, BitVec.getLsbD_not, bit_getLsbD, apart, inside, decide_false,
    decide_true, Bool.or_false, Bool.not_false, Bool.and_true, and_self]

def Wakes {τ : Type} (domain : Domain τ) (slot : Slot) : Prop :=
  domain.harts slot ≠ .wfi ∨ domain.ssip slot = true ∨ ∃ caller, (domain.calls caller).Reaches slot

/-- A hart that may sleep is in the mask, and if a thread is ready then a hart looks for it or will be woken. -/
structure Lively {τ : Type} (members : Members) (domain : Domain τ) : Prop where
  listed : ∀ slot ∈ members.slots, (domain.harts slot).listed = true → domain.idleMask.getLsbD slot = true
  wakes : domain.ready ≠ [] → ∃ slot ∈ members.slots, Wakes domain slot

section
variable {τ : Type} {domain : Domain τ} {slot : Slot} {members : Members} (lively : Lively members domain)
include lively

theorem Lively.answer {ssip : Slot → Bool} {caller : Nat} {call : Call}
    (keeps : ∀ slot, domain.ssip slot = true → ssip slot = true)
    (hands : ∀ slot ∈ members.slots, domain.harts slot = .wfi → (domain.calls caller).Reaches slot →
      call.Reaches slot ∨ ssip slot = true) : Lively members ({ domain with ssip }.answer caller call) := by
  refine ⟨lively.listed, fun some_ => ?_⟩
  obtain ⟨slot, member, awake | pending | ⟨other, reaches⟩⟩ := lively.wakes some_
  · exact ⟨slot, member, .inl awake⟩
  · exact ⟨slot, member, .inr (.inl (keeps slot pending))⟩
  · refine ⟨slot, member, ?_⟩
    by_cases same : other = caller
    · subst same
      by_cases asleep : domain.harts slot = .wfi
      · rcases hands slot member asleep reaches with reaches | pending
        · exact .inr (.inr ⟨other, by simpa [Domain.answer] using reaches⟩)
        · exact .inr (.inl pending)
      · exact .inl asleep
    · exact .inr (.inr ⟨other, by simpa [Domain.answer, same] using reaches⟩)

theorem Lively.ring (caller : Nat) : Lively members (domain.step members (.ring caller)) := by
  simp only [Domain.step]
  split
  · exact lively
  · apply lively.answer fun _ => id
    intro slot member asleep _
    have listed := lively.listed slot member (by rw [asleep]; rfl)
    have some_ : domain.idleMask ≠ 0 := by
      intro none
      simp [none] at listed
    rw [if_pos some_]
    exact .inl ⟨Nat.zero_le _, by simp [listed, members.known slot member]⟩
  · rename_i targets next at_
    split
    · apply lively.answer
      · intro slot pending
        split <;> simp [update_apply, pending]
      · rw [at_]
        rintro slot _ _ ⟨before, target⟩
        rcases Nat.eq_or_lt_of_le before with rfl | later
        · exact .inr (by simp [target])
        · exact .inl ⟨later, target⟩
    · apply lively.answer fun _ => id
      rw [at_]
      rintro slot _ _ ⟨before, _⟩
      have := slot.isLt
      omega

theorem Lively.goTo {ready : List τ} {idleMask : BitVec 64} {ssip : Slot → Bool} {place : Place}
    (member : slot ∈ members.slots) (awake : ready = [] ∨ place ≠ .wfi)
    (same : ∀ other, slot ≠ other → idleMask.getLsbD other = domain.idleMask.getLsbD other)
    (own : place.listed = true → idleMask.getLsbD slot = true) :
    Lively members ({ domain with ready, idleMask, ssip }.goTo slot place) := by
  constructor
  · intro other inside listed
    by_cases moved : slot = other
    · subst moved
      exact own (by simpa [Domain.goTo] using listed)
    · have listed : (domain.harts other).listed = true := by simpa [Domain.goTo, Ne.symm moved] using listed
      exact (same other moved).trans (lively.listed other inside listed)
  · intro some_
    exact ⟨slot, member, .inl (by simpa [Domain.goTo] using awake.resolve_left some_)⟩

theorem Lively.advance (member : slot ∈ members.slots) (other : Bool) : Lively members (domain.advance slot other) := by
  have here := lively.listed slot member
  unfold Domain.advance
  split <;> rename_i place <;> rw [place] at here
  · split <;> exact lively.goTo member (.inr nofun) (fun _ _ => rfl) nofun
  · exact lively.goTo member (.inr nofun) (fun _ _ => rfl) nofun
  · exact lively.goTo member (.inr nofun) (fun _ apart => (mask_getLsbD _ apart).1) fun _ => by simp [bit_getLsbD]
  · split
    · exact lively.goTo member (.inr nofun) (fun _ _ => rfl) fun _ => here rfl
    · -- the second look found the queue empty, after the hart entered itself into the mask
      rename_i empty
      exact lively.goTo member (.inl (by simp_all)) (fun _ _ => rfl) fun _ => here rfl
  · split
    · exact lively.goTo member (.inr nofun) (fun _ _ => rfl) fun _ => here rfl
    · exact lively
  · exact lively.goTo member (.inr nofun) (fun _ _ => rfl) fun _ => here rfl
  all_goals exact lively.goTo member (.inr nofun) (fun _ apart => (mask_getLsbD _ apart).2) nofun

theorem Lively.step (event : Event τ) : Lively members (domain.step members event) := by
  cases event with
  | enqueue caller thread =>
    simp only [Domain.step]
    split
    · obtain ⟨slot, member⟩ := List.exists_mem_of_ne_nil _ members.inhabited
      exact ⟨lively.listed, fun _ => ⟨slot, member, .inr (.inr ⟨caller, by simp [Domain.answer, Call.Reaches]⟩)⟩⟩
    · exact lively
  | ring caller => exact lively.ring caller
  | ipi rung =>
    refine ⟨lively.listed, fun some_ => ?_⟩
    obtain ⟨slot, member, wakes⟩ := lively.wakes some_
    refine ⟨slot, member, wakes.imp_right fun wakes => wakes.imp_left fun pending => ?_⟩
    simp [Domain.step, update_apply, pending]
  | trap slot =>
    simp only [Domain.step]
    split
    · rename_i inside
      exact ⟨lively.listed, fun _ => ⟨slot, inside.1, .inl (by rw [inside.2]; nofun)⟩⟩
    · exact lively
  | requeue slot thread =>
    simp only [Domain.step]
    split
    · rename_i inside
      exact lively.goTo inside.1 (.inr nofun) (fun _ _ => rfl) nofun
    · exact lively
  | advance slot other =>
    simp only [Domain.step]
    split
    · rename_i member
      exact lively.advance member other
    · exact lively

end

theorem run_lively {τ : Type} (members : Members) (events : List (Event τ)) :
    Lively members (Domain.run members events) := by
  have from_ : ∀ domain : Domain τ, Lively members domain → Lively members (events.foldl (Domain.step members) domain) := by
    induction events with
    | nil => exact fun _ lively => lively
    | cons event _ ih => exact fun domain lively => ih _ (lively.step event)
  exact from_ _ ⟨nofun, fun some_ => (some_ rfl).elim⟩

/-- Whatever the interleaving of calls and harts: a thread is not left in the queue with every hart asleep and nobody
about to wake one. -/
theorem no_lost_wakeup {τ : Type} (members : Members) (events : List (Event τ)) :
    ¬((Domain.run members events).ready ≠ [] ∧ (∀ caller, (Domain.run members events).calls caller = .quiet) ∧
      ∀ slot ∈ members.slots, (Domain.run members events).harts slot = .wfi ∧
        (Domain.run members events).ssip slot = false) := by
  rintro ⟨ready, quiet, blocked⟩
  obtain ⟨slot, member, wakes⟩ := (run_lively members events).wakes ready
  obtain ⟨waits, none⟩ := blocked slot member
  rcases wakes with awake | pending | ⟨caller, reaches⟩
  · exact awake waits
  · rw [none] at pending
    cases pending
  · rw [quiet caller] at reaches
    exact reaches

/-- The only hart sleeps when a thread comes, and has an interrupt pending when the call is over. -/
theorem no_lost_wakeup_enqueued :
    let domain := Domain.run ⟨[0], 1, by decide, by decide⟩
      ([.advance 0 false, .advance 0 false, .advance 0 false, .enqueue 7 5] ++ .replicate 10 (.ring 7) : List (Event Nat))
    domain.ready = [5] ∧ (∀ caller, domain.calls caller = .quiet) ∧ domain.harts 0 = .wfi ∧ domain.ssip 0 = true := by
  intro domain
  have quiet : ∀ caller, domain.calls caller = .quiet := by
    intro caller
    by_cases same : caller = 7
    · subst same
      rfl
    · iterate 11
        refine (update_of_ne same _ _).trans ?_
      rfl
  refine ⟨rfl, quiet, rfl, ?_⟩
  by_contra none
  refine no_lost_wakeup ⟨[0], 1, by decide, by decide⟩ _ ⟨?_, quiet, ?_⟩
  · exact List.cons_ne_nil 5 []
  · exact List.forall_mem_singleton.mpr ⟨rfl, eq_false_of_ne_true none⟩

end Halcyon.Sched
