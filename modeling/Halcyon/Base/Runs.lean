import Halcyon.Base.Outcome

/-!
Runs of a machine whose step may panic. `runEvents` performs a list of events one after another;
an invariant of the step is an invariant of every run.
-/

namespace Halcyon

variable {σ κ : Type} (step : σ → κ → Outcome Empty σ)

def runEvents : σ → List κ → Outcome Empty σ
  | s, [] => .ok s
  | s, event :: rest => do runEvents (← step s event) rest

/-- Every step of the run meets `A` in the state it is taken in. -/
def RunMeets (A : σ → κ → Prop) : σ → List κ → Prop
  | _, [] => True
  | s, event :: rest => A s event ∧ ∀ next, step s event = .ok next → RunMeets A next rest

instance decidableRunMeets (A : σ → κ → Prop) [∀ s event, Decidable (A s event)] :
    ∀ (s : σ) (events : List κ), Decidable (RunMeets step A s events)
  | _, [] => isTrue trivial
  | s, event :: rest =>
    match h : step s event with
    | .ok next =>
      have := decidableRunMeets A next rest
      decidable_of_iff (A s event ∧ RunMeets step A next rest)
        ⟨fun meets => ⟨meets.1, fun _ same => by cases h.symm.trans same; exact meets.2⟩,
          fun meets => ⟨meets.1, meets.2 next h⟩⟩
    | .error _ =>
      decidable_of_iff (A s event)
        ⟨fun meets => ⟨meets, fun _ same => by cases h.symm.trans same⟩, fun meets => meets.1⟩

variable {step} {s t : σ} {events : List κ}

variable {I : σ → Prop}

theorem run_invariant (preserved : ∀ s event next, I s → step s event = .ok next → I next)
    (start : I s) (h : runEvents step s events = .ok t) : I t := by
  induction events generalizing s with
  | nil =>
    cases h
    exact start
  | cons event rest ih =>
    obtain ⟨next, first, h⟩ := bind_ok h
    exact ih (preserved s event next start first) h

theorem run_invariant_of_meets {A : σ → κ → Prop}
    (preserved : ∀ s event next, I s → A s event → step s event = .ok next → I next)
    (start : I s) (meets : RunMeets step A s events) (h : runEvents step s events = .ok t) : I t := by
  induction events generalizing s with
  | nil =>
    cases h
    exact start
  | cons event rest ih =>
    obtain ⟨next, first, h⟩ := bind_ok h
    exact ih (preserved s event next start meets.1 first) (meets.2 next first) h

theorem run_returns {A : σ → κ → Prop}
    (progress : ∀ s event, I s → A s event → ∃ next, step s event = .ok next ∧ I next)
    (start : I s) (every : ∀ s, ∀ event ∈ events, A s event) :
    ∃ last, runEvents step s events = .ok last ∧ I last := by
  induction events generalizing s with
  | nil => exact ⟨s, rfl, start⟩
  | cons event rest ih =>
    obtain ⟨next, first, holds⟩ := progress s event start (every s event List.mem_cons_self)
    obtain ⟨last, tail, final⟩ := ih holds (fun s event member => every s event (List.mem_cons_of_mem _ member))
    refine ⟨last, ?_, final⟩
    rw [runEvents, first]
    exact tail

theorem run_agrees {τ : Type} {step' : τ → κ → Outcome Empty τ} {R : σ → τ → Prop} {A : τ → κ → Prop}
    {P : Stop Empty → Prop} (agrees : ∀ s t event, R s t → A t event →
      (∃ s' t', step s event = .ok s' ∧ step' t event = .ok t' ∧ R s' t') ∨
        ∃ stop, step s event = .error stop ∧ step' t event = .error stop ∧ P stop)
    {t : τ} (start : R s t) (meets : RunMeets step' A t events) :
    (∃ s' t', runEvents step s events = .ok s' ∧ runEvents step' t events = .ok t' ∧ R s' t') ∨
      ∃ stop, runEvents step s events = .error stop ∧ runEvents step' t events = .error stop ∧ P stop := by
  induction events generalizing s t with
  | nil => exact .inl ⟨s, t, rfl, rfl, start⟩
  | cons event rest ih =>
    simp only [runEvents]
    rcases agrees s t event start meets.1 with ⟨s', t', first, first', related⟩ | ⟨stop, first, first', bad⟩
    · rw [first, first']
      exact ih related (meets.2 t' first')
    · rw [first, first']
      exact .inr ⟨stop, rfl, rfl, bad⟩

end Halcyon
