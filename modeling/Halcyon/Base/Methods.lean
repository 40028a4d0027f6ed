import Halcyon.Base.Outcome

/-!
Methods that change an object in place and may fail. A failed method leaves the changes it made before, so
that it has made none is a property of the method.
-/

namespace Halcyon

variable {σ ε ε' α β : Type}

/-- `if condition { return Err(error) }`. -/
def deny (condition : Bool) (error : ε) : EStateM ε σ Unit :=
  if condition then throw error else pure ()

/-- `ok_or(error)?`. -/
def orDeny (error : ε) : Option α → EStateM ε σ α
  | some value => pure value
  | none => throw error

section
variable {x : EStateM ε σ α} {f : α → EStateM ε σ β} {s t : σ} {a : α} {b : β} {error : ε}

theorem seq_ok (h : (x >>= f) s = .ok b t) : ∃ a u, x s = .ok a u ∧ f a u = .ok b t := by
  cases first : x s with
  | ok a u =>
    refine ⟨a, u, rfl, ?_⟩
    simpa only [bind, EStateM.bind, first] using h
  | error =>
    simp only [bind, EStateM.bind, first] at h
    cases h

theorem seq_run {u : σ} (first : x s = .ok a u) : (x >>= f) s = f a u := by
  simp only [bind, EStateM.bind, first]

theorem seq_error {e : ε} {u : σ} (first : x s = .error e u) : (x >>= f) s = .error e u := by
  simp only [bind, EStateM.bind, first]

variable {condition : Bool}

theorem deny_ok {done : Unit} (h : deny condition error s = .ok done t) :
    condition = false ∧ s = t := by
  cases condition with
  | true => cases h
  | false =>
    cases h
    exact ⟨rfl, rfl⟩

@[simp] theorem deny_false (error : ε) (s : σ) : deny false error s = .ok () s := rfl

@[simp] theorem deny_true (error : ε) (s : σ) : deny true error s = .error error s := rfl

theorem deny_run {test : Prop} [Decidable test] (passes : ¬test) (error : ε) (s : σ) :
    deny (decide test) error s = .ok () s := by
  rw [decide_eq_false passes]
  rfl

@[simp] theorem orDeny_some (error : ε) (a : α) (s : σ) : orDeny error (some a) s = .ok a s := rfl

@[simp] theorem get_run (s : σ) : (get : EStateM ε σ σ) s = .ok s s := rfl

/-! The steps of a method that has returned. -/

theorem get_step {f : σ → EStateM ε σ β} (h : (get >>= f) s = .ok b t) : f s s = .ok b t := h

theorem deny_step {f : Unit → EStateM ε σ β} (h : (deny condition error >>= f) s = .ok b t) :
    condition = false ∧ f () s = .ok b t := by
  cases condition with
  | true => cases h
  | false => exact ⟨rfl, h⟩

theorem get_fails {f : σ → EStateM ε σ β} {e : ε} (h : (get >>= f) s = .error e t) : f s s = .error e t := h

theorem deny_fails {f : Unit → EStateM ε σ β} {e : ε}
    (h : (deny condition error >>= f) s = .error e t) : e = error ∧ t = s ∨ f () s = .error e t := by
  cases condition with
  | true =>
    cases h
    exact .inl ⟨rfl, rfl⟩
  | false => exact .inr h

theorem orDeny_step {found : Option α} (h : (orDeny error found >>= f) s = .ok b t) :
    ∃ a, found = some a ∧ f a s = .ok b t := by
  cases found with
  | none => cases h
  | some a => exact ⟨a, rfl, h⟩

theorem set_ok {value : σ} {done : PUnit} (h : (set value : EStateM ε σ PUnit) s = .ok done t) : t = value := by
  cases h
  rfl

variable {translate : ε → ε'}

theorem adapt_ok (h : x.adaptExcept translate s = .ok a t) : x s = .ok a t := by
  unfold EStateM.adaptExcept at h
  cases first : x s with
  | ok _ u =>
    rw [first] at h
    cases h
    rfl
  | error =>
    rw [first] at h
    cases h

theorem adapt_error {e : ε'} (h : x.adaptExcept translate s = .error e t) :
    ∃ inner, x s = .error inner t ∧ e = translate inner := by
  unfold EStateM.adaptExcept at h
  cases first : x s with
  | ok _ u =>
    rw [first] at h
    cases h
  | error inner =>
    rw [first] at h
    cases h
    exact ⟨inner, rfl, rfl⟩

theorem adapt_run (h : x s = .ok a t) : x.adaptExcept translate s = .ok a t := by
  simp only [EStateM.adaptExcept, h]

theorem adapt_fails {e : ε} (h : x s = .error e t) : x.adaptExcept translate s = .error (translate e) t := by
  simp only [EStateM.adaptExcept, h]

/-- The method only looks. -/
def Observes (x : EStateM ε σ α) : Prop :=
  ∀ s, (∀ a t, x s = .ok a t → t = s) ∧ ∀ e t, x s = .error e t → t = s

/-- A failure leaves the object as it was. -/
def Restrained (x : EStateM ε σ α) : Prop := ∀ s e t, x s = .error e t → t = s

theorem deny_observes (condition : Bool) (error : ε) : Observes (deny condition error : EStateM ε σ Unit) := by
  intro s
  cases condition with
  | true => exact ⟨nofun, fun _ _ h => (EStateM.Result.error.inj h).2.symm⟩
  | false => exact ⟨fun _ _ h => (EStateM.Result.ok.inj h).2.symm, nofun⟩

theorem orDeny_observes (error : ε) (found : Option α) : Observes (orDeny error found : EStateM ε σ α) := by
  intro s
  cases found with
  | none => exact ⟨nofun, fun _ _ h => (EStateM.Result.error.inj h).2.symm⟩
  | some => exact ⟨fun _ _ h => (EStateM.Result.ok.inj h).2.symm, nofun⟩

theorem get_observes : Observes (get : EStateM ε σ σ) :=
  fun _ => ⟨fun _ _ h => (EStateM.Result.ok.inj h).2.symm, nofun⟩

theorem set_restrained (value : σ) : Restrained (set value : EStateM ε σ PUnit) := by
  intro s e t h
  cases h

theorem Observes.bind (first : Observes x) (rest : ∀ a, Observes (f a)) : Observes (x >>= f) := by
  intro s
  cases got : x s with
  | ok a u =>
    cases (first s).1 a u got
    rw [seq_run got]
    exact rest a s
  | error e u =>
    cases (first s).2 e u got
    rw [seq_error got]
    exact ⟨nofun, fun _ _ h => (EStateM.Result.error.inj h).2.symm⟩

theorem Restrained.checks (first : Observes x) (rest : ∀ a, Restrained (f a)) : Restrained (x >>= f) := by
  intro s e t h
  cases got : x s with
  | ok a u =>
    cases (first s).1 a u got
    rw [seq_run got] at h
    exact rest a s e t h
  | error e' u =>
    cases (first s).2 e' u got
    rw [seq_error got] at h
    cases h
    rfl

theorem Restrained.finishes (first : Restrained x) (rest : ∀ a s e t, f a s ≠ .error e t) : Restrained (x >>= f) := by
  intro s e t h
  cases got : x s with
  | ok a u =>
    rw [seq_run got] at h
    exact (rest a u e t h).elim
  | error =>
    rw [seq_error got] at h
    cases h
    exact first s e t got

end

/-! Methods that may also panic: checks, which only look, and then changes, which return or panic. -/

def look (x : Outcome ε α) : EStateM (Stop ε) σ α := fun s =>
  match x with
  | .ok a => .ok a s
  | .error stop => .error stop s

/-- A part without an error of its own. -/
def perform (x : EStateM (Stop Empty) σ α) : EStateM (Stop ε) σ α := fun s =>
  match x s with
  | .ok a t => .ok a t
  | .error (.panic message) t => .error (.panic message) t

/-- `map_err`. -/
def Stop.map (f : ε → ε') : Stop ε → Stop ε'
  | .error reason => .error (f reason)
  | .panic message => .panic message

/-- A caller that goes on with the object after an error, but not after a panic. -/
def conclude (onOk : α → σ → β) (onError : ε → σ → β) : EStateM.Result (Stop ε) σ α → Outcome Empty β
  | .ok a s => pure (onOk a s)
  | .error (.error reason) s => pure (onError reason s)
  | .error (.panic message) _ => panicked message

section
variable {x : Outcome ε α} {y : EStateM (Stop Empty) σ α} {f : α → EStateM (Stop ε) σ β} {s t : σ} {a : α} {b : β}
  {stop : Stop ε}

theorem look_step (h : (look x >>= f) s = .ok b t) : ∃ a, x = .ok a ∧ f a s = .ok b t := by
  cases x with
  | ok a => exact ⟨a, rfl, h⟩
  | error => cases h

theorem look_fails (h : (look x >>= f) s = .error stop t) :
    x = .error stop ∧ t = s ∨ ∃ a, x = .ok a ∧ f a s = .error stop t := by
  cases x with
  | ok a => exact .inr ⟨a, rfl, h⟩
  | error =>
    cases h
    exact .inl ⟨rfl, rfl⟩

theorem perform_ok (h : (perform y : EStateM (Stop ε) σ α) s = .ok a t) : y s = .ok a t := by
  unfold perform at h
  split at h
  · rename_i ran
    cases h
    exact ran
  · cases h

theorem perform_run (h : y s = .ok a t) : (perform y : EStateM (Stop ε) σ α) s = .ok a t := by
  simp only [perform, h]

theorem mapError_fail {translate : ε → ε'} {reason : ε'} (h : mapError translate x = fail reason) :
    ∃ inner, reason = translate inner := by
  unfold mapError at h
  split at h
  · cases h
  · cases h
    exact ⟨_, rfl⟩
  · cases h

/-- An error leaves the object as it was, and tells `P`. -/
def Refuses (P : ε → Prop) (z : EStateM (Stop ε) σ α) : Prop :=
  ∀ s reason t, z s = .error (.error reason) t → P reason ∧ t = s

variable {P : ε → Prop} {z : EStateM (Stop ε) σ α}

theorem Refuses.get {f : σ → EStateM (Stop ε) σ β} (rest : ∀ s, Refuses P (f s)) : Refuses P (get >>= f) :=
  fun s => rest s s

theorem Refuses.look (told : ∀ reason, x = fail reason → P reason) (rest : ∀ a, Refuses P (f a)) :
    Refuses P (look x >>= f) := by
  intro s reason t h
  rcases look_fails h with ⟨failed, same⟩ | ⟨a, _, h⟩
  · exact ⟨told reason failed, same⟩
  · exact rest a s reason t h

theorem perform_ne_error {reason : ε} : (perform y : EStateM (Stop ε) σ α) s ≠ .error (.error reason) t := by
  intro h
  unfold perform at h
  split at h <;> cases h

theorem Refuses.perform : Refuses P (perform y) := fun _ _ _ h => (perform_ne_error h).elim

theorem Refuses.thenPerform {g : α → EStateM (Stop Empty) σ β} (refuses : Refuses P z) :
    Refuses P (z >>= fun a => Halcyon.perform (g a)) := by
  intro s reason t h
  cases first : z s with
  | ok _ u =>
    rw [seq_run first] at h
    exact (perform_ne_error h).elim
  | error =>
    rw [seq_error first] at h
    cases h
    exact refuses s reason t first

theorem Refuses.adapt {P : ε' → Prop} {translate : ε → ε'} (refuses : Refuses (fun reason => P (translate reason)) z) :
    Refuses P (z.adaptExcept (Stop.map translate)) := by
  intro s reason t h
  obtain ⟨inner, failed, same⟩ := adapt_error h
  cases inner with
  | error reason =>
    cases same
    exact refuses s reason t failed
  | panic => cases same

theorem conclude_ok {onOk : α → σ → β} {onError : ε → σ → β} (refuses : Refuses P z)
    (h : conclude onOk onError (z s) = .ok b) : (∃ a t, z s = .ok a t ∧ b = onOk a t) ∨
      ∃ reason, P reason ∧ b = onError reason s := by
  cases ran : z s with
  | ok a t =>
    rw [ran] at h
    exact .inl ⟨a, t, rfl, pure_ok h⟩
  | error stop t =>
    rw [ran] at h
    cases stop with
    | error reason =>
      obtain ⟨told, rfl⟩ := refuses s reason t ran
      exact .inr ⟨reason, told, pure_ok h⟩
    | panic => exact (panicked_ne_ok h).elim

end

end Halcyon
