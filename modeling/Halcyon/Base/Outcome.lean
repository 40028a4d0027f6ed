import Halcyon.Base.Lists

/-!
Outcomes of fallible code: a value, a recoverable error, or a panic. `bind_ok` peels one monadic step at a time, so no
proof about a caller unfolds its callees.
-/

namespace Halcyon

open List

/-- Why a call did not return a value. A panic is not an error: nothing can handle it. -/
inductive Stop (ε : Type) where
  | error (reason : ε)
  | panic (message : String)
  deriving DecidableEq

abbrev Outcome (ε : Type) := Except (Stop ε)

def fail {ε α : Type} (reason : ε) : Outcome ε α := .error (.error reason)

def panicked {ε α : Type} (message : String) : Outcome ε α := .error (.panic message)

/-- `Option::ok_or`. -/
def okOr {ε α : Type} (reason : ε) : Option α → Outcome ε α
  | some value => .ok value
  | none => fail reason

/-- `Option::expect`. -/
def expect {ε α : Type} (message : String) : Option α → Outcome ε α
  | some value => .ok value
  | none => panicked message

/-- `if test { return Err(reason) }`. -/
def refuseIf {ε : Type} (test : Bool) (reason : ε) : Outcome ε Unit :=
  if test then fail reason else .ok ()

/-- `Result::map_err`. -/
def mapError {ε δ α : Type} (f : ε → δ) : Outcome ε α → Outcome δ α
  | .ok value => .ok value
  | .error (.error reason) => fail (f reason)
  | .error (.panic message) => panicked message

/-- `assert!(test, message)`. -/
def assertThat {ε : Type} (test : Bool) (message : String) : Outcome ε Unit :=
  if test then .ok () else panicked message

/-- `Result::expect` inside a function with errors of its own. -/
def expectOk {ε δ α : Type} (message : String) : Outcome ε α → Outcome δ α
  | .ok value => .ok value
  | .error (.error _) => panicked message
  | .error (.panic message) => panicked message

/-- A caller that handles a recoverable error and cannot handle a panic. -/
def settle {ε α β : Type} (x : Outcome ε α) (onOk : α → β) (onError : ε → β) : Outcome Empty β :=
  match x with
  | .ok value => .ok (onOk value)
  | .error (.error reason) => .ok (onError reason)
  | .error (.panic message) => panicked message

variable {ε α β : Type}

variable {f : α → Outcome ε β}

theorem bind_ok {x : Outcome ε α} {value : β} (h : x >>= f = .ok value) :
    ∃ first, x = .ok first ∧ f first = .ok value := by
  cases x with
  | error stop => cases h
  | ok first => exact ⟨first, rfl, h⟩

variable {first : α} {reason : ε} {message : String}

variable {value : α}

theorem pure_ok (h : (pure first : Outcome ε α) = .ok value) : value = first := by
  cases h
  rfl

theorem bind_returns {x : Outcome ε α} (h : x = .ok first)
    (rest : ∃ value, f first = .ok value) : ∃ value, x >>= f = .ok value := by
  subst h
  exact rest

theorem ok_bind : ((.ok first : Outcome ε α) >>= f) = f first := rfl

theorem pure_bind_ok :
    ((pure first : Outcome ε α) >>= f) = f first := rfl

@[simp] theorem fail_ne_ok : (fail reason : Outcome ε α) ≠ .ok value := by
  intro h
  cases h

@[simp] theorem panicked_ne_ok : (panicked message : Outcome ε α) ≠ .ok value := by
  intro h
  cases h

theorem okOr_ok {x : Option α} (h : okOr reason x = .ok value) : x = some value := by
  cases x with
  | none => exact (fail_ne_ok h).elim
  | some first => cases h; rfl

theorem expect_ok {x : Option α} (h : (expect message x : Outcome ε α) = .ok value) :
    x = some value := by
  cases x with
  | none => exact (panicked_ne_ok h).elim
  | some first => cases h; rfl

variable {test : Bool}

theorem refuseIf_ok {value : Unit} (h : refuseIf test reason = .ok value) : test = false := by
  cases test with
  | false => rfl
  | true => exact (fail_ne_ok h).elim

theorem pass_check {f : Unit → Outcome ε α} (h : test = false) :
    (refuseIf test reason >>= f) = f () := by
  subst h
  rfl

theorem stop_check {f : Unit → Outcome ε α} (h : test = true) :
    (refuseIf test reason >>= f) = fail reason := by
  subst h
  rfl

theorem pass_okOr {x : Option α} (h : x = some value) :
    (okOr reason x >>= f) = f value := by
  subst h
  rfl

theorem assertThat_ok {value : Unit} (h : (assertThat test message : Outcome ε Unit) = .ok value) :
    test = true := by
  cases test with
  | false => exact (panicked_ne_ok h).elim
  | true => rfl

theorem mapError_ok {δ : Type} {f : ε → δ} {x : Outcome ε α}
    (h : mapError f x = .ok value) : x = .ok value := by
  unfold mapError at h
  split at h
  · cases h; rfl
  · exact (fail_ne_ok h).elim
  · exact (panicked_ne_ok h).elim

theorem expectOk_ok {δ : Type} {x : Outcome ε α}
    (h : (expectOk message x : Outcome δ α) = .ok value) : x = .ok value := by
  unfold expectOk at h
  split at h
  · cases h; rfl
  · exact (panicked_ne_ok h).elim
  · exact (panicked_ne_ok h).elim

theorem settle_ok {x : Outcome ε α} {onOk : α → β} {onError : ε → β} {value : β}
    (h : settle x onOk onError = .ok value) : (∃ result, x = .ok result ∧ value = onOk result) ∨
      ∃ reason, x = .error (.error reason) ∧ value = onError reason := by
  unfold settle at h
  split at h
  · cases h; exact .inl ⟨_, rfl, rfl⟩
  · cases h; exact .inr ⟨_, rfl, rfl⟩
  · exact (panicked_ne_ok h).elim

theorem mapM_ok {xs : List α} {ys : List β} (h : xs.mapM f = .ok ys) :
    List.Forall₂ (fun x y => f x = .ok y) xs ys := by
  induction xs generalizing ys with
  | nil =>
    have same := pure_ok h
    subst ys
    exact .nil
  | cons x xs ih =>
    rw [mapM_cons] at h
    obtain ⟨y, first, h⟩ := bind_ok h
    obtain ⟨rest, tail, h⟩ := bind_ok h
    have same := pure_ok h
    subst ys
    exact .cons first (ih tail)

theorem mapM_returns {g : α → β} {xs : List α} (each : ∀ x ∈ xs, f x = .ok (g x)) :
    xs.mapM f = .ok (xs.map g) := by
  induction xs with
  | nil => rfl
  | cons x xs ih =>
    rw [mapM_cons, each x mem_cons_self, ih fun y member => each y (mem_cons_of_mem _ member)]
    rfl

def Panics (x : Outcome ε α) : Prop := ∃ message, x = .error (.panic message)

/-- The call returned a value that passes a test. -/
def returnsWith (x : Outcome ε α) (test : α → Bool) : Bool :=
  match x with
  | .ok value => test value
  | .error _ => false

def panicMessage (x : Outcome ε α) : Option String :=
  match x with
  | .error (.panic message) => some message
  | _ => none

theorem returnsWith_ok (x : Outcome ε α) (test : α → Bool) (h : returnsWith x test = true) :
    ∃ value, x = .ok value ∧ test value = true := by
  cases x with
  | error stop => cases h
  | ok value => exact ⟨value, rfl, h⟩

theorem panicMessage_some {x : Outcome ε α} (h : panicMessage x = some message) : Panics x := by
  unfold panicMessage at h
  split at h
  · exact ⟨_, rfl⟩
  · cases h

/-- The call does not stop in one of these ways. -/
def Avoids (bad : Stop ε → Prop) (x : Outcome ε α) : Prop := ∀ stop, x = .error stop → ¬bad stop

section
variable {bad : Stop ε → Prop}

variable {x : Outcome ε α} {reason : ε} {xs : List α}

theorem Avoids.bind (first : Avoids bad x) (rest : ∀ a, x = .ok a → Avoids bad (f a)) :
    Avoids bad (x >>= f) := by
  intro stop h
  cases returned : x with
  | error stop' =>
    rw [returned] at h
    cases h
    exact first stop returned
  | ok a =>
    rw [returned] at h
    exact rest a returned stop h

/-- The program returns a good value, or does not stop in the bad way. -/
def Ends (good : α → Prop) (bad : Stop ε → Prop) (x : Outcome ε α) : Prop :=
  (∀ a, x = .ok a → good a) ∧ Avoids bad x

theorem Ends.bind {good : β → Prop} (first : Avoids bad x)
    (rest : ∀ a, x = .ok a → Ends good bad (f a)) : Ends good bad (x >>= f) := by
  refine ⟨fun b h => ?_, first.bind fun a returned => (rest a returned).2⟩
  obtain ⟨a, returned, h⟩ := bind_ok h
  exact (rest a returned).1 b h

theorem avoids_ok (a : α) : Avoids bad (.ok a : Outcome ε α) := nofun

theorem avoids_fail (h : ¬bad (.error reason)) : Avoids bad (fail reason : Outcome ε α) := by
  intro stop same
  cases same
  exact h

theorem avoids_refuseIf (h : ¬bad (.error reason)) : Avoids bad (refuseIf test reason) := by
  cases test with
  | true => exact avoids_fail h
  | false => exact avoids_ok ()

theorem avoids_okOr {found : Option α} (h : ¬bad (.error reason)) : Avoids bad (okOr reason found) := by
  cases found with
  | none => exact avoids_fail h
  | some a => exact avoids_ok a

theorem avoids_expect {found : Option α} {message : String} (h : ¬bad (.panic message)) :
    Avoids bad (expect message found) := by
  cases found with
  | none =>
    intro stop same
    cases same
    exact h
  | some a => exact avoids_ok a

theorem avoids_assertThat {message : String} (h : ¬bad (.panic message)) :
    Avoids bad (assertThat test message) := by
  cases test with
  | false =>
    intro stop same
    cases same
    exact h
  | true => exact avoids_ok ()

theorem ends_foldlM {body : β → α → Outcome ε β} {I : β → Prop} {b : β} (start : I b)
    (turn : ∀ x ∈ xs, ∀ b, I b → Ends I bad (body b x)) : Ends I bad (xs.foldlM body b) := by
  induction xs generalizing b with
  | nil =>
    refine ⟨fun a h => ?_, avoids_ok b⟩
    rw [pure_ok h]
    exact start
  | cons x xs ih =>
    have first := turn x mem_cons_self b start
    rw [foldlM_cons]
    exact Ends.bind first.2 fun a returned =>
      ih (first.1 a returned) fun y member => turn y (mem_cons_of_mem _ member)

theorem ends_mapM {good : β → Prop} (each : ∀ x ∈ xs, Ends good bad (f x)) :
    Ends (fun ys => ∀ y ∈ ys, good y) bad (xs.mapM f) := by
  induction xs with
  | nil =>
    refine ⟨fun ys h => ?_, avoids_ok []⟩
    rw [pure_ok h]
    exact fun _ member => absurd member not_mem_nil
  | cons x xs ih =>
    have first := each x mem_cons_self
    have rest := ih fun y member => each y (mem_cons_of_mem _ member)
    rw [mapM_cons]
    refine Ends.bind first.2 fun b returned => Ends.bind rest.2 fun bs others => ⟨fun ys h => ?_, avoids_ok _⟩
    rw [pure_ok h]
    intro y member
    rcases mem_cons.mp member with rfl | later
    · exact first.1 y returned
    · exact rest.1 bs others y later

theorem avoids_settle {bad' : Stop Empty → Prop} {onOk : α → β} {onError : ε → β} (first : Avoids bad x)
    (panics : ∀ message, bad' (.panic message) → bad (.panic message)) : Avoids bad' (settle x onOk onError) := by
  intro stop h
  unfold settle at h
  split at h
  · cases h
  · cases h
  · cases h
    exact fun is => first _ rfl (panics _ is)

theorem avoids_foldlM {body : β → α → Outcome ε β} {b : β} (turn : ∀ b x, Avoids bad (body b x)) :
    Avoids bad (xs.foldlM body b) := by
  induction xs generalizing b with
  | nil => exact avoids_ok b
  | cons x xs ih =>
    rw [foldlM_cons]
    exact (turn b x).bind fun _ _ => ih

theorem avoids_mapError {δ : Type} {bad' : Stop δ → Prop} {f : ε → δ} (first : Avoids bad x)
    (errors : ∀ reason, ¬bad' (.error (f reason)))
    (panics : ∀ message, bad' (.panic message) → bad (.panic message)) : Avoids bad' (mapError f x) := by
  intro stop h
  unfold mapError at h
  split at h
  · cases h
  · cases h
    exact errors _
  · cases h
    exact fun is => first _ rfl (panics _ is)

end

def Stop.IsPanic : Stop ε → Prop
  | .error _ => False
  | .panic _ => True

theorem not_panics_iff {x : Outcome ε α} : ¬Panics x ↔ Avoids Stop.IsPanic x := by
  refine ⟨fun calm stop h is => ?_, fun avoids ⟨message, h⟩ => avoids _ h trivial⟩
  cases stop with
  | error reason => exact is
  | panic message => exact calm ⟨message, h⟩

end Halcyon
