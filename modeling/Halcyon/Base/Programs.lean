import Halcyon.Base.Outcome

/-!
Programs that reach shared memory one access at a time. A `Routine` works on private state and may fail; what it changed
before stays changed. `Safe` is the condition of the rely-guarantee method, with a `duty` for every access.
-/

namespace Halcyon

/-- The accesses there are, and what each of them answers. -/
structure Interface where
  Op : Type
  Answer : Op → Type

/-- `cut` is a program that is not followed any further. -/
inductive Program (I : Interface) (α : Type) where
  | ret (value : α)
  | ask (op : I.Op) (rest : I.Answer op → Program I α)
  | cut

variable {I : Interface} {α β S C ε δ σ : Type}

namespace Program

def bind : Program I α → (α → Program I β) → Program I β
  | .ret value, f => f value
  | .ask op rest, f => .ask op fun answer => (rest answer).bind f
  | .cut, _ => .cut

/-- The program run to its end with nobody else there. -/
def alone (perform : (op : I.Op) → σ → I.Answer op × σ) : Program I α → σ → Option (α × σ)
  | .ret value, s => some (value, s)
  | .ask op rest, s => (rest (perform op s).1).alone perform (perform op s).2
  | .cut, _ => none

theorem alone_bind {perform : (op : I.Op) → σ → I.Answer op × σ} {x : Program I α} {f : α → Program I β} {s : σ} :
    (x.bind f).alone perform s = (x.alone perform s).bind fun result => (f result.1).alone perform result.2 := by
  induction x generalizing s with
  | ret value => rfl
  | ask op rest ih => exact ih _
  | cut => rfl

end Program

/-- A program over private state that returns, fails or panics. -/
def Routine (I : Interface) (ε S α : Type) := S → Program I (Outcome ε α × S)

namespace Routine

def bind (x : Routine I ε S α) (f : α → Routine I ε S β) : Routine I ε S β := fun s =>
  (x s).bind fun
    | (.ok value, s) => f value s
    | (.error stop, s) => .ret (.error stop, s)

instance : Monad (Routine I ε S) where
  pure value := fun s => .ret (.ok value, s)
  bind := bind

def ask (op : I.Op) : Routine I ε S (I.Answer op) := fun s => .ask op fun answer => .ret (.ok answer, s)

/-- A loop that is not followed any further. -/
def cut : Routine I ε S α := fun _ => .cut

def get : Routine I ε S S := fun s => .ret (.ok s, s)

def modify (f : S → S) : Routine I ε S Unit := fun s => .ret (.ok (), f s)

def lift (x : Outcome ε α) : Routine I ε S α := fun s => .ret (x, s)

/-- A routine on a part of the state. -/
def zoom (part : S → C) (put : S → C → S) (x : Routine I ε C α) : Routine I ε S α := fun s =>
  (x (part s)).bind fun result => .ret (result.1, put s result.2)

def mapErr (f : ε → Outcome δ α) (x : Routine I ε S α) : Routine I δ S α := fun s =>
  (x s).bind fun
    | (.ok value, s) => .ret (.ok value, s)
    | (.error (.error reason), s) => .ret (f reason, s)
    | (.error (.panic message), s) => .ret (panicked message, s)

end Routine

/-- What others may do, what each access does, and what is expected of it. -/
structure Setting (I : Interface) (σ : Type) where
  inv : σ → Prop
  rely : σ → σ → Prop
  guarantee : σ → σ → Prop
  duty : I.Op → σ → Prop
  may : (op : I.Op) → σ → I.Answer op → σ → Prop
  rely_refl : ∀ s, rely s s
  rely_trans : ∀ s t u, rely s t → rely t u → rely s u

variable {setting : Setting I σ} {Q R : α → σ → Prop} {s t : σ}

def Safe (setting : Setting I σ) (Q : α → σ → Prop) : Program I α → σ → Prop
  | .ret value, s => ∀ t, setting.rely s t → setting.inv t → Q value t
  | .ask op rest, s => ∀ t, setting.rely s t → setting.inv t → setting.duty op t ∧
    ∀ answer u, setting.may op t answer u → setting.guarantee t u ∧ setting.inv u ∧ Safe setting Q (rest answer) u
  | .cut, _ => True

variable {x : Program I α}

theorem Safe.relied (safe : Safe setting Q x s) (others : setting.rely s t) : Safe setting Q x t := by
  cases x with
  | ret value | ask op rest => exact fun u later => safe u (setting.rely_trans s t u others later)
  | cut => trivial

theorem Safe.step {op : I.Op} {rest : I.Answer op → Program I α} {answer : I.Answer op}
    (safe : Safe setting Q (.ask op rest) s) (sound : setting.inv s) (does : setting.may op s answer t) :
    setting.duty op s ∧ setting.guarantee s t ∧ setting.inv t ∧ Safe setting Q (rest answer) t := by
  obtain ⟨duty, after⟩ := safe s (setting.rely_refl s) sound
  exact ⟨duty, after answer t does⟩

theorem Safe.returned {value : α} (safe : Safe setting Q (.ret value) s) (sound : setting.inv s) : Q value s :=
  safe s (setting.rely_refl s) sound

theorem Safe.mono (safe : Safe setting Q x s)
    (weaker : ∀ value t, setting.inv t → Q value t → R value t) : Safe setting R x s := by
  induction x generalizing s with
  | ret value => exact fun t others sound => weaker value t sound (safe t others sound)
  | ask op rest ih =>
    intro t others sound
    obtain ⟨duty, after⟩ := safe t others sound
    refine ⟨duty, fun answer u does => ?_⟩
    obtain ⟨step, sound, safe⟩ := after answer u does
    exact ⟨step, sound, ih answer safe⟩
  | cut => trivial

theorem Safe.fold {f : α → Program I β} {R : β → σ → Prop}
    (after : ∀ value t, setting.inv t → Safe setting Q (.ret value) t → Safe setting R (f value) t)
    (sound : setting.inv s) (safe : Safe setting Q x s) : Safe setting R (x.bind f) s := by
  induction x generalizing s with
  | ret value => exact after value s sound safe
  | ask op rest ih =>
    intro t others sound
    obtain ⟨duty, steps⟩ := safe t others sound
    refine ⟨duty, fun answer u does => ?_⟩
    obtain ⟨step, sound, safe⟩ := steps answer u does
    exact ⟨step, sound, ih answer sound safe⟩
  | cut => trivial

/-- A run of a program among accesses of its own only, up to where `y` is left of it. -/
inductive Runs (setting : Setting I σ) : Program I α → σ → List ((op : I.Op) × I.Answer op) → Program I α → σ → Prop where
  | none {x : Program I α} {s : σ} : Runs setting x s [] x s
  | step {op : I.Op} {rest : I.Answer op → Program I α} {answer : I.Answer op} {y : Program I α} {s t u : σ}
    {trace : List ((op : I.Op) × I.Answer op)} (does : setting.may op s answer t)
    (later : Runs setting (rest answer) t trace y u) : Runs setting (.ask op rest) s (⟨op, answer⟩ :: trace) y u

theorem Safe.runs {x y : Program I α} {trace : List ((op : I.Op) × I.Answer op)} (safe : Safe setting Q x s)
    (sound : setting.inv s) (runs : Runs setting x s trace y t) : setting.inv t ∧ Safe setting Q y t := by
  induction runs with
  | none => exact ⟨sound, safe⟩
  | step does later ih =>
    obtain ⟨-, -, sound, safe⟩ := safe.step sound does
    exact ih safe sound

/-- A postcondition of a routine: one for what it returns, one for how it stops. -/
def Post (Q : α → S → σ → Prop) (E : Stop ε → S → σ → Prop) : Outcome ε α × S → σ → Prop
  | (.ok value, core), s => Q value core s
  | (.error stop, core), s => E stop core s

namespace Routine

section Steps

variable {f : α → Routine I ε S β} {core : S}

theorem lift_bind {x : Outcome ε α} {value : α} (h : x = .ok value) :
    ((lift x : Routine I ε S α) >>= f) core = f value core := by
  subst h
  rfl

theorem get_bind {f : S → Routine I ε S β} : ((get : Routine I ε S S) >>= f) core = f core core := rfl

theorem modify_bind {g : S → S} {f : Unit → Routine I ε S β} :
    ((modify g : Routine I ε S Unit) >>= f) core = f () (g core) := rfl

end Steps

section Rules

variable {core : S} {Q : α → S → σ → Prop} {E : Stop ε → S → σ → Prop}

theorem safe_mono {Q' : α → S → σ → Prop} {E' : Stop ε → S → σ → Prop} {x : Program I (Outcome ε α × S)}
    (safe : Safe setting (Post Q E) x s) (returns : ∀ value core t, setting.inv t → Q value core t → Q' value core t)
    (stops : ∀ stop core t, setting.inv t → E stop core t → E' stop core t) : Safe setting (Post Q' E') x s := by
  refine safe.mono fun result t sound holds => ?_
  obtain ⟨result, core⟩ := result
  cases result with
  | ok value => exact returns value core t sound holds
  | error stop => exact stops stop core t sound holds

theorem safe_returns {Q' : α → S → σ → Prop} {x : Program I (Outcome ε α × S)} (safe : Safe setting (Post Q E) x s)
    (returns : ∀ value core t, setting.inv t → Q value core t → Q' value core t) : Safe setting (Post Q' E) x s :=
  safe_mono safe returns fun _ _ _ _ stopped => stopped

theorem safe_bind {x : Routine I ε S α} {f : α → Routine I ε S β} {Q' : β → S → σ → Prop} {E' : Stop ε → S → σ → Prop}
    (sound : setting.inv s) (first : Safe setting (Post Q E) (x core) s)
    (later : ∀ value core t, setting.inv t → Q value core t → Safe setting (Post Q' E') (f value core) t)
    (stops : ∀ stop core t, setting.inv t → E stop core t → E' stop core t) :
    Safe setting (Post Q' E') ((x >>= f) core) s := by
  refine Safe.fold (fun result t sound safe => ?_) sound first
  obtain ⟨result, core⟩ := result
  cases result with
  | ok value => exact later value core t sound (safe.returned sound)
  | error stop => exact fun u others sound => stops stop core u sound (safe u others sound)

theorem safe_then {x : Routine I ε S α} {f : α → Routine I ε S β} {Q' : β → S → σ → Prop} (sound : setting.inv s)
    (first : Safe setting (Post Q E) (x core) s)
    (later : ∀ value core t, setting.inv t → Q value core t → Safe setting (Post Q' E) (f value core) t) :
    Safe setting (Post Q' E) ((x >>= f) core) s :=
  safe_bind sound first later fun _ _ _ _ stopped => stopped

theorem safe_ite {P : Outcome ε α × S → σ → Prop} {x y : Routine I ε S α} {c : Prop} [Decidable c]
    (yes : c → Safe setting P (x core) s) (no : ¬c → Safe setting P (y core) s) :
    Safe setting P ((if c then x else y) core) s := by
  split
  · exact yes ‹_›
  · exact no ‹_›

theorem safe_zoom {part : S → C} {put : S → C → S} {x : Routine I ε C α} (sound : setting.inv s)
    (safe : Safe setting (Post (fun value c t => Q value (put core c) t) fun stop c t => E stop (put core c) t)
      (x (part core)) s) : Safe setting (Post Q E) (zoom part put x core) s := by
  refine Safe.fold (fun result t sound safe => ?_) sound safe
  obtain ⟨result, c⟩ := result
  cases result with
  | ok value | error stop => exact safe

theorem safe_mapErr {D : Stop δ → S → σ → Prop} {g : δ → Outcome ε α} {x : Routine I δ S α} (sound : setting.inv s)
    (safe : Safe setting (Post Q D) (x core) s)
    (reasons : ∀ reason core t, setting.inv t → D (.error reason) core t → Post Q E (g reason, core) t)
    (panics : ∀ message core t, setting.inv t → D (.panic message) core t → E (.panic message) core t) :
    Safe setting (Post Q E) (mapErr g x core) s := by
  refine Safe.fold (fun result t sound safe => ?_) sound safe
  obtain ⟨result, core⟩ := result
  cases result with
  | ok value => exact safe
  | error stop =>
    cases stop with
    | error reason => exact fun u others sound => reasons reason core u sound (safe u others sound)
    | panic message => exact fun u others sound => panics message core u sound (safe u others sound)

end Rules

end Routine

end Halcyon
