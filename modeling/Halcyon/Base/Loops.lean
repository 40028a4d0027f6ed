import Halcyon.Base.Outcome

/-! Counting loops, `for index in 0..n` with a body that changes a state, and checks of a whole list. -/

namespace Halcyon

section

variable {ε σ : Type}

def forRange (n : Nat) (body : Nat → σ → Outcome ε σ) (s : σ) : Outcome ε σ :=
  (List.range n).foldlM (fun s index => body index s) s

variable {n : Nat} {body : Nat → σ → Outcome ε σ} {s t : σ}

theorem forRange_succ : forRange (n + 1) body s = forRange n body s >>= body n := by
  rw [forRange, List.range_succ, List.foldlM_append]
  refine congrArg (forRange n body s >>= ·) (funext fun t => ?_)
  rw [List.foldlM_cons]
  cases body n t <;> rfl

variable {I : Nat → σ → Prop}

theorem forRange_ok (start : I 0 s)
    (turn : ∀ i s t, i < n → I i s → body i s = .ok t → I (i + 1) t) (h : forRange n body s = .ok t) : I n t := by
  induction n generalizing t with
  | zero =>
    cases h
    exact start
  | succ n ih =>
    rw [forRange_succ] at h
    obtain ⟨middle, before, last⟩ := bind_ok h
    exact turn n middle t (Nat.lt_succ_self n)
      (ih (fun i s t less => turn i s t (Nat.lt_succ_of_lt less)) before) last

theorem forRange_returns (start : I 0 s)
    (turn : ∀ i s, i < n → I i s → ∃ t, body i s = .ok t ∧ I (i + 1) t) :
    ∃ t, forRange n body s = .ok t ∧ I n t := by
  induction n with
  | zero => exact ⟨s, rfl, start⟩
  | succ n ih =>
    obtain ⟨middle, before, holds⟩ := ih fun i s less => turn i s (Nat.lt_succ_of_lt less)
    obtain ⟨t, last, final⟩ := turn n middle (Nat.lt_succ_self n) holds
    refine ⟨t, ?_, final⟩
    rw [forRange_succ, before]
    exact last

end

/-! Iterators: a cursor, and a call that gives the next item or says that there is none. -/

section

variable {ε σ α β : Type} {next : σ → Outcome ε (Option α × σ)} {s : σ} {items : List α}

def nthCall (next : σ → Outcome ε (Option α × σ)) : Nat → σ → Outcome ε (Option α)
  | 0, s => do
    let (item, _) ← next s
    pure item
  | n + 1, s => do
    let (_, s) ← next s
    nthCall next n s

end

end Halcyon
