import Halcyon.Base.Outcome

/-!
Machine words as natural numbers with the checks the compiled code makes. `usize` and `u64` are both
64 bits wide on the target.
-/

namespace Halcyon

def usizeMax : Nat := 2 ^ 64 - 1

def u64Max : Nat := 2 ^ 64 - 1

/-- `isize::MAX`, which no slice is longer than. -/
def isizeMax : Nat := 2 ^ 63 - 1

def checkedAdd (x y : Nat) : Option Nat := if x + y ≤ usizeMax then some (x + y) else none

def checkedSub (x y : Nat) : Option Nat := if y ≤ x then some (x - y) else none

def checkedMul (x y : Nat) : Option Nat := if x * y ≤ usizeMax then some (x * y) else none

def subtract {ε : Type} (x y : Nat) : Outcome ε Nat :=
  expect "attempt to subtract with overflow" (checkedSub x y)

/-- `x + y`; an overflow panics. -/
def add {ε : Type} (x y : Nat) : Outcome ε Nat :=
  expect "attempt to add with overflow" (checkedAdd x y)

def multiply {ε : Type} (x y : Nat) : Outcome ε Nat :=
  expect "attempt to multiply with overflow" (checkedMul x y)

def divide {ε : Type} (x y : Nat) : Outcome ε Nat :=
  if y = 0 then panicked "attempt to divide by zero" else .ok (x / y)

def remainder {ε : Type} (x y : Nat) : Outcome ε Nat :=
  if y = 0 then panicked "attempt to calculate the remainder with a divisor of zero" else .ok (x % y)

def increment {ε : Type} (counter : Nat) : Outcome ε Nat :=
  if counter + 1 ≤ u64Max then .ok (counter + 1) else panicked "attempt to add with overflow"

variable {x y z : Nat} {ε : Type}

theorem checkedAdd_some (h : checkedAdd x y = some z) : z = x + y ∧ x + y ≤ usizeMax := by
  unfold checkedAdd at h
  split at h
  · cases h; exact ⟨rfl, by assumption⟩
  · cases h

theorem checkedAdd_fits (h : x + y ≤ usizeMax) : checkedAdd x y = some (x + y) := if_pos h

theorem checkedMul_fits (h : x * y ≤ usizeMax) : checkedMul x y = some (x * y) := if_pos h

theorem checkedMul_some (h : checkedMul x y = some z) : z = x * y ∧ x * y ≤ usizeMax := by
  unfold checkedMul at h
  split at h
  · cases h; exact ⟨rfl, by assumption⟩
  · cases h

theorem checkedSub_some (h : checkedSub x y = some z) : z + y = x := by
  unfold checkedSub at h
  split at h
  · cases h; omega
  · cases h

theorem subtract_ok (h : (subtract x y : Outcome ε Nat) = .ok z) : z + y = x :=
  checkedSub_some (expect_ok h)

theorem subtract_returns (h : y ≤ x) : (subtract x y : Outcome ε Nat) = .ok (x - y) := by
  simp [subtract, checkedSub, h, expect]

theorem add_ok (h : (add x y : Outcome ε Nat) = .ok z) : z = x + y :=
  (checkedAdd_some (expect_ok h)).1

theorem add_returns (h : x + y ≤ usizeMax) : (add x y : Outcome ε Nat) = .ok (x + y) := by
  rw [add, checkedAdd, if_pos h]
  rfl

theorem add_fits (h : (add x y : Outcome ε Nat) = .ok z) : x + y ≤ usizeMax :=
  (checkedAdd_some (expect_ok h)).2

theorem add_add : ((add x y >>= fun sum => add sum z) : Outcome ε Nat) = add x (y + z) := by
  by_cases first : x + y ≤ usizeMax
  · rw [add_returns first, ok_bind, add, add, checkedAdd, checkedAdd, Nat.add_assoc]
  · rw [add, add, checkedAdd, checkedAdd, if_neg first, if_neg (by omega)]
    rfl

theorem multiply_ok (h : (multiply x y : Outcome ε Nat) = .ok z) : z = x * y :=
  (checkedMul_some (expect_ok h)).1

theorem multiply_returns (h : x * y ≤ usizeMax) : (multiply x y : Outcome ε Nat) = .ok (x * y) := by
  rw [multiply, checkedMul, if_pos h]
  rfl

theorem divide_returns (h : y ≠ 0) : (divide x y : Outcome ε Nat) = .ok (x / y) := if_neg h

theorem divide_ok (h : (divide x y : Outcome ε Nat) = .ok z) : z = x / y := by
  unfold divide at h
  split at h
  · exact (panicked_ne_ok h).elim
  · cases h; rfl

theorem remainder_returns (h : y ≠ 0) : (remainder x y : Outcome ε Nat) = .ok (x % y) := if_neg h

theorem increment_returns {counter : Nat} (h : counter < u64Max) :
    (increment counter : Outcome ε Nat) = .ok (counter + 1) := if_pos h

theorem increment_ok {counter next : Nat} (h : (increment counter : Outcome ε Nat) = .ok next) :
    next = counter + 1 := by
  unfold increment at h
  split at h
  · cases h; rfl
  · exact (panicked_ne_ok h).elim

end Halcyon
