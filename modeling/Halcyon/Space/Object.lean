import Halcyon.Space.Types

/-!
The executable publication of a memory object (`memory_space/src/object.rs`). The caller holds the lock of the object, so
every call here is one step.
-/

namespace Halcyon.Space

inductive ExecutableState where
  | mutable | sealing | executable
  deriving DecidableEq

inductive ObjectError where
  | viewDenied | permitDenied | permitLimit | permitOverflow | allocationFailed
  deriving DecidableEq

inductive SealOutcome where
  | published | pending
  deriving DecidableEq

structure MemoryObjectState where
  object : ObjectId
  objectBytes : Nat
  state : ExecutableState
  permits : Nat
  permitLimit : Nat
  deriving DecidableEq

namespace MemoryObjectState

def new (object : ObjectId) (objectBytes permitLimit : Nat) : MemoryObjectState :=
  ⟨object, objectBytes, .mutable, 0, permitLimit⟩

def allowsView (s : MemoryObjectState) (maximum : Protection) : Bool :=
  match s.state with
  | .mutable => maximum != .readExecute
  | .sealing => maximum == .readOnly
  | .executable => maximum != .readWrite

def authorizeView (s : MemoryObjectState) (maximum : Protection) : Outcome ObjectError ObjectViewAuthorization := do
  refuseIf (!s.allowsView maximum) .viewDenied
  return ⟨s.object, maximum, s.objectBytes⟩

def allowsWrites (s : MemoryObjectState) (newWrites : Nat) : Bool :=
  match s.state with
  | .mutable => true
  | .sealing => newWrites == 0
  | .executable => false

/-- `memory` answers the one allocation of the call. -/
def reserveWriteCount (s : MemoryObjectState) (memory : Nat → Bool) (count newWrites : Nat) :
    Outcome ObjectError (MemoryObjectState × List WritePermit) :=
  if count == 0 then return (s, []) else do
    refuseIf (count < newWrites) .permitOverflow
    refuseIf (!s.allowsWrites newWrites) .permitDenied
    let newCount ← okOr .permitOverflow (checkedAdd s.permits count)
    refuseIf (s.permitLimit < newCount) .permitLimit
    refuseIf (!memory count) .allocationFailed
    return ({ s with permits := newCount }, List.replicate count ⟨s.object⟩)

def reserveWrites (s : MemoryObjectState) (memory : Nat → Bool) (count : Nat) :
    Outcome ObjectError (MemoryObjectState × List WritePermit) :=
  s.reserveWriteCount memory count count

def reserveReplacementWrites (s : MemoryObjectState) (memory : Nat → Bool) (requirement : PermitRequirement) :
    Outcome ObjectError (MemoryObjectState × List WritePermit) := do
  refuseIf (requirement.object != s.object) .permitDenied
  s.reserveWriteCount memory requirement.count requirement.newWrites

/-- The last permit of a sealing object makes it executable; the flag reports that. -/
def publishIfQuiescent (s : MemoryObjectState) : MemoryObjectState × Bool :=
  if s.state == .sealing && s.permits == 0 then ({ s with state := .executable }, true) else (s, false)

def releaseOne (s : MemoryObjectState) (permit : WritePermit) : Outcome Empty (MemoryObjectState × Bool) := do
  assertThat (permit.object == s.object) "write permit belongs to another memory object"
  assertThat (s.permits != 0) "write permit accounting underflow"
  return publishIfQuiescent { s with permits := s.permits - 1 }

def cancelWrite (s : MemoryObjectState) (permit : WritePermit) : Outcome Empty (MemoryObjectState × Bool) :=
  s.releaseOne permit

def retireWrite (s : MemoryObjectState) (permit : WritePermit) : Outcome Empty (MemoryObjectState × Bool) :=
  s.releaseOne permit

/-- Asks once for executable publication; a repeated call changes nothing. -/
def seal_ (s : MemoryObjectState) : MemoryObjectState × SealOutcome :=
  match s.state with
  | .mutable =>
    if s.permits == 0 then ({ s with state := .executable }, .published)
    else ({ s with state := .sealing }, .pending)
  | .sealing => (s, .pending)
  | .executable => (s, .published)

end MemoryObjectState

theorem authorizeView_ok {s : MemoryObjectState} {maximum : Protection} {authorization : ObjectViewAuthorization}
    (h : s.authorizeView maximum = .ok authorization) :
    authorization.object = s.object ∧ (authorization.maximum = .readExecute → s.state = .executable) := by
  obtain ⟨_, allowed, h⟩ := bind_ok h
  have allowed := refuseIf_ok allowed
  rw [pure_ok h]
  refine ⟨rfl, fun execute => ?_⟩
  subst execute
  unfold MemoryObjectState.allowsView at allowed
  cases state : s.state with
  | executable => rfl
  | mutable | sealing => simp [state] at allowed

/-- The object hands out the permits `gained` and takes back the permits `lost`. Once executable it stays
so, and it becomes executable with no permit left. -/
structure Evolves (s t : MemoryObjectState) (gained lost : List WritePermit) : Prop where
  object : t.object = s.object
  named : ∀ permit ∈ gained ++ lost, permit = ⟨s.object⟩
  balance : t.permits + lost.length = s.permits + gained.length
  stays : s.state = .executable → t.state = .executable
  quiet : (s.state = .executable → s.permits = 0) → t.state = .executable → t.permits = 0

variable {s t : MemoryObjectState}

theorem reserveWriteCount_evolves {memory : Nat → Bool} {count newWrites : Nat}
    {permits : List WritePermit} (h : s.reserveWriteCount memory count newWrites = .ok (t, permits)) :
    Evolves s t permits [] := by
  unfold MemoryObjectState.reserveWriteCount at h
  split at h
  · cases pure_ok h
    exact ⟨rfl, by simp, rfl, id, id⟩
  · obtain ⟨_, _, h⟩ := bind_ok h
    obtain ⟨_, allowed, h⟩ := bind_ok h
    obtain ⟨newCount, sum, h⟩ := bind_ok h
    obtain ⟨_, _, h⟩ := bind_ok h
    obtain ⟨_, _, h⟩ := bind_ok h
    cases pure_ok h
    have allowed := refuseIf_ok allowed
    refine ⟨rfl, by simp, ?_, id, fun _ executable => ?_⟩
    · simp [(checkedAdd_some (okOr_ok sum)).1]
    · have executable : s.state = .executable := executable
      simp [MemoryObjectState.allowsWrites, executable] at allowed

theorem releaseOne_evolves {permit : WritePermit} {published : Bool}
    (h : s.releaseOne permit = .ok (t, published)) : Evolves s t [] [permit] := by
  obtain ⟨_, named, h⟩ := bind_ok h
  obtain ⟨_, counted, h⟩ := bind_ok h
  have named := assertThat_ok named
  have counted := assertThat_ok counted
  rw [beq_iff_eq] at named
  rw [bne_iff_ne] at counted
  have same := pure_ok h
  unfold MemoryObjectState.publishIfQuiescent at same
  have permitNamed : ∀ p ∈ [] ++ [permit], p = ⟨s.object⟩ := by simp [← named]
  split at same
  · rename_i test
    obtain ⟨sealing, none⟩ := Bool.and_eq_true_iff.mp test
    rw [beq_iff_eq] at sealing none
    cases same
    exact ⟨rfl, permitNamed, by simp only [List.length_cons, List.length_nil]; omega, fun _ => rfl, fun _ _ => none⟩
  · cases same
    exact ⟨rfl, permitNamed, by simp only [List.length_cons, List.length_nil]; omega, id,
      fun before executable => absurd (before executable) counted⟩

theorem seal_evolves (s : MemoryObjectState) : Evolves s s.seal_.1 [] [] := by
  unfold MemoryObjectState.seal_
  split
  · rename_i mutable
    split
    · rename_i none
      exact ⟨rfl, by simp, rfl, fun _ => rfl, fun _ _ => beq_iff_eq.mp none⟩
    · refine ⟨rfl, by simp, rfl, fun executable => ?_, fun _ executable => ?_⟩
      · rw [mutable] at executable
        cases executable
      · cases executable
  · exact ⟨rfl, by simp, rfl, id, id⟩
  · exact ⟨rfl, by simp, rfl, id, id⟩

end Halcyon.Space
