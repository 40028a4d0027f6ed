import Halcyon.Pool.Invariant

/-!
What the methods that take or make a token do, and that a refused token comes back.
-/

namespace Halcyon.Pool

def Refuses {τ β : Type} (use : τ → EStateM (TokenError τ) PoolState β) : Prop :=
  ∀ token pool failure next, use token pool = .error failure next → next = pool ∧ failure.token = token

theorem adapt_refuses {τ β : Type} {x : τ → EStateM PoolError PoolState β} (restrained : ∀ token, Restrained (x token)) :
    Refuses fun token => (x token).adaptExcept fun error => ⟨error, token⟩ := by
  intro token pool failure next h
  obtain ⟨inner, failed, rfl⟩ := adapt_error h
  exact ⟨restrained token pool inner next failed, rfl⟩

theorem Refuses.finish {τ β γ : Type} {use : τ → EStateM (TokenError τ) PoolState β}
    {rest : τ → β → EStateM (TokenError τ) PoolState γ} (refuses : Refuses use)
    (total : ∀ token b s e t, rest token b s ≠ .error e t) : Refuses fun token => use token >>= rest token := by
  intro token pool failure next h
  have h : (use token >>= rest token) pool = .error failure next := h
  cases first : use token pool with
  | ok b u =>
    rw [seq_run first] at h
    exact (total token b u failure next h).elim
  | error e u =>
    rw [seq_error first] at h
    cases h
    exact refuses token pool failure next first

namespace AllocatedCredit

variable {credit part other next : AllocatedCredit} {pages : Nat}

theorem split_ok (h : split pages credit = .ok part next) : 0 < pages ∧ pages < credit.pages ∧ part = { credit with pages } ∧
      next = { credit with pages := credit.pages - pages } := by
  have h := get_step h
  obtain ⟨some_, h⟩ := deny_step h
  obtain ⟨less, h⟩ := deny_step h
  cases h
  exact ⟨Nat.pos_of_ne_zero (by simpa using some_), by simpa using less, rfl, rfl⟩

theorem split_restrained : Restrained (split pages) :=
  .checks get_observes fun _ => .checks (deny_observes _ _) fun _ => .checks (deny_observes _ _) fun _ =>
    fun _ _ _ h => by cases h

theorem merge_ok {done : Unit} (h : merge other credit = .ok done next) :
    credit.ownerKey = other.ownerKey ∧ next = { credit with pages := credit.pages + other.pages } := by
  have h := get_step h
  obtain ⟨same, h⟩ := deny_step h
  obtain ⟨pages, added, h⟩ := orDeny_step h
  cases set_ok h
  obtain ⟨rfl, _⟩ := checkedAdd_some added
  exact ⟨by simpa using same, rfl⟩

theorem merge_refused {failure : TokenError AllocatedCredit} (h : merge other credit = .error failure next) :
    next = credit ∧ failure.token = other := by
  rcases deny_fails (get_fails h) with ⟨rfl, rfl⟩ | h
  · exact ⟨rfl, rfl⟩
  · cases added : checkedAdd credit.pages other.pages with
    | none =>
      rw [added] at h
      cases h
      exact ⟨rfl, rfl⟩
    | some pages =>
      rw [added] at h
      cases h

theorem merge_returns (same : credit.ownerKey = other.ownerKey) (fits : credit.pages + other.pages ≤ u64Max) :
    merge other credit = .ok () { credit with pages := credit.pages + other.pages } := by
  have mine : (credit.ownerKey != other.ownerKey) = false := by simp [same]
  have added : checkedAdd credit.pages other.pages = some (credit.pages + other.pages) := if_pos fits
  rw [merge, seq_run (get_run _), mine, seq_run (deny_false _ _), added, seq_run (orDeny_some _ _ _)]
  rfl

end AllocatedCredit

namespace PoolState

variable {pool next : PoolState} {pages : Nat}

theorem reserve_shifts {done : Unit} (h : reserve pages pool = .ok done next) :
    Shifts pool next 0 {⟨.reserved, pool.ownerKey, pool.identity, pages⟩} := by
  obtain ⟨positive, enough, rfl⟩ := reserve_ok h
  refine ⟨rfl, by dsimp only; omega, fun purpose => ?_, nofun, by simp [At, positive]⟩
  rw [due_one]
  cases purpose <;> simp [count]

theorem reserveCharge_ok {reservation : ChargeReservation} (h : reserveCharge pages pool = .ok reservation next) :
    Shifts pool next 0 {reservation.claim} := by
  obtain ⟨_, middle, reserved, h⟩ := seq_ok h
  cases get_step h
  have shifts := reserve_shifts reserved
  obtain ⟨_, _, rfl⟩ := reserve_ok reserved
  exact shifts

theorem reserveCharge_restrained : Restrained (reserveCharge pages) :=
  .finishes reserve_restrained fun _ _ _ _ h => by cases h

variable {reservation : DelegationReservation}

theorem reserveDelegation_ok (positive : 1 ≤ pool.depth) (h : reserveDelegation pages pool = .ok reservation next) :
    Shifts pool next 0 {reservation.claim} ∧ Deep reservation.childDepth := by
  have h := get_step h
  obtain ⟨shallow, h⟩ := deny_step h
  obtain ⟨_, middle, reserved, h⟩ := seq_ok h
  cases get_step h
  have shifts := reserve_shifts reserved
  obtain ⟨_, _, rfl⟩ := reserve_ok reserved
  have shallow : pool.depth < maxDepth := by simpa using shallow
  exact ⟨shifts, by dsimp only; omega, shallow⟩

theorem reserveDelegation_restrained : Restrained (reserveDelegation pages) :=
  .checks get_observes fun _ => .checks (deny_observes _ _) fun _ =>
    .finishes reserve_restrained fun _ _ _ _ h => by cases h

theorem commitCharge_ok {reservation : ChargeReservation} {credit : AllocatedCredit}
    (h : commitCharge reservation pool = .ok credit next) : Shifts pool next {reservation.claim} {credit.claim} := by
  obtain ⟨_, middle, committed, h⟩ := seq_ok h
  cases get_step h
  have shifts := commitReserved_ok (adapt_ok committed)
  obtain ⟨key, owner, _⟩ := shifts.made _ (Multiset.mem_singleton_self _)
  have same : AllocatedCredit.claim ⟨next.ownerKey, next.identity, reservation.pages⟩ =
      ⟨.allocated, reservation.ownerKey, reservation.owner, reservation.pages⟩ := by
    rw [shifts.frame]
    exact congrArg₂ (Claim.mk .allocated · · _) key.symm owner.symm
  rw [same]
  exact shifts

theorem commitChild_ok {prepared : PreparedChild} {child : PoolState} (h : commitChild prepared pool = .ok child next) :
    ∃ credit, child = { prepared.state with parentCredit := some credit } ∧ credit.parent = prepared.parent ∧
      credit.parentKey = prepared.parentKey ∧ credit.pages = prepared.pages ∧
      Shifts pool next {prepared.claim} {credit.claim} := by
  obtain ⟨_, middle, committed, h⟩ := seq_ok h
  cases get_step h
  have shifts := commitReserved_ok (adapt_ok committed)
  obtain ⟨key, owner, _⟩ := shifts.made _ (Multiset.mem_singleton_self _)
  have frame := shifts.frame
  have key : next.ownerKey = prepared.parentKey := by rw [frame]; exact key.symm
  have owner : next.identity = prepared.parent := by rw [frame]; exact owner.symm
  refine ⟨_, rfl, owner, key, rfl, ?_⟩
  have same : DelegatedCredit.claim ⟨next.ownerKey, next.identity, prepared.pages⟩ =
      ⟨.delegated, prepared.parentKey, prepared.parent, prepared.pages⟩ := by
    rw [key, owner]
    rfl
  rw [same]
  exact shifts

theorem rollbackCharge_refuses : Refuses rollbackCharge := adapt_refuses fun _ => rollback_restrained

theorem rollbackDelegation_refuses : Refuses rollbackDelegation := adapt_refuses fun _ => rollback_restrained

theorem rollbackChild_refuses : Refuses rollbackChild := adapt_refuses fun _ => rollback_restrained

theorem returnCharge_refuses : Refuses returnCharge := adapt_refuses fun _ => returnCredit_restrained

theorem returnDelegation_refuses : Refuses returnDelegation := adapt_refuses fun _ => returnCredit_restrained

theorem commitCharge_refuses : Refuses commitCharge :=
  (adapt_refuses fun _ => commitReserved_restrained).finish fun _ _ _ _ _ h => by cases h

theorem commitChild_refuses : Refuses commitChild :=
  (adapt_refuses fun _ => commitReserved_restrained).finish fun _ _ _ _ _ h => by cases h

theorem mintOwnerKey_eq (ids : AtomicId64) : mintOwnerKey ids =
    if unused : ids.next ≠ 0 then .ok ⟨ids.next, unused⟩ ⟨ids.next + 1⟩ else .error .identityExhausted ids := by
  by_cases unused : ids.next = 0
  · simp [mintOwnerKey, AtomicId64.allocate, unused]
  · simp [mintOwnerKey, AtomicId64.allocate, OwnerKey.new, unused]

variable {after : AtomicId64} {identity : PoolId}

variable {ids : AtomicId64}

theorem mintOwnerKey_ok {key : OwnerKey} (h : mintOwnerKey ids = .ok key after) :
    ids.next ≠ 0 ∧ key.raw = ids.next ∧ after = ⟨ids.next + 1⟩ := by
  rw [mintOwnerKey_eq] at h
  split at h
  · rename_i unused
    cases h
    exact ⟨unused, rfl, rfl⟩
  · cases h

theorem mintOwnerKey_restrained : Restrained mintOwnerKey := by
  intro ids error after h
  rw [mintOwnerKey_eq] at h
  split at h
  · cases h
  · cases h
    rfl

theorem root_ok {total : Nat} (h : root identity total ids = .ok pool after) :
    ∃ key, mintOwnerKey ids = .ok key after ∧ pool =
      { ownerKey := key, identity, parentIdentity := none, depth := 1, total, available := total, reserved := 0,
        allocated := 0, delegated := 0, parentCredit := none } := by
  obtain ⟨_, h⟩ := deny_step h
  obtain ⟨key, middle, minted, h⟩ := seq_ok h
  cases h
  exact ⟨key, minted, rfl⟩

theorem root_restrained {total : Nat} : Restrained (root identity total) :=
  .checks (deny_observes _ _) fun _ => .finishes mintOwnerKey_restrained fun _ _ _ _ h => by cases h

theorem prepareChild_ok {child : PreparedChild}
    (deep : Deep reservation.childDepth) (older : ids.next ≠ 0 → reservation.parentKey.raw < ids.next)
    (h : prepareChild identity reservation ids = .ok child after) :
    mintOwnerKey ids = .ok child.state.ownerKey after ∧ child.claim = reservation.claim ∧ Fresh child := by
  obtain ⟨_, h⟩ := deny_step h
  obtain ⟨key, middle, minted, h⟩ := seq_ok h
  cases h
  obtain ⟨unused, raw, _⟩ := mintOwnerKey_ok (adapt_ok minted)
  have less : reservation.parentKey.raw < key.raw := by
    rw [raw]
    exact older unused
  exact ⟨adapt_ok minted, rfl, deep, less, rfl⟩

theorem prepareChild_refused {failure : TokenError DelegationReservation}
    (h : prepareChild identity reservation ids = .error failure after) :
    after = ids ∧ failure.token = reservation := by
  rcases deny_fails h with ⟨rfl, rfl⟩ | h
  · exact ⟨rfl, rfl⟩
  · cases minted : mintOwnerKey ids with
    | ok key middle =>
      rw [seq_run (adapt_run minted)] at h
      cases h
    | error error middle =>
      rw [seq_error (adapt_fails minted)] at h
      cases h
      exact ⟨mintOwnerKey_restrained ids error after minted, rfl⟩

theorem isFullyAvailable_iff : pool.isFullyAvailable = true ↔
    pool.available = pool.total ∧ ∀ purpose, pool.count purpose = 0 := by
  unfold isFullyAvailable
  simp only [Bool.and_eq_true, beq_iff_eq]
  constructor
  · rintro ⟨⟨⟨full, reserved⟩, allocated⟩, delegated⟩
    exact ⟨full, fun purpose => by cases purpose <;> assumption⟩
  · rintro ⟨full, none_⟩
    exact ⟨⟨⟨full, none_ .reserved⟩, none_ .allocated⟩, none_ .delegated⟩

theorem intoParentCredit_ok {credit : Option DelegatedCredit} (h : pool.intoParentCredit = .ok credit) :
    (∀ purpose, pool.count purpose = 0) ∧ credit = pool.parentCredit := by
  unfold intoParentCredit at h
  split at h
  · cases h
  split at h
  · cases h
  rename_i full _
  cases h
  exact ⟨(isFullyAvailable_iff.mp (by simpa using full)).2, rfl⟩

theorem intoParentCredit_refused {failure : TokenError PoolState} (h : pool.intoParentCredit = .error failure) :
    failure.token = pool := by
  unfold intoParentCredit at h
  split at h
  · cases h
    rfl
  split at h
  · cases h
    rfl
  · cases h

theorem intoParentCredit_returns (lineal : Lineal pool) (full : pool.isFullyAvailable = true) :
    pool.intoParentCredit = .ok pool.parentCredit := by
  have valid : pool.topologyValid = true := by
    cases lineal with
    | root parent credit depth => rw [topologyValid, parent, credit]
    | child credit parent carries all depth older =>
      rw [topologyValid, parent, carries]
      simp [all]
  simp [intoParentCredit, full, valid]

end PoolState

end Halcyon.Pool
