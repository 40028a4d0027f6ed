import Halcyon.Base.Ledger
import Halcyon.Base.Methods
import Halcyon.Base.Word

/-!
Memory pools and the tokens that stand for their pages. A pool counts its pages as available, reserved,
allocated or delegated; every page that is not available is covered by a token, or by a child pool.
-/

namespace Halcyon.Pool

structure PoolId where
  raw : UInt64
  nonzero : raw ≠ 0
  deriving DecidableEq

/-- Tells instances of pools apart, whatever their identities are. -/
structure OwnerKey where
  raw : UInt64
  nonzero : raw ≠ 0
  deriving DecidableEq

def OwnerKey.new (raw : UInt64) : Option OwnerKey := if nonzero : raw ≠ 0 then some ⟨raw, nonzero⟩ else none

structure AtomicId64 where
  next : UInt64
  deriving DecidableEq

def AtomicId64.allocate (ids : AtomicId64) : Option UInt64 × AtomicId64 :=
  if ids.next ≠ 0 then (some ids.next, ⟨ids.next + 1⟩) else (none, ids)

inductive PoolError where
  | zeroAmount | invalidSplit | quotaExceeded | depthLimit | arithmeticOverflow | identityExhausted | invalidTopology
  | wrongOwner | invariantViolation
  deriving DecidableEq

def mintOwnerKey : EStateM PoolError AtomicId64 OwnerKey := fun ids =>
  let (raw, ids) := ids.allocate
  match raw.bind OwnerKey.new with
  | some key => .ok key ids
  | none => .error .identityExhausted ids

structure TokenError (τ : Type) where
  error : PoolError
  token : τ

structure ChargeReservation where
  ownerKey : OwnerKey
  owner : PoolId
  pages : Nat
  deriving DecidableEq

structure DelegationReservation where
  parentKey : OwnerKey
  parent : PoolId
  childDepth : Nat
  pages : Nat
  deriving DecidableEq

structure AllocatedCredit where
  ownerKey : OwnerKey
  owner : PoolId
  pages : Nat
  deriving DecidableEq

structure DelegatedCredit where
  parentKey : OwnerKey
  parent : PoolId
  pages : Nat
  deriving DecidableEq

structure PoolState where
  ownerKey : OwnerKey
  identity : PoolId
  parentIdentity : Option PoolId
  depth : Nat
  total : Nat
  available : Nat
  reserved : Nat
  allocated : Nat
  delegated : Nat
  parentCredit : Option DelegatedCredit
  deriving DecidableEq

structure PreparedChild where
  parentKey : OwnerKey
  parent : PoolId
  pages : Nat
  state : PoolState
  deriving DecidableEq

def maxDepth : Nat := 32

namespace AllocatedCredit

def split (pages : Nat) : EStateM PoolError AllocatedCredit AllocatedCredit := do
  let self ← get
  deny (pages == 0) .zeroAmount
  deny (self.pages ≤ pages) .invalidSplit
  set { self with pages := self.pages - pages }
  return ⟨self.ownerKey, self.owner, pages⟩

def merge (other : AllocatedCredit) : EStateM (TokenError AllocatedCredit) AllocatedCredit Unit := do
  let self ← get
  deny (self.ownerKey != other.ownerKey) ⟨.wrongOwner, other⟩
  let pages ← orDeny ⟨.arithmeticOverflow, other⟩ (checkedAdd self.pages other.pages)
  set { self with pages }

end AllocatedCredit

inductive Account where
  | allocated
  | delegated
  deriving DecidableEq

structure PoolSnapshot where
  identity : PoolId
  parentIdentity : Option PoolId
  depth : Nat
  total : Nat
  available : Nat
  reserved : Nat
  allocated : Nat
  delegated : Nat

def PoolSnapshot.closes (self : PoolSnapshot) : Bool := ((checkedAdd self.available self.reserved).bind fun value =>
    (checkedAdd value self.allocated).bind fun value => checkedAdd value self.delegated) == some self.total

namespace PoolState

def root (identity : PoolId) (total : Nat) : EStateM PoolError AtomicId64 PoolState := do
  deny (total == 0) .zeroAmount
  let ownerKey ← mintOwnerKey
  return { ownerKey, identity, parentIdentity := none, depth := 1, total, available := total, reserved := 0,
           allocated := 0, delegated := 0, parentCredit := none }

def prepareChild (identity : PoolId) (reservation : DelegationReservation) :
    EStateM (TokenError DelegationReservation) AtomicId64 PreparedChild := do
  deny (identity == reservation.parent || reservation.childDepth ≤ 1 || maxDepth < reservation.childDepth ||
    reservation.pages == 0) ⟨.invalidTopology, reservation⟩
  let ownerKey ← mintOwnerKey.adaptExcept fun error => ⟨error, reservation⟩
  let state := { ownerKey, identity, parentIdentity := some reservation.parent, depth := reservation.childDepth,
                 total := reservation.pages, available := reservation.pages, reserved := 0, allocated := 0,
                 delegated := 0, parentCredit := none }
  return ⟨reservation.parentKey, reservation.parent, reservation.pages, state⟩

def snapshot (self : PoolState) : Outcome Empty PoolSnapshot := do
  let snapshot : PoolSnapshot := ⟨self.identity, self.parentIdentity, self.depth, self.total, self.available,
    self.reserved, self.allocated, self.delegated⟩
  assertThat snapshot.closes "assertion failed: snapshot.closes()"
  return snapshot

def isFullyAvailable (self : PoolState) : Bool :=
  self.available == self.total && self.reserved == 0 && self.allocated == 0 && self.delegated == 0

def balance (self : PoolState) : Account → Nat
  | .allocated => self.allocated
  | .delegated => self.delegated

def setBalance (self : PoolState) (value : Nat) : Account → PoolState
  | .allocated => { self with allocated := value }
  | .delegated => { self with delegated := value }

def validateCredit (ownerKey : OwnerKey) (owner : PoolId) (pages : Nat) : EStateM PoolError PoolState Unit := do
  let self ← get
  deny (ownerKey != self.ownerKey || owner != self.identity) .wrongOwner
  deny (pages == 0) .zeroAmount

def reserve (pages : Nat) : EStateM PoolError PoolState Unit := do
  let self ← get
  deny (pages == 0) .zeroAmount
  deny (self.available < pages) .quotaExceeded
  let reserved ← orDeny .arithmeticOverflow (checkedAdd self.reserved pages)
  set { self with available := self.available - pages, reserved }

def rollback (ownerKey : OwnerKey) (owner : PoolId) (pages : Nat) : EStateM PoolError PoolState Unit := do
  validateCredit ownerKey owner pages
  let self ← get
  deny (self.reserved < pages) .invariantViolation
  let available ← orDeny .arithmeticOverflow (checkedAdd self.available pages)
  deny (self.total < available) .invariantViolation
  set { self with reserved := self.reserved - pages, available }

def commitReserved (ownerKey : OwnerKey) (owner : PoolId) (pages : Nat) (account : Account) :
    EStateM PoolError PoolState Unit := do
  validateCredit ownerKey owner pages
  let self ← get
  deny (self.reserved < pages) .invariantViolation
  let value ← orDeny .arithmeticOverflow (checkedAdd (self.balance account) pages)
  set ({ self with reserved := self.reserved - pages }.setBalance value account)

def returnCredit (ownerKey : OwnerKey) (owner : PoolId) (pages : Nat) (account : Account) :
    EStateM PoolError PoolState Unit := do
  validateCredit ownerKey owner pages
  let self ← get
  deny (self.balance account < pages) .invariantViolation
  let available ← orDeny .arithmeticOverflow (checkedAdd self.available pages)
  deny (self.total < available) .invariantViolation
  set { self.setBalance (self.balance account - pages) account with available }

def reserveCharge (pages : Nat) : EStateM PoolError PoolState ChargeReservation := do
  reserve pages
  let self ← get
  return ⟨self.ownerKey, self.identity, pages⟩

def reserveDelegation (pages : Nat) : EStateM PoolError PoolState DelegationReservation := do
  deny (maxDepth ≤ (← get).depth) .depthLimit
  reserve pages
  let self ← get
  return ⟨self.ownerKey, self.identity, self.depth + 1, pages⟩

def rollbackCharge (reservation : ChargeReservation) : EStateM (TokenError ChargeReservation) PoolState Unit :=
  (rollback reservation.ownerKey reservation.owner reservation.pages).adaptExcept fun error => ⟨error, reservation⟩

def rollbackDelegation (reservation : DelegationReservation) : EStateM (TokenError DelegationReservation) PoolState Unit :=
  (rollback reservation.parentKey reservation.parent reservation.pages).adaptExcept fun error => ⟨error, reservation⟩

def commitCharge (reservation : ChargeReservation) : EStateM (TokenError ChargeReservation) PoolState AllocatedCredit := do
  (commitReserved reservation.ownerKey reservation.owner reservation.pages .allocated).adaptExcept
    fun error => ⟨error, reservation⟩
  let self ← get
  return ⟨self.ownerKey, self.identity, reservation.pages⟩

def commitChild (prepared : PreparedChild) : EStateM (TokenError PreparedChild) PoolState PoolState := do
  (commitReserved prepared.parentKey prepared.parent prepared.pages .delegated).adaptExcept
    fun error => ⟨error, prepared⟩
  let self ← get
  return { prepared.state with parentCredit := some ⟨self.ownerKey, self.identity, prepared.pages⟩ }

def rollbackChild (prepared : PreparedChild) : EStateM (TokenError PreparedChild) PoolState Unit :=
  (rollback prepared.parentKey prepared.parent prepared.pages).adaptExcept fun error => ⟨error, prepared⟩

def topologyValid (self : PoolState) : Bool :=
  match self.parentIdentity, self.parentCredit with
  | none, none => true
  | some parent, some credit => credit.parent == parent && credit.pages == self.total
  | none, some _ | some _, none => false

def intoParentCredit (self : PoolState) : Except (TokenError PoolState) (Option DelegatedCredit) :=
  if !self.isFullyAvailable then .error ⟨.invariantViolation, self⟩
  else if !self.topologyValid then .error ⟨.invariantViolation, self⟩
  else .ok self.parentCredit

def returnCharge (credit : AllocatedCredit) : EStateM (TokenError AllocatedCredit) PoolState Unit :=
  (returnCredit credit.ownerKey credit.owner credit.pages .allocated).adaptExcept fun error => ⟨error, credit⟩

def returnDelegation (credit : DelegatedCredit) : EStateM (TokenError DelegatedCredit) PoolState Unit :=
  (returnCredit credit.parentKey credit.parent credit.pages .delegated).adaptExcept fun error => ⟨error, credit⟩

end PoolState

/-!
What each method does to the counters of a pool and to the claims on it, that it changes nothing when it
fails, and when it cannot fail.
-/

inductive Purpose where
  | reserved
  | allocated
  | delegated
  deriving DecidableEq

structure Claim where
  purpose : Purpose
  key : OwnerKey
  owner : PoolId
  pages : Nat

def Claim.place (claim : Claim) : Purpose × OwnerKey := (claim.purpose, claim.key)

def due (claims : Multiset Claim) (purpose : Purpose) (key : OwnerKey) : Nat :=
  owed Claim.place Claim.pages claims (purpose, key)

def ChargeReservation.claim (r : ChargeReservation) : Claim := ⟨.reserved, r.ownerKey, r.owner, r.pages⟩

def DelegationReservation.claim (r : DelegationReservation) : Claim := ⟨.reserved, r.parentKey, r.parent, r.pages⟩

def PreparedChild.claim (child : PreparedChild) : Claim := ⟨.reserved, child.parentKey, child.parent, child.pages⟩

def AllocatedCredit.claim (credit : AllocatedCredit) : Claim := ⟨.allocated, credit.ownerKey, credit.owner, credit.pages⟩

def DelegatedCredit.claim (credit : DelegatedCredit) : Claim := ⟨.delegated, credit.parentKey, credit.parent, credit.pages⟩

namespace PoolState

def count (self : PoolState) : Purpose → Nat
  | .reserved => self.reserved
  | .allocated => self.allocated
  | .delegated => self.delegated

/-- The four counters account for all pages, and the total fits the word. -/
structure Closes (pool : PoolState) : Prop where
  sum : pool.available + pool.reserved + pool.allocated + pool.delegated = pool.total
  fits : pool.total ≤ u64Max

end PoolState

theorem due_one (claim : Claim) (purpose : Purpose) (key : OwnerKey) :
    due {claim} purpose key = if claim.purpose = purpose ∧ claim.key = key then claim.pages else 0 := by
  rw [due, owed_singleton]
  simp only [Claim.place, Prod.mk.injEq]

@[simp] theorem due_zero (purpose : Purpose) (key : OwnerKey) : due 0 purpose key = 0 := rfl

@[simp] theorem due_add (some_ others : Multiset Claim) (purpose : Purpose) (key : OwnerKey) :
    due (some_ + others) purpose key = due some_ purpose key + due others purpose key := owed_add _ _ _

def At (pool : PoolState) (claim : Claim) : Prop := claim.key = pool.ownerKey ∧ claim.owner = pool.identity ∧ 0 < claim.pages

structure Shifts (pool next : PoolState) (gone made : Multiset Claim) : Prop where
  frame : next = { pool with available := next.available, reserved := next.reserved, allocated := next.allocated,
                             delegated := next.delegated }
  sum : next.available + next.reserved + next.allocated + next.delegated =
    pool.available + pool.reserved + pool.allocated + pool.delegated
  counts : ∀ purpose, next.count purpose + due gone purpose pool.ownerKey =
    pool.count purpose + due made purpose pool.ownerKey
  gone : ∀ claim ∈ gone, At pool claim
  made : ∀ claim ∈ made, At pool claim

structure Covers (pool : PoolState) (claim : Claim) : Prop where
  closes : pool.Closes
  home : At pool claim
  enough : claim.pages ≤ pool.count claim.purpose

section
variable {pool next : PoolState} {key : OwnerKey} {owner : PoolId} {pages : Nat} {done : Unit}

namespace PoolState

theorem validateCredit_ok (h : validateCredit key owner pages pool = .ok done next) :
    key = pool.ownerKey ∧ owner = pool.identity ∧ 0 < pages ∧ pool = next := by
  have h := get_step h
  obtain ⟨owned, h⟩ := deny_step h
  obtain ⟨some_, rfl⟩ := deny_ok h
  simp only [Bool.or_eq_false_iff, bne_eq_false_iff_eq] at owned
  exact ⟨owned.1, owned.2, Nat.pos_of_ne_zero (by simpa using some_), rfl⟩

theorem validateCredit_returns (positive : 0 < pages) :
    validateCredit pool.ownerKey pool.identity pages pool = .ok () pool := by
  have some_ : (pages == 0) = false := by simpa using Nat.ne_of_gt positive
  have mine : (pool.ownerKey != pool.ownerKey || pool.identity != pool.identity) = false := by simp
  rw [validateCredit, seq_run (get_run _), mine, seq_run (deny_false _ _), some_]
  rfl

theorem validateCredit_observes : Observes (validateCredit key owner pages) :=
  .bind get_observes fun _ => .bind (deny_observes _ _) fun _ => deny_observes _ _

theorem validateCredit_wrong (other : key ≠ pool.ownerKey) :
    validateCredit key owner pages pool = .error .wrongOwner pool := by
  have refused : (key != pool.ownerKey || owner != pool.identity) = true := by simp [other]
  rw [validateCredit, seq_run (get_run _), refused, seq_error (deny_true _ _)]

theorem reserve_ok (h : reserve pages pool = .ok done next) : 0 < pages ∧ pages ≤ pool.available ∧
      next = { pool with available := pool.available - pages, reserved := pool.reserved + pages } := by
  have h := get_step h
  obtain ⟨some_, h⟩ := deny_step h
  obtain ⟨enough, h⟩ := deny_step h
  obtain ⟨_, added, h⟩ := orDeny_step h
  cases set_ok h
  obtain ⟨rfl, _⟩ := checkedAdd_some added
  exact ⟨Nat.pos_of_ne_zero (by simpa using some_), by simpa using enough, rfl⟩

theorem reserve_restrained : Restrained (reserve pages) :=
  .checks get_observes fun _ => .checks (deny_observes _ _) fun _ => .checks (deny_observes _ _) fun _ =>
    .checks (orDeny_observes _ _) fun _ => set_restrained _

theorem rollback_ok (h : rollback key owner pages pool = .ok done next) :
    Shifts pool next {⟨.reserved, key, owner, pages⟩} 0 := by
  obtain ⟨_, _, valid, h⟩ := seq_ok h
  obtain ⟨rfl, rfl, positive, rfl⟩ := validateCredit_ok valid
  have h := get_step h
  obtain ⟨enough, h⟩ := deny_step h
  obtain ⟨_, added, h⟩ := orDeny_step h
  obtain ⟨_, h⟩ := deny_step h
  cases set_ok h
  obtain ⟨rfl, _⟩ := checkedAdd_some added
  have enough : pages ≤ pool.reserved := by simpa using enough
  refine ⟨rfl, by dsimp only; omega, fun purpose => ?_, by simp [At, positive], nofun⟩
  rw [due_one]
  cases purpose <;> simp [count]
  omega

theorem orDeny_add {x y : Nat} (fits : x + y ≤ u64Max) (error : PoolError) (pool : PoolState) :
    orDeny error (checkedAdd x y) pool = .ok (x + y) pool := by
  rw [checkedAdd_fits fits]
  rfl

theorem rollback_returns (covers : Covers pool ⟨.reserved, key, owner, pages⟩) : rollback key owner pages pool =
      .ok () { pool with reserved := pool.reserved - pages, available := pool.available + pages } := by
  obtain ⟨⟨_, _⟩, ⟨rfl, rfl, positive⟩, enough⟩ := covers
  have enough : pages ≤ pool.reserved := enough
  rw [rollback, seq_run (validateCredit_returns positive), seq_run (get_run _), seq_run (deny_run (by omega) _ _),
    seq_run (orDeny_add (by omega) _ _), seq_run (deny_run (by omega) _ _)]
  rfl

theorem rollback_restrained : Restrained (rollback key owner pages) :=
  .checks validateCredit_observes fun _ => .checks get_observes fun _ => .checks (deny_observes _ _) fun _ =>
    .checks (orDeny_observes _ _) fun _ => .checks (deny_observes _ _) fun _ => set_restrained _

theorem rollback_wrong (other : key ≠ pool.ownerKey) : rollback key owner pages pool = .error .wrongOwner pool :=
  seq_error (validateCredit_wrong other)

end PoolState

def Account.purpose : Account → Purpose
  | .allocated => .allocated
  | .delegated => .delegated

namespace PoolState

variable {account : Account}

theorem commitReserved_ok (h : commitReserved key owner pages account pool = .ok done next) :
    Shifts pool next {⟨.reserved, key, owner, pages⟩} {⟨account.purpose, key, owner, pages⟩} := by
  obtain ⟨_, _, valid, h⟩ := seq_ok h
  obtain ⟨rfl, rfl, positive, rfl⟩ := validateCredit_ok valid
  have h := get_step h
  obtain ⟨enough, h⟩ := deny_step h
  obtain ⟨_, added, h⟩ := orDeny_step h
  cases set_ok h
  obtain ⟨rfl, _⟩ := checkedAdd_some added
  have enough : pages ≤ pool.reserved := by simpa using enough
  cases account
  all_goals
    refine ⟨rfl, by simp only [setBalance, balance]; omega, fun purpose => ?_, by simp [At, positive],
      by simp [At, positive]⟩
    rw [due_one, due_one]
    cases purpose <;> simp [count, setBalance, balance, Account.purpose]
    omega

theorem balance_count (pool : PoolState) (account : Account) : pool.balance account = pool.count account.purpose := by
  cases account <;> rfl

theorem Closes.count_le (closes : pool.Closes) (purpose : Purpose) : pool.available + pool.count purpose ≤ pool.total ∧
      (purpose ≠ .reserved → pool.reserved + pool.count purpose ≤ pool.total) := by
  obtain ⟨_, _⟩ := closes
  cases purpose <;> simp only [count] <;> constructor <;> first | omega | (intro h; first | omega | exact (h rfl).elim)

theorem commitReserved_returns (account : Account) (covers : Covers pool ⟨.reserved, key, owner, pages⟩) :
    commitReserved key owner pages account pool = .ok ()
      ({ pool with reserved := pool.reserved - pages }.setBalance (pool.balance account + pages) account) := by
  obtain ⟨closes, ⟨rfl, rfl, positive⟩, enough⟩ := covers
  have enough : pages ≤ pool.reserved := enough
  have both := (closes.count_le account.purpose).2 (by cases account <;> nofun)
  have fits := closes.fits
  rw [← balance_count] at both
  rw [commitReserved, seq_run (validateCredit_returns positive), seq_run (get_run _), seq_run (deny_run (by omega) _ _),
    seq_run (orDeny_add (by omega) _ _)]
  rfl

theorem commitReserved_restrained : Restrained (commitReserved key owner pages account) :=
  .checks validateCredit_observes fun _ => .checks get_observes fun _ => .checks (deny_observes _ _) fun _ =>
    .checks (orDeny_observes _ _) fun _ => set_restrained _

theorem commitReserved_wrong (other : key ≠ pool.ownerKey) :
    commitReserved key owner pages account pool = .error .wrongOwner pool :=
  seq_error (validateCredit_wrong other)

theorem returnCredit_ok (h : returnCredit key owner pages account pool = .ok done next) :
    Shifts pool next {⟨account.purpose, key, owner, pages⟩} 0 := by
  obtain ⟨_, _, valid, h⟩ := seq_ok h
  obtain ⟨rfl, rfl, positive, rfl⟩ := validateCredit_ok valid
  have h := get_step h
  obtain ⟨enough, h⟩ := deny_step h
  obtain ⟨_, added, h⟩ := orDeny_step h
  obtain ⟨_, h⟩ := deny_step h
  cases set_ok h
  obtain ⟨rfl, _⟩ := checkedAdd_some added
  have enough : pages ≤ pool.balance account := by simpa using enough
  cases account
  all_goals
    simp only [balance] at enough
    refine ⟨rfl, by simp only [setBalance, balance]; omega, fun purpose => ?_, by simp [At, positive], nofun⟩
    rw [due_one]
    cases purpose <;> simp [count, setBalance, balance, Account.purpose]
    omega

theorem returnCredit_returns (account : Account) (covers : Covers pool ⟨account.purpose, key, owner, pages⟩) :
    returnCredit key owner pages account pool = .ok ()
      { pool.setBalance (pool.balance account - pages) account with available := pool.available + pages } := by
  obtain ⟨closes, ⟨rfl, rfl, positive⟩, enough⟩ := covers
  have enough : pages ≤ pool.balance account := balance_count pool account ▸ enough
  have both := (closes.count_le account.purpose).1
  rw [← balance_count] at both
  have fits := closes.fits
  rw [returnCredit, seq_run (validateCredit_returns positive), seq_run (get_run _), seq_run (deny_run (by omega) _ _),
    seq_run (orDeny_add (by omega) _ _), seq_run (deny_run (by omega) _ _)]
  rfl

theorem returnCredit_restrained : Restrained (returnCredit key owner pages account) :=
  .checks validateCredit_observes fun _ => .checks get_observes fun _ => .checks (deny_observes _ _) fun _ =>
    .checks (orDeny_observes _ _) fun _ => .checks (deny_observes _ _) fun _ => set_restrained _

theorem returnCredit_wrong (other : key ≠ pool.ownerKey) :
    returnCredit key owner pages account pool = .error .wrongOwner pool :=
  seq_error (validateCredit_wrong other)

end PoolState

end

end Halcyon.Pool
