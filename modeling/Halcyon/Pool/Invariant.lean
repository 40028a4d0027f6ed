import Mathlib.Tactic.Abel
import Halcyon.Pool.Claims

/-!
Trees of pools and all the tokens outside them. Tokens are presented to any pool, in any order; each is used
up when it is accepted, and handed back when it is not.
-/

namespace Halcyon.Pool

open List

section

structure World where
  ids : AtomicId64
  /-- Root pools, and children that were committed. -/
  pools : List PoolState
  charges : List ChargeReservation
  delegations : List DelegationReservation
  prepared : List PreparedChild
  credits : List AllocatedCredit
  returned : List DelegatedCredit
  deriving DecidableEq

inductive Event where
  | openRoot (identity : PoolId) (total : UInt64)
  | reserveCharge (i : Nat) (pages : Nat)
  | reserveDelegation (i : Nat) (pages : Nat)
  | prepareChild (identity : PoolId) (k : Nat)
  | commitCharge (i k : Nat)
  | commitChild (i k : Nat)
  | rollbackCharge (i k : Nat)
  | rollbackDelegation (i k : Nat)
  | rollbackChild (i k : Nat)
  | split (k : Nat) (pages : Nat)
  | merge (k j : Nat)
  | returnCharge (i k : Nat)
  | returnDelegation (i k : Nat)
  | intoParentCredit (i : Nat)

structure Shelf (τ : Type) where
  tokens : World → List τ
  store : World → List τ → World
  restores : ∀ w, store w (tokens w) = w

def chargeShelf : Shelf ChargeReservation := ⟨World.charges, fun w charges => { w with charges }, fun _ => rfl⟩

def delegationShelf : Shelf DelegationReservation :=
  ⟨World.delegations, fun w delegations => { w with delegations }, fun _ => rfl⟩

def preparedShelf : Shelf PreparedChild := ⟨World.prepared, fun w prepared => { w with prepared }, fun _ => rfl⟩

def creditShelf : Shelf AllocatedCredit := ⟨World.credits, fun w credits => { w with credits }, fun _ => rfl⟩

def returnedShelf : Shelf DelegatedCredit := ⟨World.returned, fun w returned => { w with returned }, fun _ => rfl⟩

namespace World

variable (w : World)

def initial : World := ⟨⟨1⟩, [], [], [], [], [], []⟩

def setPool (i : Nat) (pool : PoolState) : World := { w with pools := w.pools.set i pool }

def present {τ β : Type} (shelf : Shelf τ) (use : τ → EStateM (TokenError τ) PoolState β)
    (receive : β → World → World) (i k : Nat) : World :=
  match w.pools[i]?, (shelf.tokens w)[k]? with
  | some pool, some token =>
    match use token pool with
    | .ok value pool => receive value (shelf.store (w.setPool i pool) ((shelf.tokens w).eraseIdx k))
    | .error failure pool => shelf.store (w.setPool i pool) ((shelf.tokens w).set k failure.token)
  | _, _ => w

def step : Event → World
  | .openRoot identity total =>
    match PoolState.root identity total.toNat w.ids with
    | .ok pool ids => { w with ids, pools := w.pools ++ [pool] }
    | .error _ ids => { w with ids }
  | .reserveCharge i pages =>
    match w.pools[i]? with
    | none => w
    | some pool =>
      match PoolState.reserveCharge pages pool with
      | .ok reservation pool => { w.setPool i pool with charges := w.charges ++ [reservation] }
      | .error _ pool => w.setPool i pool
  | .reserveDelegation i pages =>
    match w.pools[i]? with
    | none => w
    | some pool =>
      match PoolState.reserveDelegation pages pool with
      | .ok reservation pool => { w.setPool i pool with delegations := w.delegations ++ [reservation] }
      | .error _ pool => w.setPool i pool
  | .prepareChild identity k =>
    match w.delegations[k]? with
    | none => w
    | some reservation =>
      match PoolState.prepareChild identity reservation w.ids with
      | .ok child ids =>
        { w with ids, delegations := w.delegations.eraseIdx k, prepared := w.prepared ++ [child] }
      | .error failure ids => { w with ids, delegations := w.delegations.set k failure.token }
  | .commitCharge i k =>
    w.present chargeShelf PoolState.commitCharge (fun credit w => { w with credits := w.credits ++ [credit] }) i k
  | .commitChild i k =>
    w.present preparedShelf PoolState.commitChild (fun child w => { w with pools := w.pools ++ [child] }) i k
  | .rollbackCharge i k => w.present chargeShelf PoolState.rollbackCharge (fun _ w => w) i k
  | .rollbackDelegation i k => w.present delegationShelf PoolState.rollbackDelegation (fun _ w => w) i k
  | .rollbackChild i k => w.present preparedShelf PoolState.rollbackChild (fun _ w => w) i k
  | .split k pages =>
    match w.credits[k]? with
    | none => w
    | some credit =>
      match AllocatedCredit.split pages credit with
      | .ok part credit => { w with credits := w.credits.set k credit ++ [part] }
      | .error _ credit => { w with credits := w.credits.set k credit }
  | .merge k j =>
    match w.credits[k]?, w.credits[j]? with
    | some credit, some other =>
      if k = j then w
      else
        match AllocatedCredit.merge other credit with
        | .ok _ credit => { w with credits := (w.credits.set k credit).eraseIdx j }
        | .error failure credit => { w with credits := (w.credits.set k credit).set j failure.token }
    | _, _ => w
  | .returnCharge i k => w.present creditShelf PoolState.returnCharge (fun _ w => w) i k
  | .returnDelegation i k => w.present returnedShelf PoolState.returnDelegation (fun _ w => w) i k
  | .intoParentCredit i =>
    match w.pools[i]? with
    | none => w
    | some pool =>
      match pool.intoParentCredit with
      | .ok credit => { w with pools := w.pools.eraseIdx i, returned := w.returned ++ credit.toList }
      | .error failure => w.setPool i failure.token

def run (events : List Event) : World := events.foldl step w

end World

end

/-!
The books of a set of pools: every counter is what the claims on the pool come to. Counters change with the
claims on one pool, pools without claims come and go.
-/

section

def Owned (pools : List PoolState) (claim : Claim) : Prop := ∃ pool ∈ pools, At pool claim

structure Books (pools : List PoolState) (claims : Multiset Claim) : Prop where
  distinct : (pools.map PoolState.ownerKey).Nodup
  closes : ∀ pool ∈ pools, pool.Closes
  balanced : ∀ pool ∈ pools, ∀ purpose, pool.count purpose = due claims purpose pool.ownerKey
  owned : ∀ claim ∈ claims, Owned pools claim

variable {pools : List PoolState} {claims later : Multiset Claim} {pool next child : PoolState} {i : Nat}

theorem due_elsewhere {others : Multiset Claim} {key : OwnerKey} (home : ∀ claim ∈ others, At pool claim)
    (other : key ≠ pool.ownerKey) (purpose : Purpose) : due others purpose key = 0 := by
  refine owed_eq_zero fun claim member same => ?_
  obtain ⟨mine, _⟩ := home claim member
  exact other ((congrArg Prod.snd same).symm.trans mine)

variable {gone made : Multiset Claim}

section

variable (shifts : Shifts pool next gone made)
include shifts

theorem Shifts.ownerKey : next.ownerKey = pool.ownerKey := by rw [shifts.frame]

theorem Shifts.at {claim : Claim} (home : At pool claim) : At next claim := by
  rw [shifts.frame]
  exact home

theorem Shifts.closes (closes : pool.Closes) : next.Closes := by
  have total : next.total = pool.total := by rw [shifts.frame]
  exact ⟨by rw [total, shifts.sum, closes.sum], by rw [total]; exact closes.fits⟩

end

section

variable (books : Books pools claims)
include books

theorem Books.coveredBy {claim : Claim} (member : claim ∈ claims) (inside : pool ∈ pools)
    (home : At pool claim) : Covers pool claim := by
  refine ⟨books.closes pool inside, home, ?_⟩
  have part : claim.pages ≤ owed Claim.place Claim.pages claims claim.place := le_owed member
  rw [books.balanced pool inside, ← home.1]
  exact part

theorem Books.unique {other : PoolState} (inside : pool ∈ pools) (inside' : other ∈ pools)
    (same : pool.ownerKey = other.ownerKey) : pool = other :=
  inj_on_of_nodup_map books.distinct inside inside' same

theorem Books.shift (found : pools[i]? = some pool)
    (shifts : Shifts pool next gone made) (same : later + gone = claims + made) :
    Books (pools.set i next) later := by
  have apart := apart_of_eraseIdx books.distinct found
  obtain ⟨before, after, rfl, rfl⟩ := split_at_index found
  rw [eraseIdx_split] at apart
  rw [set_split]
  have dues : ∀ purpose key, due later purpose key + due gone purpose key =
      due claims purpose key + due made purpose key := by
    intro purpose key
    rw [← due_add, ← due_add, same]
  have cases_ : ∀ {other}, other ∈ before ++ next :: after → other = next ∨ other ∈ before ++ after :=
    fun member => mem_cons.mp (perm_middle.mem_iff.mp member)
  have old : ∀ {other}, other ∈ before ++ after → other ∈ before ++ pool :: after :=
    fun member => perm_middle.mem_iff.mpr (mem_cons_of_mem _ member)
  refine ⟨?_, fun other member => ?_, fun other member purpose => ?_, fun claim member => ?_⟩
  · have distinct := books.distinct
    rwa [map_append, map_cons, shifts.ownerKey, ← map_cons, ← map_append]
  · rcases cases_ member with rfl | kept
    · exact shifts.closes (books.closes pool (by simp))
    · exact books.closes other (old kept)
  · rcases cases_ member with rfl | kept
    · have counts := shifts.counts purpose
      have before_ := books.balanced pool (by simp) purpose
      have changed := dues purpose pool.ownerKey
      rw [shifts.ownerKey]
      omega
    · have unmoved := dues purpose other.ownerKey
      rw [due_elsewhere shifts.gone (apart other kept), due_elsewhere shifts.made (apart other kept)] at unmoved
      rw [books.balanced other (old kept), ← Nat.add_zero (due claims _ _), ← unmoved, Nat.add_zero]
  · have inside : claim ∈ claims + made := same ▸ Multiset.mem_add.mpr (.inl member)
    rcases Multiset.mem_add.mp inside with before_ | new
    · obtain ⟨owner, inPools, home⟩ := books.owned claim before_
      by_cases this : owner = pool
      · exact ⟨next, by simp, shifts.at (this ▸ home)⟩
      · refine ⟨owner, ?_, home⟩
        simp only [mem_append, mem_cons] at inPools ⊢
        tauto
    · exact ⟨next, by simp, shifts.at (shifts.made claim new)⟩

theorem Books.add (fresh : child.ownerKey ∉ pools.map PoolState.ownerKey)
    (closes : child.Closes) (unused : ∀ purpose, child.count purpose = 0) : Books (pools ++ [child]) claims := by
  refine ⟨?_, ?_, ?_, ?_⟩
  · exact nodup_map_concat books.distinct fun pool inside same => fresh (same ▸ mem_map_of_mem inside)
  · exact forall_mem_concat books.closes closes
  · refine forall_mem_concat books.balanced fun purpose => ?_
    rw [unused]
    refine (owed_eq_zero fun claim member same => ?_).symm
    obtain ⟨owner, inside, mine, _⟩ := books.owned claim member
    refine fresh (mem_map.mpr ⟨owner, inside, ?_⟩)
    rw [← mine]
    exact congrArg Prod.snd same
  · intro claim member
    obtain ⟨owner, inside, home⟩ := books.owned claim member
    exact ⟨owner, mem_append_left _ inside, home⟩

theorem Books.drop (found : pools[i]? = some pool)
    (unused : ∀ purpose, pool.count purpose = 0) : Books (pools.eraseIdx i) claims := by
  have kept : ∀ {other}, other ∈ pools.eraseIdx i → other ∈ pools := mem_of_mem_eraseIdx
  refine ⟨?_, fun other member => books.closes other (kept member),
    fun other member => books.balanced other (kept member), fun claim member => ?_⟩
  · exact books.distinct.sublist ((eraseIdx_sublist _ _).map _)
  · obtain ⟨owner, inside, home⟩ := books.owned claim member
    refine ⟨owner, ?_, home⟩
    have mine : claim.place = (claim.purpose, owner.ownerKey) := by rw [Claim.place, home.1]
    have different : owner ≠ pool := by
      rintro rfl
      have nothing := books.balanced owner inside claim.purpose
      rw [unused] at nothing
      exact place_of_owed_zero member home.2.2 nothing.symm mine
    obtain ⟨_, _, rfl, rfl⟩ := split_at_index found
    rw [eraseIdx_split]
    simp only [mem_append, mem_cons] at inside ⊢
    tauto

end

end

/-!
What holds in every state: the books are right, owner keys are unique, and pools and tokens have the form
they were made with.
-/

section

/-- The credit that a pool returns to its parent is a claim on the parent. -/
def grants (pools : List PoolState) : Multiset Claim :=
  (pools.filterMap PoolState.parentCredit : Multiset DelegatedCredit).map DelegatedCredit.claim

namespace World

variable (w : World)

def held : Multiset Claim :=
  (w.charges : Multiset _).map ChargeReservation.claim + (w.delegations : Multiset _).map DelegationReservation.claim +
  (w.prepared : Multiset _).map PreparedChild.claim + (w.credits : Multiset _).map AllocatedCredit.claim +
  (w.returned : Multiset _).map DelegatedCredit.claim

def claims : Multiset Claim := w.held + grants w.pools

def keys : List OwnerKey := w.pools.map PoolState.ownerKey ++ w.prepared.map fun child => child.state.ownerKey

end World

def Deep (depth : Nat) : Prop := 1 < depth ∧ depth ≤ maxDepth

/-- A pool is a root, or a child of an older pool with the credit to return for all its pages. -/
inductive Lineal (pool : PoolState) : Prop where
  | root (parent : pool.parentIdentity = none) (credit : pool.parentCredit = none) (depth : pool.depth = 1)
  | child (credit : DelegatedCredit) (parent : pool.parentIdentity = some credit.parent)
    (carries : pool.parentCredit = some credit) (all : credit.pages = pool.total) (depth : Deep pool.depth)
    (older : credit.parentKey.raw < pool.ownerKey.raw)

structure Fresh (child : PreparedChild) : Prop where
  depth : Deep child.state.depth
  older : child.parentKey.raw < child.state.ownerKey.raw
  made : child.state =
    { ownerKey := child.state.ownerKey, identity := child.state.identity, parentIdentity := some child.parent,
      depth := child.state.depth, total := child.pages, available := child.pages, reserved := 0, allocated := 0,
      delegated := 0, parentCredit := none }

structure Sound (w : World) : Prop where
  books : Books w.pools w.claims
  keys : w.keys.Nodup
  minted : w.ids.next = 0 ∨ ∀ key ∈ w.keys, key.raw < w.ids.next
  lineal : ∀ pool ∈ w.pools, Lineal pool
  delegations : ∀ reservation ∈ w.delegations, Deep reservation.childDepth
  prepared : ∀ child ∈ w.prepared, Fresh child

variable {w : World} {i k : Nat} {pool next : PoolState}

theorem initial_sound : Sound World.initial where
  books := ⟨.nil, nofun, nofun, nofun⟩
  keys := .nil
  minted := .inr nofun
  lineal := nofun
  delegations := nofun
  prepared := nofun

theorem setPool_same (found : w.pools[i]? = some pool) : w.setPool i pool = w := by
  rw [World.setPool, set_same found]

theorem present_cases {τ β : Type} {P : World → Prop} {shelf : Shelf τ} {use : τ → EStateM (TokenError τ) PoolState β}
    {receive : β → World → World}
    (refused : ∀ token pool failure next, use token pool = .error failure next → next = pool ∧ failure.token = token)
    (stays : P w) (settles : ∀ pool token value next, w.pools[i]? = some pool → (shelf.tokens w)[k]? = some token →
      use token pool = .ok value next → P (receive value (shelf.store (w.setPool i next) ((shelf.tokens w).eraseIdx k)))) :
    P (w.present shelf use receive i k) := by
  unfold World.present
  split
  · rename_i pool token found taken
    split
    · rename_i value next accepted
      exact settles pool token value next found taken accepted
    · rename_i failure next failed
      obtain ⟨rfl, rfl⟩ := refused token pool failure next failed
      rw [setPool_same found, set_same taken, shelf.restores w]
      exact stays
  · exact stays

variable {gone made : Multiset Claim}

theorem grants_set (found : w.pools[i]? = some pool) (shifts : Shifts pool next gone made) :
    grants (w.pools.set i next) = grants w.pools := by
  obtain ⟨_, _, same, rfl⟩ := split_at_index found
  have credit : next.parentCredit = pool.parentCredit := by rw [shifts.frame]
  rw [same, set_split, grants, grants, filterMap_append, filterMap_append, filterMap_cons, filterMap_cons, credit]

theorem keys_set (found : w.pools[i]? = some pool) (shifts : Shifts pool next gone made) :
    (w.pools.set i next).map PoolState.ownerKey = w.pools.map PoolState.ownerKey := by
  rw [map_set, shifts.ownerKey]
  exact set_same (by rw [getElem?_map, found]; rfl)

theorem lineal_set (sound : Sound w) (found : w.pools[i]? = some pool) (shifts : Shifts pool next gone made) :
    ∀ other ∈ w.pools.set i next, Lineal other := by
  intro other member
  rcases mem_or_eq_of_mem_set member with old | rfl
  · exact sound.lineal other old
  · rw [shifts.frame]
    cases sound.lineal pool (mem_of_getElem? found) with
    | root parent credit depth => exact .root parent credit depth
    | child credit parent carries all depth older => exact .child credit parent carries all depth older

theorem Sound.shift {after : World} (sound : Sound w) (found : w.pools[i]? = some pool)
    (shifts : Shifts pool next gone made) (pools : after.pools = w.pools.set i next) (ids : after.ids = w.ids)
    (held : after.held + gone = w.held + made)
    (delegations : ∀ reservation ∈ after.delegations, Deep reservation.childDepth)
    (prepared : after.prepared.Sublist w.prepared) : Sound after := by
  have keys : after.keys.Sublist w.keys := by
    rw [World.keys, World.keys, pools, keys_set found shifts]
    exact (List.Sublist.refl _).append (prepared.map _)
  refine ⟨?_, sound.keys.sublist keys, ?_, pools ▸ lineal_set sound found shifts, delegations,
    fun child member => sound.prepared child (prepared.subset member)⟩
  · have same : after.claims + gone = w.claims + made := by
      rw [World.claims, World.claims, pools, grants_set found shifts, add_right_comm, held, add_right_comm]
    exact pools ▸ sound.books.shift found shifts same
  · rw [ids]
    exact sound.minted.imp_right fun below key member => below key (keys.subset member)

end

end Halcyon.Pool
