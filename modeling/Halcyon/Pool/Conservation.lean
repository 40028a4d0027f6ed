import Halcyon.Pool.Moves

/-!
Every event keeps the books: what a token stands for moves with the token.
-/

namespace Halcyon.Pool

open List

section

variable {w : World} {i k : Nat} {pool next : PoolState}

open World

variable {ids : AtomicId64}

theorem Sound.fresh {key : OwnerKey} (sound : Sound w) (minted : mintOwnerKey w.ids = .ok key ids) :
    key ∉ w.keys ∧ (ids.next = 0 ∨ ∀ other ∈ key :: w.keys, other.raw < ids.next) := by
  obtain ⟨unused, raw, rfl⟩ := PoolState.mintOwnerKey_ok minted
  have below := sound.minted.resolve_left unused
  refine ⟨fun member => ?_, ?_⟩
  · have less := below key member
    rw [raw] at less
    exact UInt64.lt_irrefl _ less
  · by_cases last : w.ids.next + 1 = 0
    · exact .inl last
    · have step : w.ids.next < w.ids.next + 1 := by
        rw [UInt64.lt_iff_toNat_lt]
        have bound := w.ids.next.toNat_lt
        have nonzero : (w.ids.next + 1).toNat ≠ 0 := fun zero => last (UInt64.toNat_inj.mp zero)
        rw [UInt64.toNat_add] at nonzero ⊢
        have one : (1 : UInt64).toNat = 1 := rfl
        omega
      refine .inr (forall_mem_cons.mpr ⟨raw ▸ step, fun other member => ?_⟩)
      exact UInt64.lt_trans (below other member) step

theorem grants_append_root (pools : List PoolState) (root : pool.parentCredit = none) :
    grants (pools ++ [pool]) = grants pools := by
  rw [grants, grants, filterMap_append, filterMap_cons, root]
  simp

theorem grants_append_child (pools : List PoolState) {credit : DelegatedCredit} (child : pool.parentCredit = some credit) :
    grants (pools ++ [pool]) = grants pools + {credit.claim} := by
  rw [grants, grants, filterMap_append, filterMap_cons, child]
  simp [← Multiset.coe_add]

theorem grants_eraseIdx {pools : List PoolState} (found : pools[i]? = some pool) :
    (pool.parentCredit.toList : Multiset _).map DelegatedCredit.claim + grants (pools.eraseIdx i) = grants pools := by
  obtain ⟨before, after, rfl, rfl⟩ := split_at_index found
  rw [eraseIdx_split, grants, grants, ← Multiset.map_add, Multiset.coe_add, filterMap_append,
    filterMap_append, filterMap_cons]
  refine congrArg _ (Multiset.coe_eq_coe.mpr ?_)
  cases pool.parentCredit with
  | none => exact .refl _
  | some credit =>
    have middle : (credit :: (before.filterMap PoolState.parentCredit ++ after.filterMap PoolState.parentCredit)).Perm
        (before.filterMap PoolState.parentCredit ++ credit :: after.filterMap PoolState.parentCredit) :=
      perm_middle.symm
    exact middle

theorem keys_append (w : World) (pool : PoolState) :
    { w with pools := w.pools ++ [pool] }.keys.Perm (pool.ownerKey :: w.keys) := by
  rw [World.keys, List.map_append, append_assoc]
  exact perm_middle

section

variable (sound : Sound w)
include sound

theorem Sound.opens {identity : PoolId} {total : UInt64} (made : PoolState.root identity total.toNat w.ids = .ok pool ids) :
    Sound { w with ids, pools := w.pools ++ [pool] } := by
  obtain ⟨key, minted, rfl⟩ := PoolState.root_ok made
  obtain ⟨fresh, below⟩ := sound.fresh minted
  have fits := total.toNat_lt
  have unused : key ∉ w.pools.map PoolState.ownerKey := fun member => fresh (mem_append_left _ member)
  refine ⟨?_, ?_, ?_, ?_, sound.delegations, sound.prepared⟩
  · rw [claims, grants_append_root _ rfl]
    refine sound.books.add unused ⟨by dsimp only; omega, ?_⟩ fun purpose => by cases purpose <;> rfl
    rw [u64Max]
    dsimp only
    omega
  · exact (keys_append w _).nodup_iff.mpr (nodup_cons.mpr ⟨fresh, sound.keys⟩)
  · exact below.imp_right fun below other member => below other ((keys_append w _).mem_iff.mp member)
  · exact forall_mem_concat sound.lineal (.root rfl rfl rfl)

theorem Sound.older {reservation : DelegationReservation} (member : reservation ∈ w.delegations)
    (unused : w.ids.next ≠ 0) : reservation.parentKey.raw < w.ids.next := by
  obtain ⟨parent, inside, key, _⟩ := sound.books.owned _ (delegations_count.claimed member)
  have known : reservation.parentKey ∈ w.keys := mem_append_left _ (mem_map.mpr ⟨parent, inside, key.symm⟩)
  exact sound.minted.resolve_left unused _ known

theorem Sound.prepares {identity : PoolId} {reservation : DelegationReservation} {child : PreparedChild}
    (taken : w.delegations[k]? = some reservation)
    (made : PoolState.prepareChild identity reservation w.ids = .ok child ids) :
    Sound { w with ids, delegations := w.delegations.eraseIdx k, prepared := w.prepared ++ [child] } := by
  have member := mem_of_getElem? taken
  obtain ⟨minted, same, fresh⟩ := PoolState.prepareChild_ok (sound.delegations _ member) (sound.older member) made
  obtain ⟨unused, below⟩ := sound.fresh minted
  have keys_ : { w with ids, delegations := w.delegations.eraseIdx k, prepared := w.prepared ++ [child] }.keys.Perm
      (child.state.ownerKey :: w.keys) := by
    rw [World.keys, List.map_append, ← append_assoc]
    exact perm_append_singleton _ _
  refine ⟨?_, ?_, ?_, sound.lineal, deep_eraseIdx sound, forall_mem_concat sound.prepared fresh⟩
  · have held_ : { w with ids, delegations := w.delegations.eraseIdx k, prepared := w.prepared ++ [child] }.held =
        w.held := by
      rw [← delegations_count.take taken, ← same]
      exact prepared_count.give { w with delegations := w.delegations.eraseIdx k } [child]
    rw [claims, held_]
    exact sound.books
  · exact keys_.nodup_iff.mpr (nodup_cons.mpr ⟨unused, sound.keys⟩)
  · exact below.imp_right fun below other member => below other (keys_.mem_iff.mp member)

theorem Sound.adopt {token : PreparedChild} {child : PoolState} (found : w.pools[i]? = some pool)
    (taken : w.prepared[k]? = some token) (settled : PoolState.commitChild token pool = .ok child next) :
    Sound { w with pools := w.pools.set i next ++ [child], prepared := w.prepared.eraseIdx k } := by
  obtain ⟨credit, rfl, parent, key, pages, shifts⟩ := PoolState.commitChild_ok settled
  have member := mem_of_getElem? taken
  obtain ⟨deep, older, made⟩ := sound.prepared token member
  have apart : token.state.ownerKey ∉ w.pools.map PoolState.ownerKey := by
    intro inside
    exact (nodup_append.mp sound.keys).2.2 _ inside _ (mem_map_of_mem member) rfl
  have keys_ : { w with pools := w.pools.set i next ++ [{ token.state with parentCredit := some credit }],
                        prepared := w.prepared.eraseIdx k }.keys.Perm w.keys := by
    rw [World.keys, World.keys, List.map_append, keys_set found shifts, append_assoc]
    refine .append (.refl _) ?_
    exact ((Multiset.coe_eq_coe.mp (coe_eraseIdx taken)).map fun child => child.state.ownerKey).symm
  have books : Books (w.pools.set i next)
      { w with pools := w.pools.set i next ++ [{ token.state with parentCredit := some credit }],
               prepared := w.prepared.eraseIdx k }.claims := by
    refine sound.books.shift found shifts ?_
    rw [claims, claims, grants_append_child _ rfl, grants_set found shifts, ← add_assoc, add_right_comm,
      add_right_comm _ (grants _)]
    exact congrArg (· + _ + _) (prepared_count.take taken)
  have covers := sound.books.coveredBy (prepared_count.claimed member) (mem_of_getElem? found)
    (shifts.gone _ (Multiset.mem_singleton_self _))
  refine ⟨books.add ?_ ?_ ?_, keys_.nodup_iff.mpr sound.keys, ?_, ?_, sound.delegations, ?_⟩
  · rw [keys_set found shifts]
    exact apart
  · have enough : token.pages ≤ pool.reserved := covers.enough
    have sum := covers.closes.sum
    have fits := covers.closes.fits
    rw [made]
    exact ⟨by dsimp only; omega, by dsimp only; omega⟩
  · intro purpose
    rw [made]
    cases purpose <;> rfl
  · exact sound.minted.imp_right fun below key inside => below key (keys_.mem_iff.mp inside)
  · refine forall_mem_concat (lineal_set sound found shifts) ?_
    rw [← key] at older
    rw [made] at deep older ⊢
    exact .child credit (congrArg some parent.symm) rfl pages deep older
  · exact fun other inside => sound.prepared other (mem_of_mem_eraseIdx inside)

theorem Sound.consumes {credit : Option DelegatedCredit} (found : w.pools[i]? = some pool)
    (consumed : pool.intoParentCredit = .ok credit) :
    Sound { w with pools := w.pools.eraseIdx i, returned := w.returned ++ credit.toList } := by
  obtain ⟨unused, rfl⟩ := PoolState.intoParentCredit_ok consumed
  have keys_ : { w with pools := w.pools.eraseIdx i }.keys.Sublist w.keys := ((eraseIdx_sublist _ _).map _).append (.refl _)
  refine ⟨?_, sound.keys.sublist keys_, ?_, fun other member => ?_, sound.delegations, sound.prepared⟩
  · have same : { w with pools := w.pools.eraseIdx i, returned := w.returned ++ pool.parentCredit.toList }.claims =
        w.claims := by
      rw [claims, claims, ← grants_eraseIdx found, ← add_assoc]
      exact congrArg (· + _) (returned_count.give w pool.parentCredit.toList)
    rw [same]
    exact sound.books.drop found unused
  · exact sound.minted.imp_right fun below key member => below key (keys_.subset member)
  · exact sound.lineal other (mem_of_mem_eraseIdx member)

end

theorem Moves.sound {after : World} (h : Moves w after) (sound : Sound w) : Sound after := by
  cases h with
  | stays => exact sound
  | shifts found shifts pools ids held delegations prepared =>
    exact sound.shift found shifts pools ids held delegations prepared
  | prepares taken made => exact sound.prepares taken made
  | adopts found taken settled => exact sound.adopt found taken settled
  | consumes found consumed => exact sound.consumes found consumed

theorem step_sound (sound : Sound w) (event : Event) : Sound (w.step event) := by
  by_cases opens : ∃ identity total, event = .openRoot identity total
  · obtain ⟨identity, total, rfl⟩ := opens
    rw [step]
    split
    · rename_i made
      exact sound.opens made
    · rename_i refused
      rw [PoolState.root_restrained _ _ _ refused]
      exact sound
  · exact (step_moves sound fun identity total same => opens ⟨identity, total, same⟩).sound sound

theorem run_sound (sound : Sound w) (events : List Event) : Sound (w.run events) := by
  induction events generalizing w with
  | nil => exact sound
  | cons event _ ih => exact ih (step_sound sound event)

end

/-!
Conservation of quota: the pages of a tree are always accounted for, each exactly once.
-/

section

open List World

variable {w : World}

theorem due_map {τ : Type} (claim : τ → Claim) (tokens : List τ) (purpose at_ : Purpose) (key : OwnerKey)
    (all : ∀ token, (claim token).purpose = at_) : due ((tokens : Multiset τ).map claim) purpose key =
      if at_ = purpose then owed (fun token => (claim token).key) (fun token => (claim token).pages) tokens key else 0 := by
  rw [due, owed_map]
  split
  · rename_i same
    refine congrArg (fun s => (Multiset.map _ s).sum) (Multiset.filter_congr fun token _ => ?_)
    simp [Claim.place, all, same]
  · rename_i different
    refine owed_eq_zero fun token _ same => different ?_
    rw [← all token]
    exact congrArg Prod.fst same

def children (w : World) (key : OwnerKey) : List PoolState :=
  w.pools.filter fun pool => pool.parentCredit.map DelegatedCredit.parentKey = some key

/-- The counters of every pool are what its tokens and children come to. -/
structure Conserved (w : World) : Prop where
  closes : ∀ pool ∈ w.pools, pool.available + pool.reserved + pool.allocated + pool.delegated = pool.total
  reserved : ∀ pool ∈ w.pools, pool.reserved =
    owed ChargeReservation.ownerKey ChargeReservation.pages w.charges pool.ownerKey +
    owed DelegationReservation.parentKey DelegationReservation.pages w.delegations pool.ownerKey +
    owed PreparedChild.parentKey PreparedChild.pages w.prepared pool.ownerKey
  allocated : ∀ pool ∈ w.pools, pool.allocated = owed AllocatedCredit.ownerKey AllocatedCredit.pages w.credits pool.ownerKey
  delegated : ∀ pool ∈ w.pools, pool.delegated = ((children w pool.ownerKey).map PoolState.total).sum +
    owed DelegatedCredit.parentKey DelegatedCredit.pages w.returned pool.ownerKey
  depth : ∀ pool ∈ w.pools, 1 ≤ pool.depth ∧ pool.depth ≤ maxDepth

theorem due_held (w : World) (purpose : Purpose) (key : OwnerKey) : due w.held purpose key = match purpose with
    | .reserved => owed ChargeReservation.ownerKey ChargeReservation.pages w.charges key +
      owed DelegationReservation.parentKey DelegationReservation.pages w.delegations key +
      owed PreparedChild.parentKey PreparedChild.pages w.prepared key
    | .allocated => owed AllocatedCredit.ownerKey AllocatedCredit.pages w.credits key
    | .delegated => owed DelegatedCredit.parentKey DelegatedCredit.pages w.returned key := by
  unfold held
  rw [due_add, due_add, due_add, due_add, due_map _ _ _ .reserved _ fun _ => rfl, due_map _ _ _ .reserved _ fun _ => rfl,
    due_map _ _ _ .reserved _ fun _ => rfl, due_map _ _ _ .allocated _ fun _ => rfl,
    due_map _ _ _ .delegated _ fun _ => rfl]
  cases purpose <;> simp [ChargeReservation.claim, DelegationReservation.claim, PreparedChild.claim,
    AllocatedCredit.claim, DelegatedCredit.claim]

theorem due_grants {pools : List PoolState} (lineal : ∀ pool ∈ pools, Lineal pool) (purpose : Purpose) (key : OwnerKey) :
    due (grants pools) purpose key = if .delegated = purpose then
      ((pools.filter fun pool => pool.parentCredit.map DelegatedCredit.parentKey = some key).map PoolState.total).sum
      else 0 := by
  unfold grants
  rw [due_map _ _ _ .delegated _ fun _ => rfl]
  refine if_congr Iff.rfl ?_ rfl
  induction pools with
  | nil => rfl
  | cons pool _ ih =>
    have tail := ih fun other member => lineal other (mem_cons_of_mem _ member)
    cases lineal pool mem_cons_self with
    | root parent credit depth =>
      rw [filterMap_cons, credit, filter_cons, credit]
      simpa using tail
    | child credit _ carries all =>
      rw [filterMap_cons, carries, filter_cons, carries]
      dsimp only
      rw [← Multiset.cons_coe, owed_cons, tail]
      by_cases mine : credit.parentKey = key
      · simp [DelegatedCredit.claim, mine, all]
      · simp [DelegatedCredit.claim, mine]

theorem Sound.conserved (sound : Sound w) : Conserved w := by
  have counted : ∀ pool ∈ w.pools, ∀ purpose, pool.count purpose =
      due w.held purpose pool.ownerKey + due (grants w.pools) purpose pool.ownerKey := by
    intro pool member purpose
    rw [sound.books.balanced pool member, claims, due_add]
  refine ⟨fun pool member => (sound.books.closes pool member).sum, fun pool member => ?_, fun pool member => ?_,
    fun pool member => ?_, fun pool member => (sound.lineal pool member).depth⟩
  · have count := counted pool member .reserved
    rwa [due_held, due_grants sound.lineal, if_neg (by decide), Nat.add_zero] at count
  · have count := counted pool member .allocated
    rwa [due_held, due_grants sound.lineal, if_neg (by decide), Nat.add_zero] at count
  · have count := counted pool member .delegated
    rwa [due_held, due_grants sound.lineal, if_pos rfl, Nat.add_comm] at count

def outstanding (w : World) : Nat := (w.pools.map fun pool => pool.available + pool.reserved + pool.allocated).sum +
  (w.returned.map DelegatedCredit.pages).sum

def roots (w : World) : List PoolState := w.pools.filter fun pool => pool.parentIdentity = none

def delegatedCredits (w : World) : Multiset DelegatedCredit := w.returned + w.pools.filterMap PoolState.parentCredit

theorem Sound.delegated (sound : Sound w) {pool : PoolState} (member : pool ∈ w.pools) :
    pool.delegated = owed DelegatedCredit.parentKey DelegatedCredit.pages (delegatedCredits w) pool.ownerKey := by
  have count := sound.books.balanced pool member .delegated
  rw [claims, due_add, due_held, grants, due_map _ _ _ .delegated _ fun _ => rfl, if_pos rfl] at count
  rw [delegatedCredits, owed_add]
  exact count

theorem Sound.delegated_sum (sound : Sound w) :
    (w.pools.map PoolState.delegated).sum = ((delegatedCredits w).map DelegatedCredit.pages).sum := by
  have inside : ∀ credit ∈ delegatedCredits w, credit.parentKey ∈ (w.pools.map PoolState.ownerKey : Multiset OwnerKey) := by
    intro credit member
    have claimed : credit.claim ∈ w.claims := by
      rcases Multiset.mem_add.mp member with out | held_
      · exact returned_count.claimed out
      · exact Multiset.mem_add.mpr (.inr (Multiset.mem_map_of_mem _ held_))
    obtain ⟨pool, alive, key, _⟩ := sound.books.owned _ claimed
    exact mem_map.mpr ⟨pool, alive, key.symm⟩
  have distinct : (w.pools.map PoolState.ownerKey : Multiset OwnerKey).Nodup := sound.books.distinct
  rw [← sum_owed distinct inside, Multiset.map_coe, map_map, Multiset.sum_coe]
  exact congrArg List.sum (map_congr_left fun pool member => sound.delegated member)

theorem sum_totals {pools : List PoolState} (lineal : ∀ pool ∈ pools, Lineal pool) : (pools.map PoolState.total).sum =
      ((pools.filter fun pool => pool.parentIdentity = none).map PoolState.total).sum +
      ((pools.filterMap PoolState.parentCredit).map DelegatedCredit.pages).sum := by
  induction pools with
  | nil => rfl
  | cons pool _ ih =>
    have tail := ih fun other member => lineal other (mem_cons_of_mem _ member)
    cases lineal pool mem_cons_self with
    | root parent credit depth =>
      simp only [map_cons, sum_cons, filter_cons, parent, decide_true, if_true, filterMap_cons, credit, tail]
      omega
    | child _ parent carries all =>
      simp only [map_cons, sum_cons, filter_cons, parent, reduceCtorEq, decide_false, filterMap_cons,
        carries, tail, all, Bool.false_eq_true, if_false]
      omega

theorem Sound.outstanding (sound : Sound w) : outstanding w = ((roots w).map PoolState.total).sum := by
  have closes : (w.pools.map PoolState.total).sum =
      (w.pools.map fun pool => pool.available + pool.reserved + pool.allocated).sum +
      (w.pools.map PoolState.delegated).sum := by
    rw [← sum_map_add]
    exact congrArg List.sum (map_congr_left fun pool member => (sound.books.closes pool member).sum.symm)
  have delegated := sound.delegated_sum
  rw [delegatedCredits, Multiset.map_add, Multiset.sum_add, Multiset.map_coe, Multiset.map_coe, Multiset.sum_coe,
    Multiset.sum_coe] at delegated
  have totals := sum_totals sound.lineal
  rw [Pool.outstanding, roots]
  omega

theorem roots_set {i : Nat} {pool next : PoolState} {gone made : Multiset Claim} (found : w.pools[i]? = some pool)
    (shifts : Shifts pool next gone made) :
    ((w.pools.set i next).filter fun pool => pool.parentIdentity = none).map PoolState.total =
      (roots w).map PoolState.total := by
  obtain ⟨_, _, same, rfl⟩ := split_at_index found
  have parent : next.parentIdentity = pool.parentIdentity := by rw [shifts.frame]
  have total : next.total = pool.total := by rw [shifts.frame]
  rw [roots, same, set_split, filter_append, filter_append, filter_cons, filter_cons, parent]
  split <;> simp [total]

theorem Moves.roots {after : World} (h : Moves w after) (sound : Sound w) :
    ((roots after).map PoolState.total).Sublist ((roots w).map PoolState.total) := by
  cases h with
  | stays => exact .refl _
  | shifts found shifts pools =>
    rw [Pool.roots, pools, roots_set found shifts]
  | prepares taken made => exact .refl _
  | adopts found taken settled =>
    obtain ⟨_, rfl, _, _, _, shifts⟩ := PoolState.commitChild_ok settled
    have fresh := (sound.prepared _ (mem_of_getElem? taken)).made
    rw [Pool.roots, filter_append, List.map_append, roots_set found shifts, fresh]
    simp
  | consumes => exact ((eraseIdx_sublist _ _).filter _).map _

theorem run_roots (sound : Sound w) {events : List Event} (closed : ∀ identity total, .openRoot identity total ∉ events) :
    ((roots (w.run events)).map PoolState.total).Sublist ((roots w).map PoolState.total) := by
  induction events generalizing w with
  | nil => exact .refl _
  | cons _ _ ih =>
    have moves := step_moves sound fun identity total same => closed identity total (same ▸ mem_cons_self)
    have later := ih (moves.sound sound) fun identity total member => closed identity total (mem_cons_of_mem _ member)
    exact later.trans (moves.roots sound)

structure Settled (w : World) : Prop where
  charges : w.charges = []
  delegations : w.delegations = []
  prepared : w.prepared = []
  credits : w.credits = []
  returned : w.returned = []

theorem Sound.rootless (sound : Sound w) (none_ : roots w = []) : w.pools = [] := by
  have ranked : ∀ n, ∀ pool ∈ w.pools, pool.ownerKey.raw.toNat ≠ n := by
    intro n
    induction n using Nat.strong_induction_on with
    | _ _ ih =>
      rintro pool member rfl
      cases sound.lineal pool member with
      | root parent =>
        have inside : pool ∈ roots w := mem_filter.mpr ⟨member, decide_eq_true parent⟩
        rw [none_] at inside
        cases inside
      | child credit _ carries _ _ older =>
        have granted : credit.claim ∈ grants w.pools := Multiset.mem_map_of_mem _ (mem_filterMap.mpr ⟨pool, member, carries⟩)
        obtain ⟨parent, alive, key, _⟩ := sound.books.owned _ (Multiset.mem_add.mpr (.inr granted))
        have key : parent.ownerKey = credit.parentKey := key.symm
        rw [← key] at older
        exact ih _ (UInt64.lt_iff_toNat_lt.mp older) parent alive rfl
  exact eq_nil_iff_forall_not_mem.mpr fun pool member => ranked _ pool member rfl

theorem Sound.settled (sound : Sound w) (none_ : w.pools = []) : Settled w := by
  have nobody : ∀ claim, claim ∉ w.claims := by
    intro claim member
    obtain ⟨_, alive, _⟩ := sound.books.owned claim member
    rw [none_] at alive
    cases alive
  have empty : ∀ {τ} {shelf : Shelf τ} {claim}, shelf.Counts claim → shelf.tokens w = [] := fun counts =>
    eq_nil_iff_forall_not_mem.mpr fun _ member => nobody _ (counts.claimed member)
  exact ⟨empty charges_count, empty delegations_count, empty prepared_count, empty credits_count, empty returned_count⟩

theorem openRoot_roots (identity : PoolId) (total : UInt64) :
    (roots (World.initial.step (.openRoot identity total))).map PoolState.total = [total.toNat] ∨
      roots (World.initial.step (.openRoot identity total)) = [] := by
  rw [step]
  split
  · rename_i pool ids made
    obtain ⟨key, _, rfl⟩ := PoolState.root_ok made
    exact .inl rfl
  · exact .inr rfl

/-- From one root pool on, the counters of every pool are what its tokens and children come to. The pages are
those of the root until the root is used up, and then nothing is left. -/
theorem quota_conserved (identity : PoolId) (total : UInt64) (events : List Event)
    (single : ∀ identity total, .openRoot identity total ∉ events) :
    let w := World.initial.run (.openRoot identity total :: events)
    Conserved w ∧ (roots w ≠ [] → outstanding w = total.toNat) ∧ (roots w = [] → w.pools = [] ∧ Settled w) := by
  intro w
  have opened : Sound (World.initial.step (.openRoot identity total)) := step_sound initial_sound _
  have sound : Sound w := run_sound opened events
  refine ⟨sound.conserved, fun some_ => ?_, fun none_ => ?_⟩
  · have kept : ((roots w).map PoolState.total).Sublist _ := run_roots opened single
    rw [sound.outstanding]
    rcases openRoot_roots identity total with one | none_
    · rw [one] at kept
      rcases sublist_singleton.mp kept with nothing | same
      · exact (some_ (map_eq_nil_iff.mp nothing)).elim
      · rw [same, sum_singleton]
    · rw [none_] at kept
      exact (some_ (map_eq_nil_iff.mp (sublist_nil.mp kept))).elim
  · have none_ := sound.rootless none_
    exact ⟨none_, sound.settled none_⟩

def rootId : PoolId := ⟨7, by decide⟩

def splitAndDelegate : List Event :=
  [.reserveCharge 0 4, .commitCharge 0 0, .split 0 1, .reserveDelegation 0 3, .prepareChild ⟨8, by decide⟩ 0,
    .commitChild 0 0, .reserveCharge 1 2]

theorem quota_conserved_splitAndDelegate :
    let w := World.initial.run (.openRoot rootId 10 :: splitAndDelegate)
    w.pools.map (fun pool => (pool.available, pool.reserved, pool.allocated, pool.delegated)) =
      [(3, 0, 4, 3), (1, 2, 0, 0)] ∧ Conserved w ∧ outstanding w = 10 := by
  have conserved := quota_conserved rootId 10 splitAndDelegate (by simp [splitAndDelegate])
  exact ⟨by decide +kernel, conserved.1, conserved.2.1 (by decide +kernel)⟩

/-- When the root itself is used up, its pages are no longer anywhere. -/
theorem root_used_up : outstanding (World.initial.run [.openRoot rootId 10, .intoParentCredit 0]) ≠ (10 : UInt64).toNat := by
  decide +kernel

end

/-!
Tokens settle at the pool they are for, and nowhere else: no check that guards against broken books ever
fails.
-/

section

open List World PoolState

variable {w : World}

/-- The token is accepted by the pool with its key, which is alive; every other pool hands it back. -/
def Settles {τ β : Type} (w : World) (use : τ → EStateM (TokenError τ) PoolState β) (key : OwnerKey) (token : τ) : Prop :=
  (∃ pool ∈ w.pools, pool.ownerKey = key ∧ ∃ value next, use token pool = .ok value next) ∧
  ∀ pool : PoolState, pool.ownerKey ≠ key → use token pool = .error ⟨.wrongOwner, token⟩ pool

theorem Sound.covers (sound : Sound w) {claim : Claim} (member : claim ∈ w.claims) :
    ∃ pool ∈ w.pools, pool.ownerKey = claim.key ∧ Covers pool claim := by
  obtain ⟨pool, alive, home⟩ := sound.books.owned claim member
  exact ⟨pool, alive, home.1.symm, sound.books.coveredBy member alive home⟩

theorem Shelf.Counts.settles {τ β : Type} {shelf : Shelf τ} {claim : τ → Claim} {token : τ}
    {use : τ → EStateM (TokenError τ) PoolState β} (counts : shelf.Counts claim) (sound : Sound w)
    (member : token ∈ shelf.tokens w)
    (returns : ∀ {pool}, Covers pool (claim token) → ∃ value next, use token pool = .ok value next)
    (wrong : ∀ {pool : PoolState}, (claim token).key ≠ pool.ownerKey →
      use token pool = .error ⟨.wrongOwner, token⟩ pool) : Settles w use (claim token).key token := by
  obtain ⟨pool, alive, key, covers⟩ := sound.covers (counts.claimed member)
  exact ⟨⟨pool, alive, key, returns covers⟩, fun _ other => wrong (Ne.symm other)⟩

theorem Sound.merge_fits (sound : Sound w) {k j : Nat} {credit other : AllocatedCredit} (apart : k ≠ j)
    (taken : w.credits[k]? = some credit) (taken' : w.credits[j]? = some other)
    (same : credit.ownerKey = other.ownerKey) : credit.pages + other.pages ≤ u64Max := by
  obtain ⟨pool, alive, key, covers⟩ := sound.covers (credits_count.claimed (mem_of_getElem? taken))
  have key : pool.ownerKey = credit.ownerKey := key
  have allocated := sound.conserved.allocated pool alive
  have left : other ∈ (w.credits.eraseIdx k : Multiset _) := mem_eraseIdx_iff_getElem?.mpr ⟨j, Ne.symm apart, taken'⟩
  have part : other.pages ≤ owed AllocatedCredit.ownerKey AllocatedCredit.pages (w.credits.eraseIdx k) other.ownerKey :=
    le_owed left
  rw [coe_eraseIdx taken, owed_add, owed_singleton, key, if_pos rfl, same] at allocated
  have sum := covers.closes.sum
  have fits := covers.closes.fits
  omega

/-- In every state that trees of pools reach, each token settles at its pool and nowhere else, credits merge,
and a child without outstanding pages gives the credit for all of them back. -/
theorem tokens_settle (events : List Event) :
    let w := World.initial.run events
    w.keys.Nodup ∧
    (∀ reservation ∈ w.charges, Settles w PoolState.rollbackCharge reservation.ownerKey reservation ∧
      Settles w PoolState.commitCharge reservation.ownerKey reservation) ∧
    (∀ reservation ∈ w.delegations, Settles w PoolState.rollbackDelegation reservation.parentKey reservation) ∧
    (∀ child ∈ w.prepared, Settles w PoolState.rollbackChild child.parentKey child ∧
      Settles w PoolState.commitChild child.parentKey child) ∧
    (∀ credit ∈ w.credits, Settles w PoolState.returnCharge credit.ownerKey credit) ∧
    (∀ credit ∈ w.returned, Settles w PoolState.returnDelegation credit.parentKey credit) ∧
    (∀ (k j : Nat) (credit other : AllocatedCredit), k ≠ j → w.credits[k]? = some credit → w.credits[j]? = some other →
      credit.ownerKey = other.ownerKey →
      AllocatedCredit.merge other credit = .ok () { credit with pages := credit.pages + other.pages }) ∧
    ∀ pool ∈ w.pools, pool.parentIdentity ≠ none → pool.isFullyAvailable = true →
      ∃ credit, pool.intoParentCredit = .ok (some credit) ∧ credit.pages = pool.total := by
  intro w
  have sound : Sound w := run_sound initial_sound events
  refine ⟨sound.keys, fun _ member => ⟨?_, ?_⟩, fun _ member => ?_, fun _ member => ⟨?_, ?_⟩, fun _ member => ?_,
    fun _ member => ?_, fun k j credit other apart taken taken' same => ?_, fun pool alive child full => ?_⟩
  · exact charges_count.settles sound member (fun covers => ⟨_, _, adapt_run (rollback_returns covers)⟩)
      fun other => adapt_fails (rollback_wrong other)
  · exact charges_count.settles sound member
      (fun covers => ⟨_, _, seq_run (adapt_run (commitReserved_returns .allocated covers))⟩)
      fun other => seq_error (adapt_fails (commitReserved_wrong other))
  · exact delegations_count.settles sound member (fun covers => ⟨_, _, adapt_run (rollback_returns covers)⟩)
      fun other => adapt_fails (rollback_wrong other)
  · exact prepared_count.settles sound member (fun covers => ⟨_, _, adapt_run (rollback_returns covers)⟩)
      fun other => adapt_fails (rollback_wrong other)
  · exact prepared_count.settles sound member
      (fun covers => ⟨_, _, seq_run (adapt_run (commitReserved_returns .delegated covers))⟩)
      fun other => seq_error (adapt_fails (commitReserved_wrong other))
  · exact credits_count.settles sound member (fun covers => ⟨_, _, adapt_run (returnCredit_returns .allocated covers)⟩)
      fun other => adapt_fails (returnCredit_wrong other)
  · exact returned_count.settles sound member (fun covers => ⟨_, _, adapt_run (returnCredit_returns .delegated covers)⟩)
      fun other => adapt_fails (returnCredit_wrong other)
  · exact AllocatedCredit.merge_returns same (sound.merge_fits apart taken taken' same)
  · have returns := PoolState.intoParentCredit_returns (sound.lineal pool alive) full
    cases sound.lineal pool alive with
    | root parent _ _ => exact (child parent).elim
    | child credit _ carries all _ _ => exact ⟨credit, by rw [returns, carries], all⟩

theorem tokens_settle_splitAndDelegate :
    let w := World.initial.run (.openRoot rootId 10 :: splitAndDelegate)
    ∃ reservation ∈ w.charges, Settles w PoolState.rollbackCharge reservation.ownerKey reservation ∧
      ∃ credit ∈ w.credits, Settles w PoolState.returnCharge credit.ownerKey credit := by
  intro w
  have reserved : w.charges ≠ [] := by decide +kernel
  have charged : w.credits ≠ [] := by decide +kernel
  obtain ⟨_, charges, _, _, credits, _⟩ := tokens_settle (.openRoot rootId 10 :: splitAndDelegate)
  exact ⟨_, head_mem reserved, (charges _ (head_mem reserved)).1, _, head_mem charged, credits _ (head_mem charged)⟩

theorem snapshot_returns (events : List Event) : ∀ pool ∈ (World.initial.run events).pools,
    ∃ snapshot, pool.snapshot = .ok snapshot ∧ snapshot.total ≤ u64Max ∧
      snapshot.available + snapshot.reserved + snapshot.allocated + snapshot.delegated = snapshot.total := by
  intro pool alive
  have sound := run_sound initial_sound events
  obtain ⟨sum, fits⟩ := sound.books.closes pool alive
  have word : usizeMax = u64Max := rfl
  have closes : PoolSnapshot.closes ⟨pool.identity, pool.parentIdentity, pool.depth, pool.total, pool.available,
      pool.reserved, pool.allocated, pool.delegated⟩ = true := by
    unfold PoolSnapshot.closes checkedAdd
    dsimp only
    rw [if_pos (by omega), Option.bind_some, if_pos (by omega), Option.bind_some, if_pos (by omega), sum]
    exact beq_self_eq_true _
  exact ⟨_, by rw [PoolState.snapshot, closes]; rfl, fits, sum⟩

theorem snapshot_returns_splitAndDelegate : ∃ pool ∈ (World.initial.run (.openRoot rootId 10 :: splitAndDelegate)).pools,
    ∃ snapshot, pool.snapshot = .ok snapshot ∧ snapshot.total ≤ u64Max ∧
      snapshot.available + snapshot.reserved + snapshot.allocated + snapshot.delegated = snapshot.total := by
  have alive : (World.initial.run (.openRoot rootId 10 :: splitAndDelegate)).pools ≠ [] := by decide +kernel
  exact ⟨_, head_mem alive, snapshot_returns _ _ (head_mem alive)⟩

end

end Halcyon.Pool
