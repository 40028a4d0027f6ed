import Halcyon.Pool.Tokens

/-!
What events do: a pool and the tokens for it change together, or a pool comes or goes.
-/

namespace Halcyon.Pool

open PoolState List

variable {w : World} {i j k : Nat} {pool next : PoolState}

open World

/-- The tokens of a shelf stand for their claims, whatever the other shelves hold. -/
structure Shelf.Counts {τ : Type} (shelf : Shelf τ) (claim : τ → Claim) : Prop where
  held : ∀ (w : World) (tokens : List τ),
    (shelf.store w tokens).held = (shelf.store w []).held + (tokens : Multiset τ).map claim

theorem charges_count : chargeShelf.Counts ChargeReservation.claim where
  held w tokens := by
    simp only [chargeShelf, held, Multiset.coe_nil, Multiset.map_zero]
    abel

theorem delegations_count : delegationShelf.Counts DelegationReservation.claim where
  held w tokens := by
    simp only [delegationShelf, held, Multiset.coe_nil, Multiset.map_zero]
    abel

theorem prepared_count : preparedShelf.Counts PreparedChild.claim where
  held w tokens := by
    simp only [preparedShelf, held, Multiset.coe_nil, Multiset.map_zero]
    abel

theorem credits_count : creditShelf.Counts AllocatedCredit.claim where
  held w tokens := by
    simp only [creditShelf, held, Multiset.coe_nil, Multiset.map_zero]
    abel

theorem returned_count : returnedShelf.Counts DelegatedCredit.claim where
  held w tokens := by
    simp only [returnedShelf, held, Multiset.coe_nil, Multiset.map_zero]
    abel

theorem map_eraseIdx {τ : Type} {tokens : List τ} {token : τ} (claim : τ → Claim) (taken : tokens[k]? = some token) :
    (tokens.eraseIdx k : Multiset τ).map claim + {claim token} = (tokens : Multiset τ).map claim := by
  rw [coe_eraseIdx taken, Multiset.map_add, Multiset.map_singleton, add_comm]

theorem map_append {τ : Type} (tokens : List τ) (token : τ) (claim : τ → Claim) :
    ((tokens ++ [token] : List τ) : Multiset τ).map claim = (tokens : Multiset τ).map claim + {claim token} := by
  rw [← Multiset.coe_add, Multiset.map_add, Multiset.coe_singleton, Multiset.map_singleton]

namespace Shelf.Counts
variable {τ : Type} {shelf : Shelf τ} {claim : τ → Claim} {token : τ}

section

variable (counts : shelf.Counts claim)
include counts

theorem swap (w : World) {tokens : List τ} {gone made : Multiset Claim}
    (same : (tokens : Multiset τ).map claim + gone = (shelf.tokens w : Multiset τ).map claim + made) :
    (shelf.store w tokens).held + gone = w.held + made := by
  rw [counts.held, add_assoc, same, ← add_assoc, ← counts.held, shelf.restores]

theorem take (taken : (shelf.tokens w)[k]? = some token) :
    (shelf.store w ((shelf.tokens w).eraseIdx k)).held + {claim token} = w.held := by
  rw [counts.swap w ((map_eraseIdx claim taken).trans (add_zero _).symm), add_zero]

theorem give (w : World) (more : List τ) :
    (shelf.store w (shelf.tokens w ++ more)).held = w.held + (more : Multiset τ).map claim := by
  have same : ((shelf.tokens w ++ more : List τ) : Multiset τ).map claim + 0 =
      (shelf.tokens w : Multiset τ).map claim + (more : Multiset τ).map claim := by
    rw [add_zero, ← Multiset.coe_add, Multiset.map_add]
  exact (add_zero _).symm.trans (counts.swap w same)

theorem claimed (member : token ∈ shelf.tokens w) : claim token ∈ w.claims := by
  have inside : claim token ∈ (shelf.tokens w : Multiset τ).map claim := Multiset.mem_map_of_mem _ member
  rw [claims, ← shelf.restores w, counts.held, Multiset.mem_add, Multiset.mem_add]
  exact .inl (.inr inside)

end

end Shelf.Counts

theorem deep_eraseIdx (sound : Sound w) : ∀ reservation ∈ w.delegations.eraseIdx k, Deep reservation.childDepth :=
  fun reservation member => sound.delegations reservation (mem_of_mem_eraseIdx member)

/-- A pool and the tokens for it change together, or a child comes or a pool goes. -/
inductive Moves (w : World) : World → Prop where
  | stays : Moves w w
  | shifts {after : World} {i : Nat} {pool next : PoolState} {gone made : Multiset Claim}
    (found : w.pools[i]? = some pool) (shifts : Shifts pool next gone made) (pools : after.pools = w.pools.set i next)
    (ids : after.ids = w.ids) (held : after.held + gone = w.held + made)
    (delegations : ∀ reservation ∈ after.delegations, Deep reservation.childDepth)
    (prepared : after.prepared.Sublist w.prepared) : Moves w after
  | prepares {k : Nat} {identity : PoolId} {reservation : DelegationReservation} {child : PreparedChild} {ids : AtomicId64}
    (taken : w.delegations[k]? = some reservation)
    (made : PoolState.prepareChild identity reservation w.ids = .ok child ids) :
    Moves w { w with ids, delegations := w.delegations.eraseIdx k, prepared := w.prepared ++ [child] }
  | adopts {i k : Nat} {pool next child : PoolState} {token : PreparedChild} (found : w.pools[i]? = some pool)
    (taken : w.prepared[k]? = some token) (settled : PoolState.commitChild token pool = .ok child next) :
    Moves w { w with pools := w.pools.set i next ++ [child], prepared := w.prepared.eraseIdx k }
  | consumes {i : Nat} {pool : PoolState} {credit : Option DelegatedCredit} (found : w.pools[i]? = some pool)
    (consumed : pool.intoParentCredit = .ok credit) :
    Moves w { w with pools := w.pools.eraseIdx i, returned := w.returned ++ credit.toList }

theorem reserveCharge_moves (sound : Sound w) (i pages : Nat) : Moves w (w.step (.reserveCharge i pages)) := by
  rw [step]
  split
  · exact .stays
  rename_i pool found
  split
  · rename_i reservation next reserved
    refine .shifts found (reserveCharge_ok reserved) rfl rfl ?_ sound.delegations (.refl _)
    exact (add_zero _).trans (charges_count.give w [reservation])
  · rename_i error next refused
    rw [reserveCharge_restrained _ _ _ refused, setPool_same found]
    exact .stays

theorem Lineal.depth (lineal : Lineal pool) : 1 ≤ pool.depth ∧ pool.depth ≤ maxDepth := by
  cases lineal with
  | root _ _ depth => rw [depth, maxDepth]; omega
  | child _ _ _ _ depth _ => exact ⟨Nat.le_of_lt depth.1, depth.2⟩

section

variable (sound : Sound w)
include sound

theorem reserveDelegation_moves (i pages : Nat) : Moves w (w.step (.reserveDelegation i pages)) := by
  rw [step]
  split
  · exact .stays
  rename_i pool found
  split
  · rename_i reservation next reserved
    have depth := (sound.lineal pool (mem_of_getElem? found)).depth
    obtain ⟨shifts, deep⟩ := reserveDelegation_ok depth.1 reserved
    refine .shifts found shifts rfl rfl ?_ (forall_mem_concat sound.delegations deep) (.refl _)
    exact (add_zero _).trans (delegations_count.give w [reservation])
  · rename_i error next refused
    rw [reserveDelegation_restrained _ _ _ refused, setPool_same found]
    exact .stays

theorem rollbackCharge_moves (i k : Nat) : Moves w (w.step (.rollbackCharge i k)) := by
  rw [step]
  refine present_cases rollbackCharge_refuses .stays fun pool token _ next found taken settled => ?_
  refine .shifts found (rollback_ok (adapt_ok settled)) rfl rfl ?_ sound.delegations (.refl _)
  exact (charges_count.take taken).trans (add_zero _).symm

theorem rollbackDelegation_moves (i k : Nat) : Moves w (w.step (.rollbackDelegation i k)) := by
  rw [step]
  refine present_cases rollbackDelegation_refuses .stays fun pool token _ next found taken settled => ?_
  refine .shifts found (rollback_ok (adapt_ok settled)) rfl rfl ?_ (deep_eraseIdx sound) (.refl _)
  exact (delegations_count.take taken).trans (add_zero _).symm

theorem rollbackChild_moves (i k : Nat) : Moves w (w.step (.rollbackChild i k)) := by
  rw [step]
  refine present_cases rollbackChild_refuses .stays fun pool token _ next found taken settled => ?_
  refine .shifts found (rollback_ok (adapt_ok settled)) rfl rfl ?_ sound.delegations (eraseIdx_sublist _ _)
  exact (prepared_count.take taken).trans (add_zero _).symm

theorem returnCharge_moves (i k : Nat) : Moves w (w.step (.returnCharge i k)) := by
  rw [step]
  refine present_cases returnCharge_refuses .stays fun pool token _ next found taken settled => ?_
  refine .shifts found (returnCredit_ok (adapt_ok settled)) rfl rfl ?_ sound.delegations (.refl _)
  exact (credits_count.take taken).trans (add_zero _).symm

theorem returnDelegation_moves (i k : Nat) : Moves w (w.step (.returnDelegation i k)) := by
  rw [step]
  refine present_cases returnDelegation_refuses .stays fun pool token _ next found taken settled => ?_
  refine .shifts found (returnCredit_ok (adapt_ok settled)) rfl rfl ?_ sound.delegations (.refl _)
  exact (returned_count.take taken).trans (add_zero _).symm

theorem commitCharge_moves (i k : Nat) : Moves w (w.step (.commitCharge i k)) := by
  rw [step]
  refine present_cases commitCharge_refuses .stays fun pool token credit next found taken settled => ?_
  refine .shifts found (commitCharge_ok settled) rfl rfl ?_ sound.delegations (.refl _)
  rw [← charges_count.take taken, add_right_comm]
  exact congrArg (· + _) (credits_count.give { w with charges := w.charges.eraseIdx k } [credit])

end

theorem Moves.recut {credits : List AllocatedCredit} (gone made : Multiset Claim) {pool : PoolState} (sound : Sound w)
    (inside : pool ∈ w.pools) (same : (credits : Multiset _).map AllocatedCredit.claim + gone =
      (w.credits : Multiset _).map AllocatedCredit.claim + made)
    (equal : ∀ purpose key, due gone purpose key = due made purpose key)
    (left : ∀ claim ∈ gone, At pool claim) (right : ∀ claim ∈ made, At pool claim) :
    Moves w { w with credits } := by
  obtain ⟨i, found⟩ := getElem?_of_mem inside
  have shifts : Shifts pool pool gone made := ⟨rfl, rfl, fun purpose => by rw [equal], left, right⟩
  refine .shifts found shifts (set_same found).symm rfl ?_ sound.delegations (.refl _)
  exact credits_count.swap w same

theorem due_cut (purpose at_ : Purpose) (key mine : OwnerKey) (owner : PoolId) (m n : Nat) :
    due {⟨at_, mine, owner, m + n⟩} purpose key = due ({⟨at_, mine, owner, m⟩} + {⟨at_, mine, owner, n⟩}) purpose key := by
  rw [due_add, due_one, due_one, due_one]
  by_cases here : at_ = purpose ∧ mine = key
  · rw [if_pos here, if_pos here, if_pos here]
  · rw [if_neg here, if_neg here, if_neg here]

theorem map_set {τ : Type} {tokens : List τ} {token : τ} (claim : τ → Claim) (taken : tokens[k]? = some token) (other : τ) :
    (tokens.set k other : Multiset τ).map claim + {claim token} = (tokens : Multiset τ).map claim + {claim other} := by
  rw [coe_set taken, coe_eraseIdx taken, Multiset.map_add, Multiset.map_add, Multiset.map_singleton, Multiset.map_singleton]
  abel

theorem split_moves (sound : Sound w) (k pages : Nat) : Moves w (w.step (.split k pages)) := by
  rw [step]
  split
  · exact .stays
  rename_i credit taken
  split
  · rename_i part rest cut
    obtain ⟨positive, less, rfl, rfl⟩ := AllocatedCredit.split_ok cut
    let rest : AllocatedCredit := { credit with pages := credit.pages - pages }
    let part : AllocatedCredit := { credit with pages }
    obtain ⟨pool, inside, key, owner, _⟩ := sound.books.owned _ (credits_count.claimed (mem_of_getElem? taken))
    have restAt : At pool rest.claim := ⟨key, owner, Nat.sub_pos_of_lt less⟩
    have partAt : At pool part.claim := ⟨key, owner, positive⟩
    refine .recut {credit.claim} ({rest.claim} + {part.claim}) sound inside ?_ ?_ ?_ ?_
    · have cut := map_set AllocatedCredit.claim taken rest
      rw [map_append, add_right_comm, cut, add_assoc]
    · intro purpose at_
      have whole : credit.claim = ⟨.allocated, credit.ownerKey, credit.owner, rest.pages + part.pages⟩ := by
        rw [Nat.sub_add_cancel (Nat.le_of_lt less)]
        rfl
      rw [whole]
      exact due_cut _ _ _ _ _ _ _
    · intro claim member
      cases Multiset.mem_singleton.mp member
      exact ⟨key, owner, Nat.lt_of_le_of_lt (Nat.zero_le _) less⟩
    · intro claim member
      rcases Multiset.mem_add.mp member with one | one <;> cases Multiset.mem_singleton.mp one
      · exact restAt
      · exact partAt
  · rename_i error rest refused
    rw [AllocatedCredit.split_restrained _ _ _ refused, set_same taken]
    exact .stays

theorem map_merge {credits : List AllocatedCredit} {credit other merged : AllocatedCredit} (apart : k ≠ j)
    (taken : credits[k]? = some credit) (taken' : credits[j]? = some other) :
    ((credits.set k merged).eraseIdx j : Multiset _).map AllocatedCredit.claim + ({credit.claim} + {other.claim}) =
      (credits : Multiset _).map AllocatedCredit.claim + {merged.claim} := by
  have still : (credits.set k merged)[j]? = some other := (getElem?_set_ne apart).trans taken'
  rw [add_comm ({credit.claim} : Multiset Claim), ← add_assoc, map_eraseIdx _ still, map_set _ taken]

theorem merge_moves (sound : Sound w) (k j : Nat) : Moves w (w.step (.merge k j)) := by
  rw [step]
  split
  · rename_i credit other taken taken'
    split
    · exact .stays
    rename_i apart
    split
    · rename_i rest merged
      obtain ⟨same, rfl⟩ := AllocatedCredit.merge_ok merged
      obtain ⟨pool, inside, key, owner, positive⟩ := sound.books.owned _ (credits_count.claimed (mem_of_getElem? taken))
      obtain ⟨pool', inside', home'⟩ := sound.books.owned _ (credits_count.claimed (mem_of_getElem? taken'))
      have one : pool' = pool := sound.books.unique inside' inside (by rw [← home'.1, ← key]; exact same.symm)
      rw [one] at home'
      refine .recut ({credit.claim} + {other.claim})
        {AllocatedCredit.claim { credit with pages := credit.pages + other.pages }} sound inside
        (map_merge apart taken taken') ?_ ?_ ?_
      · intro purpose at_
        have its : other.claim = ⟨.allocated, credit.ownerKey, credit.owner, other.pages⟩ := by
          rw [AllocatedCredit.claim, same, show other.owner = credit.owner from home'.2.1.trans owner.symm]
        rw [its]
        exact (due_cut _ _ _ _ _ _ _).symm
      · intro claim member
        rcases Multiset.mem_add.mp member with one | one <;> cases Multiset.mem_singleton.mp one
        · exact ⟨key, owner, positive⟩
        · exact home'
      · intro claim member
        cases Multiset.mem_singleton.mp member
        exact ⟨key, owner, Nat.add_pos_left positive _⟩
    · rename_i failure rest refused
      obtain ⟨rfl, rfl⟩ := AllocatedCredit.merge_refused refused
      rw [set_same taken, set_same taken']
      exact .stays
  · exact .stays

theorem prepareChild_moves (w : World) (identity : PoolId) (k : Nat) : Moves w (w.step (.prepareChild identity k)) := by
  rw [step]
  split
  · exact .stays
  rename_i reservation taken
  split
  · rename_i child ids made
    exact .prepares taken made
  · rename_i failure ids refused
    obtain ⟨rfl, rfl⟩ := prepareChild_refused refused
    rw [set_same taken]
    exact .stays

theorem commitChild_moves (w : World) (i k : Nat) : Moves w (w.step (.commitChild i k)) := by
  rw [step]
  refine present_cases commitChild_refuses .stays fun pool token child next found taken settled => ?_
  exact .adopts found taken settled

theorem intoParentCredit_moves (w : World) (i : Nat) : Moves w (w.step (.intoParentCredit i)) := by
  rw [step]
  split
  · exact .stays
  rename_i pool found
  split
  · rename_i credit consumed
    exact .consumes found consumed
  · rename_i failure refused
    rw [intoParentCredit_refused refused, setPool_same found]
    exact .stays

theorem step_moves (sound : Sound w) {event : Event} (closed : ∀ identity total, event ≠ .openRoot identity total) :
    Moves w (w.step event) := by
  cases event with
  | openRoot identity total => exact (closed identity total rfl).elim
  | reserveCharge i pages => exact reserveCharge_moves sound i pages
  | reserveDelegation i pages => exact reserveDelegation_moves sound i pages
  | prepareChild identity k => exact prepareChild_moves w identity k
  | commitCharge i k => exact commitCharge_moves sound i k
  | commitChild i k => exact commitChild_moves w i k
  | rollbackCharge i k => exact rollbackCharge_moves sound i k
  | rollbackDelegation i k => exact rollbackDelegation_moves sound i k
  | rollbackChild i k => exact rollbackChild_moves sound i k
  | split k pages => exact split_moves sound k pages
  | merge k j => exact merge_moves sound k j
  | returnCharge i k => exact returnCharge_moves sound i k
  | returnDelegation i k => exact returnDelegation_moves sound i k
  | intoParentCredit i => exact intoParentCredit_moves w i

end Halcyon.Pool
