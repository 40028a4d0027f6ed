import Halcyon.Space.Guarantees

/-!
Reserving and rolling back are exact: a refused plan changes nothing, and a rollback takes out what its
own reservation put in, whatever the other changes did in between.
-/

namespace Halcyon.Space

open List

variable {w next : World} {x : Request × PreparedChange} {record : TransactionRecord}

/-- As long as the caller holds the token `x`, its record is in the ledger as it was written. -/
structure Recorded (x : Request × PreparedChange) (record : TransactionRecord) (w : World) : Prop where
  sound : w.Sound
  issued : x.2.key.value < w.space.nextChange
  live : x ∈ w.prepared → record ∈ w.space.transactions

theorem Recorded.replaced {pre post : List TransactionRecord} {gone : TransactionRecord} (h : Recorded x record w)
    (transactions : w.space.transactions = pre ++ gone :: post) (sound : next.Sound)
    (counter : next.space.nextChange = w.space.nextChange) (held : ∀ y ∈ next.prepared, y ∈ w.prepared)
    (other : x ∈ next.prepared → record ≠ gone)
    (kept : ∀ y ∈ pre ++ post, y ∈ next.space.transactions) : Recorded x record next := by
  refine ⟨sound, counter ▸ h.issued, fun member => kept record ?_⟩
  have live := h.live (held x member)
  rw [transactions] at live
  simpa [other member] using live

theorem Recorded.step (key : record.key = x.2.key) (reserved : record.stage = .reserved) (h : Recorded x record w)
    {event : Event} (step : w.step event = .ok next) : Recorded x record next := by
  have sound := step_sound h.sound step
  cases step_cases step with
  | stay => exact h
  | validated | discarded | refused | popped token same | parted token | drained =>
    exact ⟨sound, h.issued, h.live⟩
  | reserved token effect =>
    obtain ⟨_, _, rfl⟩ := effect.ledger
    refine ⟨sound, Nat.lt_succ_of_lt h.issued, fun member => ?_⟩
    rcases mem_append.mp member with old | new
    · exact mem_append_left _ (h.live old)
    · -- the counter has passed the key of `x`, so a new token is another one
      have issued := h.issued
      rw [mem_singleton.mp new, effect.key] at issued
      exact (Nat.lt_irrefl _ issued).elim
  | rolledBack token transactions same stage =>
    refine h.replaced transactions sound rfl (fun _ => mem_token token) (fun member equal => ?_) fun _ => id
    exact h.sound.prepared_key_ne token member (by rw [← key, equal, same])
  | committed token effect =>
    obtain ⟨_, _, rfl⟩ := effect.ledger
    refine h.replaced effect.transactions sound rfl (fun _ => mem_token token) (fun member equal => ?_)
      fun _ => mem_replaced
    exact h.sound.prepared_key_ne token member (by rw [← key, equal, effect.key])
  | advanced token order transactions same stage =>
    refine h.replaced transactions sound rfl (fun _ => id) (fun _ equal => ?_) fun _ => mem_replaced
    rw [← stage, ← equal, reserved] at order
    rcases order with ⟨order, _⟩ | ⟨order, _⟩ | ⟨order, _⟩ <;> cases order
  | began token transactions same stage =>
    refine h.replaced transactions sound rfl (fun _ => id) (fun _ equal => ?_) fun _ => mem_replaced
    rw [← equal, reserved] at stage
    cases stage
  | completed _ transactions _ stage =>
    refine h.replaced transactions sound rfl (fun _ => id) (fun _ equal => ?_) fun _ => id
    rw [← equal, reserved] at stage
    cases stage

theorem Recorded.rollback (h : Recorded x record w) (key : record.key = x.2.key)
    (reserved : record.stage = .reserved) (member : x ∈ w.prepared) :
    ∃ pre post growth, w.space.transactions = pre ++ record :: post ∧ (∀ y ∈ pre ++ post, y.key ≠ x.2.key) ∧
      growth + record.reservedGrowth = w.space.reservedGrowth ∧
      w.space.rollback x.2 = .ok ({ w.space with transactions := pre ++ post, reservedGrowth := growth },
        x.2.permits ++ x.2.plan.replacements.filterMap Region.permit) := by
  have live := h.live member
  obtain ⟨⟨_, _⟩, undone⟩ := rollback_returns h.sound.ledger.growth
    (mem_map.mpr ⟨record, live, by rw [key, reserved]⟩)
  obtain ⟨pre, found, post, growth, transactions, same, _, less, rfl, rfl⟩ := rollback_ok undone
  have distinct := h.sound.changeKeys
  rw [transactions, map_append, map_cons, nodup_middle, ← map_append, nodup_cons] at distinct
  have others : ∀ y ∈ pre ++ post, y.key ≠ x.2.key := fun y listed equal =>
    distinct.1 (same ▸ equal ▸ mem_map_of_mem listed)
  rw [transactions] at live
  have equal : record = found := by
    by_contra other
    exact others record (by simpa [other] using live) key
  subst equal
  exact ⟨pre, post, growth, transactions, others, less, undone⟩

/-- A plan that is refused leaves the ledger and every token as they are and comes back with its permits. A
reservation that is rolled back, after any run that leaves it with its caller, takes its own record and growth out
of the ledger and nothing else, and returns the permits it was given. -/
theorem reserve_rollback_exact :
    (∀ (w : World) (i : Nat) (heap : Heap) (permits : List WritePermit) (request : Request) (v : ValidatedChange)
        (failure : ReserveFailure) (space : MemorySpace), w.validated[i]? = some (request, v) →
      w.space.reserve heap v permits = .error (.error failure) space →
      space = w.space ∧ failure.validated = v ∧ failure.permits = permits ∧ w.step (.reserve i heap permits) =
        .ok { w with supplied := w.supplied ++ permits, returned := w.returned ++ permits }) ∧
    ∀ (w later : World) (i : Nat) (heap : Heap) (permits : List WritePermit) (request : Request) (v : ValidatedChange)
        (space : MemorySpace) (p : PreparedChange) (events : List Event), w.Reachable →
      w.validated[i]? = some (request, v) → w.space.reserve heap v permits = .ok p space →
      runEvents World.step w (.reserve i heap permits :: events) = .ok later → (request, p) ∈ later.prepared →
      ∃ pre post record growth permits', later.space.transactions = pre ++ record :: post ∧
        record = ⟨p.key, v.plan.footprint, v.lease.map (·.1), .reserved, v.growth⟩ ∧
        (∀ other ∈ pre ++ post, other.key ≠ p.key) ∧ growth + v.growth = later.space.reservedGrowth ∧
        later.space.rollback p = .ok ({ later.space with transactions := pre ++ post, reservedGrowth := growth }, permits') ∧
        permits'.Perm permits := by
  constructor
  · intro w i heap permits request v failure space found refused
    obtain ⟨⟨same, back⟩, rfl⟩ := reserve_refuses _ _ _ refused
    obtain ⟨before, after, token, rfl⟩ := split_at_index found
    refine ⟨rfl, same, back, ?_⟩
    rw [World.step, found]
    dsimp only
    rw [refused, conclude, same, back, token, set_split]
    rfl
  · intro w later i heap permits request v space p events reachable found made run member
    have effect := reserve_ok made
    have first : w.step (.reserve i heap permits) = .ok { w with
        space
        validated := w.validated.eraseIdx i
        prepared := w.prepared ++ [(request, p)]
        supplied := w.supplied ++ permits } := by
      rw [World.step, found]
      dsimp only
      rw [made, conclude]
      rfl
    obtain ⟨_, begun, run⟩ := bind_ok run
    cases first.symm.trans begun
    obtain ⟨nextAllocation, nextRegion, ledger⟩ := effect.ledger
    have key : (⟨⟨w.space.nextChange⟩, v.plan.footprint, v.lease.map (·.1), .reserved, v.growth⟩ :
        TransactionRecord).key = p.key := effect.key.symm
    have start : Recorded (request, p)
        ⟨⟨w.space.nextChange⟩, v.plan.footprint, v.lease.map (·.1), .reserved, v.growth⟩ _ :=
      ⟨step_sound (reachable_sound reachable) first, by rw [effect.key, ledger]; exact Nat.lt_succ_self _,
        fun _ => by rw [ledger]; exact mem_append_right _ mem_cons_self⟩
    have recorded := run_invariant (fun _ _ _ h step => h.step key rfl step) start run
    obtain ⟨pre, post, growth, transactions, others, less, undone⟩ := recorded.rollback key rfl member
    refine ⟨pre, post, _, growth, _, transactions, by rw [effect.key], others, less, undone, ?_⟩
    exact perm_append_comm.trans effect.supplied.symm

/-- Two plans for the same pages are held, and only one of them can be reserved. -/
def rivals : List Event := [.validate plenty (.map (privatePages 16 2 none)), .validate plenty (.map (privatePages 17 2 none))]

def oneRefused (w : World) : Bool := w.validated[0]?.any fun x =>
  match w.space.reserve plenty x.2 [] with
  | .error _ _ => false
  | .ok p _ => returnsWith (runEvents World.step w [.reserve 0 plenty []]) fun later =>
      decide ((x.1, p) ∈ later.prepared) && later.validated[0]?.any fun y =>
        match later.space.reserve plenty y.2 [] with
        | .error (.error _) _ => true
        | _ => false

theorem reserve_rollback_exact_rivals : ∃ w later request p v failure space,
    runEvents World.step (World.start smallSpace) rivals = .ok w ∧
    runEvents World.step w [.reserve 0 plenty []] = .ok later ∧ (request, p) ∈ later.prepared ∧
    later.space.reserve plenty v [] = .error (.error failure) space ∧ space = later.space ∧ failure.validated = v ∧
    ∃ pre post growth, later.space.rollback p =
      .ok ({ later.space with transactions := pre ++ post, reservedGrowth := growth }, []) := by
  obtain ⟨w, run, test⟩ := returnsWith_ok (runEvents World.step (World.start smallSpace) rivals) oneRefused (by decide +kernel)
  obtain ⟨⟨request, v⟩, found, test⟩ := Option.any_eq_true _ _ |>.mp test
  cases made : w.space.reserve plenty v [] with
  | error stop space => simp [made] at test
  | ok p space =>
    simp only [made] at test
    obtain ⟨later, rest, test⟩ := returnsWith_ok _ _ test
    rw [Bool.and_eq_true, decide_eq_true_iff] at test
    obtain ⟨member, test⟩ := test
    obtain ⟨⟨_, other⟩, second, test⟩ := Option.any_eq_true _ _ |>.mp test
    dsimp only at test
    split at test
    · rename_i failure space' refused
      obtain ⟨kept, back, _⟩ := reserve_rollback_exact.1 later 0 plenty [] _ other failure space' second refused
      obtain ⟨pre, post, _, growth, permits, _, _, _, _, undone, none_⟩ := reserve_rollback_exact.2 w later 0 plenty []
        request v space p [] (reachable_small run) found made rest member
      rw [none_.eq_nil] at undone
      exact ⟨w, later, request, p, other, failure, space', run, rest, member, refused, kept, back, pre, post, growth, undone⟩
    · cases test

end Halcyon.Space
