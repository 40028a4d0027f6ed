import Halcyon.Space.Guarantees

/-!
Automatic placement is lowest first fit: the search returns the lowest free range of the size it is asked for,
and a Map that leaves its place open takes that range.
-/

namespace Halcyon.Space

open PageRange List

/-- A range of `bytes` between two addresses that meets no obstacle. -/
structure Hole (obstacles : List PageRange) (low high bytes : Nat) (r : PageRange) : Prop where
  size : r.end_ = r.start + bytes
  low : low ≤ r.start
  high : r.end_ ≤ high
  clear : ∀ o ∈ obstacles, o.overlaps r = false

/-- The search returns the lowest hole, or it fails and there is none. -/
def Searches (obstacles : List PageRange) (low high bytes : Nat) (x : Outcome ChangeError PageRange) : Prop :=
  (∃ r, x = .ok r ∧ Hole obstacles low high bytes r ∧ ∀ other, Hole obstacles low high bytes other → r.start ≤ other.start) ∨
    (∃ reason, x = .error (.error reason)) ∧ ∀ r, ¬Hole obstacles low high bytes r

section
variable {obstacles : List PageRange} {low high bytes : Nat} {o r : PageRange} {x : Outcome ChangeError PageRange}

theorem hole_past (blocked : ¬(low < o.start ∧ bytes ≤ o.start - low)) :
    Hole (o :: obstacles) low high bytes r ↔ Hole obstacles (max low o.end_) high bytes r := by
  have nonempty := r.start_lt_end
  constructor
  · intro ⟨size, above, below, clear⟩
    have apart := overlaps_false_iff.mp (clear o mem_cons_self)
    exact ⟨size, by omega, below, fun other member => clear other (mem_cons_of_mem _ member)⟩
  · intro ⟨size, above, below, clear⟩
    have behind : o.end_ ≤ r.start := by omega
    exact ⟨size, by omega, below, forall_mem_cons.mpr ⟨overlaps_false_iff.mpr (.inl behind), clear⟩⟩

theorem Searches.past (blocked : ¬(low < o.start ∧ bytes ≤ o.start - low))
    (h : Searches obstacles (max low o.end_) high bytes x) : Searches (o :: obstacles) low high bytes x := by
  simpa only [Searches, hole_past blocked] using h

theorem new_searches (aligned : pageSize ∣ low) (whole : pageSize ∣ bytes) (word : high ≤ usizeMax)
    (fits : low + bytes ≤ high) (clear : ∀ o ∈ obstacles, low + bytes ≤ o.start) :
    Searches obstacles low high bytes (liftRange (PageRange.new low bytes)) := by
  have tests : (low % pageSize != 0 || bytes % pageSize != 0) = false := by
    simp [Nat.mod_eq_zero_of_dvd aligned, Nat.mod_eq_zero_of_dvd whole]
  rw [new, pass_check tests, AddressRange.new]
  rcases Nat.eq_zero_or_pos bytes with rfl | positive
  · refine .inr ⟨⟨.range .empty, rfl⟩, fun r hole => ?_⟩
    have nonempty := r.start_lt_end
    have size := hole.size
    omega
  · have room : low < low + bytes := by omega
    have sum : checkedAdd low bytes = some (low + bytes) := if_pos (by omega)
    have ends := Nat.dvd_add aligned whole
    rw [pass_check (beq_false_of_ne (Nat.ne_of_gt positive)), sum]
    show Searches _ _ _ _ (liftRange (AddressRange.fromBounds low (low + bytes) >>= fromAligned))
    rw [AddressRange.fromBounds, dif_pos room, ok_bind, fromAligned, dif_pos ⟨aligned, ends⟩]
    exact .inl ⟨_, rfl, ⟨rfl, Nat.le_refl _, fits, fun o member => overlaps_false_iff.mpr
      (.inr (clear o member))⟩, fun other hole => hole.low⟩

theorem holeFrom_searches (s : MemorySpace) (aligned : pageSize ∣ low) (whole : pageSize ∣ bytes)
    (word : s.bounds.end_ ≤ usizeMax) (sorted : obstacles.Pairwise fun x y => x.start ≤ y.start)
    (inside : ∀ o ∈ obstacles, o.end_ ≤ s.bounds.end_) :
    Searches obstacles low s.bounds.end_ bytes (s.holeFrom bytes low obstacles) := by
  induction obstacles generalizing low with
  | nil =>
    rw [MemorySpace.holeFrom]
    by_cases fits : low + bytes ≤ s.bounds.end_
    · have sum : checkedAdd low bytes = some (low + bytes) := if_pos (by omega)
      rw [sum]
      show Searches _ _ _ _ (ite _ _ _)
      rw [if_pos fits]
      exact new_searches aligned whole word fits fun _ member => by cases member
    · have full : ∀ r, ¬Hole [] low s.bounds.end_ bytes r := by
        rintro r ⟨size, above, below, _⟩
        omega
      unfold checkedAdd
      split
      · exact .inr ⟨⟨.conflict, if_neg fits⟩, full⟩
      · exact .inr ⟨⟨.range .overflow, rfl⟩, full⟩
  | cons o rest ih =>
    obtain ⟨first, sorted⟩ := pairwise_cons.mp sorted
    obtain ⟨mine, inside⟩ := forall_mem_cons.mp inside
    have nonempty := o.start_lt_end
    rw [MemorySpace.holeFrom]
    split
    · rename_i passed
      have later := ih aligned sorted inside
      refine Searches.past (by omega) ?_
      rwa [Nat.max_eq_left passed]
    split
    · rename_i room
      rw [Bool.and_eq_true, decide_eq_true_eq, decide_eq_true_eq] at room
      refine new_searches aligned whole word (by omega) (forall_mem_cons.mpr ⟨by omega, fun other member => ?_⟩)
      have := first other member
      omega
    · rename_i blocked
      rw [Bool.and_eq_true, decide_eq_true_eq, decide_eq_true_eq] at blocked
      exact Searches.past blocked (ih (dvd_max aligned o.end_aligned) sorted inside)

end

theorem footprints_replaced {bounds : PageRange} {pre post : List TransactionRecord} {record replaced : TransactionRecord}
    (h : ∀ x ∈ pre ++ record :: post, bounds.contains x.footprint = true) (same : replaced.footprint = record.footprint) :
    ∀ x ∈ pre ++ replaced :: post, bounds.contains x.footprint = true :=
  forall_replaced h (same ▸ h record (mem_append_right _ mem_cons_self))

structure World.Enclosed (w : World) : Prop where
  sound : w.Sound
  validated : ∀ x ∈ w.validated, w.space.bounds.contains x.2.plan.footprint = true
  recorded : ∀ record ∈ w.space.transactions, w.space.bounds.contains record.footprint = true

theorem World.Enclosed.step {w next : World} {event : Event} (enclosed : w.Enclosed) (h : w.step event = .ok next) :
    next.Enclosed := by
  obtain ⟨sound, validated, recorded⟩ := enclosed
  have after := step_sound sound h
  cases step_cases h with
  | stay => exact ⟨after, validated, recorded⟩
  | validated accepted =>
    obtain ⟨_, _, _, _, _, ordered⟩ := validate_planned sound.ledger accepted
    refine ⟨after, fun x member => ?_, recorded⟩
    rcases mem_append.mp member with old | new
    · exact validated x old
    · rw [mem_singleton.mp new]
      exact contains_iff.mpr ordered.inside
  | discarded => exact ⟨after, fun x member => validated x (mem_of_mem_eraseIdx member), recorded⟩
  | refused | popped token | parted token | drained => exact ⟨after, validated, recorded⟩
  | @reserved _ request v _ _ _ before rest token effect =>
    obtain ⟨_, _, rfl⟩ := effect.ledger
    rw [token] at validated
    refine ⟨after, fun x member => validated x ?_, fun record member => ?_⟩
    · simp only [mem_append, mem_cons] at member ⊢
      tauto
    · rcases mem_append.mp member with old | new
      · exact recorded record old
      · rw [mem_singleton.mp new]
        exact validated (request, v) (mem_append_right _ mem_cons_self)
  | rolledBack token transactions => exact ⟨after, validated, forall_erased (transactions ▸ recorded)⟩
  | committed token effect =>
    obtain ⟨_, _, rfl⟩ := effect.ledger
    rw [effect.transactions] at recorded
    exact ⟨after, validated, footprints_replaced recorded rfl⟩
  | advanced token _ transactions | began token transactions =>
    rw [transactions] at recorded
    exact ⟨after, validated, footprints_replaced recorded rfl⟩
  | completed _ transactions => exact ⟨after, validated, forall_erased (transactions ▸ recorded)⟩

theorem reachable_enclosed {w : World} (h : w.Reachable) : w.Enclosed := by
  obtain ⟨_, _, _, space, _, made, run⟩ := h
  have start : (World.start space).Enclosed := by
    refine ⟨start_sound made, by simp [World.start], ?_⟩
    rw [MemorySpace.new_ok made]
    simp [World.start]
  exact run_invariant (fun _ _ _ enclosed step => World.Enclosed.step enclosed step) start run

namespace MemorySpace

/-- The range has this size, lies within the bounds, and meets no region and no footprint. -/
def Free (s : MemorySpace) (bytes : Nat) (r : PageRange) : Prop :=
  r.end_ = r.start + bytes ∧ s.bounds.contains r = true ∧ s.rangeEmpty r = true

def Lowest (s : MemorySpace) (bytes : Nat) (r : PageRange) : Prop :=
  s.Free bytes r ∧ ∀ other, s.Free bytes other → r.start ≤ other.start

def Lists (s : MemorySpace) (heap : Heap) : Prop :=
  ∃ capacity, checkedAdd s.regions.length s.transactions.length = some capacity ∧
    heap.tryReserve .obstacles capacity = .ok ()

variable {s : MemorySpace} {heap : Heap} {bytes : Nat}

theorem hole_iff_free {r : PageRange} : Hole (sortByKey (·.start) (s.regions.map (·.range) ++
    s.transactions.map (·.footprint))) s.bounds.start s.bounds.end_ bytes r ↔ s.Free bytes r := by
  have listed := fun o : PageRange => (sortByKey_perm (·.start) (s.regions.map (·.range) ++
    s.transactions.map (·.footprint))).mem_iff (a := o)
  simp only [Free, rangeEmpty, contains_iff, Bool.and_eq_true, Bool.not_eq_true', any_eq_false, Bool.not_eq_true]
  constructor
  · intro ⟨size, low, high, clear⟩
    simp only [listed, mem_append, mem_map] at clear
    exact ⟨size, ⟨low, high⟩, fun r member => clear _ (.inl ⟨r, member, rfl⟩),
      fun record member => clear _ (.inr ⟨record, member, rfl⟩)⟩
  · intro ⟨size, ⟨low, high⟩, regions, footprints⟩
    refine ⟨size, low, high, fun o member => ?_⟩
    rw [listed, mem_append, mem_map, mem_map] at member
    rcases member with ⟨r, member, rfl⟩ | ⟨record, member, rfl⟩
    · exact regions r member
    · exact footprints record member

end MemorySpace

open MemorySpace (Free Lowest Lists)

theorem World.Enclosed.search {w : World} {heap : Heap} {bytes : Nat} (enclosed : w.Enclosed)
    (word : w.space.bounds.end_ ≤ usizeMax) (whole : pageSize ∣ bytes) (listed : w.space.Lists heap) :
    (∃ r, w.space.findHole heap bytes = .ok r ∧ w.space.Lowest bytes r) ∨
      (∃ reason, w.space.findHole heap bytes = .error (.error reason)) ∧ ∀ r, ¬w.space.Free bytes r := by
  obtain ⟨capacity, counted, granted⟩ := listed
  rw [MemorySpace.findHole, counted, show okOr _ (some capacity) = .ok capacity from rfl, ok_bind, granted, ok_bind]
  have inside : ∀ o ∈ sortByKey (·.start) (w.space.regions.map (·.range) ++ w.space.transactions.map (·.footprint)),
      o.end_ ≤ w.space.bounds.end_ := by
    intro o member
    rw [(sortByKey_perm _ _).mem_iff, mem_append, mem_map, mem_map] at member
    rcases member with ⟨r, member, rfl⟩ | ⟨record, member, rfl⟩
    · exact (enclosed.sound.ledger.within r member).2
    · exact (contains_iff.mp (enclosed.recorded record member)).2
  have found := holeFrom_searches w.space w.space.bounds.start_aligned whole word (sortByKey_sorted _ _) inside
  simpa only [Searches, MemorySpace.hole_iff_free, Lowest] using found

def MapRequest.reservationBytes (q : MapRequest) : Nat := roundUp q.guardBefore + roundUp q.bytes + roundUp q.guardAfter

/-- The refusals for lack of space. The last two also say that a lease cannot be taken, when one is asked for. -/
def Crowded (leases : Bool) : Stop ChangeError → Prop
  | .error .conflict => True
  | .error .outOfBounds => leases = false
  | .error .busy => leases = false
  | _ => False

section
variable {s : MemorySpace} {heap : Heap} {leases : Bool} {q : MapRequest} {n : Nat}

theorem roundPageBytes_avoids : Avoids (Crowded leases) (roundPageBytes n) :=
  (avoids_refuseIf id).bind fun _ _ => (avoids_okOr id).bind fun _ _ => avoids_ok _

theorem roundGuardBytes_avoids : Avoids (Crowded leases) (roundGuardBytes n) := by
  unfold roundGuardBytes
  split
  · exact avoids_ok _
  · exact roundPageBytes_avoids

theorem liftRange_avoids {α : Type} (x : Outcome RangeError α) : Avoids (Crowded leases) (liftRange x) := by
  unfold liftRange
  split
  · exact avoids_ok _
  · exact avoids_fail id
  · rintro _ ⟨⟩
    exact id

theorem mapBackingView_avoids : Avoids (Crowded leases) (mapBackingView q n) := by
  unfold mapBackingView
  split
  · exact (avoids_refuseIf id).bind fun _ _ => avoids_ok _
  · exact (avoids_refuseIf id).bind fun _ _ => (avoids_okOr id).bind fun _ _ => (avoids_refuseIf id).bind fun _ _ => avoids_ok _

theorem guardTemplates_avoids {owner : RegionOwner} {start : Nat} : Avoids (Crowded leases) (guardTemplates owner start n) := by
  unfold guardTemplates
  split
  · exact (liftRange_avoids _).bind fun _ _ => avoids_ok _
  · exact avoids_ok _

theorem tryReserve_avoids {site : AllocSite} : Avoids (Crowded leases) (heap.tryReserve site n) := avoids_refuseIf id

theorem countRequirement_avoids {object : ObjectId} {isNew : Nat} {requirements : List PermitRequirement} :
    Avoids (Crowded leases) (countRequirement heap object isNew n requirements) := by
  induction requirements generalizing n with
  | nil => exact tryReserve_avoids.bind fun _ _ => avoids_ok _
  | cons _ _ ih =>
    rw [countRequirement]
    split
    · exact (avoids_okOr id).bind fun _ _ => (avoids_okOr id).bind fun _ _ => avoids_ok _
    · exact ih.bind fun _ _ => avoids_ok _

theorem permitRequirementsFrom_avoids {templates : List RegionTemplate} {requirements : List PermitRequirement} :
    Avoids (Crowded leases) (permitRequirementsFrom heap requirements templates) := by
  induction templates generalizing requirements with
  | nil => exact avoids_ok _
  | cons _ _ ih =>
    rw [permitRequirementsFrom]
    split
    · exact ih
    · exact countRequirement_avoids.bind fun _ _ => ih

theorem leaseFrom_avoids {most cursor : Nat} {range : AddressRange} {segments : List UserWriteSegment}
    {keys : List RegionKey} {regions : List Region} :
    Avoids (Crowded leases) (MemorySpace.leaseFrom heap most range cursor segments keys regions) := by
  induction regions generalizing cursor segments keys with
  | nil => exact avoids_fail id
  | cons _ _ ih =>
    rw [MemorySpace.leaseFrom]
    split
    · exact ih
    split
    · exact avoids_fail id
    split
    · refine (liftRange_avoids _).bind fun _ _ => (avoids_refuseIf id).bind fun _ _ => tryReserve_avoids.bind fun _ _ =>
        tryReserve_avoids.bind fun _ _ => (avoids_okOr id).bind fun _ _ => ?_
      split
      · exact avoids_ok _
      · exact ih
    · exact avoids_fail id

theorem validateUserWriteLease_avoids {range : AddressRange} {mutation : PageRange} :
    Avoids (Crowded true) (s.validateUserWriteLease heap range mutation) :=
  (avoids_refuseIf id).bind fun _ _ => (avoids_refuseIf nofun).bind fun _ _ => (avoids_refuseIf nofun).bind fun _ _ =>
    leaseFrom_avoids

theorem reservation_total {usable before after total : Nat} {reason : ChangeError}
    (page : roundPageBytes q.bytes = .ok usable) (low : roundGuardBytes q.guardBefore = .ok before)
    (high : roundGuardBytes q.guardAfter = .ok after)
    (sum : okOr reason ((checkedAdd before usable).bind (checkedAdd · after)) = .ok total) : total = q.reservationBytes := by
  obtain ⟨_, first, second⟩ := Option.bind_eq_some_iff.mp (okOr_ok sum)
  rw [(checkedAdd_some second).1, (checkedAdd_some first).1, (roundPageBytes_ok page).1, roundGuardBytes_ok low,
    roundGuardBytes_ok high]
  rfl

theorem validateMap_ends {r : PageRange} (automatic : q.placement = .anywhere)
    (found : s.findHole heap q.reservationBytes = .ok r) (free : s.Free q.reservationBytes r) :
    Ends (·.plan.footprint = r) (Crowded q.result.isSome) (s.validateMap heap q) := by
  apply Ends.bind (avoids_refuseIf id)
  intro _ _
  apply Ends.bind roundPageBytes_avoids
  intro usable page
  apply Ends.bind roundGuardBytes_avoids
  intro before low
  apply Ends.bind roundGuardBytes_avoids
  intro after high
  apply Ends.bind (avoids_okOr id)
  intro total sum
  obtain rfl := reservation_total page low high sum
  apply Ends.bind (avoids_refuseIf id)
  intro _ _
  obtain ⟨regions, transactions⟩ := Bool.and_eq_true_iff.mp free.2.2
  rw [show s.mapReservation heap q.placement before q.reservationBytes = .ok r by rw [automatic]; exact found, ok_bind,
    pass_check (by rw [free.2.1]; rfl), pass_check (by simpa using transactions), pass_check (by simpa using regions)]
  apply Ends.bind (liftRange_avoids _)
  intro _ _
  apply Ends.bind mapBackingView_avoids
  intro _ _
  apply Ends.bind tryReserve_avoids
  intro _ _
  apply Ends.bind guardTemplates_avoids
  intro _ _
  apply Ends.bind guardTemplates_avoids
  intro _ _
  apply Ends.bind tryReserve_avoids
  intro _ _
  split
  · rename_i lease wanted
    rw [wanted]
    apply Ends.bind validateUserWriteLease_avoids
    intro ⟨_, _⟩ _
    apply Ends.bind (avoids_ok _)
    intro ⟨_, _⟩ _
    apply Ends.bind permitRequirementsFrom_avoids
    intro _ _
    apply Ends.bind ((avoids_okOr id).bind fun _ _ => avoids_refuseIf id)
    exact fun _ _ => ⟨fun _ planned => congrArg (·.plan.footprint) (pure_ok planned), avoids_ok _⟩
  · apply Ends.bind (avoids_ok _)
    intro ⟨_, _⟩ _
    apply Ends.bind permitRequirementsFrom_avoids
    intro _ _
    apply Ends.bind ((avoids_okOr id).bind fun _ _ => avoids_refuseIf id)
    exact fun _ _ => ⟨fun _ planned => congrArg (·.plan.footprint) (pure_ok planned), avoids_ok _⟩

theorem validateMap_found {v : ValidatedChange} (automatic : q.placement = .anywhere) (h : s.validateMap heap q = .ok v) :
    ∃ r, s.findHole heap q.reservationBytes = .ok r := by
  obtain ⟨_, _, h⟩ := bind_ok h
  obtain ⟨_, page, h⟩ := bind_ok h
  obtain ⟨_, low, h⟩ := bind_ok h
  obtain ⟨_, high, h⟩ := bind_ok h
  obtain ⟨_, sum, h⟩ := bind_ok h
  obtain ⟨_, _, h⟩ := bind_ok h
  obtain ⟨r, placed, -⟩ := bind_ok h
  rw [automatic, reservation_total page low high sum] at placed
  exact ⟨r, placed⟩

theorem findHole_lists {r : PageRange} (h : s.findHole heap n = .ok r) : s.Lists heap := by
  obtain ⟨capacity, counted, h⟩ := bind_ok h
  obtain ⟨_, granted, -⟩ := bind_ok h
  exact ⟨capacity, okOr_ok counted, granted⟩

theorem reservationBytes_whole : pageSize ∣ q.reservationBytes :=
  Nat.dvd_add (Nat.dvd_add (Nat.dvd_mul_left ..) (Nat.dvd_mul_left ..)) (Nat.dvd_mul_left ..)

end

/-- Automatic placement is lowest first fit. -/
theorem map_placed_lowest :
    (∀ (w : World) (heap : Heap) (bytes : Nat), w.Reachable → w.space.bounds.end_ ≤ usizeMax → pageSize ∣ bytes →
      w.space.Lists heap → (∃ r, w.space.findHole heap bytes = .ok r ∧ w.space.Lowest bytes r) ∨
        (∃ reason, w.space.findHole heap bytes = .error (.error reason)) ∧ ∀ r, ¬w.space.Free bytes r) ∧
    ∀ (w : World) (heap : Heap) (q : MapRequest), w.Reachable → w.space.bounds.end_ ≤ usizeMax → q.placement = .anywhere →
      (∀ v, w.space.validateMap heap q = .ok v → w.space.Lowest q.reservationBytes v.plan.footprint) ∧
      (w.space.Lists heap → (∃ r, w.space.Free q.reservationBytes r) →
        ∀ reason, w.space.validateMap heap q = .error (.error reason) →
          reason ≠ .conflict ∧ (q.result = none → reason ≠ .outOfBounds ∧ reason ≠ .busy)) := by
  refine ⟨fun w heap bytes reached word whole listed => (reachable_enclosed reached).search word whole listed,
    fun w heap q reached word automatic => ⟨fun v planned => ?_, fun listed ⟨room, fits⟩ reason refused => ?_⟩⟩
  · obtain ⟨r, found⟩ := validateMap_found automatic planned
    rcases (reachable_enclosed reached).search word reservationBytes_whole (findHole_lists found) with
      ⟨lowest, same, least⟩ | ⟨⟨_, failed⟩, -⟩
    · rw [(validateMap_ends automatic same least.1).1 v planned]
      exact least
    · rw [found] at failed
      cases failed
  · rcases (reachable_enclosed reached).search word reservationBytes_whole listed with
      ⟨lowest, same, least⟩ | ⟨-, crowded⟩
    · have spared := (validateMap_ends automatic same least.1).2 _ refused
      refine ⟨fun short => spared (by rw [short]; trivial), fun alone => ⟨fun short => spared ?_, fun short => spared ?_⟩⟩
        <;> (rw [short, alone]; rfl)
    · exact absurd fits (crowded room)

/-- Pages 1 and 2 are a mapping and its guard, and two pages are placed right behind them. -/
theorem map_placed_lowest_behind : ∃ w q v,
    runEvents World.step (World.start smallSpace) (completeChange (.map (privatePages 1 1 none)) []) = .ok w ∧
    q = { privatePages 0 2 none with guardAfter := 0, placement := .anywhere } ∧ w.space.validateMap plenty q = .ok v ∧
    v.plan.footprint = pageSpan 3 1 ∧ w.space.Lowest q.reservationBytes v.plan.footprint := by
  obtain ⟨w, run, test⟩ := returnsWith_ok
    (runEvents World.step (World.start smallSpace) (completeChange (.map (privatePages 1 1 none)) []))
    (fun w => decide (w.space.bounds.end_ ≤ usizeMax) && returnsWith (w.space.validateMap plenty
      { privatePages 0 2 none with guardAfter := 0, placement := .anywhere }) fun v => v.plan.footprint == pageSpan 3 1)
    (by decide +kernel)
  rw [Bool.and_eq_true, decide_eq_true_iff] at test
  obtain ⟨v, planned, place⟩ := returnsWith_ok _ _ test.2
  exact ⟨w, _, v, run, rfl, planned, eq_of_beq place,
    (map_placed_lowest.2 w plenty _ (reachable_small run) test.1 rfl).1 v planned⟩

end Halcyon.Space
