import Halcyon.Space.Plans

/-!
One lemma for each mutating operation of the ledger, saying everything a successful call does.
-/

namespace Halcyon.Space

open MemorySpace List

variable {s t : MemorySpace}

variable {heap : Heap} {permits rest : List WritePermit} {next : Nat} {regions : List Region} {v : ValidatedChange}
    {p : PreparedChange} {key : ChangeKey} {stage : ChangeStage} {record : TransactionRecord}

theorem MemorySpace.new_ok {bounds : PageRange} {limits : Limits}
    (h : MemorySpace.new heap bounds limits = .ok s) : s = ⟨bounds, limits, [], [], 1, 1, 1, 0⟩ := by
  iterate 3 obtain ⟨_, _, h⟩ := bind_ok h
  exact pure_ok h

structure MadeFrom (fresh : AllocationKey) (template : RegionTemplate) (r : Region) : Prop where
  range : r.range = template.range
  owner : r.owner = template.owner
  kind : r.kind = template.kind
  allocation : r.allocation = template.allocation.resolve fresh
  permit : r.permit = template.writableObject.map WritePermit.mk

theorem MadeFrom.tile {fresh : AllocationKey} {template : RegionTemplate} {r : Region}
    (h : MadeFrom fresh template r) : template.tile fresh = r.tile := by
  simp [Region.tile, RegionTemplate.tile, h.range, h.owner, h.kind, h.allocation]

theorem takePermit_ok {object : ObjectId} {permit : WritePermit}
    (h : takePermit object permits = .ok (permit, rest)) : permit = ⟨object⟩ ∧ permits.Perm (permit :: rest) := by
  unfold takePermit at h
  split at h
  · exact (fail_ne_ok h).elim
  · rename_i found located
    cases pure_ok h
    have named := find?_some located
    rw [beq_iff_eq] at named
    refine ⟨by rw [← named], ?_⟩
    obtain ⟨before, after, split, none⟩ := (find?_eq_some_iff_append.mp located).2
    rw [split, eraseP_append_right _ (by simpa using none), eraseP_cons_of_pos (by simpa using named)]
    exact perm_middle

theorem templatePermit_ok {template : RegionTemplate} {supplied : List WritePermit}
    {permit : Option WritePermit} (h : templatePermit template supplied = .ok (permit, rest)) :
    permit = template.writableObject.map WritePermit.mk ∧ supplied.Perm (permit.toList ++ rest) := by
  unfold templatePermit at h
  split at h
  · rename_i absent
    cases pure_ok h
    exact ⟨by rw [absent]; rfl, List.Perm.refl _⟩
  · rename_i object writable
    split at h
    · rename_i taken
      cases pure_ok h
      obtain ⟨named, perm⟩ := takePermit_ok taken
      exact ⟨by rw [writable, named]; rfl, perm⟩
    · exact (panicked_ne_ok h).elim

theorem mint_ok {κ : Type} {name : Nat → κ} {counter : MemorySpace → Nat} {write : Nat → MemorySpace → MemorySpace}
    {key : κ} (h : (do return name (← mint counter write) : Method Empty κ) s = .ok key t) :
    key = name (counter s) ∧ t = write (counter s + 1) s := by
  obtain ⟨_, _, minted, h⟩ := seq_ok h
  obtain ⟨_, counted, minted⟩ := look_step (get_step minted)
  cases h
  cases minted
  rw [increment_ok counted]
  exact ⟨rfl, rfl⟩

theorem materializeRegions_ok {allocation : Option AllocationKey} (fresh : AllocationKey)
    {supplied : List WritePermit} {templates : List RegionTemplate}
    (given : ∀ key, allocation = some key → key = fresh)
    (h : materializeRegions allocation supplied templates s = .ok (regions, rest) t) :
    List.Forall₂ (MadeFrom fresh) templates regions ∧
      regions.map (·.key.value) = List.range' s.nextRegion regions.length ∧
      t = { s with nextRegion := s.nextRegion + regions.length } ∧
      supplied.Perm (regions.filterMap Region.permit ++ rest) := by
  induction templates generalizing s supplied regions rest with
  | nil =>
    cases h
    exact ⟨.nil, rfl, rfl, List.Perm.refl _⟩
  | cons template _ ih =>
    obtain ⟨⟨permit, _⟩, taken, h⟩ := look_step h
    obtain ⟨_, _, minted, h⟩ := seq_ok h
    obtain ⟨key, allocated, h⟩ := look_step h
    obtain ⟨⟨_, _⟩, _, tail, h⟩ := seq_ok h
    cases h
    obtain ⟨permitted, perm⟩ := templatePermit_ok taken
    obtain ⟨rfl, rfl⟩ := mint_ok minted
    obtain ⟨made, keys, rfl, rest⟩ := ih tail
    have source : key = template.allocation.resolve fresh := by
      cases allocation' : template.allocation with
      | new =>
        rw [allocation'] at allocated
        exact given key (expect_ok allocated)
      | existing =>
        rw [allocation'] at allocated
        exact pure_ok allocated
    refine ⟨.cons ⟨rfl, rfl, rfl, source, permitted⟩ made, ?_, ?_, ?_⟩
    · rw [map_cons, keys]
      rfl
    · rw [length_cons, Nat.add_assoc, Nat.add_comm 1]
    · refine perm.trans ?_
      cases permit with
      | none => exact rest
      | some permit => exact rest.cons permit

def RetiringFragment.template (f : RetiringFragment) : RetireTemplate :=
  ⟨f.allocation, f.range, f.owner, f.kind, f.backingRetire⟩

theorem materializeRetiring_ok {templates : List RetireTemplate}
    {fragments : List RetiringFragment} (h : materializeRetiring templates s = .ok fragments t) :
    fragments.map (·.template) = templates ∧ ∃ more, t = { s with nextRegion := s.nextRegion + more } := by
  induction templates generalizing s fragments with
  | nil =>
    cases h
    exact ⟨rfl, 0, rfl⟩
  | cons _ _ ih =>
    obtain ⟨_, _, minted, h⟩ := seq_ok h
    obtain ⟨_, _, tail, h⟩ := seq_ok h
    cases h
    obtain ⟨rfl, rfl⟩ := mint_ok minted
    obtain ⟨same, more, rfl⟩ := ih tail
    exact ⟨by rw [map_cons, same]; rfl, 1 + more, by rw [← Nat.add_assoc]⟩

theorem snapshotValid_iff {snapshot : List RegionKey} :
    s.snapshotValid snapshot = true ↔ ∀ key ∈ snapshot, ∃ r ∈ s.regions, r.key = key := by
  simp [snapshotValid]

/-- What a successful `check_reservation` has tested. -/
structure Checked (s : MemorySpace) (v : ValidatedChange) (permits : List WritePermit) : Prop where
  snapshot : ∀ key ∈ v.snapshot, ∃ r ∈ s.regions, r.key = key
  empty : v.plan.remove = [] → v.plan.resultLayout.isSome → s.rangeEmpty v.plan.footprint = true
  clear : ∀ record ∈ s.transactions, record.conflictsWith v.plan.footprint (v.lease.map (·.1)) = false
  supplied : permits.length = (v.permits.map (·.count)).sum
  room : s.regions.length + s.reservedGrowth + v.growth ≤ s.limits.maxRegions

theorem checkProjectedRegions_ok {growth : Nat} {u : Unit} (h : s.checkProjectedRegions growth = .ok u) :
    s.regions.length + s.reservedGrowth + growth ≤ s.limits.maxRegions := by
  obtain ⟨_, sum, h⟩ := bind_ok h
  obtain ⟨_, first, second⟩ := Option.bind_eq_some_iff.mp (okOr_ok sum)
  have := (checkedAdd_some first).1
  have := (checkedAdd_some second).1
  have := refuseIf_ok h
  rw [decide_eq_false_iff_not] at this
  omega

theorem checkReservation_ok {u : Unit} (h : s.checkReservation heap v permits = .ok u) : Checked s v permits := by
  obtain ⟨_, _, h⟩ := bind_ok h
  obtain ⟨_, fresh, h⟩ := bind_ok h
  obtain ⟨_, clear, h⟩ := bind_ok h
  obtain ⟨_, matched, h⟩ := bind_ok h
  obtain ⟨_, projected, h⟩ := bind_ok h
  have fresh := refuseIf_ok fresh
  have clear := refuseIf_ok clear
  have matched := refuseIf_ok matched
  simp only [Bool.or_eq_false_iff, Bool.not_eq_false'] at fresh
  obtain ⟨snapshot, valid⟩ := fresh
  refine ⟨snapshotValid_iff.mp snapshot, ?_, ?_, ?_, checkProjectedRegions_ok projected⟩
  · intro nothing layout
    unfold planStillValid at valid
    split at valid
    · cases valid
    · rename_i test
      simpa [nothing, layout] using test
  · simpa using clear
  · simp only [Bool.not_eq_false', permitsMatch, Bool.and_eq_true, beq_iff_eq] at matched
    exact matched.2

/-- Only a Map takes an allocation key, and all its regions have that one. -/
structure Numbers (s : MemorySpace) (plan : ValidatedPlan) (next : Nat) (regions : List Region) : Prop where
  later : s.nextAllocation ≤ next
  taken : plan.resultLayout.isSome → next = s.nextAllocation + 1 ∧
    List.Forall₂ (MadeFrom ⟨s.nextAllocation⟩) plan.replacements regions

/-- What a successful `reserve` adds to the ledger, and the token it returns. -/
structure Reserves (s : MemorySpace) (v : ValidatedChange) (permits : List WritePermit) (t : MemorySpace)
    (p : PreparedChange) : Prop where
  checked : Checked s v permits
  ledger : ∃ nextAllocation nextRegion, t = { s with
    transactions := s.transactions ++ [⟨⟨s.nextChange⟩, v.plan.footprint, v.lease.map (·.1), .reserved, v.growth⟩]
    nextAllocation
    nextRegion
    nextChange := s.nextChange + 1
    reservedGrowth := s.reservedGrowth + v.growth }
  key : p.key = ⟨s.nextChange⟩
  made : ∃ fresh, List.Forall₂ (MadeFrom fresh) v.plan.replacements p.plan.replacements
  keys : p.plan.replacements.map (·.key.value) = List.range' s.nextRegion p.plan.replacements.length
  next : s.nextRegion + p.plan.replacements.length ≤ t.nextRegion
  supplied : permits.Perm (p.plan.replacements.filterMap Region.permit ++ p.permits)
  remove : p.plan.remove = v.plan.remove
  layout : p.plan.resultLayout = v.plan.resultLayout
  retiring : p.plan.retiring.map (·.template) = v.plan.retiring
  translations : p.plan.translations = v.plan.translations
  numbered : Numbers s v.plan t.nextAllocation p.plan.replacements
  deltas : p.plan.objectRegionDeltas = objectRegionDeltas v.plan.replacements v.plan.retiring
  permitless : p.plan.retiringPermits = []
  lease : p.lease = v.lease.map (fun l => ⟨l.1, l.2⟩)

theorem allocationKey_ok {layout : Option MapResultLayout} {allocation : Option AllocationKey}
    (h : allocationKey layout s = .ok allocation t) : ∃ next, t = { s with nextAllocation := next } ∧
      s.nextAllocation ≤ next ∧
      (layout.isSome → allocation = some ⟨s.nextAllocation⟩ ∧ next = s.nextAllocation + 1) := by
  cases layout with
  | none =>
    cases h
    exact ⟨_, rfl, Nat.le_refl _, by simp⟩
  | some =>
    obtain ⟨_, _, minted, h⟩ := seq_ok h
    cases h
    obtain ⟨rfl, rfl⟩ := mint_ok minted
    exact ⟨_, rfl, Nat.le_succ _, fun _ => ⟨rfl, rfl⟩⟩

theorem materializeReservation_ok {m : MaterializedReservation}
    (h : materializeReservation heap v permits s = .ok m t) :
    (∃ nextAllocation nextRegion, t = { s with nextAllocation, nextRegion }) ∧
    (∃ fresh, List.Forall₂ (MadeFrom fresh) v.plan.replacements m.replacements) ∧
      m.replacements.map (·.key.value) = List.range' s.nextRegion m.replacements.length ∧
      s.nextRegion + m.replacements.length ≤ t.nextRegion ∧
      permits.Perm (m.replacements.filterMap Region.permit ++ m.permits) ∧
      m.retiring.map (·.template) = v.plan.retiring ∧
      m.objectRegionDeltas = objectRegionDeltas v.plan.replacements v.plan.retiring ∧ m.retiringPermits = [] ∧
      Numbers s v.plan t.nextAllocation m.replacements := by
  obtain ⟨_, _, h⟩ := look_step h
  obtain ⟨allocation, _, numbered, h⟩ := seq_ok (perform_ok h)
  obtain ⟨⟨_, _⟩, _, made, h⟩ := seq_ok h
  obtain ⟨fragments, _, retired, h⟩ := seq_ok h
  cases h
  obtain ⟨_, rfl, increased, taken⟩ := allocationKey_ok numbered
  -- when there is no allocation key, no template asks for one
  obtain ⟨each, keys, rfl, perm⟩ := materializeRegions_ok (allocation.getD ⟨0⟩)
    (fun key given => by rw [given]; rfl) made
  obtain ⟨fragments, _, rfl⟩ := materializeRetiring_ok retired
  refine ⟨⟨_, _, rfl⟩, ⟨_, each⟩, keys, Nat.le_add_right _ _, perm, fragments, rfl, rfl, increased, fun layout => ?_⟩
  obtain ⟨rfl, following⟩ := taken layout
  exact ⟨following, each⟩

theorem reserve_ok (h : reserve heap v permits s = .ok p t) : Reserves s v permits t p := by
  obtain ⟨_, checked, h⟩ := look_step (get_step h)
  obtain ⟨_, _, materialized, h⟩ := seq_ok h
  obtain ⟨_, _, minted, h⟩ := seq_ok (perform_ok h)
  cases h
  obtain ⟨rfl, rfl⟩ := mint_ok minted
  obtain ⟨⟨nextAllocation, nextRegion, rfl⟩, made, keys, next, perm, fragments, deltas, none, numbered⟩ :=
    materializeReservation_ok (adapt_ok materialized)
  refine ⟨checkReservation_ok (mapError_ok checked), ⟨nextAllocation, nextRegion, ?_⟩, rfl, made, keys, next,
    perm, rfl, rfl, fragments, rfl, numbered, deltas, none, rfl⟩
  rw [Option.map_map]
  rfl

theorem reserve_refuses : Refuses (fun failure => failure.validated = v ∧ failure.permits = permits)
    (reserve heap v permits) := by
  refine .get fun _ => .look (fun _ failed => ?_) fun _ => ?_
  · obtain ⟨_, rfl⟩ := mapError_fail failed
    exact ⟨rfl, rfl⟩
  · refine Refuses.thenPerform (.adapt (.look (fun _ failed => ?_) fun _ => .perform))
    obtain ⟨_, rfl⟩ := mapError_fail failed
    exact ⟨rfl, rfl⟩

theorem transactionIndex_ok {index : Nat} (h : s.transactionIndex key stage = .ok index) :
    ∃ pre record post, s.transactions = pre ++ record :: post ∧ index = pre.length ∧
      record.key = key ∧ record.stage = stage := by
  obtain ⟨inside, matched, _⟩ := findIdx?_eq_some_iff_getElem.mp (expect_ok h)
  rw [Bool.and_eq_true, beq_iff_eq, beq_iff_eq] at matched
  obtain ⟨pre, post, split, position⟩ := split_at_index (getElem?_eq_getElem inside)
  exact ⟨pre, _, post, split, position.symm, matched⟩

theorem transactionIndex_returns (h : (key, stage) ∈ s.transactions.map (fun record => (record.key, record.stage))) :
    ∃ index, s.transactionIndex key stage = .ok index := by
  obtain ⟨record, member, same⟩ := mem_map.mp h
  rw [Prod.mk.injEq] at same
  cases found : s.transactions.findIdx? (fun record => record.key == key && record.stage == stage) with
  | none =>
    have := findIdx?_eq_none_iff.mp found record member
    simp [same] at this
  | some index => exact ⟨index, by rw [transactionIndex, found]; rfl⟩

theorem recordAt_length {pre post : List TransactionRecord} (split : s.transactions = pre ++ record :: post) :
    s.recordAt pre.length = .ok record := by
  simp [recordAt, split, expect]

theorem located_record {index : Nat} (located : s.transactionIndex key stage = .ok index)
    (read : s.recordAt index = .ok record) :
    ∃ pre post, s.transactions = pre ++ record :: post ∧ index = pre.length ∧ record.key = key ∧ record.stage = stage := by
  obtain ⟨pre, _, post, split, rfl, named⟩ := transactionIndex_ok located
  rw [recordAt_length split] at read
  cases read
  exact ⟨pre, post, split, rfl, named⟩

theorem record_growth_le {pre post : List TransactionRecord}
    (growth : s.reservedGrowth = (s.transactions.map (·.reservedGrowth)).sum)
    (split : s.transactions = pre ++ record :: post) : record.reservedGrowth ≤ s.reservedGrowth := by
  rw [growth, split]
  simp only [map_append, map_cons, sum_append, sum_cons]
  omega

theorem rollback_ok (h : s.rollback p = .ok (t, permits)) :
    ∃ pre record post growth, s.transactions = pre ++ record :: post ∧ record.key = p.key ∧
      record.stage = .reserved ∧ growth + record.reservedGrowth = s.reservedGrowth ∧
      t = { s with transactions := pre ++ post, reservedGrowth := growth } ∧
      permits = p.permits ++ p.plan.replacements.filterMap Region.permit := by
  obtain ⟨_, located, h⟩ := bind_ok h
  obtain ⟨record, read, h⟩ := bind_ok h
  obtain ⟨growth, less, h⟩ := bind_ok h
  obtain ⟨pre, post, split, position, key, stage⟩ := located_record located read
  have same := pure_ok h
  rw [Prod.mk.injEq] at same
  refine ⟨pre, record, post, growth, split, key, stage, subtract_ok less, ?_, same.2⟩
  rw [same.1, split, position, eraseIdx_split]

theorem removeRegions_ok {kept : List Region} {retiring out : List WritePermit} {keys : List RegionKey}
    (h : MemorySpace.removeRegions regions retiring keys = .ok (kept, out)) :
    ∃ removed, removed.map Region.key = keys ∧ (removed ++ kept).Perm regions ∧
      out = retiring ++ removed.filterMap Region.permit := by
  induction keys generalizing regions retiring with
  | nil =>
    cases pure_ok h
    exact ⟨[], rfl, List.Perm.refl _, (append_nil _).symm⟩
  | cons _ _ ih =>
    obtain ⟨region, found, h⟩ := bind_ok h
    have located := expect_ok found
    have named := find?_some located
    rw [beq_iff_eq] at named
    obtain ⟨_, _, split, none⟩ := (find?_eq_some_iff_append.mp located).2
    obtain ⟨removed, same, perm, permits⟩ := ih h
    rw [split, eraseP_append_right _ (by simpa using none), eraseP_cons_of_pos (by simpa using named)] at perm
    refine ⟨region :: removed, by rw [map_cons, named, same], ?_, ?_⟩
    · rw [split]
      exact (perm.cons region).trans perm_middle.symm
    · rw [permits, append_assoc, filterMap_cons]
      cases region.permit <;> rfl

theorem removeRegions_returns (retiring : List WritePermit) {keys : List RegionKey} (distinct : keys.Nodup)
    (present : ∀ key ∈ keys, ∃ r ∈ regions, r.key = key) :
    ∃ out, MemorySpace.removeRegions regions retiring keys = .ok out := by
  induction keys generalizing regions retiring with
  | nil => exact ⟨_, rfl⟩
  | cons key _ ih =>
    obtain ⟨r, member, named⟩ := present key mem_cons_self
    cases found : regions.find? (fun region => region.key == key) with
    | none =>
      have := find?_eq_none.mp found r member
      simp [named] at this
    | some =>
      rw [nodup_cons] at distinct
      refine bind_returns (by rw [found]; rfl) (ih _ distinct.2 fun other later => ?_)
      obtain ⟨r, member, named⟩ := present other (mem_cons_of_mem _ later)
      refine ⟨r, (mem_eraseP_of_neg ?_).mpr member, named⟩
      rw [beq_iff_eq, named]
      exact fun same => distinct.1 (same ▸ later)

/-- What a successful `commit` does to the ledger, and what it hands to the later stages. -/
structure Commits (s : MemorySpace) (p : PreparedChange) (t : MemorySpace) (payload : ChangePayload)
    (removed kept : List Region) (pre post : List TransactionRecord) (record : TransactionRecord) : Prop where
  transactions : s.transactions = pre ++ record :: post
  key : record.key = p.key
  stage : record.stage = .reserved
  keys : removed.map Region.key = p.plan.remove
  regions : (removed ++ kept).Perm s.regions
  ledger : ∃ growth, growth + record.reservedGrowth = s.reservedGrowth ∧ t = { s with
    regions := sortByKey (·.range.start) (kept ++ p.plan.replacements)
    transactions := pre ++ { record with reservedGrowth := 0, lease := none, stage := .committed } :: post
    reservedGrowth := growth }
  payload : payload = ⟨p.key, p.plan.translations, p.plan.retiring, p.plan.retiringObjectCapacity,
    p.plan.retiringPermits ++ removed.filterMap Region.permit, p.plan.resultLayout⟩

theorem commit_ok {payload : ChangePayload} (h : s.commit p = .ok (t, payload)) :
    ∃ removed kept pre post record, Commits s p t payload removed kept pre post record := by
  obtain ⟨_, located, h⟩ := bind_ok h
  obtain ⟨⟨kept, _⟩, taken, h⟩ := bind_ok h
  obtain ⟨record, read, h⟩ := bind_ok h
  obtain ⟨growth, less, h⟩ := bind_ok h
  obtain ⟨pre, post, split, position, key, stage⟩ := located_record located read
  obtain ⟨removed, keys, perm, retire⟩ := removeRegions_ok taken
  have same := pure_ok h
  rw [Prod.mk.injEq] at same
  refine ⟨removed, kept, pre, post, record, split, key, stage, keys, perm, ⟨growth, subtract_ok less, ?_⟩, ?_⟩
  · rw [same.1, split, position, set_split]
  · rw [same.2, retire]

section

variable (growth : s.reservedGrowth = (s.transactions.map (·.reservedGrowth)).sum)
include growth

theorem commit_returns
    (recorded : (p.key, ChangeStage.reserved) ∈ s.transactions.map (fun record => (record.key, record.stage)))
    (distinct : p.plan.remove.Nodup) (present : ∀ key ∈ p.plan.remove, ∃ r ∈ s.regions, r.key = key) :
    ∃ out, s.commit p = .ok out := by
  obtain ⟨_, located⟩ := transactionIndex_returns recorded
  obtain ⟨_, _, _, split, rfl, _, _⟩ := transactionIndex_ok located
  obtain ⟨_, taken⟩ := removeRegions_returns p.plan.retiringPermits distinct present
  have less := record_growth_le growth split
  exact bind_returns located (bind_returns taken (bind_returns (recordAt_length split)
    (bind_returns (subtract_returns less) ⟨_, rfl⟩)))

theorem rollback_returns
    (recorded : (p.key, ChangeStage.reserved) ∈ s.transactions.map (fun record => (record.key, record.stage))) :
    ∃ out, s.rollback p = .ok out := by
  obtain ⟨_, located⟩ := transactionIndex_returns recorded
  obtain ⟨_, _, _, split, rfl, _, _⟩ := transactionIndex_ok located
  have less := record_growth_le growth split
  exact bind_returns located (bind_returns (recordAt_length split) (bind_returns (subtract_returns less) ⟨_, rfl⟩))

end

theorem advance_ok {from_ to_ : ChangeStage} (h : s.advance key from_ to_ = .ok t) :
    ∃ pre record post, s.transactions = pre ++ record :: post ∧ record.key = key ∧ record.stage = from_ ∧
      t = { s with transactions := pre ++ { record with stage := to_ } :: post } := by
  obtain ⟨_, located, h⟩ := bind_ok h
  obtain ⟨record, read, h⟩ := bind_ok h
  obtain ⟨pre, post, split, position, key, stage⟩ := located_record located read
  refine ⟨pre, record, post, split, key, stage, ?_⟩
  rw [pure_ok h, split, position, set_split]

theorem complete_ok {payload : ChangePayload} (h : s.complete payload = .ok t) :
    ∃ pre record post, s.transactions = pre ++ record :: post ∧ record.key = payload.key ∧
      record.stage = .retired ∧ t = { s with transactions := pre ++ post } := by
  obtain ⟨_, located, h⟩ := bind_ok h
  obtain ⟨pre, record, post, split, rfl, key, stage⟩ := transactionIndex_ok located
  refine ⟨pre, record, post, split, key, stage, ?_⟩
  rw [pure_ok h, split, eraseIdx_split]

def Region.drained (r : Region) : RetiringFragment := ⟨r.key, r.allocation, r.range, r.owner, r.kind, .release⟩

theorem drainOne_ok {out : Option (RetiringFragment × Option WritePermit)} (h : s.drainOne = .ok (t, out)) :
    s.transactions = [] ∧ (s.regions = [] ∧ t = s ∧ out = none ∨
      ∃ rest r, s.regions = rest ++ [r] ∧ t = { s with regions := rest } ∧ out = some (r.drained, r.permit)) := by
  obtain ⟨_, idle, h⟩ := bind_ok h
  have idle := assertThat_ok idle
  refine ⟨isEmpty_iff.mp idle, ?_⟩
  split at h
  · rename_i none
    cases pure_ok h
    exact .inl ⟨getLast?_eq_none_iff.mp none, rfl, rfl⟩
  · rename_i r last
    cases pure_ok h
    obtain ⟨rest, regions⟩ := getLast?_eq_some_iff.mp last
    refine .inr ⟨rest, r, regions, ?_, rfl⟩
    rw [regions, dropLast_concat]

end Halcyon.Space
