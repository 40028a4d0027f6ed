import Halcyon.Space.Plans

/-!
The three validators answer with planned changes, whose orders are read from the regions that cover the request.
-/

namespace Halcyon.Space

open PageRange RegionKind Region List

variable {s : MemorySpace} {heap : Heap} {v : ValidatedChange}

/-- The orders of a plan, read from the regions that cover its request. A Protect that changes nothing
removes no region and has no orders. -/
def Request.Orders (request : Request) (remove : List RegionKey) (layout : Option MapResultLayout)
    (covered : List Region) (translations : List TranslationIntent) (retiring : List RetireTemplate) : Prop :=
  match request with
  | .map q => retiring = [] ∧
      ∃ l, layout = some l ∧ translations = [.install l.usable (q.backing.viewAt 0) q.current]
  | .unmap q => (∀ a, q.range.Has a → ∃ r ∈ covered, r.tile.Has a) ∧
      List.Forall₂ (Retires q.range .release) covered retiring ∧
      translations = if covered.any (·.kind.isMapping) then [.remove q.range] else []
  | .protect q => (remove = [] ∨ ∀ a, q.range.Has a → ∃ r ∈ covered, r.tile.Has a) ∧
      List.Forall₂ (Retires q.range .retain) covered retiring ∧ (∀ r ∈ covered, r.kind.isMapping = true) ∧
      translations = covered.flatMap (protectIntents q)

/-- The regions that a plan's orders are read from are live, apart, and among those it removes. -/
structure OrderedBy (s : MemorySpace) (request : Request) (plan : ValidatedPlan) (covered : List Region) : Prop where
  orders : request.Orders plan.remove plan.resultLayout covered plan.translations plan.retiring
  apart : (covered.map Region.tile).Pairwise Tile.Apart
  removed : ∀ r ∈ covered, r.key ∈ plan.remove
  live : ∀ r ∈ covered, r ∈ s.regions
  inside : s.bounds.start ≤ plan.footprint.start ∧ plan.footprint.end_ ≤ s.bounds.end_

def Accepted (s : MemorySpace) (request : Request) (v : ValidatedChange) : Prop :=
  ∃ seen removed covered, Planned s.bounds request seen removed v ∧ (∀ r ∈ seen, r ∈ s.regions) ∧
    OrderedBy s request v.plan covered

section
variable {fresh : AllocationKey}

theorem holeFrom_ok {bytes cursor : Nat} {obstacles : List PageRange} {r : PageRange}
    (h : s.holeFrom bytes cursor obstacles = .ok r) : r.end_ = r.start + bytes := by
  induction obstacles generalizing cursor with
  | nil =>
    obtain ⟨_, _, h⟩ := bind_ok h
    split at h
    · obtain ⟨from_, to_⟩ := new_ok (liftRange_ok h)
      rw [from_, to_]
    · exact (fail_ne_ok h).elim
  | cons obstacle rest ih =>
    rw [MemorySpace.holeFrom] at h
    split at h
    · exact ih h
    split at h
    · obtain ⟨from_, to_⟩ := new_ok (liftRange_ok h)
      rw [from_, to_]
    · exact ih h

theorem mapReservation_ok {placement : MapPlacement} {before bytes : Nat} {r : PageRange}
    (h : s.mapReservation heap placement before bytes = .ok r) :
    r.end_ = r.start + bytes ∧ ∀ start, placement = .fixedEmpty start → r.start + before = start := by
  unfold MemorySpace.mapReservation at h
  split at h
  · obtain ⟨_, _, h⟩ := bind_ok h
    obtain ⟨_, _, h⟩ := bind_ok h
    exact ⟨holeFrom_ok h, by simp⟩
  · obtain ⟨_, _, h⟩ := bind_ok h
    obtain ⟨start, shifted, h⟩ := bind_ok h
    obtain ⟨from_, to_⟩ := new_ok (liftRange_ok h)
    have distance := checkedSub_some (okOr_ok shifted)
    refine ⟨by rw [from_, to_], fun _ same => ?_⟩
    cases same
    rw [from_, distance]

theorem mapBackingView_ok {q : MapRequest} {bytes : Nat} {backing : BackingView}
    (h : mapBackingView q bytes = .ok backing) : backing = q.backing.viewAt 0 ∧
      ∀ authorization offset, q.backing = .object authorization offset → authorization.maximum = q.maximum := by
  unfold mapBackingView at h
  split at h
  · rename_i same
    obtain ⟨_, _, h⟩ := bind_ok h
    rw [pure_ok h, same]
    exact ⟨rfl, by simp⟩
  · rename_i authorization offset same
    obtain ⟨_, allowed, h⟩ := bind_ok h
    obtain ⟨_, _, h⟩ := bind_ok h
    obtain ⟨_, _, h⟩ := bind_ok h
    have allowed := refuseIf_ok allowed
    rw [pure_ok h, same]
    refine ⟨rfl, fun _ _ e => ?_⟩
    cases e
    simpa using allowed

theorem MapBacking.viewAt_shift (backing : MapBacking) (n : Nat) :
    (backing.viewAt 0).withOffset ((backing.viewAt 0).offset + n) = backing.viewAt n := by
  cases backing <;> simp [viewAt, BackingView.withOffset, BackingView.offset]

theorem guardTemplates_ok {owner : RegionOwner} {start bytes : Nat} {ts : List RegionTemplate}
    (h : guardTemplates owner start bytes = .ok ts) :
    ts.length ≤ 1 ∧ ∀ t ∈ ts, t.range.start = start ∧ t.range.end_ = start + bytes ∧ t.kind = .guard := by
  unfold guardTemplates at h
  split at h
  · obtain ⟨range, made, h⟩ := bind_ok h
    obtain ⟨from_, to_⟩ := new_ok (liftRange_ok made)
    rw [pure_ok h]
    refine ⟨Nat.le_refl _, fun t member => ?_⟩
    obtain rfl := mem_singleton.mp member
    exact ⟨from_, to_, rfl⟩
  · rw [pure_ok h]
    simp

theorem guardTemplates_covers {owner : RegionOwner} {start bytes : Nat} {ts : List RegionTemplate}
    (h : guardTemplates owner start bytes = .ok ts) (a : Nat) (m : PageMeaning) :
    Covers (ts.map (·.tile fresh)) a m ↔ (start ≤ a ∧ a < start + bytes) ∧ ⟨owner, fresh, .guard⟩ = m := by
  unfold guardTemplates at h
  split at h
  · obtain ⟨range, made, h⟩ := bind_ok h
    obtain ⟨from_, to_⟩ := new_ok (liftRange_ok made)
    rw [pure_ok h]
    simp [covers_cons, Tile.Has, from_, to_, RegionTemplate.tile, AllocationSource.resolve, shiftedBy]
  · rw [pure_ok h]
    simp only [map_nil, covers_nil, false_iff]
    rintro ⟨_, _⟩
    omega

structure MapParts (q : MapRequest) (layout : MapResultLayout) (before after ts : List RegionTemplate)
    (usable : RegionTemplate) : Prop where
  fits : q.Fits layout
  backing : usable = ⟨.new, layout.usable, q.owner, .mapping (q.backing.viewAt 0) q.current q.maximum, false⟩
  beforeMade : guardTemplates q.owner layout.reservation.start (roundUp q.guardBefore) = .ok before
  afterMade : guardTemplates q.owner layout.usable.end_ (roundUp q.guardAfter) = .ok after
  templates : ts = before ++ [usable] ++ after

namespace MapParts
variable {q : MapRequest} {layout : MapResultLayout} {before after ts : List RegionTemplate}
  {usable : RegionTemplate}

section

variable (h : MapParts q layout before after ts usable)
include h

theorem covers (a : Nat) (m : PageMeaning) : Covers (ts.map (·.tile fresh)) a m ↔ q.mapped layout fresh a = some m := by
  obtain ⟨⟨first, middle, last, _⟩, rfl, beforeMade, afterMade, rfl⟩ := h
  have nonempty := layout.usable.start_lt_end
  rw [map_append, map_append, covers_append, covers_append, guardTemplates_covers beforeMade,
    guardTemplates_covers afterMade, map_singleton, covers_cons]
  simp only [covers_nil, or_false, Tile.Has, RegionTemplate.tile, AllocationSource.resolve, shiftedBy,
    MapBacking.viewAt_shift]
  unfold MapRequest.mapped
  by_cases reserved : layout.reservation.Has a
  · rw [if_pos reserved, Option.some.injEq]
    unfold PageRange.Has at reserved
    by_cases mapped : layout.usable.Has a
    · rw [if_pos mapped]
      unfold PageRange.Has at mapped
      constructor
      · rintro ((⟨_, _⟩ | ⟨_, same⟩) | ⟨_, _⟩)
        · omega
        · exact same
        · omega
      · exact fun same => .inl (.inr ⟨mapped, same⟩)
    · rw [if_neg mapped]
      unfold PageRange.Has at mapped
      constructor
      · rintro ((⟨_, same⟩ | ⟨_, _⟩) | ⟨_, same⟩)
        · exact same
        · omega
        · exact same
      · intro same
        by_cases low : a < layout.usable.start
        · exact .inl (.inl ⟨by omega, same⟩)
        · exact .inr ⟨by omega, same⟩
  · rw [if_neg reserved]
    unfold PageRange.Has at reserved
    simp only [reduceCtorEq, iff_false]
    rintro ((⟨_, _⟩ | ⟨_, _⟩) | ⟨_, _⟩) <;> omega

theorem apart : (ts.map (·.tile fresh)).Pairwise Tile.Apart := by
  obtain ⟨⟨first, middle, last, _⟩, rfl, beforeMade, afterMade, rfl⟩ := h
  obtain ⟨beforeShort, beforeRange⟩ := guardTemplates_ok beforeMade
  obtain ⟨afterShort, afterRange⟩ := guardTemplates_ok afterMade
  refine apart_around (Nat.le_of_lt layout.usable.start_lt_end) beforeShort (Nat.le_refl _) afterShort
    (fun t ht => ?_) (fun t ht => ?_) fun t ht => ?_
  · have := beforeRange t ht
    omega
  · rw [mem_singleton.mp ht]
    exact ⟨Nat.le_refl _, Nat.le_refl _⟩
  · exact Nat.le_of_eq (afterRange t ht).1.symm

theorem each {t : RegionTemplate} (member : t ∈ ts) :
    (t.kind = .guard ∨ t.kind = .mapping (q.backing.viewAt 0) q.current q.maximum) ∧
      layout.reservation.start ≤ t.range.start ∧ t.range.end_ ≤ layout.reservation.end_ := by
  obtain ⟨⟨first, middle, last, _⟩, rfl, beforeMade, afterMade, rfl⟩ := h
  have beforeRange := (guardTemplates_ok beforeMade).2 t
  have afterRange := (guardTemplates_ok afterMade).2 t
  rcases mem_append.mp member with member | member
  · rcases mem_append.mp member with member | member
    · have := beforeRange member
      exact ⟨.inl this.2.2, by omega⟩
    · obtain rfl := mem_singleton.mp member
      exact ⟨.inr rfl, by dsimp only; omega⟩
  · have := afterRange member
    exact ⟨.inl this.2.2, by omega⟩

end

theorem planned {bounds : PageRange} {seen : List Region}
    (h : MapParts q layout before after v.plan.replacements usable) (lawful : q.maximum.permits q.current = true)
    (inside : bounds.start ≤ layout.reservation.start ∧ layout.reservation.end_ ≤ bounds.end_)
    (authorized : ∀ authorization offset, q.backing = .object authorization offset →
      authorization.maximum = q.maximum) (remove : v.plan.remove = []) (retiring : v.plan.retiring = [])
    (placed : v.plan.resultLayout = some layout) (footprint : v.plan.footprint = layout.reservation)
    (snapshot : v.snapshot = seen.map Region.key)
    (counted : permitRequirements heap v.plan.replacements = .ok v.permits)
    (grown : v.growth = v.plan.replacements.length) (asked : v.lease.map (·.1) = q.result.map (·.range))
    (hosted : ∀ lease, v.lease = some lease → LeaseHosts lease seen) : Planned bounds (.map q) seen [] v where
  snapshot := snapshot
  remove := remove
  source := .inl rfl
  distinct := nodup_nil
  edit fresh := ⟨rfl, layout, placed, footprint.symm, h.fits, h.covers⟩
  apart fresh := h.apart
  within t member := by
    have := (h.each member).2
    omega
  lawful t member := by
    rcases (h.each member).1 with kind | kind <;> rw [kind]
    · exact trivial
    · exact lawful
  growth := by rw [grown]; exact Nat.le_add_left _ _
  permits := permitRequirements_ok counted
  granted t member view shown := by
    rcases (h.each member).1 with kind | kind <;> rw [kind] at shown
    · cases shown
    · cases same : q.backing with
      | anonymous identity class_ =>
        rw [same] at shown
        cases shown
      | object authorization offset =>
        rw [same] at shown
        cases shown
        exact ⟨authorization, offset, same, by rw [authorized authorization offset same]⟩
  retired := by rw [retiring]; rfl
  idle _ other _ := by cases other
  leased := hosted
  asked _ same := by
    cases same
    exact asked

end MapParts

end

theorem validateUserWriteLease_ok {range : AddressRange} {mutation : PageRange}
    {segments : List UserWriteSegment} {keys : List RegionKey}
    (h : s.validateUserWriteLease heap range mutation = .ok (segments, keys)) :
    ∃ hosts, keys = hosts.map Region.key ∧ LeaseHosts (range, segments) hosts ∧ ∀ host ∈ hosts, host ∈ s.regions := by
  iterate 3 obtain ⟨_, _, h⟩ := bind_ok h
  obtain ⟨more, hosts, same, sameKeys, hosted, follows, member⟩ := leaseFrom_ok h
  rw [nil_append] at same sameKeys
  subst same
  exact ⟨hosts, sameKeys, ⟨hosted, follows⟩, member⟩

theorem validateMap_planned {q : MapRequest} (h : s.validateMap heap q = .ok v) : Accepted s (.map q) v := by
  obtain ⟨_, lawful, h⟩ := bind_ok h
  obtain ⟨usableBytes, usableRounded, h⟩ := bind_ok h
  obtain ⟨guardBefore, beforeRounded, h⟩ := bind_ok h
  obtain ⟨guardAfter, afterRounded, h⟩ := bind_ok h
  obtain ⟨total, sum, h⟩ := bind_ok h
  obtain ⟨_, _, h⟩ := bind_ok h
  obtain ⟨reservation, placed, h⟩ := bind_ok h
  obtain ⟨_, inside, h⟩ := bind_ok h
  obtain ⟨_, _, h⟩ := bind_ok h
  obtain ⟨_, _, h⟩ := bind_ok h
  obtain ⟨usable, usableMade, h⟩ := bind_ok h
  obtain ⟨backing, viewed, h⟩ := bind_ok h
  obtain ⟨_, _, h⟩ := bind_ok h
  obtain ⟨before, beforeMade, h⟩ := bind_ok h
  obtain ⟨after, afterMade, h⟩ := bind_ok h
  obtain ⟨_, _, rest⟩ := bind_ok h
  have lawful : q.maximum.permits q.current = true := by simpa using refuseIf_ok lawful
  have inside : s.bounds.start ≤ reservation.start ∧ reservation.end_ ≤ s.bounds.end_ := by
    simpa using refuseIf_ok inside
  obtain ⟨rfl, -⟩ := roundPageBytes_ok usableRounded
  obtain rfl := roundGuardBytes_ok beforeRounded
  obtain rfl := roundGuardBytes_ok afterRounded
  obtain ⟨partial_, first, second⟩ := Option.bind_eq_some_iff.mp (okOr_ok sum)
  obtain ⟨rfl, -⟩ := checkedAdd_some first
  obtain ⟨rfl, -⟩ := checkedAdd_some second
  obtain ⟨reserved, fixed⟩ := mapReservation_ok placed
  obtain ⟨usableFrom, usableTo⟩ := new_ok (liftRange_ok usableMade)
  obtain ⟨rfl, authorized⟩ := mapBackingView_ok viewed
  have parts : MapParts q ⟨usable, reservation⟩ before after _ _ :=
    ⟨⟨usableFrom, by rw [usableFrom, usableTo], by dsimp only; omega,
      fun start same => by rw [← fixed start same]; exact usableFrom⟩, rfl, beforeMade, afterMade, rfl⟩
  split at rest
  · rename_i lease wanted
    obtain ⟨⟨segments, keys⟩, read, rest⟩ := bind_ok rest
    obtain ⟨hosts, listed, hosted, live⟩ := validateUserWriteLease_ok read
    simp only [pure_bind_ok] at rest
    obtain ⟨permits, counted, rest⟩ := bind_ok rest
    obtain ⟨_, _, rest⟩ := bind_ok rest
    have same := pure_ok rest
    subst same
    exact ⟨hosts, [], [], parts.planned lawful inside authorized rfl rfl rfl rfl listed counted rfl
      (by rw [wanted]; rfl) (by rintro _ ⟨⟩; exact hosted), live, ⟨rfl, _, rfl, rfl⟩, .nil, nofun, nofun, inside⟩
  · rename_i wanted
    rw [pure_bind_ok] at rest
    obtain ⟨permits, counted, rest⟩ := bind_ok rest
    obtain ⟨_, _, rest⟩ := bind_ok rest
    have same := pure_ok rest
    subst same
    exact ⟨[], [], [], parts.planned lawful inside authorized rfl rfl rfl rfl rfl counted rfl
      (by rw [wanted]; rfl) (by rintro _ ⟨⟩), nofun, ⟨rfl, _, rfl, rfl⟩, .nil, nofun, nofun, inside⟩

theorem LedgerSound.subperm (sound : LedgerSound s) (rs : List Region) (sub : rs.Subperm s.regions) :
    (rs.map Region.tile).Pairwise Tile.Apart ∧ (rs.map Region.key).Nodup := by
  obtain ⟨ordered, perm, sublist⟩ := sub
  constructor
  · rw [← List.Perm.pairwise_iff Tile.apart_symm (perm.map _)]
    exact sound.ascending.apart.sublist (sublist.map _)
  · rw [← (perm.map key).nodup_iff]
    exact sound.keys.sublist (sublist.map _)

variable {range : PageRange} {pre covered post : List Region}

theorem Coverage.covers (h : Coverage s range pre covered post) (more : List Region) {a : Nat} (has : range.Has a) :
    ∃ m, Covers ((covered ++ more).map Region.tile) a m := by
  obtain ⟨r, member, held⟩ := h.whole a has
  exact ⟨_, r.tile, mem_map_of_mem (mem_append_left _ member), held, rfl⟩

theorem Coverage.sublist (h : Coverage s range pre covered post) : covered.Sublist s.regions := by
  rw [h.regions, append_assoc]
  exact sublist_append_of_sublist_right (sublist_append_left _ _)

theorem validateChangeRange_ok {u : Unit} (h : s.validateChangeRange range = .ok u) :
    s.bounds.start ≤ range.start ∧ range.end_ ≤ s.bounds.end_ := by
  obtain ⟨_, inside, _⟩ := bind_ok h
  simpa using refuseIf_ok inside

theorem validateUnmap_planned {q : UnmapRequest} (sound : LedgerSound s) (h : s.validateUnmap heap q = .ok v) :
    Accepted s (.unmap q) v := by
  obtain ⟨_, checked, h⟩ := bind_ok h
  obtain ⟨_, _, h⟩ := bind_ok h
  obtain ⟨indices, scanned, h⟩ := bind_ok h
  iterate 5 obtain ⟨_, _, h⟩ := bind_ok h
  obtain ⟨covered, read, h⟩ := bind_ok h
  obtain ⟨cuts, cut, h⟩ := bind_ok h
  obtain ⟨permits, counted, h⟩ := bind_ok h
  obtain ⟨_, _, h⟩ := bind_ok h
  have same := pure_ok h
  subst same
  obtain ⟨pre, post, coverage, _, _⟩ := coveredIndices_ok scanned read sound.ascending
  have live : ∀ r ∈ covered, r ∈ s.regions := fun r member => coverage.sublist.subset member
  obtain ⟨apart, distinct⟩ := sound.subperm covered coverage.sublist.subperm
  have each := mapM_ok cut
  have keys := map_eq_of_forall₂ (each.imp fun _ _ made => (unmapCut_retires made).1)
  have retired := map_eq_of_forall₂ (each.imp fun _ _ made => (unmapCut_retires made).2.object)
  have refined : ∀ fresh, List.Forall₂ (PartsOf fresh (.unmap q)) covered (cuts.map (·.replacements)) := by
    intro fresh
    rw [List.forall₂_map_right_iff]
    exact each.imp fun _ _ made => unmapCut_parts made
  have sorted := sortByKey_perm (fun t : RegionTemplate => t.range.start)
    (cuts.flatMap (·.replacements))
  have rewritten : ∀ fresh, Rewritten (.unmap q) q.range (covered.map tile)
      ((sortByKey (·.range.start) (cuts.flatMap (·.replacements))).map (·.tile fresh)) := by
    refine fun fresh => ⟨fun a m => ?_, fun a has => by simpa using coverage.covers [] has⟩
    rw [covers_perm (sorted.map _), flatMap_def]
    exact parts_covers (refined fresh) a m
  have orders : List.Forall₂ (Retires q.range .release) covered (cuts.map (·.retiring)) := by
    rw [List.forall₂_map_right_iff]
    exact each.imp fun _ _ made => (unmapCut_retires made).2
  have removed : ∀ r ∈ covered, r.key ∈ cuts.map (·.remove) := fun r member => keys ▸ mem_map_of_mem member
  refine ⟨covered, covered, covered, ?_, live, ⟨coverage.whole, orders, rfl⟩, apart, removed, live,
    validateChangeRange_ok checked⟩
  exact {
    snapshot := keys.symm
    remove := keys.symm
    source := .inr rfl
    distinct := distinct
    edit := fun fresh => ⟨rfl, fun _ => id, rewritten fresh⟩
    apart := fun fresh => by
      rw [List.Perm.pairwise_iff Tile.apart_symm (sorted.map _), flatMap_def]
      exact parts_apart (refined fresh) apart
    within := fun t member => (rewritten ⟨0⟩).within (fun r hr => sound.within r (live r hr)) member
    lawful := fun t member => by
      obtain ⟨⟨r, hr, _, kept⟩, _⟩ := (rewritten ⟨0⟩).origin member
      simp only [Request.rewrite] at kept
      split at kept
      · cases kept
      · rw [Option.some.injEq, PageMeaning.mk.injEq] at kept
        rw [← kept.2.2]
        exact lawful_shiftedBy.mpr (sound.lawful r (live r hr))
    growth := by
      have := congrArg List.length keys
      simp only [length_map] at this ⊢
      omega
    permits := permitRequirements_ok counted
    granted := fun t member view shown => (rewritten ⟨0⟩).views member shown
    retired := by
      have := congrArg List.length retired
      simp only [length_map] at this
      rw [map_map, length_map, ← this, take_length]
      exact retired.symm
    idle := fun _ other _ => by cases other
    leased := fun _ other => by cases other
    asked := fun _ other => by cases other }

theorem neighborTemplates_parts (q : ProtectRequest) (fresh : AllocationKey) {neighbor : Option Region}
    {ts : List RegionTemplate} (h : MemorySpace.neighborTemplates neighbor = .ok ts)
    (outside : ∀ r ∈ neighbor.toList, ∀ a, r.tile.Has a → ¬q.range.Has a) :
    ∃ parts, List.Forall₂ (PartsOf fresh (.protect q)) neighbor.toList parts ∧ parts.flatten = ts := by
  cases neighbor with
  | none =>
    rw [pure_ok h]
    exact ⟨[], .nil, rfl⟩
  | some region =>
    obtain ⟨t, made, h⟩ := bind_ok h
    rw [pure_ok h]
    exact ⟨[[t]], .cons (whole_parts made (outside region (by simp))) .nil, rfl⟩

theorem protectAllowed_lawful {protection : Protection} {region : Region} {u : Unit}
    (h : protectAllowed protection region = .ok u) : (region.kind.protect protection).Lawful := by
  unfold protectAllowed at h
  split at h
  · exact (fail_ne_ok h).elim
  · rename_i kind
    rw [kind]
    simpa [protect, RegionKind.Lawful] using refuseIf_ok h

theorem hasProtection_protect {protection : Protection} {region : Region}
    (h : hasProtection protection region = true) : region.kind.protect protection = region.kind := by
  unfold hasProtection at h
  split at h
  · rename_i kind
    rw [kind, protect, beq_iff_eq.mp h]
  · cases h

theorem idle_planned {q : ProtectRequest}
    (coverage : Coverage s q.range pre covered post) (all : covered.all (hasProtection q.protection) = true) :
    Planned s.bounds (.protect q) covered [] {
      plan := {
        remove := []
        replacements := []
        retiring := []
        translations := []
        footprint := q.range
        resultLayout := none }
      snapshot := covered.map (·.key)
      lease := none
      permits := []
      growth := 0 } where
  snapshot := rfl
  remove := rfl
  source := .inl rfl
  distinct := nodup_nil
  edit fresh := ⟨rfl, fun _ => id, .inr ⟨rfl, rfl⟩⟩
  apart fresh := List.Pairwise.nil
  within _ member := by cases member
  lawful _ member := by cases member
  growth := Nat.le_refl _
  permits := rfl
  granted _ member := by cases member
  retired := rfl
  idle _ same _ := by
    cases same
    exact ⟨coverage.whole, fun r member => hasProtection_protect (all_eq_true.mp all r member)⟩
  leased _ other := by cases other
  asked _ other := by cases other

theorem validateProtect_planned {q : ProtectRequest} (sound : LedgerSound s)
    (h : s.validateProtect heap q = .ok v) : Accepted s (.protect q) v := by
  obtain ⟨_, checked, h⟩ := bind_ok h
  obtain ⟨_, _, h⟩ := bind_ok h
  obtain ⟨indices, scanned, h⟩ := bind_ok h
  obtain ⟨covered, read, h⟩ := bind_ok h
  obtain ⟨_, allowed, h⟩ := bind_ok h
  obtain ⟨pre, post, coverage, consecutive, _⟩ := coveredIndices_ok scanned read sound.ascending
  have coveredLive : ∀ r ∈ covered, r ∈ s.regions := fun r member => coverage.sublist.subset member
  have inside := validateChangeRange_ok checked
  split at h
  · rename_i all
    rw [pure_ok h]
    exact ⟨covered, [], [], idle_planned coverage all, coveredLive, ⟨.inl rfl, .nil, nofun, rfl⟩, .nil, nofun, nofun, inside⟩
  iterate 6 obtain ⟨_, _, h⟩ := bind_ok h
  obtain ⟨cuts, cut, h⟩ := bind_ok h
  obtain ⟨⟨neighbors, templates⟩, absorbed, h⟩ := bind_ok h
  obtain ⟨replacements, normalized, h⟩ := bind_ok h
  obtain ⟨footprint, hull, h⟩ := bind_ok h
  obtain ⟨_, _, h⟩ := bind_ok h
  obtain ⟨permits, counted, h⟩ := bind_ok h
  obtain ⟨_, _, h⟩ := bind_ok h
  have same := pure_ok h
  subst same
  rw [consecutive] at absorbed
  obtain ⟨left, right, pre', post', leftTemplates, rightTemplates, joined, before, after, leftMade, rightMade,
    gathered⟩ := absorbNeighbors_ok coverage.regions coverage.found absorbed
  have regions : s.regions = pre' ++ (left.toList ++ covered ++ right.toList) ++ post' := by
    rw [coverage.regions, before, after]
    simp only [append_assoc]
  have around : (covered ++ neighbors).Perm (left.toList ++ covered ++ right.toList) := by
    rw [joined, ← append_assoc]
    exact perm_append_comm.append_right _
  obtain ⟨apart, distinct⟩ := sound.subperm (covered ++ neighbors) (by
    refine around.subperm.trans ?_
    rw [regions, append_assoc pre']
    exact (sublist_append_of_sublist_right (sublist_append_left _ _)).subperm)
  have live : ∀ r ∈ covered ++ neighbors, r ∈ s.regions := fun r member => by
    rw [regions]
    exact mem_append_left _ (mem_append_right _ (around.mem_iff.mp member))
  -- the covered regions hold the whole range and meet no neighbor
  have outside : ∀ r ∈ neighbors, ∀ a, r.tile.Has a → ¬q.range.Has a := by
    intro r member a held has
    obtain ⟨r', member', held'⟩ := coverage.whole a has
    rw [map_append, pairwise_append] at apart
    exact Tile.not_has_of_apart (apart.2.2 _ (mem_map_of_mem member') _ (mem_map_of_mem member))
      held' held
  have each := mapM_ok cut
  have keys := map_eq_of_forall₂ (each.imp fun _ _ made => (protectCut_retires made).1)
  have retired := map_eq_of_forall₂ (each.imp fun _ _ made => (protectCut_retires made).2.1.object)
  have refined : ∀ fresh, ∃ parts, List.Forall₂ (PartsOf fresh (.protect q)) (covered ++ neighbors) parts ∧
      parts.flatten = templates := by
    intro fresh
    obtain ⟨leftParts, leftRefined, leftSame⟩ := neighborTemplates_parts q fresh leftMade
      (fun r member => outside r (by rw [joined]; exact mem_append_left _ member))
    obtain ⟨rightParts, rightRefined, rightSame⟩ := neighborTemplates_parts q fresh rightMade
      (fun r member => outside r (by rw [joined]; exact mem_append_right _ member))
    refine ⟨cuts.map (·.replacements) ++ (leftParts ++ rightParts), ?_, ?_⟩
    · rw [joined]
      refine rel_append ?_ (rel_append leftRefined rightRefined)
      rw [List.forall₂_map_right_iff]
      exact each.imp fun _ _ made => protectCut_parts made
    · rw [gathered, flatten_append, flatten_append, leftSame, rightSame, flatMap_def, append_assoc]
  have normal : ∀ fresh, Ascending (replacements.map (·.tile fresh)) ∧
      Rewritten (.protect q) q.range ((covered ++ neighbors).map tile)
        (replacements.map (·.tile fresh)) := by
    intro fresh
    obtain ⟨parts, parted, flat⟩ := refined fresh
    obtain ⟨ascending, covers⟩ := normalizeTemplates_ok normalized (flat ▸ parts_apart parted apart)
    refine ⟨ascending, fun a m => ?_, fun a has => coverage.covers _ has⟩
    rw [covers a m, ← flat]
    exact parts_covers parted a m
  obtain ⟨from_, to_⟩ := fromBounds_ok (liftRange_ok hull)
  have within : ∀ t ∈ replacements, s.bounds.start ≤ t.range.start ∧ t.range.end_ ≤ s.bounds.end_ := fun t member =>
    (normal ⟨0⟩).2.within (fun r hr => sound.within r (live r hr)) member
  have enclosed : s.bounds.start ≤ footprint.start ∧ footprint.end_ ≤ s.bounds.end_ := by
    rw [from_, to_]
    constructor
    · cases head : replacements.head? with
      | none => exact inside.1
      | some t => exact (within t (mem_of_mem_head? head)).1
    · cases last : replacements.getLast? with
      | none => exact inside.2
      | some t => exact (within t (mem_of_getLast? last)).2
  have orders : List.Forall₂ (Retires q.range .retain) covered (cuts.map (·.retiring)) := by
    rw [List.forall₂_map_right_iff]
    exact each.imp fun _ _ made => (protectCut_retires made).2.1
  have mapped : ∀ r ∈ covered, r.kind.isMapping = true := fun r member => by
    obtain ⟨c, _, made⟩ := forall₂_mem_left each member
    exact (protectCut_retires made).2.2.1
  have intents := map_eq_of_forall₂ (each.imp fun _ _ made => (protectCut_retires made).2.2.2.symm)
  have removed : ∀ r ∈ covered, r.key ∈ cuts.map (·.remove) ++ neighbors.map (·.key) := fun r member =>
    mem_append_left _ (keys ▸ mem_map_of_mem member)
  refine ⟨covered ++ neighbors, covered ++ neighbors, covered, ?_, live,
    ⟨.inr coverage.whole, orders, mapped, by rw [flatMap_def, flatMap_def, intents]⟩,
    (sound.subperm covered coverage.sublist.subperm).1, removed, coveredLive, enclosed⟩
  exact {
    snapshot := by rw [map_append, keys]
    remove := by rw [map_append, keys]
    source := .inr rfl
    distinct := distinct
    edit := fun fresh => by
      refine ⟨rfl, fun a has => ?_, .inl (normal fresh).2⟩
      obtain ⟨v, covers⟩ := (normal fresh).2.whole a has
      have covers := ((normal fresh).2.covers a (v.protect q.protection)).mpr ⟨v, covers, if_pos has⟩
      exact hull_holds (normal fresh).1 from_ to_ covers
    apart := fun fresh => (normal fresh).1.apart
    within := within
    lawful := fun t member => by
      obtain ⟨⟨r, hr, held, kept⟩, _⟩ := (normal ⟨0⟩).2.origin member
      simp only [Request.rewrite] at kept
      split at kept
      · rename_i has
        rw [Option.some.injEq, PageMeaning.protect, PageMeaning.mk.injEq] at kept
        rw [← kept.2.2]
        rcases mem_append.mp hr with hr | hr
        · obtain ⟨_, _, ok⟩ := forall₂_mem_left (mapM_ok allowed) hr
          have lawful := protectAllowed_lawful ok
          simp only [tile, ← protect_shiftedBy]
          exact lawful_shiftedBy.mpr lawful
        · exact (outside r hr _ held has).elim
      · rw [Option.some.injEq, PageMeaning.mk.injEq] at kept
        rw [← kept.2.2]
        exact lawful_shiftedBy.mpr (sound.lawful r (live r hr))
    growth := by
      have := congrArg List.length keys
      simp only [length_map, length_append] at this ⊢
      omega
    permits := permitRequirements_ok counted
    granted := fun t member view shown => (normal ⟨0⟩).2.views member shown
    retired := by
      have := congrArg List.length retired
      simp only [length_map] at this
      rw [map_map, length_map, ← this, take_left']
      · exact retired.symm
      · rfl
    idle := fun _ _ none => by
      have := coverage.found
      simp [this] at none
    leased := fun _ other => by cases other
    asked := fun _ other => by cases other }

end Halcyon.Space
