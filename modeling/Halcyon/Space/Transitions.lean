import Halcyon.Space.Preservation

/-!
Reserving and committing keep the invariant, and with the other steps every run does.
-/

namespace Halcyon.Space

open List

variable {w next : World}

variable {fresh : AllocationKey} {templates : List RegionTemplate} {regions : List Region}

section

variable (made : List.Forall₂ (MadeFrom fresh) templates regions)
include made

theorem made_tiles : templates.map (·.tile fresh) = regions.map Region.tile :=
  map_eq_of_forall₂ (made.imp fun _ _ m => m.tile)

theorem made_objects (o : ObjectId) :
    templates.countP (fun t => t.kind.object? == some o) = regions.countP (fun r => r.kind.object? == some o) := by
  induction made with
  | nil => rfl
  | cons first _ ih => rw [countP_cons, countP_cons, ih, first.kind]

theorem made_permits :
    (regions.filterMap Region.permit).length = (templates.filterMap RegionTemplate.writableObject).length := by
  induction made with
  | nil => rfl
  | cons first _ ih =>
    rw [filterMap_cons, filterMap_cons, first.permit]
    cases RegionTemplate.writableObject _ <;> simp [ih]

end

theorem Hosts.matches {host : Region} {segment : UserWriteSegment} (h : Hosts host segment) {a : Nat}
    (has : segment.user.containsAddress a = true) : host.tile.Has a ∧ segment.Matches a (host.tile.value a) := by
  rw [AddressRange.containsAddress_iff] at has
  obtain ⟨maximum, writable⟩ := h.writable
  have from_ := h.from_
  have to_ := h.to_
  refine ⟨⟨by rw [Region.tile_start]; omega, by rw [Region.tile_stop]; omega⟩, maximum, ?_⟩
  have distance : segment.backingOffset + (a - segment.user.start) = segment.backing.offset + (a - host.range.start) := by
    rw [h.offset]
    omega
  simp only [Region.tile, writable, RegionKind.shiftedBy, distance]

theorem seen_live {seen : List Region} {v : ValidatedChange} (snapshot : v.snapshot = seen.map Region.key)
    (known : ∀ r ∈ seen, Known w r) (present : ∀ key ∈ v.snapshot, ∃ r ∈ w.space.regions, r.key = key) :
    ∀ r ∈ seen, r ∈ w.space.regions := by
  intro r member
  obtain ⟨q, live, same⟩ := present r.key (by rw [snapshot]; exact mem_map_of_mem member)
  rw [← (known r member).same q (mem_append_left _ live) same]
  exact live

theorem rangeEmpty_apart {s : MemorySpace} {range : PageRange} (empty : s.rangeEmpty range = true) {r : Region}
    (member : r ∈ s.regions) {a : Nat} (has : r.tile.Has a) : ¬range.Has a := by
  have apart := (Bool.and_eq_true_iff.mp empty).1
  rw [Bool.not_eq_true', any_eq_false] at apart
  have apart := apart r member
  rw [PageRange.overlaps_iff] at apart
  rintro ⟨low, high⟩
  obtain ⟨low', high'⟩ := has
  rw [Region.tile_start] at low'
  rw [Region.tile_stop] at high'
  omega

section
variable {request : Request} {v : ValidatedChange} {p : PreparedChange} {space : MemorySpace}
  {permits : List WritePermit} {before after : List (Request × ValidatedChange)}

def reservedWorld (w : World) (request : Request) (p : PreparedChange) (space : MemorySpace)
    (validated : List (Request × ValidatedChange)) (supplied : List WritePermit) : World :=
  { w with space, validated, prepared := w.prepared ++ [(request, p)], supplied }

theorem reservedWorld_pending {validated : List (Request × ValidatedChange)} {supplied : List WritePermit} :
    (reservedWorld w request p space validated supplied).pending = w.pending ++ p.plan.replacements := by
  simp [reservedWorld, World.pending]

section

variable (effect : Reserves w.space v permits space p)
include effect

theorem Reserves.keys_fresh {r : Region}
    (member : r ∈ p.plan.replacements) : w.space.nextRegion ≤ r.key.value ∧ r.key.value < space.nextRegion := by
  have listed : r.key.value ∈ p.plan.replacements.map (·.key.value) := mem_map_of_mem member
  rw [effect.keys, mem_range'_1] at listed
  have := effect.next
  omega

theorem Reserves.keys_nodup : (p.plan.replacements.map Region.key).Nodup := by
  have distinct : (p.plan.replacements.map (·.key.value)).Nodup := by
    rw [effect.keys]
    exact nodup_range'
  have split : p.plan.replacements.map (·.key.value) = (p.plan.replacements.map Region.key).map (·.value) := by
    rw [map_map]
    rfl
  rw [split] at distinct
  exact distinct.of_map

theorem Reserves.follows {validated : List (Request × ValidatedChange)} {supplied : List WritePermit} :
    Follows w (reservedWorld w request p space validated supplied) := by
  obtain ⟨_, _, rfl⟩ := effect.ledger
  refine ⟨rfl, ?_, fun q member => ?_⟩
  · have := effect.next
    simp only [reservedWorld] at this ⊢
    omega
  · rw [reservedWorld_pending, ← append_assoc] at member
    rcases mem_append.mp member with old | fresh
    · exact .inl old
    · exact .inr (effect.keys_fresh fresh).1

end

theorem prepared_of_planned {seen removed : List Region}
    (planned : Planned w.space.bounds request seen removed v) (known : ∀ r ∈ seen, Known w r)
    (effect : Reserves w.space v permits space p) (validated : List (Request × ValidatedChange))
    (supplied : List WritePermit) :
    ∃ fresh, PreparedSound (reservedWorld w request p space validated supplied) request p
      ⟨⟨w.space.nextChange⟩, v.plan.footprint, v.lease.map (·.1), .reserved, v.growth⟩ fresh removed := by
  have follows : Follows w (reservedWorld w request p space validated supplied) := effect.follows
  obtain ⟨fresh, made⟩ := effect.made
  have live := seen_live planned.snapshot known effect.checked.snapshot
  have tiles := made_tiles made
  have removedKnown : ∀ r ∈ removed, Known w r := by
    rcases planned.source with none | same
    · rw [none]
      simp
    · rw [same]
      exact known
  obtain ⟨_, _, ledger⟩ := effect.ledger
  have from_ : ∀ r ∈ p.plan.replacements, ∃ t ∈ v.plan.replacements, MadeFrom fresh t r :=
    fun r member => forall₂_mem_right made member
  refine ⟨fresh, ?_⟩
  constructor
  case live => simp [reservedWorld, ledger]
  case key => exact effect.key.symm
  case stage => rfl
  case lease =>
    rw [effect.lease, Option.map_map]
    rfl
  case asked =>
    intro q map
    rw [effect.lease, Option.map_map]
    exact planned.asked q map
  case remove => rw [effect.remove, planned.remove]
  case known => exact fun r member => (removedKnown r member).follows follows
  case distinct => exact planned.distinct
  case edit =>
    rw [effect.layout, ← tiles]
    exact planned.edit fresh
  case apart =>
    rw [← tiles]
    exact planned.apart fresh
  case within =>
    intro r member
    obtain ⟨t, ht, from_⟩ := from_ r member
    rw [follows.bounds, from_.range]
    exact planned.within t ht
  case lawful =>
    intro r member
    obtain ⟨t, ht, from_⟩ := from_ r member
    exact from_.kind ▸ planned.lawful t ht
  case permitted =>
    intro r member
    obtain ⟨t, ht, from_⟩ := from_ r member
    rw [from_.permit, from_.kind]
    rfl
  case growth =>
    rw [← made.length_eq]
    exact planned.growth
  case spent =>
    -- as many permits were supplied as the templates take
    have supplied := effect.supplied.length_eq
    rw [length_append, effect.checked.supplied, planned.permits, made_permits made] at supplied
    exact length_eq_zero_iff.mp (by omega)
  case permitless => exact effect.permitless
  case granted =>
    intro r member view shown
    obtain ⟨t, ht, from_⟩ := from_ r member
    exact planned.granted t ht view (from_.kind ▸ shown)
  case retired =>
    have same := planned.retired
    rw [← effect.retiring, map_map, length_map] at same
    exact same
  case deltas =>
    intro o
    rw [effect.deltas, objectRegionDeltas_entry, made_objects made o, ← effect.retiring, countP_map]
    rfl
  case deltaObjects =>
    rw [effect.deltas]
    exact objectRegionDeltas_nodup
  case free =>
    intro layout r member a has
    rw [effect.layout] at layout
    have none : removed = [] := by
      have edit := planned.edit fresh
      cases request with
      | map q => simpa using edit.1
      | unmap q | protect q => rw [edit.1] at layout; cases layout
    have empty := effect.checked.empty (by rw [planned.remove, none]; rfl) layout
    refine rangeEmpty_apart empty ?_ has
    simpa [reservedWorld, ledger] using member
  case idle =>
    intro q protect none a has
    obtain ⟨whole, same⟩ := planned.idle q protect none
    obtain ⟨r, member, held⟩ := whole a has
    refine ⟨r.tile.value a, ⟨r.tile, ?_, held, rfl⟩, ?_⟩
    · simpa [reservedWorld, ledger] using ⟨r, live r member, rfl⟩
    · rw [PageMeaning.protect, Region.tile, ← RegionKind.protect_shiftedBy, same r member]
  case pinned =>
    intro lease pinned
    rw [effect.lease] at pinned
    obtain ⟨⟨range, segments⟩, leased, rfl⟩ := Option.map_eq_some_iff.mp pinned
    obtain ⟨hosted, consecutive⟩ := planned.leased _ leased
    refine ⟨consecutive, fun segment member a has => ?_⟩
    obtain ⟨host, hh, hosts⟩ := forall₂_mem_right hosted member
    obtain ⟨held, matched⟩ := hosts.matches has
    refine ⟨host.tile.value a, ⟨host.tile, ?_, held, rfl⟩, matched⟩
    simpa [reservedWorld, ledger] using ⟨host, live host hh, rfl⟩

theorem World.Sound.reserved (sound : w.Sound) (token : w.validated = before ++ (request, v) :: after)
    (effect : Reserves w.space v permits space p) (supplied : List WritePermit) :
    World.Sound (reservedWorld w request p space (before ++ after) supplied) := by
  have follows : Follows w (reservedWorld w request p space (before ++ after) supplied) := effect.follows
  obtain ⟨seen, removed, planned, known⟩ := sound.validated (request, v) (by simp [token])
  obtain ⟨fresh, mine⟩ := prepared_of_planned planned known effect (before ++ after) supplied
  obtain ⟨_, _, ledger⟩ := effect.ledger
  have transactions : space.transactions = w.space.transactions ++
      [⟨⟨w.space.nextChange⟩, v.plan.footprint, v.lease.map (·.1), .reserved, v.growth⟩] := by rw [ledger]
  constructor
  case ledger =>
    have room := effect.checked.room
    have growth := sound.ledger.growth
    show LedgerSound space
    rw [ledger]
    exact { sound.ledger with
      clear := by
        refine pairwise_append.mpr ⟨sound.ledger.clear, pairwise_singleton _ _, fun x hx y hy => ?_⟩
        rw [mem_singleton.mp hy]
        exact effect.checked.clear x hx
      growth := by simp [growth]
      room := by dsimp only; omega }
  case regionKeys =>
    rw [reservedWorld_pending, ← append_assoc, map_append, nodup_append]
    rw [reservedWorld, ledger]
    refine ⟨sound.regionKeys, effect.keys_nodup, fun x hx y hy same => ?_⟩
    obtain ⟨old, oldMember, rfl⟩ := mem_map.mp hx
    obtain ⟨new, newMember, rfl⟩ := mem_map.mp hy
    have low := sound.regionsBelow old oldMember
    have high := (effect.keys_fresh newMember).1
    rw [same] at low
    omega
  case regionsBelow =>
    rw [reservedWorld_pending, ← append_assoc]
    refine forall_mem_append.mpr ⟨fun r old => ?_, fun r new => (effect.keys_fresh new).2⟩
    have below := sound.regionsBelow r (by simpa [reservedWorld, ledger] using old)
    exact Nat.lt_of_lt_of_le below follows.nextRegion
  case changeKeys =>
    simp only [reservedWorld, transactions]
    refine nodup_map_concat sound.changeKeys fun record member same => ?_
    have below := sound.changesBelow record member
    rw [same] at below
    exact Nat.lt_irrefl _ below
  case changesBelow =>
    simp only [reservedWorld, ledger]
    refine forall_mem_concat (fun record old => ?_) (Nat.lt_succ_self _)
    exact Nat.lt_succ_of_lt (sound.changesBelow record old)
  case tokens =>
    simp only [reservedWorld, transactions, map_append, map_singleton, effect.key]
    rw [append_assoc]
    refine (sound.tokens.append_right _).trans ?_
    rw [append_assoc]
    exact perm_append_comm.append_left _
  case settled =>
    simp only [reservedWorld, transactions]
    exact forall_mem_concat sound.settled (fun stage => (stage rfl).elim)
  case validated =>
    intro x member
    exact (forall_erased (token ▸ sound.validated) x member).follows follows
  case prepared =>
    refine forall_mem_concat (fun x old => ?_) ⟨_, fresh, removed, mine⟩
    obtain ⟨record, fresh, removed, prepared⟩ := sound.prepared x old
    refine ⟨record, fresh, removed, prepared.follows follows ?_ (fun a _ m => ?_)⟩
    · simp [reservedWorld, transactions, prepared.live]
    · rw [reservedWorld, ledger]
  case emptied => exact sound.emptied

end

theorem eq_of_keys {xs ys : List Region} (keys : xs.map Region.key = ys.map Region.key)
    (same : ∀ x ∈ xs, ∀ y ∈ ys, x.key = y.key → x = y) : xs = ys := by
  induction xs generalizing ys with
  | nil =>
    cases ys with
    | nil => rfl
    | cons y ys => cases keys
  | cons x xs ih =>
    cases ys with
    | nil => cases keys
    | cons y ys =>
      rw [map_cons, map_cons, List.cons.injEq] at keys
      rw [same x mem_cons_self y mem_cons_self keys.1, ih keys.2 fun x hx y hy =>
        same x (mem_cons_of_mem _ hx) y (mem_cons_of_mem _ hy)]

section
variable {request : Request} {p : PreparedChange} {before after : List (Request × PreparedChange)}
  {space : MemorySpace} {payload : ChangePayload} {removed kept : List Region}
  {pre post : List TransactionRecord} {record : TransactionRecord} {fresh : AllocationKey}

section Committed

variable (effect : Commits w.space p space payload removed kept pre post record)
include effect

theorem Commits.prepared (request : Request) (sound : w.Sound) (member : (request, p) ∈ w.prepared) :
    ∃ fresh, PreparedSound w request p record fresh removed := by
  obtain ⟨mine, fresh, seen, prepared⟩ := sound.prepared _ member
  have here : record ∈ w.space.transactions := by simp [effect.transactions]
  have sameRecord : mine = record := eq_of_key sound prepared.live here (prepared.key.trans effect.key.symm)
  have sameRegions : removed = seen := by
    refine eq_of_keys (effect.keys.trans prepared.remove) fun x hx y hy same => ?_
    have live : x ∈ w.space.regions := effect.regions.mem_iff.mp (mem_append_left _ hx)
    exact (prepared.known y hy).same x (mem_append_left _ live) same
  rw [sameRecord, ← sameRegions] at prepared
  exact ⟨fresh, prepared⟩

variable {a : Nat}

theorem Commits.regions_new : space.regions.Perm (kept ++ p.plan.replacements) := by
  obtain ⟨_, _, rfl⟩ := effect.ledger
  exact sortByKey_perm _ _

theorem Commits.covers_new {m : PageMeaning} : Covers (space.regions.map Region.tile) a m ↔
      Covers (kept.map Region.tile) a m ∨ Covers (p.plan.replacements.map Region.tile) a m := by
  rw [covers_perm (effect.regions_new.map _), map_append, covers_append]

theorem Commits.outside (prepared : PreparedSound w request p record fresh removed) (out : ¬record.footprint.Has a)
    (m : PageMeaning) :
    Covers (w.space.regions.map Region.tile) a m ↔ Covers (space.regions.map Region.tile) a m := by
  rw [← covers_perm (effect.regions.map Region.tile), map_append, covers_append, effect.covers_new,
    prepared.edit.outside out, or_comm]

theorem Commits.apart (sound : w.Sound) (prepared : PreparedSound w request p record fresh removed) :
    ((kept ++ p.plan.replacements).map Region.tile).Pairwise Tile.Apart := by
  have old := (List.Perm.pairwise_iff Tile.apart_symm (effect.regions.map Region.tile)).mpr
    sound.ledger.ascending.apart
  rw [map_append, pairwise_append] at old
  rw [map_append, pairwise_append]
  refine ⟨old.2.1, prepared.apart, fun t ht u hu => ?_⟩
  obtain ⟨k, hk, rfl⟩ := mem_map.mp ht
  obtain ⟨r, hr, rfl⟩ := mem_map.mp hu
  refine Tile.apart_of_no_common k.tile_nonempty r.tile_nonempty fun a inKept inNew => ?_
  rcases prepared.edit.inside ⟨r.tile, hu, inNew, rfl⟩ with ⟨v, gone, member, held, _⟩ | ⟨layout, held⟩
  · exact Tile.not_has_of_apart (old.2.2 gone member _ ht) held inKept
  · have live : k ∈ w.space.regions := effect.regions.mem_iff.mp (mem_append_right _ hk)
    exact prepared.free layout k live a inKept held

theorem Commits.ledgerSound (sound : w.Sound) (prepared : PreparedSound w request p record fresh removed)
    (keys : ((kept ++ p.plan.replacements).map Region.key).Nodup) : LedgerSound space := by
  have apart := effect.apart sound prepared
  have member : ∀ r ∈ space.regions, r ∈ w.space.regions ∨ r ∈ p.plan.replacements := by
    intro r hr
    refine (mem_append.mp (effect.regions_new.mem_iff.mp hr)).imp_left fun hr => ?_
    exact effect.regions.mem_iff.mp (mem_append_right _ hr)
  have sorted := effect.regions_new
  have length := effect.regions.length_eq
  obtain ⟨growth, less, rfl⟩ := effect.ledger
  have clear := sound.ledger.clear
  have sum := sound.ledger.growth
  have room := sound.ledger.room
  have grown := prepared.growth
  rw [effect.transactions] at clear
  rw [effect.transactions, sum_split] at sum
  rw [length_append] at length
  constructor
  case ascending => exact ascending_sort apart fun r _ => r.range.start_lt_end
  case within => exact fun r hr => (member r hr).elim (sound.ledger.within r) (prepared.within r)
  case lawful => exact fun r hr => (member r hr).elim (sound.ledger.lawful r) (prepared.lawful r)
  case permitted => exact fun r hr => (member r hr).elim (sound.ledger.permitted r) (prepared.permitted r)
  case keys => exact (sorted.map _).nodup_iff.mpr keys
  case clear =>
    refine clear_replace record clear fun a held => ?_
    rcases held with held | ⟨_, none, _⟩
    · exact .inl held
    · cases none
  case growth =>
    rw [sum_split]
    dsimp only
    omega
  case room =>
    have := sorted.length_eq
    rw [length_append] at this
    dsimp only at this ⊢
    omega

theorem Commits.all_regions (token : w.prepared = before ++ (request, p) :: after) :
    (removed ++ (space.regions ++ (before ++ after).flatMap (·.2.plan.replacements))).Perm
      (w.space.regions ++ w.pending) := by
  rw [World.pending, token]
  simp only [flatMap_append, flatMap_cons]
  refine (((effect.regions_new.append_right _).append_left removed)).trans ?_
  refine List.Perm.trans ?_ (effect.regions.append_right _)
  simp only [append_assoc]
  refine ((List.Perm.append_left kept ?_)).append_left removed
  rw [← append_assoc, ← append_assoc]
  exact perm_append_comm.append_right _

theorem Commits.follows (token : w.prepared = before ++ (request, p) :: after) : Follows w { w with
      space
      prepared := before ++ after
      staged := w.staged ++ [(.committed, payload)] } := by
  have all := effect.all_regions token
  obtain ⟨_, _, rfl⟩ := effect.ledger
  exact ⟨rfl, Nat.le_refl _, fun q member => .inl (all.mem_iff.mp (mem_append_right _ member))⟩

end Committed

theorem World.Sound.committed (sound : w.Sound) (token : w.prepared = before ++ (request, p) :: after)
    (effect : Commits w.space p space payload removed kept pre post record) : World.Sound { w with
      space
      prepared := before ++ after
      staged := w.staged ++ [(.committed, payload)] } := by
  obtain ⟨fresh, prepared⟩ := effect.prepared request sound (by simp [token])
  have transactions : space.transactions =
      pre ++ { record with reservedGrowth := 0, lease := none, stage := .committed } :: post := by
    obtain ⟨_, _, rfl⟩ := effect.ledger
    rfl
  have next : space.nextRegion = w.space.nextRegion ∧ space.nextChange = w.space.nextChange := by
    obtain ⟨_, _, rfl⟩ := effect.ledger
    exact ⟨rfl, rfl⟩
  have all := effect.all_regions token
  have keys := ((all.map Region.key).nodup_iff).mpr sound.regionKeys
  rw [map_append] at keys
  have keys := (nodup_append.mp keys).2.1
  have tokens := sound.tokens
  rw [token, map_append, map_cons, append_assoc, cons_append, ← effect.key, ← effect.stage] at tokens
  constructor
  case ledger =>
    refine effect.ledgerSound sound prepared ?_
    rw [← (effect.regions_new.map Region.key).nodup_iff]
    rw [map_append] at keys
    exact (nodup_append.mp keys).1
  case regionKeys => exact keys
  case regionsBelow =>
    intro r member
    rw [next.1]
    exact sound.regionsBelow r (all.mem_iff.mp (mem_append_right _ member))
  case changeKeys =>
    have keys := sound.changeKeys
    rw [effect.transactions] at keys
    simp only [transactions]
    exact keys_replace record keys rfl
  case changesBelow =>
    have below := sound.changesBelow
    rw [effect.transactions] at below
    simp only [transactions, next.2]
    exact forall_replaced below (below record (by simp))
  case tokens =>
    have rest := tokens_erase effect.transactions tokens
    simp only [transactions, map_append, map_cons, map_nil] at rest ⊢
    have payloadKey : payload.key = record.key := by rw [effect.payload, effect.key]
    rw [effect.stage] at rest
    rw [payloadKey, ← append_assoc, append_assoc (List.map _ before)]
    exact perm_middle.trans ((rest.cons _).trans (perm_append_singleton _ _).symm)
  case settled =>
    have settled := sound.settled
    rw [effect.transactions] at settled
    simp only [transactions]
    exact forall_replaced settled fun _ => rfl
  case validated => exact fun x member => (sound.validated x member).follows (effect.follows token)
  case prepared =>
    intro x member
    obtain ⟨mine, fresh', removed', other⟩ := sound.prepared x (mem_token token member)
    have live := sound.others_live token effect.transactions effect.key member other
    refine ⟨mine, fresh', removed', other.follows (effect.follows token) ?_ fun a held m => ?_⟩
    · simp only [transactions]
      exact mem_replaced live
    · -- the two records hold no byte in common
      refine effect.outside prepared (fun mineToo => ?_) m
      have clear := sound.ledger.clear
      rw [effect.transactions] at clear
      have clear := List.Perm.pairwise_iff (fun h => by
        rw [TransactionRecord.clear_iff] at h ⊢
        exact fun a x y => h a y x) perm_middle |>.mp clear
      have apart := (pairwise_cons.mp clear).1 mine live
      rw [TransactionRecord.clear_iff] at apart
      exact apart a (.inl mineToo) held
  case emptied =>
    refine forall_mem_concat sound.emptied (fun retiring => ?_)
    rcases retiring with h | h <;> cases h

end

theorem World.Sound.sameLedger (sound : w.Sound) (space : next.space = w.space)
    (prepared : next.prepared = w.prepared) (staged : next.staged = w.staged)
    (validated : ∀ x ∈ next.validated, ValidatedSound w x.1 x.2) : next.Sound := by
  have follows : Follows w next := .refl_of (by rw [space]) (by rw [space]) (by rw [space]) fun x member => prepared ▸ member
  have pending : next.pending = w.pending := by rw [World.pending, prepared]; rfl
  exact {
    ledger := space ▸ sound.ledger
    regionKeys := by rw [space, pending]; exact sound.regionKeys
    regionsBelow := by rw [space, pending]; exact sound.regionsBelow
    changeKeys := by rw [space]; exact sound.changeKeys
    changesBelow := by rw [space]; exact sound.changesBelow
    tokens := by rw [space, prepared, staged]; exact sound.tokens
    settled := by rw [space]; exact sound.settled
    validated := fun x member => (validated x member).follows follows
    prepared := fun x member => by
      obtain ⟨record, fresh, removed, mine⟩ := sound.prepared x (prepared ▸ member)
      exact ⟨record, fresh, removed, mine.follows follows (by rw [space]; exact mine.live) fun a _ m => by rw [space]⟩
    emptied := by rw [staged]; exact sound.emptied }

theorem step_sound {event : Event} (sound : w.Sound) (h : w.step event = .ok next) : next.Sound := by
  cases step_cases h with
  | stay => exact sound
  | validated accepted =>
    refine sound.sameLedger rfl rfl rfl (forall_mem_concat sound.validated ?_)
    obtain ⟨seen, removed, _, planned, live, _⟩ := validate_planned sound.ledger accepted
    exact ⟨seen, removed, planned, fun r hr => sound.known (mem_append_left _ (live r hr))⟩
  | discarded i =>
    exact sound.sameLedger rfl rfl rfl fun x member => sound.validated x (mem_of_mem_eraseIdx member)
  | refused permits | popped token same | parted token => exact sound.sameLedger rfl rfl rfl sound.validated
  | reserved token effect => exact sound.reserved token effect _
  | rolledBack token transactions key stage less => exact sound.rolledBack token transactions key stage less _
  | committed token effect => exact sound.committed token effect
  | @advanced _ from_ to_ payload before after _ _ _ token order transactions key stage =>
    refine sound.restaged token transactions key stage ?_ rfl ?_
    · rcases order with ⟨rfl, _⟩ | ⟨rfl, _⟩ | ⟨rfl, _⟩ <;> decide
    · intro retiring
      refine sound.emptied (from_, payload) (by simp [token]) ?_
      rcases order with ⟨_, rfl⟩ | ⟨_, rfl⟩ | ⟨rfl, _⟩
      · rcases retiring with h | h <;> cases h
      · rcases retiring with h | h <;> cases h
      · exact .inl rfl
  | began token transactions key stage =>
    exact sound.restaged token transactions key stage (by decide) rfl fun _ => rfl
  | completed token transactions key stage => exact sound.completed token transactions key stage
  | drained idle regions => exact sound.drained idle regions _

theorem step_follows {event : Event} (h : w.step event = .ok next) : Follows w next := by
  cases step_cases h with
  | stay | validated accepted | discarded i | refused permits => exact .refl_of rfl rfl rfl fun _ => id
  | reserved token effect => exact effect.follows
  | rolledBack token transactions key stage less => exact .refl_of rfl rfl rfl fun x => mem_token token
  | committed token effect => exact effect.follows token
  | advanced token order transactions key stage | popped token same => exact .refl_of rfl rfl rfl fun _ => id
  | began token transactions key stage | parted token | completed token transactions key stage =>
    exact .refl_of rfl rfl rfl fun _ => id
  | drained idle regions => exact .of_subset rfl rfl (by simp [regions]) fun _ => id

theorem reachable_sound (h : w.Reachable) : w.Sound := by
  obtain ⟨heap, bounds, limits, space, events, made, run⟩ := h
  exact run_invariant (fun _ _ _ sound step => step_sound sound step) (start_sound made) run

end Halcyon.Space
