import Halcyon.Space.Orders

/-!
Where the backing of each allocation is, over a whole run. Every byte of a Map's reservation is either live with the
backing the Map gave it, or exactly one fragment has ordered its release.
-/

namespace Halcyon.Space

open Request Region MemorySpace World List

structure Opened where
  key : AllocationKey
  request : MapRequest
  layout : MapResultLayout

/-- The allocation that a request opens with the regions it adds. -/
def Request.opens (request : Request) (layout : Option MapResultLayout) (regions : List Region) : List Opened :=
  match request, layout, regions.head? with
  | .map q, some layout, some r => [⟨r.allocation, q, layout⟩]
  | _, _, _ => []

@[simp] theorem opens_unmap (q : UnmapRequest) (layout : Option MapResultLayout) (regions : List Region) :
    (Request.unmap q).opens layout regions = [] := by
  simp [opens]

@[simp] theorem opens_protect (q : ProtectRequest) (layout : Option MapResultLayout) (regions : List Region) :
    (Request.protect q).opens layout regions = [] := by
  simp [opens]

/-- A world, the fragments ordered so far with the request each comes from (none for a drained region),
and the Maps carried out. -/
structure History where
  world : World
  orders : List (Option Request × RetiringFragment)
  opened : List Opened

namespace History

def start (space : MemorySpace) : History := ⟨World.start space, [], []⟩

/-- The fragments that an event orders, and the Maps it carries out. -/
def record (w : World) : Event → Outcome Empty (List (Option Request × RetiringFragment) × List Opened)
  | .commit i => match w.prepared[i]? with
    | none => return ([], [])
    | some (request, p) => do
      let (_, payload) ← w.space.commit p
      return (payload.retiring.map fun f => (some request, f), request.opens payload.resultLayout p.plan.replacements)
  | .drainOne => do
      let (_, drained) ← w.space.drainOne
      return (drained.toList.map fun d => (none, d.1), [])
  | _ => return ([], [])

def step (h : History) (event : Event) : Outcome Empty History := do
  let world ← h.world.step event
  let (orders, opened) ← record h.world event
  return ⟨world, h.orders ++ orders, h.opened ++ opened⟩

def released (h : History) : List RetireTemplate := (h.orders.map (·.2.template)).filter (·.backingRetire = .release)

end History

def RetireTemplate.tile (t : RetireTemplate) : Tile PageMeaning where
  start := t.range.start
  stop := t.range.end_
  value a := ⟨t.owner, t.allocation, t.kind.shiftedBy (a - t.range.start)⟩

def RetireTemplate.holds (key : AllocationKey) (a : Nat) (t : RetireTemplate) : Bool :=
  t.allocation == key && decide (t.tile.Has a)

variable {t : RetireTemplate} {range : PageRange} {retire : BackingRetire}

variable {a : Nat}

@[simp] theorem RetireTemplate.holds_iff {key : AllocationKey} :
    t.holds key a = true ↔ t.allocation = key ∧ t.tile.Has a := by
  simp [holds]

theorem Retires.has_iff {r : Region} (h : Retires range retire r t) : t.tile.Has a ↔ r.tile.Has a ∧ range.Has a := by
  have := h.start
  have := h.stop
  simp only [Tile.Has, RetireTemplate.tile, tile_start, tile_stop, PageRange.Has]
  omega

theorem Retires.value {r : Region} (h : Retires range retire r t) (has : t.tile.Has a) :
    t.tile.value a = r.tile.value a := by
  have inside : r.range.start ≤ t.range.start := by rw [h.start]; exact Nat.le_max_left _ _
  have low : t.range.start ≤ a := has.1
  have distance : t.range.start - r.range.start + (a - t.range.start) = a - r.range.start := by omega
  simp only [RetireTemplate.tile, tile, h.owner, h.allocation, h.kind, RegionKind.shiftedBy_shiftedBy, distance]

theorem Region.drained_retires (r : Region) : Retires r.range .release r r.drained.template := by
  refine ⟨rfl, rfl, (Nat.max_self _).symm, (Nat.min_self _).symm, ?_, rfl⟩
  show r.kind = r.kind.shiftedBy (r.range.start - r.range.start)
  rw [Nat.sub_self, RegionKind.shiftedBy_zero]

variable {covered : List Region} {ts : List RetireTemplate}

theorem retires_countP (cut : List.Forall₂ (Retires range retire) covered ts)
    (apart : (covered.map Region.tile).Pairwise Tile.Apart) (key : AllocationKey) (a : Nat) :
    ts.countP (·.holds key a) =
      if range.Has a ∧ ∃ r ∈ covered, r.tile.Has a ∧ r.allocation = key then 1 else 0 := by
  induction cut with
  | nil => simp
  | @cons r t covered ts first rest ih =>
    obtain ⟨fromHead, tail⟩ := pairwise_cons.mp apart
    rw [countP_cons, ih tail]
    simp only [RetireTemplate.holds_iff, first.allocation, first.has_iff, mem_cons, exists_eq_or_imp]
    by_cases here : r.tile.Has a
    · have none : ∀ r' ∈ covered, ¬r'.tile.Has a := fun r' member =>
        Tile.not_has_of_apart (fromHead _ (mem_map_of_mem member)) here
      have absent : ¬∃ r' ∈ covered, r'.tile.Has a ∧ r'.allocation = key := fun ⟨r', member, has, _⟩ => none r' member has
      by_cases same : r.allocation = key <;> simp [here, absent, same]
    · simp [here]

def PageMeaning.bare (m : PageMeaning) : PageMeaning := m.protect .readOnly

@[simp] theorem PageMeaning.bare_protect (m : PageMeaning) (protection : Protection) :
    (m.protect protection).bare = m.bare := by
  obtain ⟨owner, allocation, kind⟩ := m
  cases kind <;> rfl

/-- The Map has given the byte this meaning, whatever its protection is now. -/
def Opened.Gave (o : Opened) (a : Nat) (m : PageMeaning) : Prop :=
  ∃ given, o.request.mapped o.layout o.key a = some given ∧ given.bare = m.bare

theorem Opened.Gave.key {o : Opened} {m : PageMeaning} (h : o.Gave a m) :
    m.allocation = o.key ∧ o.layout.reservation.Has a := by
  obtain ⟨given, mapped, same⟩ := h
  have allocation : given.bare.allocation = m.bare.allocation := congrArg PageMeaning.allocation same
  unfold MapRequest.mapped at mapped
  split at mapped
  · rename_i has
    cases mapped
    exact ⟨allocation.symm, has⟩
  · cases mapped

def MemorySpace.liveAt (s : MemorySpace) (key : AllocationKey) (a : Nat) : Bool := (s.meaning a).any (·.allocation == key)

variable {q : MapRequest}

theorem MapRequest.Fits.inside {l : MapResultLayout} (fits : q.Fits l) (has : l.usable.Has a) : l.reservation.Has a := by
  have := fits.before
  have := fits.after
  unfold PageRange.Has at has ⊢
  omega

theorem opens_of_edit {layout : Option MapResultLayout} {footprint : PageRange}
    {fresh : AllocationKey} {removed : List (Tile PageMeaning)} {regions : List Region}
    (edit : (Request.map q).Edit layout footprint fresh removed (regions.map Region.tile)) :
    ∃ l, layout = some l ∧ q.Fits l ∧ (Request.map q).opens layout regions = [⟨fresh, q, l⟩] := by
  obtain ⟨_, l, rfl, _, fits, covers⟩ := edit
  refine ⟨l, rfl, fits, ?_⟩
  cases regions with
  | nil =>
    -- the usable range is not empty, so some region holds its first byte
    have inside := fits.inside ⟨Nat.le_refl _, l.usable.start_lt_end⟩
    have none := (covers l.usable.start _).mpr (by rw [MapRequest.mapped, if_pos inside])
    exact (covers_nil none).elim
  | cons r rest =>
    have held : Covers ((r :: rest).map tile) r.range.start ⟨r.owner, r.allocation, r.kind⟩ :=
      ⟨r.tile, by simp, r.tile_has_start, r.tile_value_start⟩
    have given := (covers _ _).mp held
    unfold MapRequest.mapped at given
    split at given
    · rw [Option.some.injEq, PageMeaning.mk.injEq] at given
      simp only [opens, head?_cons, given.2.1]
    · cases given

def World.opening (w : World) : List AllocationKey :=
  w.prepared.flatMap fun x => (x.1.opens x.2.plan.resultLayout x.2.plan.replacements).map (·.key)

structure Numbered (w : World) (opened : List Opened) : Prop where
  distinct : (w.opening ++ opened.map (·.key)).Nodup
  below : ∀ key ∈ w.opening ++ opened.map (·.key), key.value < w.space.nextAllocation

/-- Every live byte has what a Map gave it, every piece too, and no byte of a Map is in two places. -/
structure Placed (s : MemorySpace) (opened : List Opened) (released : List RetireTemplate) : Prop where
  fits : ∀ o ∈ opened, o.request.Fits o.layout
  live : ∀ a m, s.meaning a = some m → ∃ o ∈ opened, o.Gave a m
  gone : ∀ t ∈ released, ∀ a, t.tile.Has a → ∃ o ∈ opened, o.Gave a (t.tile.value a)
  once : ∀ o ∈ opened, ∀ a, o.layout.reservation.Has a →
    released.countP (·.holds o.key a) + (if s.liveAt o.key a then 1 else 0) = 1

structure History.Sound (h : History) : Prop where
  world : h.world.Sound
  ordered : h.world.Ordered
  numbered : Numbered h.world h.opened
  placed : Placed h.world.space h.opened h.released
  retained : ∀ q f, (some (.protect q), f) ∈ h.orders → f.backingRetire = .retain

section
variable {w next : World} {opened : List Opened} {s : MemorySpace} {released : List RetireTemplate}

theorem Numbered.frame (numbered : Numbered w opened) (prepared : next.prepared = w.prepared)
    (counter : next.space.nextAllocation = w.space.nextAllocation) : Numbered next opened := by
  have opening : next.opening = w.opening := by rw [opening, prepared]; rfl
  exact ⟨by rw [opening]; exact numbered.distinct, by rw [opening, counter]; exact numbered.below⟩

theorem step_numbered {event : Event} (sound : w.Sound) (numbered : Numbered w opened)
    (h : w.step event = .ok next) (other : ∀ i, event ≠ .commit i) : Numbered next opened := by
  cases step_cases h with
  | stay | validated accepted | discarded i | refused permits | popped token same => exact numbered.frame rfl rfl
  | @reserved heap request v p space permits before after token effect =>
    have opening : opening { w with
        space
        validated := before ++ after
        prepared := w.prepared ++ [(request, p)]
        supplied := w.supplied ++ permits } =
        w.opening ++ (request.opens p.plan.resultLayout p.plan.replacements).map (·.key) := by
      simp [opening]
    have later := effect.numbered.later
    have taken : ∀ key ∈ (request.opens p.plan.resultLayout p.plan.replacements).map (·.key),
        key = ⟨w.space.nextAllocation⟩ ∧ space.nextAllocation = w.space.nextAllocation + 1 := by
      obtain ⟨seen, removed, planned, _⟩ := sound.validated (request, v) (by simp [token])
      cases request with
      | map q =>
        have edit := planned.edit ⟨w.space.nextAllocation⟩
        obtain ⟨_, l, layout, _⟩ := edit
        obtain ⟨following, made⟩ := effect.numbered.taken (by rw [layout]; rfl)
        have edit := planned.edit ⟨w.space.nextAllocation⟩
        rw [made_tiles made, ← effect.layout] at edit
        obtain ⟨_, _, _, opens⟩ := opens_of_edit edit
        intro key member
        rw [opens] at member
        exact ⟨mem_singleton.mp member, following⟩
      | unmap q | protect q => simp
    have single : ((request.opens p.plan.resultLayout p.plan.replacements).map (·.key)).length ≤ 1 := by
      rw [length_map]
      unfold opens
      split <;> simp
    refine ⟨?_, fun key member => ?_⟩
    · rw [opening]
      refine ((perm_append_comm.append_right _).nodup_iff).mpr ?_
      rw [append_assoc]
      refine nodup_append.mpr ⟨pairwise_of_length_le_one single, numbered.distinct, fun x hx y hy same => ?_⟩
      have below := numbered.below y hy
      rw [← same, (taken x hx).1] at below
      exact Nat.lt_irrefl _ below
    · rw [opening] at member
      dsimp only
      rcases mem_append.mp member with member | member
      · rcases mem_append.mp member with old | new
        · exact Nat.lt_of_lt_of_le (numbered.below key (mem_append_left _ old)) later
        · obtain ⟨rfl, following⟩ := taken key new
          rw [following]
          exact Nat.lt_succ_self _
      · exact Nat.lt_of_lt_of_le (numbered.below key (mem_append_right _ member)) later
  | @rolledBack request p before after pre post record growth token transactions key stage less =>
    have sub : (opening { w with
        space := { w.space with transactions := pre ++ post, reservedGrowth := growth }
        prepared := before ++ after
        returned := w.returned ++ (p.permits ++ p.plan.replacements.filterMap permit) } ++
          opened.map (·.key)).Sublist (w.opening ++ opened.map (·.key)) := by
      refine List.Sublist.append ?_ (List.Sublist.refl _)
      rw [opening, opening, token, flatMap_append, flatMap_append, flatMap_cons]
      exact (List.Sublist.refl _).append (sublist_append_right _ _)
    exact ⟨numbered.distinct.sublist sub, fun key member => numbered.below key (sub.subset member)⟩
  | committed token effect => exact (other _ rfl).elim
  | advanced token order transactions key stage | began token transactions key stage => exact numbered.frame rfl rfl
  | parted token | completed token transactions key stage | drained idle regions => exact numbered.frame rfl rfl

theorem step_regions {event : Event} (h : w.step event = .ok next) (other : ∀ i, event ≠ .commit i)
    (noDrain : event ≠ .drainOne) : next.space.regions = w.space.regions := by
  cases step_cases h with
  | reserved token effect =>
    obtain ⟨_, _, rfl⟩ := effect.ledger
    rfl
  | committed token effect => exact (other _ rfl).elim
  | drained idle regions => exact (noDrain rfl).elim
  | _ => rfl

end

section
variable {w : World} {request : Request} {p : PreparedChange} {before after : List (Request × PreparedChange)}
  {space : MemorySpace} {payload : ChangePayload} {removed kept : List Region}
  {pre post : List TransactionRecord} {record : TransactionRecord} {fresh : AllocationKey}
  {opened : List Opened} {released : List RetireTemplate}

theorem Commits.numbered (effect : Commits w.space p space payload removed kept pre post record)
    (token : w.prepared = before ++ (request, p) :: after) (numbered : Numbered w opened) : Numbered { w with
      space
      prepared := before ++ after
      staged := w.staged ++ [(.committed, payload)] }
      (opened ++ request.opens p.plan.resultLayout p.plan.replacements) := by
  have all : (opening { w with
      space
      prepared := before ++ after
      staged := w.staged ++ [(.committed, payload)] } ++
        (opened ++ request.opens p.plan.resultLayout p.plan.replacements).map (·.key)).Perm
      (w.opening ++ opened.map (·.key)) := by
    rw [opening, opening, token, flatMap_append, flatMap_append, flatMap_cons, map_append, ← append_assoc]
    refine perm_append_comm.trans ?_
    rw [← append_assoc]
    refine List.Perm.append_right _ ?_
    rw [← append_assoc, ← append_assoc]
    exact perm_append_comm.append_right _
  obtain ⟨_, _, ledger⟩ := effect.ledger
  refine ⟨all.nodup_iff.mpr numbered.distinct, fun key member => ?_⟩
  have below := numbered.below key (all.mem_iff.mp member)
  rw [ledger]
  exact below

theorem World.Sound.meaning_at (sound : w.Sound) {r : Region} (live : r ∈ w.space.regions)
    (has : r.tile.Has a) : w.space.meaning a = some (r.tile.value a) :=
  (lookup_eq_some sound.ledger.ascending.apart).mpr ⟨_, mem_map_of_mem live, has, rfl⟩

theorem Opened.eq_of_key (distinct : (opened.map (·.key)).Nodup) {o o' : Opened} (first : o ∈ opened)
    (second : o' ∈ opened) (same : o.key = o'.key) : o = o' :=
  inj_on_of_nodup_map distinct first second same

theorem Placed.once_congr {s t : MemorySpace} (placed : Placed s opened released) {o : Opened} (member : o ∈ opened)
    (has : o.layout.reservation.Has a) (same : t.liveAt o.key a = s.liveAt o.key a) :
    released.countP (·.holds o.key a) + (if t.liveAt o.key a then 1 else 0) = 1 := by
  rw [same]
  exact placed.once o member a has

theorem Commits.placed_map (effect : Commits w.space p space payload removed kept pre post record)
    (sound : w.Sound) (prepared : PreparedSound w (.map q) p record fresh removed)
    (distinct : fresh ∉ opened.map (·.key)) (placed : Placed w.space opened released) :
    Placed space (opened ++ (Request.map q).opens p.plan.resultLayout p.plan.replacements) released := by
  have meaning := effect.meaning sound prepared
  obtain ⟨l, layout, fits, opens⟩ := opens_of_edit prepared.edit
  obtain ⟨_, l', layout', place, _, _⟩ := prepared.edit
  cases layout.symm.trans layout'
  rw [opens]
  have inside : ∀ {a}, l.reservation.Has a → space.meaning a = q.mapped l fresh a := by
    intro a has
    rw [meaning a, layout, applied]
    exact if_pos has
  have outside : ∀ {a}, ¬l.reservation.Has a → space.meaning a = w.space.meaning a := by
    intro a out
    rw [meaning a, layout, applied]
    exact if_neg out
  have free : ∀ {a}, l.reservation.Has a → w.space.meaning a = none := by
    intro a has
    refine lookup_eq_none.mpr fun m covers => ?_
    obtain ⟨_, member, held, _⟩ := covers
    obtain ⟨r, live, rfl⟩ := mem_map.mp member
    exact prepared.free (by rw [layout]; rfl) r live a held (place ▸ has)
  refine ⟨forall_mem_concat placed.fits fits, fun a m found => ?_,
    fun t member a has => ?_, forall_mem_concat (fun o old a has => ?_) (fun a has => ?_)⟩
  · by_cases has : l.reservation.Has a
    · rw [inside has] at found
      exact ⟨⟨fresh, q, l⟩, by simp, m, found, rfl⟩
    · rw [outside has] at found
      obtain ⟨o, member, gave⟩ := placed.live a m found
      exact ⟨o, mem_append_left _ member, gave⟩
  · obtain ⟨o, listed, gave⟩ := placed.gone t member a has
    exact ⟨o, mem_append_left _ listed, gave⟩
  · refine placed.once_congr old has ?_
    by_cases reserved : l.reservation.Has a
    · have different : fresh ≠ o.key := fun same => distinct (same ▸ mem_map_of_mem old)
      rw [liveAt, liveAt, inside reserved, free reserved, MapRequest.mapped, if_pos reserved]
      simpa using different
    · rw [liveAt, liveAt, outside reserved]
  · -- the new allocation is live, and no earlier piece belongs to it
    have none : released.countP (·.holds fresh a) = 0 := by
      refine countP_eq_zero.mpr fun t listed holds => ?_
      obtain ⟨allocation, held⟩ := RetireTemplate.holds_iff.mp holds
      obtain ⟨o, old, gave⟩ := placed.gone t listed a held
      exact distinct (mem_map.mpr ⟨o, old, gave.key.1.symm.trans allocation⟩)
    have live : space.liveAt fresh a = true := by
      rw [liveAt, inside has, MapRequest.mapped, if_pos has]
      simp
    dsimp only
    rw [none, live]
    rfl

theorem Placed.cut {s next : MemorySpace} {range : PageRange}
    (placed : Placed s opened released) (cut : List.Forall₂ (Retires range .release) covered ts)
    (apart : (covered.map Region.tile).Pairwise Tile.Apart)
    (here : ∀ {a r}, r ∈ covered → r.tile.Has a → s.meaning a = some (r.tile.value a))
    (whole : ∀ a, range.Has a → ∃ r ∈ covered, r.tile.Has a)
    (meaning : ∀ a, next.meaning a = if range.Has a then none else s.meaning a) :
    Placed next opened (released ++ ts) := by
  refine ⟨placed.fits, fun a m found => ?_, forall_mem_append.mpr ⟨placed.gone, fun t new a has => ?_⟩,
    fun o member a has => ?_⟩
  · rw [meaning a] at found
    split at found
    · cases found
    · exact placed.live a m found
  · obtain ⟨r, listed, piece⟩ := forall₂_mem_right cut new
    rw [piece.value has]
    exact placed.live a _ (here listed (piece.has_iff.mp has).1)
  · rw [countP_append, retires_countP cut apart]
    have once := placed.once o member a has
    by_cases inRange : range.Has a
    · -- the byte leaves the ledger exactly when one new piece holds it
      obtain ⟨r, listed, held⟩ := whole a inRange
      have unique : (range.Has a ∧ ∃ r ∈ covered, r.tile.Has a ∧ r.allocation = o.key) ↔ s.liveAt o.key a = true := by
        rw [liveAt, here listed held]
        simp only [inRange, true_and, Option.any_some, beq_iff_eq]
        constructor
        · rintro ⟨r', listed', held', allocation⟩
          have same := here listed' held'
          rw [here listed held, Option.some.injEq] at same
          rw [same]
          exact allocation
        · exact fun allocation => ⟨r, listed, held, allocation⟩
      have dead : next.liveAt o.key a = false := by
        rw [liveAt, meaning a, if_pos inRange]
        rfl
      rw [dead]
      simp only [unique, Bool.false_eq_true, if_false]
      omega
    · have same : next.liveAt o.key a = s.liveAt o.key a := by
        rw [liveAt, meaning a, if_neg inRange]
        rfl
      rw [same, if_neg fun both => inRange both.1]
      omega

theorem Commits.placed_protect {q : ProtectRequest}
    (effect : Commits w.space p space payload removed kept pre post record) (sound : w.Sound)
    (prepared : PreparedSound w (.protect q) p record fresh removed) (placed : Placed w.space opened released) :
    Placed space opened released := by
  have meaning : ∀ a, space.meaning a =
      if q.range.Has a then (w.space.meaning a).map (PageMeaning.protect q.protection) else w.space.meaning a :=
    effect.meaning sound prepared
  refine ⟨placed.fits, fun a m found => ?_, placed.gone, fun o member a has => placed.once_congr member has ?_⟩
  · rw [meaning a] at found
    split at found
    · obtain ⟨old, before, rfl⟩ := Option.map_eq_some_iff.mp found
      obtain ⟨o, member, given, mapped, same⟩ := placed.live a old before
      exact ⟨o, member, given, mapped, by rw [PageMeaning.bare_protect, same]⟩
    · exact placed.live a m found
  · rw [liveAt, liveAt, meaning a]
    split
    · rw [Option.any_map]
      rfl
    · rfl

end

section
variable {h next : History}

theorem released_append (orders : List (Option Request × RetiringFragment)) (world : World) (opened : List Opened) :
    (History.mk world (h.orders ++ orders) opened).released =
      h.released ++ (orders.map (·.2.template)).filter (·.backingRetire = .release) := by
  rw [History.released, map_append, filter_append]
  rfl

theorem retires_filter {range : PageRange} {retire : BackingRetire} (cut : List.Forall₂ (Retires range retire) covered ts) :
    ts.filter (·.backingRetire = .release) = if retire = .release then ts else [] := by
  have each : ∀ t ∈ ts, t.backingRetire = retire := fun t member => by
    obtain ⟨_, _, piece⟩ := forall₂_mem_right cut member
    exact piece.backingRetire
  split
  · rename_i release
    exact filter_eq_self.mpr fun t member => by simp [each t member, release]
  · rename_i other
    exact filter_eq_nil_iff.mpr fun t member => by simp [each t member, other]

theorem commit_keeps (sound : h.Sound) {i : Nat} (done : h.step (.commit i) = .ok next) : next.Sound := by
  obtain ⟨world, moved, rest⟩ := bind_ok done
  obtain ⟨⟨orders, opened⟩, recorded, rest⟩ := bind_ok rest
  have world' := step_sound sound.world moved
  have ordered' := step_ordered sound.world sound.ordered moved
  rw [pure_ok rest]
  rw [History.record] at recorded
  rw [step] at moved
  split at recorded
  · rename_i absent
    rw [absent] at moved
    cases pure_ok recorded
    cases pure_ok moved
    simpa using sound
  · rename_i request p found
    obtain ⟨⟨space, payload⟩, committed, recorded⟩ := bind_ok recorded
    rw [found] at moved
    dsimp only at moved
    rw [committed, ok_bind] at moved
    obtain ⟨before, after, token, position⟩ := split_at_index found
    obtain ⟨removed, kept, pre, post, record, effect⟩ := commit_ok committed
    have reserved : (request, p) ∈ h.world.prepared := by simp [token]
    obtain ⟨fresh, prepared⟩ := effect.prepared request sound.world reserved
    obtain ⟨covered, plan, apart, live⟩ := effect.ordered sound.ordered reserved
    have same := pure_ok recorded
    rw [Prod.mk.injEq, effect.payload] at same
    obtain ⟨rfl, rfl⟩ := same
    have world := pure_ok moved
    rw [token, ← position, eraseIdx_split] at world
    have pieces : ((p.plan.retiring.map fun f => (some request, f)).map (·.2.template)) =
        p.plan.retiring.map (·.template) := by
      rw [map_map]
      rfl
    refine ⟨world', ordered', ?_, ?_, ?_⟩
    · dsimp only
      rw [world]
      exact effect.numbered token sound.numbered
    · rw [released_append, pieces]
      dsimp only
      rw [world]
      cases request with
      | map q =>
        have distinct : fresh ∉ h.opened.map (·.key) := by
          have numbered := sound.numbered.distinct
          obtain ⟨l, _, _, opens⟩ := opens_of_edit prepared.edit
          intro member
          refine (nodup_append.mp numbered).2.2 fresh ?_ fresh member rfl
          exact mem_flatMap.mpr ⟨_, reserved, by rw [opens]; simp⟩
        rw [plan.1, filter_nil, append_nil]
        exact effect.placed_map sound.world prepared distinct sound.placed
      | unmap q =>
        rw [retires_filter plan.2.1, if_pos rfl, opens_unmap, append_nil]
        refine sound.placed.cut plan.2.1 apart (fun member has => ?_) plan.1 (effect.meaning sound.world prepared)
        exact sound.world.meaning_at (live _ member).2 has
      | protect q =>
        rw [retires_filter plan.2.1, if_neg (by decide), opens_protect, append_nil, append_nil]
        exact effect.placed_protect sound.world prepared sound.placed
    · intro q f member
      refine (mem_append.mp member).elim (sound.retained q f) fun new => ?_
      obtain ⟨f', listed, same⟩ := mem_map.mp new
      cases same
      obtain ⟨_, _, piece⟩ := forall₂_mem_right plan.2.1 (mem_map_of_mem listed)
      exact piece.backingRetire

theorem drain_keeps (sound : h.Sound) (done : h.step .drainOne = .ok next) : next.Sound := by
  obtain ⟨world, moved, rest⟩ := bind_ok done
  obtain ⟨⟨orders, opened⟩, recorded, rest⟩ := bind_ok rest
  have world' := step_sound sound.world moved
  have ordered' := step_ordered sound.world sound.ordered moved
  have numbered' := step_numbered sound.world sound.numbered moved (by simp)
  rw [pure_ok rest]
  obtain ⟨⟨space, drained⟩, taken, recorded⟩ := bind_ok recorded
  rw [step, taken, ok_bind] at moved
  have world := pure_ok moved
  have same := pure_ok recorded
  rw [Prod.mk.injEq] at same
  obtain ⟨rfl, rfl⟩ := same
  refine ⟨world', ordered', by rw [append_nil]; exact numbered', ?_, ?_⟩
  · rw [released_append, append_nil]
    dsimp only
    rw [world]
    obtain ⟨_, ⟨_, rfl, rfl⟩ | ⟨others, r, regions, rfl, rfl⟩⟩ := drainOne_ok taken
    · simpa using sound.placed
    · have ascending := sound.world.ledger.ascending
      rw [Ascending, regions, map_append, pairwise_append] at ascending
      have apart := sound.world.ledger.ascending.apart
      rw [regions] at apart
      have rest : (others.map tile).Pairwise Tile.Apart := by
        rw [map_append, pairwise_append] at apart
        exact apart.1
      -- the bytes of the drained region leave the ledger, the others stay
      have meaning : ∀ a, meaning { h.world.space with regions := others } a =
          if r.tile.Has a then none else h.world.space.meaning a := by
        intro a
        split
        · rename_i has
          refine lookup_eq_none.mpr fun m covers => ?_
          obtain ⟨t, member, held, _⟩ := covers
          have order := ascending.2.2 t member r.tile (by simp)
          unfold Tile.Has at has held
          omega
        · rename_i out
          rw [meaning, meaning, regions]
          refine lookup_congr rest apart fun m => ?_
          rw [map_append, covers_append, map_singleton, covers_cons]
          simp [out]
      have live : r ∈ h.world.space.regions := by simp [regions]
      refine sound.placed.cut (.cons r.drained_retires .nil) (pairwise_singleton _ _) ?_ (fun a has => ⟨r, by simp, has⟩) meaning
      intro a r' member has
      cases mem_singleton.mp member
      exact sound.world.meaning_at live has
  · intro q f member
    refine (mem_append.mp member).elim (sound.retained q f) fun new => ?_
    obtain ⟨_, _, same⟩ := mem_map.mp new
    cases same

theorem record_other (w : World) {event : Event} (other : ∀ i, event ≠ .commit i) (noDrain : event ≠ .drainOne) :
    History.record w event = .ok ([], []) := by
  cases event with
  | commit i => exact (other i rfl).elim
  | drainOne => exact (noDrain rfl).elim
  | _ => rfl

theorem history_keeps {event : Event} (sound : h.Sound) (done : h.step event = .ok next) : next.Sound := by
  by_cases commit : ∃ i, event = .commit i
  · obtain ⟨i, rfl⟩ := commit
    exact commit_keeps sound done
  by_cases drain : event = .drainOne
  · subst drain
    exact drain_keeps sound done
  have other : ∀ i, event ≠ .commit i := fun i same => commit ⟨i, same⟩
  obtain ⟨world, moved, rest⟩ := bind_ok done
  obtain ⟨⟨orders, opened⟩, recorded, rest⟩ := bind_ok rest
  rw [record_other h.world other drain] at recorded
  cases pure_ok recorded
  have regions := step_regions moved other drain
  have same : ∀ a, world.space.meaning a = h.world.space.meaning a := fun a => by
    rw [meaning, regions]
    rfl
  rw [pure_ok rest, append_nil, append_nil]
  exact {
    world := step_sound sound.world moved
    ordered := step_ordered sound.world sound.ordered moved
    numbered := step_numbered sound.world sound.numbered moved other
    placed := {
      fits := sound.placed.fits
      live := fun a m found => sound.placed.live a m (by rw [← same a]; exact found)
      gone := sound.placed.gone
      once := fun o member a has => sound.placed.once_congr member has (by
        rw [liveAt, liveAt, same a]) }
    retained := sound.retained }

theorem run_history {heap : Heap} {bounds : PageRange} {limits : Limits} {space : MemorySpace}
    {events : List Event} (made : MemorySpace.new heap bounds limits = .ok space)
    (run : runEvents History.step (History.start space) events = .ok h) : h.Sound := by
  refine run_invariant (fun _ _ _ sound step => history_keeps sound step) ?_ run
  refine ⟨start_sound made, start_ordered space, ⟨nodup_nil, by simp [History.start, start, opening]⟩,
    ⟨by simp [History.start], fun a m found => ?_, by simp [History.released, History.start], by simp [History.start]⟩,
    by simp [History.start]⟩
  rw [new_ok made] at found
  cases found

end

end Halcyon.Space
