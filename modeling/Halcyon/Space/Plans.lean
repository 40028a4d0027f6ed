import Halcyon.Space.Scan

/-!
What an accepted request has planned. `Request.Edit` compares the regions a plan removes with the ones it adds, byte
by byte.
-/

namespace Halcyon.Space

open RegionTemplate List

/-- Neither transaction works on a byte that the other one works on or has leased. -/
def TransactionRecord.Clear (x y : TransactionRecord) : Prop := x.conflictsWith y.footprint y.lease = false

def TransactionRecord.Holds (record : TransactionRecord) (a : Nat) : Prop :=
  record.footprint.Has a ∨ ∃ lease, record.lease = some lease ∧ lease.containsAddress a = true

theorem AddressRange.overlaps_iff_common {r other : AddressRange} :
    r.overlaps other = true ↔ ∃ a, (r.start ≤ a ∧ a < r.end_) ∧ other.start ≤ a ∧ a < other.end_ := by
  have := r.start_lt_end
  have := other.start_lt_end
  rw [overlaps_iff]
  constructor
  · intro meets
    exact ⟨max r.start other.start, by omega, by omega⟩
  · rintro ⟨a, _, _⟩
    omega

theorem TransactionRecord.clear_iff {x y : TransactionRecord} : x.Clear y ↔ ∀ a, x.Holds a → ¬y.Holds a := by
  have test : x.conflictsWith y.footprint y.lease = true ↔ ∃ a, x.Holds a ∧ y.Holds a := by
    simp only [conflictsWith, Holds, PageRange.Has, PageRange.overlaps, PageRange.addressRange, Bool.or_eq_true,
      Option.any_eq_true, AddressRange.overlaps_iff_common, AddressRange.containsAddress_iff]
    constructor
    · rintro ((⟨a, inX, inY⟩ | ⟨l, pinned, a, inX, inY⟩) | ⟨l, pinned, ⟨a, inX, inY⟩ | ⟨l', pinned', a, inX, inY⟩⟩)
      · exact ⟨a, .inl inX, .inl inY⟩
      · exact ⟨a, .inr ⟨l, pinned, inX⟩, .inl inY⟩
      · exact ⟨a, .inl inX, .inr ⟨l, pinned, inY⟩⟩
      · exact ⟨a, .inr ⟨l', pinned', inX⟩, .inr ⟨l, pinned, inY⟩⟩
    · rintro ⟨a, inX | ⟨l, pinned, inX⟩, inY | ⟨l', pinned', inY⟩⟩
      · exact .inl (.inl ⟨a, inX, inY⟩)
      · exact .inr ⟨l', pinned', .inl ⟨a, inX, inY⟩⟩
      · exact .inl (.inr ⟨l, pinned, a, inX, inY⟩)
      · exact .inr ⟨l', pinned', .inr ⟨l, pinned, a, inX, inY⟩⟩
  unfold Clear
  rw [← Bool.not_eq_true, test]
  simp

structure LedgerSound (s : MemorySpace) : Prop where
  ascending : Ascending (s.regions.map Region.tile)
  within : ∀ r ∈ s.regions, s.bounds.start ≤ r.range.start ∧ r.range.end_ ≤ s.bounds.end_
  lawful : ∀ r ∈ s.regions, r.kind.Lawful
  permitted : ∀ r ∈ s.regions, r.permit = r.kind.writableObject.map WritePermit.mk
  keys : (s.regions.map Region.key).Nodup
  clear : s.transactions.Pairwise TransactionRecord.Clear
  growth : s.reservedGrowth = (s.transactions.map (·.reservedGrowth)).sum
  room : s.regions.length + s.reservedGrowth ≤ s.limits.maxRegions

def roundUp (bytes : Nat) : Nat := (bytes + (pageSize - 1)) / pageSize * pageSize

theorem roundPageBytes_ok {bytes value : Nat} (h : roundPageBytes bytes = .ok value) :
    value = roundUp bytes ∧ 0 < bytes := by
  obtain ⟨_, positive, h⟩ := bind_ok h
  obtain ⟨sum, added, h⟩ := bind_ok h
  have positive := refuseIf_ok positive
  rw [beq_eq_false_iff_ne] at positive
  rw [pure_ok h, (checkedAdd_some (okOr_ok added)).1]
  exact ⟨rfl, Nat.pos_of_ne_zero positive⟩

theorem roundGuardBytes_ok {bytes value : Nat} (h : roundGuardBytes bytes = .ok value) : value = roundUp bytes := by
  unfold roundGuardBytes at h
  split at h
  · rename_i zero
    rw [beq_iff_eq] at zero
    rw [pure_ok h, zero]
    rfl
  · exact (roundPageBytes_ok h).1

/-- The view of a backing `distance` bytes after its first mapped byte. -/
def MapBacking.viewAt (distance : Nat) : MapBacking → BackingView
  | anonymous identity class_ => .anonymous identity class_ distance
  | object authorization offset => .object authorization.object (offset + distance)

def MapRequest.mapped (q : MapRequest) (layout : MapResultLayout) (fresh : AllocationKey) (a : Nat) : Option PageMeaning :=
  if layout.reservation.Has a then
    some ⟨q.owner, fresh, if layout.usable.Has a then
      .mapping (q.backing.viewAt (a - layout.usable.start)) q.current q.maximum else .guard⟩
  else none

/-- The layout has the rounded sizes of the request, at the requested place. -/
structure MapRequest.Fits (q : MapRequest) (layout : MapResultLayout) : Prop where
  before : layout.usable.start = layout.reservation.start + roundUp q.guardBefore
  usable : layout.usable.end_ = layout.usable.start + roundUp q.bytes
  after : layout.reservation.end_ = layout.usable.end_ + roundUp q.guardAfter
  placed : ∀ start, q.placement = .fixedEmpty start → layout.usable.start = start

/-- The added tiles are the removed ones as the request rewrites them, and they hold its whole range. -/
structure Rewritten (request : Request) (range : PageRange) (removed added : List (Tile PageMeaning)) : Prop where
  covers : ∀ a m, Covers added a m ↔ ∃ v, Covers removed a v ∧ request.rewrite a v = some m
  whole : ∀ a, range.Has a → ∃ v, Covers removed a v

def Request.Edit (request : Request) (layout : Option MapResultLayout) (footprint : PageRange)
    (fresh : AllocationKey) (removed added : List (Tile PageMeaning)) : Prop :=
  match request with
  | .map q => removed = [] ∧ ∃ l, layout = some l ∧ l.reservation = footprint ∧ q.Fits l ∧
      ∀ a m, Covers added a m ↔ q.mapped l fresh a = some m
  | .unmap q => layout = none ∧ (∀ a, q.range.Has a → footprint.Has a) ∧
      Rewritten (.unmap q) q.range removed added
  | .protect q => layout = none ∧ (∀ a, q.range.Has a → footprint.Has a) ∧
      (Rewritten (.protect q) q.range removed added ∨ removed = [] ∧ added = [])

section
variable {request : Request} {layout : Option MapResultLayout} {footprint range : PageRange}
  {fresh : AllocationKey} {removed added : List (Tile PageMeaning)} {a : Nat} {m : PageMeaning}

theorem Rewritten.unchanged (h : Rewritten request range removed added)
    (same : ∀ v, request.rewrite a v = some v) : Covers added a m ↔ Covers removed a m := by
  rw [h.covers a m]
  constructor
  · rintro ⟨v, covers, rewritten⟩
    rw [same v, Option.some.injEq] at rewritten
    exact rewritten ▸ covers
  · exact fun covers => ⟨m, covers, same m⟩

theorem Request.Edit.outside (h : request.Edit layout footprint fresh removed added) (out : ¬footprint.Has a) :
    Covers added a m ↔ Covers removed a m := by
  cases request with
  | map q =>
    obtain ⟨rfl, l, _, rfl, _, covers⟩ := h
    rw [covers a m, MapRequest.mapped, if_neg out]
    simp
  | unmap q =>
    obtain ⟨_, inside, rewritten⟩ := h
    exact rewritten.unchanged fun v => if_neg (fun has => out (inside a has))
  | protect q =>
    obtain ⟨_, inside, rewritten | ⟨rfl, rfl⟩⟩ := h
    · exact rewritten.unchanged fun v => if_neg (fun has => out (inside a has))
    · exact Iff.rfl

theorem Request.Edit.inside (h : request.Edit layout footprint fresh removed added) (covers : Covers added a m) :
    (∃ v, Covers removed a v) ∨ layout.isSome ∧ footprint.Has a := by
  cases request with
  | map q =>
    obtain ⟨_, l, rfl, rfl, _, same⟩ := h
    refine .inr ⟨rfl, ?_⟩
    have held := (same a m).mp covers
    unfold MapRequest.mapped at held
    split at held
    · assumption
    · cases held
  | unmap q =>
    obtain ⟨v, held, _⟩ := (h.2.2.covers a m).mp covers
    exact .inl ⟨v, held⟩
  | protect q =>
    obtain ⟨_, _, rewritten | ⟨rfl, rfl⟩⟩ := h
    · obtain ⟨v, held, _⟩ := (rewritten.covers a m).mp covers
      exact .inl ⟨v, held⟩
    · exact (covers_nil covers).elim

end

def RegionKind.view : RegionKind → Option (ObjectId × Protection)
  | mapping (.object o _) _ maximum => some (o, maximum)
  | _ => none

/-- Where the views of a plan come from: the authorization of a Map, or a removed region. -/
def Request.Grants (request : Request) (removed : List Region) (view : ObjectId × Protection) : Prop :=
  match request with
  | .map q => ∃ authorization offset, q.backing = .object authorization offset ∧
      view = (authorization.object, authorization.maximum)
  | _ => ∃ r ∈ removed, r.kind.view = some view

structure LeaseHosts (lease : AddressRange × List UserWriteSegment) (hosts : List Region) : Prop where
  hosted : List.Forall₂ Hosts hosts lease.2
  consecutive : Consecutive lease.1.end_ lease.1.start lease.2

/-- What an accepted change relies on: the regions it has `seen`, the ones it removes, and the edit. -/
structure Planned (bounds : PageRange) (request : Request) (seen removed : List Region) (v : ValidatedChange) :
    Prop where
  snapshot : v.snapshot = seen.map Region.key
  remove : v.plan.remove = removed.map Region.key
  source : removed = [] ∨ removed = seen
  distinct : (removed.map Region.key).Nodup
  edit : ∀ fresh, request.Edit v.plan.resultLayout v.plan.footprint fresh (removed.map Region.tile)
    (v.plan.replacements.map (·.tile fresh))
  apart : ∀ fresh, (v.plan.replacements.map (·.tile fresh)).Pairwise Tile.Apart
  within : ∀ t ∈ v.plan.replacements, bounds.start ≤ t.range.start ∧ t.range.end_ ≤ bounds.end_
  lawful : ∀ t ∈ v.plan.replacements, t.kind.Lawful
  growth : v.plan.replacements.length ≤ removed.length + v.growth
  permits : (v.permits.map (·.count)).sum = (v.plan.replacements.filterMap RegionTemplate.writableObject).length
  granted : ∀ t ∈ v.plan.replacements, ∀ view, t.kind.view = some view → request.Grants removed view
  retired : v.plan.retiring.map (·.kind.object?) = (removed.take v.plan.retiring.length).map (·.kind.object?)
  idle : ∀ q, request = .protect q → removed = [] →
    (∀ a, q.range.Has a → ∃ r ∈ seen, r.tile.Has a) ∧ ∀ r ∈ seen, r.kind.protect q.protection = r.kind
  leased : ∀ lease, v.lease = some lease → LeaseHosts lease seen
  asked : ∀ q, request = .map q → v.lease.map (·.1) = q.result.map (·.range)

namespace RegionKind

@[simp] theorem view_shiftedBy (kind : RegionKind) (n : Nat) : (kind.shiftedBy n).view = kind.view := by
  cases kind with
  | guard => rfl
  | mapping backing current maximum => cases backing <;> rfl

@[simp] theorem view_protect (kind : RegionKind) (protection : Protection) : (kind.protect protection).view = kind.view := by
  cases kind with
  | guard => rfl
  | mapping backing current maximum => cases backing <;> rfl

end RegionKind

theorem Request.rewrite_view {request : Request} {a : Nat} {v m : PageMeaning}
    (h : request.rewrite a v = some m) : m.kind.view = v.kind.view := by
  unfold Request.rewrite at h
  split at h
  · cases h; rfl
  · split at h
    · cases h
    · cases h; rfl
  · split at h
    · cases h; exact RegionKind.view_protect _ _
    · cases h; rfl

section
variable {s : MemorySpace} {request : Request} {range : PageRange} {fresh : AllocationKey}
  {removed : List Region} {parts : List (List RegionTemplate)} {templates : List RegionTemplate}

theorem parts_covers (refined : List.Forall₂ (PartsOf fresh request) removed parts) (a : Nat) (m : PageMeaning) :
    Covers (parts.flatten.map (·.tile fresh)) a m ↔
      ∃ v, Covers (removed.map Region.tile) a v ∧ request.rewrite a v = some m := by
  rw [map_flatten]
  refine covers_refine (P := fun a v m => request.rewrite a v = some m) ?_
  rw [List.forall₂_map_left_iff, List.forall₂_map_right_iff]
  exact refined.imp fun _ _ part => part.covers

theorem parts_apart (refined : List.Forall₂ (PartsOf fresh request) removed parts)
    (apart : (removed.map Region.tile).Pairwise Tile.Apart) :
    (parts.flatten.map (·.tile fresh)).Pairwise Tile.Apart := by
  rw [map_flatten]
  refine apart_refine apart ?_
  rw [List.forall₂_map_left_iff, List.forall₂_map_right_iff]
  exact refined.imp fun _ _ part => ⟨part.apart, by simpa using part.inside⟩

section Origins

variable (h : Rewritten request range (removed.map Region.tile) (templates.map (·.tile fresh)))
include h

variable {t : RegionTemplate}

theorem Rewritten.origin (member : t ∈ templates) : (∃ r ∈ removed, r.tile.Has t.range.start ∧
      request.rewrite t.range.start (r.tile.value t.range.start) =
        some ⟨t.owner, t.allocation.resolve fresh, t.kind⟩) ∧ ∃ r ∈ removed, r.tile.Has (t.range.end_ - 1) := by
  have nonempty := t.range.start_lt_end
  constructor
  · have first : Covers (templates.map (·.tile fresh)) t.range.start
        ⟨t.owner, t.allocation.resolve fresh, t.kind⟩ :=
      ⟨t.tile fresh, mem_map_of_mem member, ⟨Nat.le_refl _, nonempty⟩, by simp [tile]⟩
    obtain ⟨_, ⟨_, held, has, rfl⟩, rewritten⟩ := (h.covers _ _).mp first
    obtain ⟨r, hr, rfl⟩ := mem_map.mp held
    exact ⟨r, hr, has, rewritten⟩
  · have last : Covers (templates.map (·.tile fresh)) (t.range.end_ - 1) _ := ⟨t.tile fresh, mem_map_of_mem member, by
        constructor
        · rw [tile_start]; omega
        · rw [tile_stop]; omega, rfl⟩
    obtain ⟨_, ⟨_, held, has, _⟩, _⟩ := (h.covers _ _).mp last
    obtain ⟨r, hr, rfl⟩ := mem_map.mp held
    exact ⟨r, hr, has⟩

theorem Rewritten.within
    {bounds : PageRange} (inside : ∀ r ∈ removed, bounds.start ≤ r.range.start ∧ r.range.end_ ≤ bounds.end_)
    (member : t ∈ templates) : bounds.start ≤ t.range.start ∧ t.range.end_ ≤ bounds.end_ := by
  obtain ⟨⟨r, hr, ⟨low, _⟩, _⟩, r', hr', ⟨_, high⟩⟩ := h.origin member
  have first := inside r hr
  have last := inside r' hr'
  rw [Region.tile_start] at low
  rw [Region.tile_stop] at high
  omega

theorem Rewritten.views (member : t ∈ templates) {view : ObjectId × Protection} (shown : t.kind.view = some view) :
    ∃ r ∈ removed, r.kind.view = some view := by
  obtain ⟨⟨r, hr, _, rewritten⟩, _⟩ := h.origin member
  have same := Request.rewrite_view rewritten
  rw [shown] at same
  exact ⟨r, hr, by simpa [Region.tile] using same.symm⟩

end Origins

theorem hull_holds {footprint : PageRange} (ascending : Ascending (templates.map (·.tile fresh)))
    (first : footprint.start = (templates.head?.map (·.range.start)).getD range.start)
    (last : footprint.end_ = (templates.getLast?.map (·.range.end_)).getD range.end_) {a : Nat} {m : PageMeaning}
    (covers : Covers (templates.map (·.tile fresh)) a m) : footprint.Has a := by
  obtain ⟨_, held, ⟨low, high⟩, _⟩ := covers
  obtain ⟨t, member, rfl⟩ := mem_map.mp held
  rw [tile_start] at low
  rw [tile_stop] at high
  unfold Ascending at ascending
  rw [pairwise_map] at ascending
  constructor
  · obtain ⟨head, rest, rfl⟩ := exists_cons_of_ne_nil (ne_nil_of_mem member)
    rw [first, head?_cons, Option.map_some, Option.getD_some]
    rcases mem_cons.mp member with rfl | later
    · exact low
    · have order := (pairwise_cons.mp ascending).1 t later
      rw [tile_stop, tile_start] at order
      have := head.range.start_lt_end
      omega
  · obtain ⟨rest, tail, rfl⟩ := (eq_nil_or_concat templates).resolve_left (ne_nil_of_mem member)
    rw [last, concat_eq_append, getLast?_append, getLast?_singleton, Option.some_or, Option.map_some, Option.getD_some]
    rw [concat_eq_append, pairwise_append] at ascending
    rcases mem_append.mp (concat_eq_append ▸ member) with earlier | here
    · have order := ascending.2.2 t earlier tail mem_cons_self
      rw [tile_stop, tile_start] at order
      have := tail.range.start_lt_end
      omega
    · obtain rfl := mem_singleton.mp here
      exact high

end

end Halcyon.Space
