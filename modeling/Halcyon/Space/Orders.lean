import Halcyon.Space.Effects

/-!
What an accepted plan orders: the translations to change and the pieces to retire. The world keeps `Request.Orders`
from validation to commit, because a region is known by its key.
-/

namespace Halcyon.Space

open List

/-- The regions that a plan's orders were read from are known, apart, and among those it removes. -/
structure Ordered (w : World) (request : Request) (remove : List RegionKey) (layout : Option MapResultLayout)
    (translations : List TranslationIntent) (retiring : List RetireTemplate) (covered : List Region) : Prop where
  orders : request.Orders remove layout covered translations retiring
  apart : (covered.map Region.tile).Pairwise Tile.Apart
  removed : ∀ r ∈ covered, r.key ∈ remove
  known : ∀ r ∈ covered, Known w r

variable {w next : World}

variable {request : Request}

theorem Ordered.follows {remove : List RegionKey} {layout : Option MapResultLayout}
    {translations : List TranslationIntent} {retiring : List RetireTemplate} {covered : List Region}
    (h : Ordered w request remove layout translations retiring covered) (follows : Follows w next) :
    Ordered next request remove layout translations retiring covered :=
  { h with known := fun r member => (h.known r member).follows follows }

structure World.Ordered (w : World) : Prop where
  validated : ∀ x ∈ w.validated, ∃ covered, Space.Ordered w x.1 x.2.plan.remove x.2.plan.resultLayout
    x.2.plan.translations x.2.plan.retiring covered
  prepared : ∀ x ∈ w.prepared, ∃ covered, Space.Ordered w x.1 x.2.plan.remove x.2.plan.resultLayout
    x.2.plan.translations (x.2.plan.retiring.map (·.template)) covered

theorem validate_ordered {heap : Heap} {v : ValidatedChange} (sound : w.Sound) (h : w.space.validate heap request = .ok v) :
    ∃ covered, Ordered w request v.plan.remove v.plan.resultLayout v.plan.translations v.plan.retiring covered := by
  obtain ⟨_, _, covered, _, _, ordered⟩ := validate_planned sound.ledger h
  exact ⟨covered, ordered.orders, ordered.apart, ordered.removed,
    fun r member => sound.known (mem_append_left _ (ordered.live r member))⟩

theorem World.Ordered.follows (ordered : w.Ordered) (follows : Follows w next)
    (validated : ∀ x ∈ next.validated, x ∈ w.validated) (prepared : ∀ x ∈ next.prepared, x ∈ w.prepared) :
    next.Ordered where
  validated x member := by
    obtain ⟨covered, mine⟩ := ordered.validated x (validated x member)
    exact ⟨covered, mine.follows follows⟩
  prepared x member := by
    obtain ⟨covered, mine⟩ := ordered.prepared x (prepared x member)
    exact ⟨covered, mine.follows follows⟩

theorem step_ordered {event : Event} (sound : w.Sound) (ordered : w.Ordered) (h : w.step event = .ok next) :
    next.Ordered := by
  have follows := step_follows h
  cases step_cases h with
  | stay => exact ordered
  | @validated heap request v accepted =>
    refine ⟨fun x member => ?_, fun x member => ?_⟩
    · rcases mem_append.mp member with old | new
      · obtain ⟨covered, mine⟩ := ordered.validated x old
        exact ⟨covered, mine.follows follows⟩
      · rw [mem_singleton.mp new]
        obtain ⟨covered, mine⟩ := validate_ordered sound accepted
        exact ⟨covered, mine.follows follows⟩
    · obtain ⟨covered, mine⟩ := ordered.prepared x member
      exact ⟨covered, mine.follows follows⟩
  | discarded i => exact ordered.follows follows (fun _ => mem_of_mem_eraseIdx) fun _ => id
  | refused permits | began token transactions key stage => exact ordered.follows follows (fun _ => id) fun _ => id
  | @reserved heap request v p space permits before after token effect =>
    have fewer : ∀ x ∈ before ++ after, x ∈ w.validated := by
      intro x member
      rw [token]
      rcases mem_append.mp member with member | member <;> simp [member]
    refine ⟨fun x member => ?_, fun x member => ?_⟩
    · obtain ⟨covered, mine⟩ := ordered.validated x (fewer x member)
      exact ⟨covered, mine.follows follows⟩
    · rcases mem_append.mp member with old | new
      · obtain ⟨covered, mine⟩ := ordered.prepared x old
        exact ⟨covered, mine.follows follows⟩
      · rw [mem_singleton.mp new]
        obtain ⟨covered, mine⟩ := ordered.validated (request, v) (by simp [token])
        refine ⟨covered, ?_⟩
        dsimp only
        rw [effect.remove, effect.layout, effect.translations, effect.retiring]
        exact mine.follows follows
  | rolledBack token transactions key stage less | committed token effect =>
    exact ordered.follows follows (fun _ => id) fun _ => mem_token token
  | advanced token order transactions key stage => exact ordered.follows follows (fun _ => id) fun _ => id
  | popped token same | parted token | drained idle regions | completed token transactions key stage =>
    exact ordered.follows follows (fun _ => id) fun _ => id

theorem start_ordered (space : MemorySpace) : (World.start space).Ordered :=
  ⟨fun _ member => (not_mem_nil member).elim, fun _ member => (not_mem_nil member).elim⟩

theorem reachable_ordered (h : w.Reachable) : w.Ordered := by
  obtain ⟨heap, bounds, limits, space, events, made, run⟩ := h
  exact (run_invariant (I := fun w : World => w.Sound ∧ w.Ordered)
    (fun _ _ _ both step => ⟨step_sound both.1 step, step_ordered both.1 both.2 step⟩)
    ⟨start_sound made, start_ordered space⟩ run).2

theorem Commits.ordered {p : PreparedChange} {space : MemorySpace} {payload : ChangePayload}
    {removed kept : List Region} {pre post : List TransactionRecord} {record : TransactionRecord}
    (effect : Commits w.space p space payload removed kept pre post record) (ordered : w.Ordered)
    (member : (request, p) ∈ w.prepared) :
    ∃ covered, request.Orders p.plan.remove p.plan.resultLayout covered p.plan.translations
        (p.plan.retiring.map (·.template)) ∧
      (covered.map Region.tile).Pairwise Tile.Apart ∧ ∀ r ∈ covered, r ∈ removed ∧ r ∈ w.space.regions := by
  obtain ⟨covered, mine⟩ := ordered.prepared _ member
  refine ⟨covered, mine.orders, mine.apart, fun r listed => ?_⟩
  have named := mine.removed r listed
  dsimp only at named
  rw [← effect.keys] at named
  obtain ⟨r', gone, same⟩ := mem_map.mp named
  have live := effect.regions.mem_iff.mp (mem_append_left _ gone)
  rw [← (mine.known r listed).same r' (mem_append_left _ live) same]
  exact ⟨gone, live⟩

end Halcyon.Space
