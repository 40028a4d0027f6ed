import Halcyon.Space.Backing

/-!
Backing pages are released exactly once.
-/

namespace Halcyon.Space

open PageRange RegionKind List

def RetireTemplate.offsets (t : RetireTemplate) : Option (Nat × Nat) :=
  match t.kind with
  | .mapping (.anonymous _ _ offset) _ _ => some (offset, offset + t.range.bytes)
  | _ => none

def History.releasedOffsets (h : History) (key : AllocationKey) : List (Nat × Nat) :=
  h.released.filterMap fun t => if t.allocation = key then t.offsets else none

section
variable {h : History} {o : Opened} {identity : BackingId} {class_ : AnonymousClass}

/-- A piece of an anonymous allocation is a guard outside the usable range, or lies inside it with the
offsets of its place. -/
theorem History.Sound.piece (sound : h.Sound) (member : o ∈ h.opened)
    (anonymous : o.request.backing = .anonymous identity class_) {t : RetireTemplate} (listed : t ∈ h.released)
    (allocation : t.allocation = o.key) : (t.offsets = none ∧ ∀ a, t.tile.Has a → ¬o.layout.usable.Has a) ∨
      ∃ first, t.offsets = some (first, first + t.range.bytes) ∧ t.range.start = o.layout.usable.start + first ∧
        t.range.end_ ≤ o.layout.usable.end_ := by
  have given : ∀ {a}, t.tile.Has a → ∃ kind : RegionKind, (if o.layout.usable.Has a then
      mapping (o.request.backing.viewAt (a - o.layout.usable.start)) o.request.current o.request.maximum
      else guard) = kind ∧ kind.protect .readOnly = (t.kind.shiftedBy (a - t.range.start)).protect .readOnly := by
    intro a has
    obtain ⟨o', listed', gave⟩ := sound.placed.gone t listed a has
    have same : o' = o := Opened.eq_of_key (nodup_append.mp sound.numbered.distinct).2.1 listed' member
      (gave.key.1.symm.trans allocation)
    subst same
    have reserved := gave.key.2
    obtain ⟨given, mapped, same⟩ := gave
    rw [MapRequest.mapped, if_pos reserved, Option.some.injEq] at mapped
    subst mapped
    exact ⟨_, rfl, congrArg PageMeaning.kind same⟩
  have nonempty := t.range.start_lt_end
  cases kind : t.kind with
  | guard =>
    refine .inl ⟨by rw [RetireTemplate.offsets, kind], fun a has usable => ?_⟩
    obtain ⟨_, rfl, same⟩ := given has
    rw [if_pos usable, kind] at same
    cases same
  | mapping backing current maximum =>
    have inside : ∀ {a}, t.tile.Has a → o.layout.usable.Has a := by
      intro a has
      by_contra out
      obtain ⟨_, rfl, same⟩ := given has
      rw [if_neg out, kind] at same
      cases same
    have first : t.tile.Has t.range.start := ⟨Nat.le_refl _, nonempty⟩
    have last := inside (a := t.range.end_ - 1) ⟨by dsimp only [RetireTemplate.tile]; omega, by
      dsimp only [RetireTemplate.tile]; omega⟩
    have low := inside first
    obtain ⟨_, rfl, same⟩ := given first
    rw [if_pos low, kind, anonymous, Nat.sub_self, shiftedBy_zero] at same
    simp only [protect, MapBacking.viewAt, mapping.injEq] at same
    rw [PageRange.Has] at low last
    refine .inr ⟨t.range.start - o.layout.usable.start, ?_, by omega, by omega⟩
    rw [RetireTemplate.offsets, kind, ← same.1]

end

/-- Once the ledger is empty, the release orders of every anonymous allocation that a Map has opened are
apart and make up exactly its usable bytes. The fragments of a Protect release nothing. -/
theorem backing_released_once {heap : Heap} {bounds : PageRange} {limits : Limits} {space : MemorySpace}
    {events : List Event} {h : History} (made : MemorySpace.new heap bounds limits = .ok space)
    (run : runEvents History.step (History.start space) events = .ok h) (empty : h.world.space.regions = []) :
    (∀ o ∈ h.opened, ∀ identity class_, o.request.backing = .anonymous identity class_ →
      (h.releasedOffsets o.key).Pairwise (fun x y => x.2 ≤ y.1 ∨ y.2 ≤ x.1) ∧
      ∀ offset, (∃ x ∈ h.releasedOffsets o.key, x.1 ≤ offset ∧ offset < x.2) ↔ offset < o.layout.usable.bytes) ∧
    ∀ q f, (some (.protect q), f) ∈ h.orders → f.backingRetire = .retain := by
  have sound := run_history made run
  refine ⟨fun o member identity class_ anonymous => ?_, sound.retained⟩
  have dead : ∀ a, h.world.space.liveAt o.key a = false := fun a => by
    rw [MemorySpace.liveAt, MemorySpace.meaning, empty]
    rfl
  have count : ∀ a, h.released.countP (·.holds o.key a) ≤ 1 := by
    intro a
    by_cases has : o.layout.reservation.Has a
    · have once := sound.placed.once o member a has
      omega
    · refine Nat.le_trans (Nat.le_of_eq (countP_eq_zero.mpr fun t listed holds => ?_)) (Nat.zero_le 1)
      obtain ⟨allocation, held⟩ := RetireTemplate.holds_iff.mp holds
      obtain ⟨o', listed', gave⟩ := sound.placed.gone t listed a held
      have same := Opened.eq_of_key (nodup_append.mp sound.numbered.distinct).2.1 listed' member
        (gave.key.1.symm.trans allocation)
      exact has (same ▸ gave.key.2)
  have placed : ∀ t ∈ h.released, ∀ x ∈ if t.allocation = o.key then t.offsets else none, t.allocation = o.key ∧
      ∃ first, x = (first, first + t.range.bytes) ∧ t.range.start = o.layout.usable.start + first ∧
        t.range.end_ ≤ o.layout.usable.end_ := by
    intro t listed x given
    split at given
    · rename_i allocation
      rcases sound.piece member anonymous listed allocation with ⟨none, _⟩ | ⟨first, same, within⟩
      · cases none.symm.trans given
      · exact ⟨allocation, first, Option.some.inj (given.symm.trans same), within⟩
    · cases given
  constructor
  · rw [History.releasedOffsets, pairwise_filterMap]
    refine (pairwise_of_countP count).imp_of_mem fun {t u} ht hu apart x hx y hy => ?_
    obtain ⟨first, a, rfl, start, stop⟩ := placed t ht x hx
    obtain ⟨second, b, rfl, start', stop'⟩ := placed u hu y hy
    have separate : t.tile.Apart u.tile := by
      refine Tile.apart_of_no_common t.range.start_lt_end u.range.start_lt_end fun c held held' => ?_
      have refused := apart c (RetireTemplate.holds_iff.mpr ⟨first, held⟩)
      have accepted := RetireTemplate.holds_iff.mpr ⟨second, held'⟩
      rw [refused] at accepted
      cases accepted
    have := t.range.start_lt_end
    have := u.range.start_lt_end
    simp only [Tile.Apart, RetireTemplate.tile, bytes_eq] at separate ⊢
    omega
  · intro offset
    have nonempty := o.layout.usable.start_lt_end
    constructor
    · rintro ⟨x, listed, low, high⟩
      obtain ⟨t, ht, offsets⟩ := mem_filterMap.mp listed
      obtain ⟨_, first, rfl, start, stop⟩ := placed t ht x offsets
      have := t.range.start_lt_end
      rw [bytes_eq] at high ⊢
      dsimp only at low high
      omega
    · intro inside
      rw [bytes_eq] at inside
      have usable : o.layout.usable.Has (o.layout.usable.start + offset) := ⟨by omega, by omega⟩
      have once := sound.placed.once o member _ ((sound.placed.fits o member).inside usable)
      rw [dead, if_neg Bool.false_ne_true, Nat.add_zero] at once
      obtain ⟨t, listed, holds⟩ := countP_pos_iff.mp (Nat.lt_of_lt_of_eq Nat.zero_lt_one once.symm)
      obtain ⟨allocation, held⟩ := RetireTemplate.holds_iff.mp holds
      rcases sound.piece member anonymous listed allocation with ⟨_, guard⟩ | ⟨first, same, start, stop⟩
      · exact (guard _ held usable).elim
      · refine ⟨_, mem_filterMap.mpr ⟨t, listed, by rw [if_pos allocation]; exact same⟩, ?_⟩
        have low := held.1
        have high := held.2
        dsimp only [RetireTemplate.tile] at low high
        rw [bytes_eq]
        constructor
        · dsimp only; omega
        · dsimp only; omega

/-- Four pages are mapped, the second is made read-only, the third is unmapped, and the rest is drained. -/
def mapCutDrain : List Event := completeChange (.map (privatePages 16 4 none)) [] ++ completeChange secondReadOnly [] ++
    completeChange (.unmap ⟨pageSpan 18 0, .addressSpace⟩) [] ++ List.replicate 4 .drainOne

theorem backing_released_once_mapCutDrain :
    ∃ h, runEvents History.step (History.start smallSpace) mapCutDrain = .ok h ∧ h.world.space.transactions = [] ∧
      ∃ o ∈ h.opened, (∃ identity class_, o.request.backing = .anonymous identity class_) ∧
        o.layout.usable.pages = 4 ∧ (h.releasedOffsets o.key).Pairwise (fun x y => x.2 ≤ y.1 ∨ y.2 ≤ x.1) ∧
        ∀ offset, (∃ x ∈ h.releasedOffsets o.key, x.1 ≤ offset ∧ offset < x.2) ↔ offset < o.layout.usable.bytes := by
  obtain ⟨h, run, test⟩ := returnsWith_ok (runEvents History.step (History.start smallSpace) mapCutDrain)
    (fun h => h.world.space.regions.isEmpty && h.world.space.transactions.isEmpty && h.opened.any fun o =>
      decide (o.request.backing = (privatePages 16 4 none).backing) && o.layout.usable.pages == 4)
    (by decide +kernel)
  rw [Bool.and_eq_true, Bool.and_eq_true] at test
  obtain ⟨⟨empty, idle⟩, test⟩ := test
  obtain ⟨o, member, token⟩ := any_eq_true.mp test
  rw [Bool.and_eq_true, decide_eq_true_iff, beq_iff_eq] at token
  exact ⟨h, run, isEmpty_iff.mp idle, o, member, ⟨_, _, token.1⟩, token.2,
    (backing_released_once smallSpace_new run (isEmpty_iff.mp empty)).1 o member _ _ token.1⟩

end Halcyon.Space
