import Halcyon.Space.Guarantees

/-!
When every order of commits and rollbacks returns. The conflict test compares footprints, but a plan removes whole regions, so
two changes may be reserved over one region.
-/

namespace Halcyon.Space

open Region World List

section

variable {w next : World}

def Event.Settles : Event → Prop
  | .commit _ => True
  | .rollback _ => True
  | _ => False

/-- Every region that a reserved change removes is there, and no other reserved change removes it. -/
structure World.Settleable (w : World) : Prop where
  present : ∀ x ∈ w.prepared, ∀ key ∈ x.2.plan.remove, ∃ r ∈ w.space.regions, r.key = key
  disjoint : w.prepared.Pairwise (fun x y => ∀ key ∈ x.2.plan.remove, key ∉ y.2.plan.remove)

instance (w : World) : Decidable w.Settleable := decidable_of_iff
    ((∀ x ∈ w.prepared, ∀ key ∈ x.2.plan.remove, ∃ r ∈ w.space.regions, r.key = key) ∧
      w.prepared.Pairwise (fun x y => ∀ key ∈ x.2.plan.remove, key ∉ y.2.plan.remove))
    ⟨fun h => ⟨h.1, h.2⟩, fun h => ⟨h.present, h.disjoint⟩⟩

theorem World.Sound.recorded (sound : w.Sound) {x : Request × PreparedChange} (member : x ∈ w.prepared) :
    (x.2.key, ChangeStage.reserved) ∈ w.space.transactions.map (fun record => (record.key, record.stage)) :=
  sound.tokens.mem_iff.mpr (mem_append_left _
    (mem_map_of_mem (f := fun x : Request × PreparedChange => (x.2.key, ChangeStage.reserved)) member))

theorem World.Sound.commit_returns (sound : w.Sound) {x : Request × PreparedChange} (member : x ∈ w.prepared)
    (present : ∀ key ∈ x.2.plan.remove, ∃ r ∈ w.space.regions, r.key = key) :
    ∃ out, w.space.commit x.2 = .ok out := by
  obtain ⟨_, _, _, prepared⟩ := sound.prepared x member
  refine Space.commit_returns sound.ledger.growth (sound.recorded member) ?_ present
  rw [prepared.remove]
  exact prepared.distinct

variable {p : PreparedChange} {payload : ChangePayload}

theorem commit_present {s t : MemorySpace} (h : s.commit p = .ok (t, payload)) :
    ∀ key ∈ p.plan.remove, ∃ r ∈ s.regions, r.key = key := by
  obtain ⟨_, _, _, _, _, effect⟩ := commit_ok h
  intro key member
  rw [← effect.keys] at member
  obtain ⟨r, hr, same⟩ := mem_map.mp member
  exact ⟨r, effect.regions.mem_iff.mp (mem_append_left _ hr), same⟩

theorem step_returns {event : Event} (sound : w.Sound) (ready : w.Settleable) (settles : event.Settles) :
    ∃ next, w.step event = .ok next := by
  cases event with
  | commit i =>
    rw [step]
    split
    · exact ⟨_, rfl⟩
    · rename_i request p found
      have member := mem_of_getElem? found
      obtain ⟨out, done⟩ := sound.commit_returns member (ready.present _ member)
      exact bind_returns done ⟨_, rfl⟩
  | rollback i =>
    rw [step]
    split
    · exact ⟨_, rfl⟩
    · rename_i request p found
      obtain ⟨out, done⟩ := rollback_returns sound.ledger.growth (sound.recorded (mem_of_getElem? found))
      exact bind_returns done ⟨_, rfl⟩
  | _ => exact settles.elim

theorem Settleable.committed {request : Request} {before after : List (Request × PreparedChange)}
    {space : MemorySpace} {removed kept : List Region} {pre post : List TransactionRecord}
    {record : TransactionRecord} {staged : List (ChangeStage × ChangePayload)} (ready : w.Settleable)
    (token : w.prepared = before ++ (request, p) :: after)
    (effect : Commits w.space p space payload removed kept pre post record) :
    World.Settleable { w with space, prepared := before ++ after, staged } := by
  have disjoint := ready.disjoint
  rw [token, pairwise_append, pairwise_cons] at disjoint
  have apart : ∀ x ∈ before ++ after, ∀ key ∈ x.2.plan.remove, key ∉ p.plan.remove := by
    intro x member key listed mine
    rcases mem_append.mp member with member | member
    · exact disjoint.2.2 x member _ mem_cons_self key listed mine
    · exact disjoint.2.1.1 x member key mine listed
  constructor
  · intro x member key listed
    obtain ⟨r, live, same⟩ := ready.present x (mem_token token member) key listed
    rcases mem_append.mp (effect.regions.mem_iff.mpr live) with gone | stays
    · refine (apart x member key listed ?_).elim
      rw [← effect.keys, ← same]
      exact mem_map_of_mem gone
    · exact ⟨r, effect.regions_new.mem_iff.mpr (mem_append_left _ stays), same⟩
  · rw [pairwise_append]
    exact ⟨disjoint.1, disjoint.2.1.2, fun x hx y hy => disjoint.2.2 x hx y (mem_cons_of_mem _ hy)⟩

theorem step_settleable {event : Event} (ready : w.Settleable) (settles : event.Settles)
    (h : w.step event = .ok next) : next.Settleable := by
  cases step_cases h with
  | committed token effect => exact Settleable.committed ready token effect
  | rolledBack token =>
    refine ⟨fun x member => ready.present x (mem_token token member), ?_⟩
    have disjoint := ready.disjoint
    rw [token] at disjoint
    exact disjoint.sublist (List.Sublist.append_left (sublist_cons_self _ _) _)
  | stay => exact ready
  | advanced | popped => exact ⟨ready.present, ready.disjoint⟩
  | _ => exact settles.elim

theorem World.Sound.removed_gone (request : Request) {space : MemorySpace} {removed kept : List Region}
    {pre post : List TransactionRecord} {record : TransactionRecord} (sound : w.Sound)
    (member : (request, p) ∈ w.prepared) (effect : Commits w.space p space payload removed kept pre post record)
    {key : RegionKey} (listed : key ∈ p.plan.remove) : ¬∃ r ∈ space.regions, r.key = key := by
  rintro ⟨r, live, rfl⟩
  rw [← effect.keys] at listed
  have keys := sound.regionKeys
  rw [map_append, nodup_append] at keys
  rcases mem_append.mp (effect.regions_new.mem_iff.mp live) with stays | new
  · have old := ((effect.regions.map key).nodup_iff).mpr keys.1
    rw [map_append, nodup_append] at old
    exact old.2.2 _ listed _ (mem_map_of_mem stays) rfl
  · obtain ⟨_, gone, same⟩ := mem_map.mp listed
    have live := effect.regions.mem_iff.mp (mem_append_left _ gone)
    have pending : r ∈ w.pending := mem_flatMap.mpr ⟨_, member, new⟩
    exact keys.2.2 _ (mem_map_of_mem live) _ (mem_map_of_mem pending) same

theorem step_commit_ok {request : Request} {before after : List (Request × PreparedChange)}
    (token : w.prepared = before ++ (request, p) :: after) (h : w.step (.commit before.length) = .ok next) :
    ∃ payload, w.space.commit p = .ok (next.space, payload) ∧ next.prepared = before ++ after := by
  rw [step, token, getElem?_append_right (Nat.le_refl _), Nat.sub_self, getElem?_cons_zero] at h
  obtain ⟨⟨_, payload⟩, done, h⟩ := bind_ok h
  rw [pure_ok h, eraseIdx_split]
  exact ⟨payload, done, rfl⟩

/-- Every order of commits and rollbacks returns exactly when no two reserved changes remove one region and
every region to remove is there. -/
theorem settling_returns_iff (reachable : w.Reachable) :
    (∀ events, (∀ event ∈ events, event.Settles) → ∃ next, runEvents World.step w events = .ok next) ↔
      w.Settleable := by
  have sound := reachable_sound reachable
  constructor
  · intro returns
    have present : ∀ x ∈ w.prepared, ∀ key ∈ x.2.plan.remove, ∃ r ∈ w.space.regions, r.key = key := by
      rintro ⟨request, p⟩ member
      obtain ⟨before, after, token⟩ := append_of_mem member
      obtain ⟨_, run⟩ := returns [.commit before.length] (by simp [Event.Settles])
      obtain ⟨_, first, _⟩ := bind_ok run
      obtain ⟨_, done, _⟩ := step_commit_ok token first
      exact commit_present done
    refine ⟨present, pairwise_of_split ?_⟩
    rintro before ⟨request, p⟩ middle ⟨request', p'⟩ after token key mine theirs
    -- commit both in turn: the second one misses the key
    obtain ⟨last, run⟩ := returns [.commit before.length, .commit (before ++ middle).length]
      (by simp [Event.Settles])
    obtain ⟨w', first, run⟩ := bind_ok run
    obtain ⟨w'', second, _⟩ := bind_ok run
    obtain ⟨_, done, rest⟩ := step_commit_ok token first
    obtain ⟨_, done', _⟩ := step_commit_ok (by rw [rest, append_assoc]) second
    obtain ⟨removed, kept, pre, post, record, effect⟩ := commit_ok done
    exact sound.removed_gone request (by simp [token]) effect mine (commit_present done' key theirs)
  · intro ready events settles
    obtain ⟨last, run, _⟩ := run_returns (I := fun w : World => w.Sound ∧ w.Settleable)
      (A := fun (_ : World) (event : Event) => event.Settles) (fun w event inv settles => by
        obtain ⟨next, step⟩ := step_returns inv.1 inv.2 settles
        exact ⟨next, step, step_sound inv.1 step, step_settleable inv.2 settles step⟩)
      ⟨sound, ready⟩ (fun _ => settles)
    exact ⟨last, run⟩

def unmapsApart : List Event :=
  completeChange (.map (privatePages 16 4 none)) [] ++ completeChange (.map (privatePages 32 4 none)) [] ++ [
    .validate plenty (.unmap ⟨pageSpan 16 0, .addressSpace⟩),
    .validate plenty (.unmap ⟨pageSpan 34 0, .addressSpace⟩),
    .reserve 0 plenty [], .reserve 0 plenty []]

theorem settling_returns_unmapsApart :
    ∃ w, runEvents World.step (World.start smallSpace) unmapsApart = .ok w ∧ w.prepared.length = 2 ∧
      ∀ events, (∀ event ∈ events, event.Settles) → ∃ next, runEvents World.step w events = .ok next := by
  obtain ⟨w, run, test⟩ := returnsWith_ok (runEvents step (start smallSpace) unmapsApart)
    (fun w => w.prepared.length == 2 && decide w.Settleable) (by decide +kernel)
  rw [Bool.and_eq_true, beq_iff_eq, decide_eq_true_iff] at test
  exact ⟨w, run, test.1, (settling_returns_iff (reachable_small run)).mpr test.2⟩

def twoUnmaps : List Event := completeChange (.map (privatePages 16 4 none)) [] ++ [
    .validate plenty (.unmap ⟨pageSpan 16 0, .addressSpace⟩),
    .validate plenty (.unmap ⟨pageSpan 18 0, .addressSpace⟩),
    .reserve 0 plenty [], .reserve 0 plenty []]

/-- Both unmaps are reserved, and committing them in turn panics. -/
theorem twoUnmaps_panic : ∃ w, runEvents World.step (World.start smallSpace) twoUnmaps = .ok w ∧ w.Reachable ∧
      w.prepared.length = 2 ∧ Panics (runEvents World.step w [.commit 0, .commit 0]) := by
  obtain ⟨w, run, test⟩ := returnsWith_ok (runEvents step (start smallSpace) twoUnmaps)
    (fun w => w.prepared.length == 2 && panicMessage (runEvents step w [.commit 0, .commit 0]) ==
      some "validated region key changed before Commit") (by decide +kernel)
  rw [Bool.and_eq_true, beq_iff_eq, beq_iff_eq] at test
  exact ⟨w, run, reachable_small run, test.1, panicMessage_some test.2⟩

end

/-!
What a commit does to the meaning of the address space, page by page.
-/

section

variable {w : World}

def Request.applied (request : Request) (layout : Option MapResultLayout) (fresh : AllocationKey) (a : Nat)
    (old : Option PageMeaning) : Option PageMeaning :=
  match request with
  | .map q => match layout with
    | some l => if l.reservation.Has a then q.mapped l fresh a else old
    | none => old
  | .unmap q => if q.range.Has a then none else old
  | .protect q => if q.range.Has a then old.map (PageMeaning.protect q.protection) else old

/-- The layout of a Map has the rounded sizes at the requested place; the others have none. -/
def Request.Lays (request : Request) (layout : Option MapResultLayout) : Prop :=
  match request with
  | .map q => ∃ l, layout = some l ∧ q.Fits l
  | _ => layout = none

section
variable {request : Request} {p : PreparedChange} {space : MemorySpace} {payload : ChangePayload}
  {removed kept : List Region} {pre post : List TransactionRecord} {record : TransactionRecord}
  {fresh : AllocationKey}

theorem PreparedSound.lays (prepared : PreparedSound w request p record fresh removed) :
    request.Lays p.plan.resultLayout := by
  have edit := prepared.edit
  cases request with
  | map q =>
    obtain ⟨_, l, layout, _, fits, _⟩ := edit
    exact ⟨l, layout, fits⟩
  | unmap | protect => exact edit.1

theorem Rewritten.applied {range : PageRange} {gone stay added : List (Tile PageMeaning)} {f : PageMeaning → Option PageMeaning}
    (h : Rewritten request range gone added) (apart : (gone ++ stay).Pairwise Tile.Apart)
    (rewrite : ∀ a m, request.rewrite a m = if range.Has a then f m else some m) (a : Nat) (m : PageMeaning) :
    Covers stay a m ∨ Covers added a m ↔
      (if range.Has a then (lookup (gone ++ stay) a).bind f else lookup (gone ++ stay) a) = some m := by
  by_cases has : range.Has a
  · obtain ⟨v, held⟩ := h.whole a has
    have absent : ∀ m, ¬Covers stay a m := by
      rintro m ⟨t, member, inStay, _⟩
      obtain ⟨u, member', inGone, _⟩ := held
      exact Tile.not_has_of_apart ((pairwise_append.mp apart).2.2 u member' t member) inGone inStay
    have found : lookup (gone ++ stay) a = some v := (lookup_eq_some apart).mpr (covers_append.mpr (.inl held))
    rw [if_pos has, found, Option.bind_some, h.covers a m]
    constructor
    · rintro (kept | ⟨v', held', made⟩)
      · exact (absent m kept).elim
      · rw [rewrite a v', if_pos has] at made
        rwa [covers_unique (pairwise_append.mp apart).1 held held']
    · exact fun made => .inr ⟨v, held, by rw [rewrite a v, if_pos has]; exact made⟩
  · rw [if_neg has, lookup_eq_some apart, covers_append, or_comm]
    refine or_congr_left (h.unchanged fun v => ?_)
    rw [rewrite a v, if_neg has]

theorem Commits.meaning (effect : Commits w.space p space payload removed kept pre post record)
    (sound : w.Sound) (prepared : PreparedSound w request p record fresh removed) (a : Nat) :
    space.meaning a = request.applied p.plan.resultLayout fresh a (w.space.meaning a) := by
  have before : ((removed ++ kept).map tile).Pairwise Tile.Apart :=
    (List.Perm.pairwise_iff Tile.apart_symm (effect.regions.map tile)).mpr sound.ledger.ascending.apart
  have after : (space.regions.map tile).Pairwise Tile.Apart :=
    (List.Perm.pairwise_iff Tile.apart_symm (effect.regions_new.map tile)).mpr (effect.apart sound prepared)
  have old : w.space.meaning a = lookup ((removed ++ kept).map tile) a :=
    lookup_congr sound.ledger.ascending.apart before fun v => (covers_perm (effect.regions.map _)).symm
  refine Option.ext fun m => ?_
  rw [MemorySpace.meaning, lookup_eq_some after, effect.covers_new, old]
  have edit := prepared.edit
  have idle := prepared.idle
  rw [map_append] at before ⊢
  cases request with
  | map q =>
    obtain ⟨none, l, layout, place, _, covers⟩ := edit
    have free := prepared.free (by rw [layout]; rfl)
    rw [map_eq_nil_iff] at none
    subst none
    rw [covers a m, layout, map_nil, nil_append]
    simp only [Request.applied]
    by_cases has : l.reservation.Has a
    · have absent : ¬Covers (kept.map tile) a m := by
        rintro ⟨_, member, held, _⟩
        obtain ⟨r, hr, rfl⟩ := mem_map.mp member
        exact free r (effect.regions.mem_iff.mp (mem_append_right _ hr)) a held (place ▸ has)
      simp only [if_pos has, absent, false_or]
    · simp only [if_neg has, MapRequest.mapped, reduceCtorEq, or_false]
      exact (lookup_eq_some (by simpa using before)).symm
  | unmap q =>
    rw [edit.2.2.applied before (f := fun _ => none) (fun _ _ => rfl) a m, Request.applied, Option.bind_fun_none]
  | protect q =>
    rcases edit.2.2 with rewritten | ⟨none, added⟩
    · rw [rewritten.applied before (f := fun m => some (m.protect q.protection)) (fun _ _ => rfl) a m,
        Request.applied, Option.map_eq_bind]
      rfl
    · -- nothing was removed, because every byte of the range already had the protection
      rw [map_eq_nil_iff] at none
      subst none
      rw [added, map_nil, nil_append] at *
      simp only [covers_nil, or_false, Request.applied]
      rw [← lookup_eq_some before]
      split
      · rename_i has
        obtain ⟨v, covers, same⟩ := idle q rfl rfl a has
        have held : lookup (kept.map tile) a = some v := by
          rw [lookup_eq_some before]
          exact (covers_perm (effect.regions.map _)).mpr covers
        rw [held, Option.map_some, same]
      · exact Iff.rfl

end

/-- Committing a reserved change changes the pages its request names, as asked, and no other one. It does
so exactly when every region it removes is still in the ledger; otherwise it panics. -/
theorem commit_changes_pages_iff {request : Request} {p : PreparedChange} (reachable : w.Reachable)
    (reserved : (request, p) ∈ w.prepared) :
    (∃ space payload fresh, w.space.commit p = .ok (space, payload) ∧ request.Lays payload.resultLayout ∧
      ∀ page, space.pageMap page = request.applied payload.resultLayout fresh (page * pageSize) (w.space.pageMap page)) ↔
      ∀ key ∈ p.plan.remove, ∃ r ∈ w.space.regions, r.key = key := by
  have sound := reachable_sound reachable
  constructor
  · rintro ⟨space, payload, _, done, _⟩
    exact commit_present done
  · intro present
    obtain ⟨⟨space, payload⟩, done⟩ := sound.commit_returns reserved present
    obtain ⟨removed, kept, pre, post, record, effect⟩ := commit_ok done
    obtain ⟨fresh, prepared⟩ := effect.prepared request sound reserved
    refine ⟨space, payload, fresh, done, ?_, fun page => ?_⟩
    · rw [effect.payload]
      exact prepared.lays
    · rw [effect.payload]
      exact effect.meaning sound prepared _

def secondReadOnly : Request := .protect ⟨pageSpan 17 0, .readOnly, .addressSpace⟩

def protectSecond : List Event :=
  completeChange (.map (privatePages 16 4 none)) [] ++ [.validate plenty secondReadOnly, .reserve 0 plenty []]

theorem commit_changes_pages_protectSecond : ∃ w p, runEvents World.step (World.start smallSpace) protectSecond = .ok w ∧
      (secondReadOnly, p) ∈ w.prepared ∧ p.plan.remove.length = 1 ∧
      ∃ space payload fresh, w.space.commit p = .ok (space, payload) ∧
        secondReadOnly.Lays payload.resultLayout ∧ ∀ page, space.pageMap page =
          secondReadOnly.applied payload.resultLayout fresh (page * pageSize) (w.space.pageMap page) := by
  obtain ⟨w, run, test⟩ := returnsWith_ok (runEvents step (start smallSpace) protectSecond)
    (fun w => w.prepared.any fun x => decide (x.1 = secondReadOnly) && x.2.plan.remove.length == 1 &&
      w.space.snapshotValid x.2.plan.remove) (by decide +kernel)
  obtain ⟨⟨request, p⟩, member, token⟩ := any_eq_true.mp test
  rw [Bool.and_eq_true, Bool.and_eq_true, decide_eq_true_iff, beq_iff_eq] at token
  obtain ⟨⟨rfl, length⟩, present⟩ := token
  exact ⟨w, p, run, member, length, (commit_changes_pages_iff (reachable_small run) member).mpr
    (snapshotValid_iff.mp present)⟩

/-- After the first of two unmaps of one region, the other one stays reserved and its commit panics. -/
theorem commit_panics_after_unmap :
    ∃ w request p, runEvents World.step (World.start smallSpace) (twoUnmaps ++ [.commit 0]) = .ok w ∧
      w.Reachable ∧ (request, p) ∈ w.prepared ∧ Panics (w.space.commit p) := by
  obtain ⟨w, run, test⟩ := returnsWith_ok
    (runEvents step (start smallSpace) (twoUnmaps ++ [.commit 0]))
    (fun w => w.prepared.any fun x => panicMessage (w.space.commit x.2) ==
      some "validated region key changed before Commit") (by decide +kernel)
  obtain ⟨⟨request, p⟩, member, token⟩ := any_eq_true.mp test
  exact ⟨w, request, p, run, reachable_small run, member, panicMessage_some (beq_iff_eq.mp token)⟩

end

end Halcyon.Space
