import Halcyon.Space.Effects

/-!
How many regions of an address space are views of an object (`task/proc.rs`). A Protect that absorbs a neighbor removes that
region without reporting it.
-/

namespace Halcyon.Space

open List

variable {w : World}

def MemorySpace.viewCount (s : MemorySpace) (o : ObjectId) : Nat := s.regions.countP (fun r => r.kind.object? == some o)

/-- The keys a plan removes without a retiring fragment: the neighbors that a Protect absorbs. -/
def PreparedPlan.absorbed (plan : PreparedPlan) : List RegionKey := plan.remove.drop plan.retiring.length

section
variable {request : Request} {p : PreparedChange} {space : MemorySpace} {payload : ChangePayload}
  {removed kept : List Region} {pre post : List TransactionRecord} {record : TransactionRecord}
  {fresh : AllocationKey} {o : ObjectId}

theorem Commits.viewCount (effect : Commits w.space p space payload removed kept pre post record) (o : ObjectId) :
    space.viewCount o + removed.countP (fun r => r.kind.object? == some o) =
      w.space.viewCount o + p.plan.replacements.countP (fun r => r.kind.object? == some o) := by
  unfold MemorySpace.viewCount
  rw [effect.regions_new.countP_eq, ← effect.regions.countP_eq, countP_append, countP_append]
  omega

theorem PreparedSound.removed_views (prepared : PreparedSound w request p record fresh removed) (o : ObjectId) :
    removed.countP (fun r => r.kind.object? == some o) = (deltaFor p.plan.objectRegionDeltas o).retiring +
        (removed.drop p.plan.retiring.length).countP (fun r => r.kind.object? == some o) := by
  have reported := congrArg (List.countP fun object => object == some o) prepared.retired
  rw [countP_map, countP_map] at reported
  rw [prepared.deltas o, ← countP_append.symm.trans (congrArg _ (take_append_drop _ _))]
  exact congrArg (· + _) reported.symm

theorem PreparedSound.mem_absorbed (prepared : PreparedSound w request p record fresh removed) {r : Region}
    (live : r ∈ w.space.regions) : r.key ∈ p.plan.absorbed ↔ r ∈ removed.drop p.plan.retiring.length := by
  rw [PreparedPlan.absorbed, prepared.remove, ← map_drop]
  constructor
  · intro member
    obtain ⟨q, hq, same⟩ := mem_map.mp member
    have known := prepared.known q (mem_of_mem_drop hq)
    rw [known.same r (mem_append_left _ live) same.symm]
    exact hq
  · exact mem_map_of_mem

def World.AbsorbsNone (w : World) (p : PreparedChange) (o : ObjectId) : Prop :=
  ∀ r ∈ w.space.regions, r.key ∈ p.plan.absorbed → r.kind.object? ≠ some o

theorem Commits.absorbsNone_iff (effect : Commits w.space p space payload removed kept pre post record)
    (prepared : PreparedSound w request p record fresh removed) : w.AbsorbsNone p o ↔
      (removed.drop p.plan.retiring.length).countP (fun r => r.kind.object? == some o) = 0 := by
  rw [countP_eq_zero]
  constructor
  · intro none r member view
    have live : r ∈ w.space.regions := effect.regions.mem_iff.mp (mem_append_left _ (mem_of_mem_drop member))
    exact none r live ((prepared.mem_absorbed live).mpr member) (beq_iff_eq.mp view)
  · intro none r live absorbed view
    exact none r ((prepared.mem_absorbed live).mp absorbed) (beq_iff_eq.mpr view)

end

/-- The object a Map makes a view of, whose owner its reservation carries. -/
def Request.viewObject : Request → Option ObjectId
  | .map ⟨_, _, _, _, _, _, _, .object authorization _, _⟩ => some authorization.object
  | _ => none

/-- An address space with the view owners of the kernel: for each object, its `region_count`. -/
structure BoundSpace where
  world : World
  views : ObjectId → Option Nat

namespace BoundSpace

def setView (views : ObjectId → Option Nat) (o : ObjectId) (count : Option Nat) : ObjectId → Option Nat :=
  fun other => if other = o then count else views other

def installViewOwner (views : ObjectId → Option Nat) (o : ObjectId) : ObjectId → Option Nat :=
  if (views o).isSome then views else setView views o (some 0)

/-- The owner a reservation carries is installed when there is none. -/
def installCarried (views : ObjectId → Option Nat) : Option ObjectId → ObjectId → Option Nat
  | some object => installViewOwner views object
  | none => views

def applyDelta (views : ObjectId → Option Nat) (delta : ObjectRegionDelta) : Outcome Empty (ObjectId → Option Nat) := do
  let count ← expect "committed object delta lost its view owner" (views delta.object)
  let count ← expect "object view region count diverged from ledger"
    ((checkedSub count delta.retiring).bind (checkedAdd · delta.replacement))
  return setView views delta.object (some count)

def applyDeltas (views : ObjectId → Option Nat) : List ObjectRegionDelta → Outcome Empty (ObjectId → Option Nat)
  | [] => return views
  | delta :: rest => do applyDeltas (← applyDelta views delta) rest

def releaseViewRegion (views : ObjectId → Option Nat) (o : ObjectId) : ObjectId → Option Nat :=
  if views o = some 0 then setView views o none else views

def drainViewRegion (views : ObjectId → Option Nat) (o : ObjectId) : Outcome Empty (ObjectId → Option Nat) := do
  let count ← expect "draining object region lost its view owner" (views o)
  let count ← expect "object view region count underflowed" (checkedSub count 1)
  return setView views o (if count = 0 then none else some count)

inductive Event where
  | planner (event : Space.Event)
  | releaseView (object : ObjectId)

/-- `commit_inner` on token `i`: the deltas are counted before the ledger commits. -/
def commitInner (k : BoundSpace) (i : Nat) : Outcome Empty BoundSpace :=
  match k.world.prepared[i]? with
  | none => return k
  | some (request, p) => do
    let views ← applyDeltas (installCarried k.views request.viewObject) p.plan.objectRegionDeltas
    let world ← k.world.step (.commit i)
    return { world, views }

def drain (k : BoundSpace) : Outcome Empty BoundSpace := do
  let (_, drained) ← k.world.space.drainOne
  let world ← k.world.step .drainOne
  match drained.bind (·.1.kind.object?) with
  | some object => return { world, views := ← drainViewRegion k.views object }
  | none => return { k with world }

def step (k : BoundSpace) : Event → Outcome Empty BoundSpace
  | .planner (.commit i) => k.commitInner i
  | .planner .drainOne => k.drain
  | .planner event => do return { k with world := ← k.world.step event }
  | .releaseView object => return { k with views := releaseViewRegion k.views object }

def start (space : MemorySpace) : BoundSpace := ⟨World.start space, fun _ => none⟩

def Exact (k : BoundSpace) : Event → Prop
  | .planner (.commit i) => ∀ x ∈ k.world.prepared[i]?, ∀ r ∈ k.world.space.regions,
      r.key ∈ x.2.plan.absorbed → r.kind.object? = none
  | _ => True

instance (k : BoundSpace) (event : Event) : Decidable (k.Exact event) := by
  unfold Exact
  split <;> infer_instance

def Counts (k : BoundSpace) : Prop := ∀ o, (k.views o).getD 0 = k.world.space.viewCount o

variable {k next : BoundSpace} {views views' : ObjectId → Option Nat} {o : ObjectId}

theorem setView_getD (x : Option Nat) (o other : ObjectId) :
    (setView views o x other).getD 0 = if other = o then x.getD 0 else (views other).getD 0 := by
  unfold setView
  split <;> rfl

theorem installViewOwner_getD (object : ObjectId) : (installViewOwner views object o).getD 0 = (views o).getD 0 := by
  unfold installViewOwner
  split
  · rfl
  · rename_i absent
    rw [setView_getD]
    split
    · rename_i same
      rw [same, Option.not_isSome_iff_eq_none.mp absent]
      rfl
    · rfl

theorem applyDeltas_ok {deltas : List ObjectRegionDelta} (distinct : (deltas.map (·.object)).Nodup)
    (h : applyDeltas views deltas = .ok views') :
    (views' o).getD 0 + (deltaFor deltas o).retiring = (views o).getD 0 + (deltaFor deltas o).replacement := by
  induction deltas generalizing views with
  | nil =>
    rw [pure_ok h]
    rfl
  | cons delta rest ih =>
    obtain ⟨middle, first, h⟩ := bind_ok h
    obtain ⟨count, read, first⟩ := bind_ok first
    obtain ⟨count', changed, first⟩ := bind_ok first
    obtain ⟨less, subtracted, added⟩ := Option.bind_eq_some_iff.mp (expect_ok changed)
    have subtracted := checkedSub_some subtracted
    have added := (checkedAdd_some added).1
    rw [map_cons, nodup_cons] at distinct
    have tail := ih distinct.2 h
    rw [pure_ok first, setView_getD] at tail
    by_cases same : o = delta.object
    · subst same
      have absent : deltaFor rest delta.object = ⟨delta.object, 0, 0⟩ := by
        have none : rest.find? (fun d => d.object == delta.object) = none := by
          rw [find?_eq_none]
          intro d hd equal
          exact distinct.1 (beq_iff_eq.mp equal ▸ mem_map_of_mem hd)
        rw [deltaFor, none]
        rfl
      have here : deltaFor (delta :: rest) delta.object = delta := by simp [deltaFor]
      have held : (views delta.object).getD 0 = count := by rw [expect_ok read]; rfl
      rw [absent, if_pos rfl, Option.getD_some] at tail
      rw [here, held]
      dsimp only at tail
      omega
    · have skip : deltaFor (delta :: rest) o = deltaFor rest o := by
        simp [deltaFor, Ne.symm same]
      rw [if_neg same] at tail
      rw [skip]
      exact tail

theorem drainViewRegion_ok {object : ObjectId} (h : drainViewRegion views object = .ok views') :
    (views' o).getD 0 + (if some object = some o then 1 else 0) = (views o).getD 0 := by
  obtain ⟨count, read, h⟩ := bind_ok h
  obtain ⟨less, subtracted, h⟩ := bind_ok h
  have subtracted := checkedSub_some (expect_ok subtracted)
  rw [pure_ok h, setView_getD]
  by_cases same : o = object
  · subst same
    have held : (views o).getD 0 = count := by rw [expect_ok read]; rfl
    rw [if_pos rfl, if_pos rfl, held]
    split
    · rename_i zero
      rw [Option.getD_none]
      omega
    · rw [Option.getD_some]
      omega
  · rw [if_neg same, if_neg (by simpa using Ne.symm same)]
    rfl

theorem step_regions {w next : World} {event : Space.Event} (h : w.step event = .ok next)
    (commit : ∀ i, event ≠ .commit i) (drain : event ≠ .drainOne) : next.space.regions = w.space.regions := by
  cases step_cases h with
  | reserved token effect =>
    obtain ⟨_, _, ledger⟩ := effect.ledger
    rw [ledger]
  | committed token effect => exact (commit _ rfl).elim
  | drained idle regions => exact (drain rfl).elim
  | _ => rfl

theorem commitInner_counts {i : Nat} (sound : k.world.Sound) (counts : k.Counts)
    (exact_ : k.Exact (.planner (.commit i))) (h : k.commitInner i = .ok next) :
    next.world.Sound ∧ next.Counts := by
  unfold commitInner at h
  split at h
  · rw [pure_ok h]
    exact ⟨sound, counts⟩
  · rename_i request p found
    obtain ⟨views, applied, h⟩ := bind_ok h
    obtain ⟨world, committed, h⟩ := bind_ok h
    rw [pure_ok h]
    refine ⟨step_sound sound committed, fun o => ?_⟩
    obtain ⟨before, after, token, rfl⟩ := split_at_index found
    obtain ⟨payload, done, _⟩ := step_commit_ok token committed
    obtain ⟨removed, kept, pre, post, record, effect⟩ := commit_ok done
    obtain ⟨fresh, prepared⟩ := effect.prepared request sound (by simp [token])
    have absorbsNone : k.world.AbsorbsNone p o := fun r live absorbed view => by
      rw [exact_ _ found r live absorbed] at view
      cases view
    have none := (effect.absorbsNone_iff prepared).mp absorbsNone
    have changed := applyDeltas_ok (o := o) prepared.deltaObjects applied
    have ledger := effect.viewCount o
    have reported := prepared.removed_views o
    have installed : (installCarried k.views request.viewObject o).getD 0 = k.world.space.viewCount o := by
      rw [← counts o]
      cases request.viewObject with
      | none => rfl
      | some object => exact installViewOwner_getD object
    have entry := congrArg ObjectRegionDelta.replacement (prepared.deltas o)
    dsimp only at entry ⊢
    omega

theorem drain_counts (sound : k.world.Sound) (counts : k.Counts) (h : k.drain = .ok next) :
    next.world.Sound ∧ next.Counts := by
  obtain ⟨⟨space, drained⟩, taken, h⟩ := bind_ok h
  obtain ⟨world, moved, rest⟩ := bind_ok h
  have ledger : world.space = space := by
    rw [World.step, taken, ok_bind] at moved
    rw [pure_ok moved]
  obtain ⟨idle, ⟨none, rfl, rfl⟩ | ⟨others, r, regions, rfl, rfl⟩⟩ := drainOne_ok taken
  · rw [pure_ok rest]
    exact ⟨step_sound sound moved, fun o => by rw [ledger]; exact counts o⟩
  · have fewer : ∀ o, world.space.viewCount o + (if r.kind.object? = some o then 1 else 0) = k.world.space.viewCount o := by
      intro o
      rw [ledger]
      simp [MemorySpace.viewCount, regions]
    simp only [Option.bind_some, Region.drained] at rest
    split at rest
    · rename_i object view
      obtain ⟨views, changed, rest⟩ := bind_ok rest
      rw [pure_ok rest]
      refine ⟨step_sound sound moved, fun o => ?_⟩
      have less := drainViewRegion_ok (o := o) changed
      have fewer := fewer o
      rw [view] at fewer
      rw [counts o] at less
      dsimp only
      omega
    · rename_i view
      rw [pure_ok rest]
      refine ⟨step_sound sound moved, fun o => ?_⟩
      have fewer := fewer o
      rw [view] at fewer
      rw [counts o, ← fewer]
      simp

theorem step_counts {event : Event} (inv : k.world.Sound ∧ k.Counts) (exact_ : k.Exact event)
    (h : k.step event = .ok next) : next.world.Sound ∧ next.Counts := by
  obtain ⟨sound, counts⟩ := inv
  unfold step at h
  split at h
  · exact commitInner_counts sound counts exact_ h
  · exact drain_counts sound counts h
  · rename_i event notCommit notDrain
    obtain ⟨world, moved, h⟩ := bind_ok h
    rw [pure_ok h]
    refine ⟨step_sound sound moved, fun o => ?_⟩
    have same := step_regions moved (fun i e => notCommit i (by rw [e])) (fun e => notDrain (by rw [e]))
    dsimp only
    rw [MemorySpace.viewCount, same]
    exact counts o
  · rename_i object
    rw [pure_ok h]
    refine ⟨sound, fun o => ?_⟩
    rw [← counts o]
    dsimp only [releaseViewRegion]
    split
    · rename_i zero
      rw [setView_getD]
      split
      · rename_i same
        rw [same, zero]
        rfl
      · rfl
    · rfl

end BoundSpace

/-- Committing a reserved change changes the number of views of an object by what the change reports, exactly
when the regions it removes are there and it absorbs no view of the object. In every run of the kernel whose
commits absorb no view, its count of every object is the true one. -/
theorem region_accounting (o : ObjectId) : (∀ w : World, w.Reachable → ∀ request p, (request, p) ∈ w.prepared →
      ((∃ space payload, w.space.commit p = .ok (space, payload) ∧
        (space.viewCount o : Int) = w.space.viewCount o + (deltaFor p.plan.objectRegionDeltas o).replacement -
          (deltaFor p.plan.objectRegionDeltas o).retiring) ↔
        (∀ key ∈ p.plan.remove, ∃ r ∈ w.space.regions, r.key = key) ∧ w.AbsorbsNone p o)) ∧
    ∀ heap bounds limits space events k, MemorySpace.new heap bounds limits = .ok space →
      RunMeets BoundSpace.step BoundSpace.Exact (BoundSpace.start space) events →
      runEvents BoundSpace.step (BoundSpace.start space) events = .ok k →
      (k.views o).getD 0 = k.world.space.viewCount o := by
  refine ⟨fun w reachable request p reserved => ?_, fun heap bounds limits space events k made meets run => ?_⟩
  · have sound := reachable_sound reachable
    have balance : ∀ {space payload}, w.space.commit p = .ok (space, payload) →
        ((space.viewCount o : Int) = w.space.viewCount o + (deltaFor p.plan.objectRegionDeltas o).replacement -
          (deltaFor p.plan.objectRegionDeltas o).retiring ↔ w.AbsorbsNone p o) := by
      intro space payload done
      obtain ⟨removed, kept, pre, post, record, effect⟩ := commit_ok done
      obtain ⟨fresh, prepared⟩ := effect.prepared request sound reserved
      have ledger := effect.viewCount o
      have reported := prepared.removed_views o
      have entry := congrArg ObjectRegionDelta.replacement (prepared.deltas o)
      rw [effect.absorbsNone_iff prepared]
      dsimp only at entry
      omega
    constructor
    · rintro ⟨space, payload, done, changed⟩
      exact ⟨commit_present done, (balance done).mp changed⟩
    · rintro ⟨present, none⟩
      obtain ⟨⟨space, payload⟩, done⟩ := sound.commit_returns reserved present
      exact ⟨space, payload, done, (balance done).mpr none⟩
  · have start := start_sound made
    have empty : space.regions = [] := by rw [MemorySpace.new_ok made]
    refine (run_invariant_of_meets (I := fun k : BoundSpace => k.world.Sound ∧ k.Counts)
      (fun _ _ _ inv exact_ step => BoundSpace.step_counts inv exact_ step) ⟨start, fun o => ?_⟩ meets run).2 o
    simp [BoundSpace.start, World.start, MemorySpace.viewCount, empty]

/-- A view of the object, read-only but for its second page, which is about to lose its write access again. -/
def reprotect : List Event := completeChange (.map (sharedPages 16 4 .readOnly)) [] ++
    completeChange (.protect ⟨pageSpan 17 0, .readWrite, .addressSpace⟩) [sharedPermit] ++ [
    .validate plenty (.protect ⟨pageSpan 17 0, .readOnly, .addressSpace⟩), .reserve 0 plenty []]

/-- The Protect absorbs both neighbors: three regions become one, and the change reports one for one. -/
theorem reprotect_miscounts :
    (∃ w request p space payload, runEvents World.step (World.start smallSpace) reprotect = .ok w ∧ w.Reachable ∧
      (request, p) ∈ w.prepared ∧ w.space.commit p = .ok (space, payload) ∧
      w.space.viewCount sharedPermit.object = 3 ∧ space.viewCount sharedPermit.object = 1 ∧
      deltaFor p.plan.objectRegionDeltas sharedPermit.object = ⟨sharedPermit.object, 1, 1⟩) ∧
    ∃ k, runEvents BoundSpace.step (BoundSpace.start smallSpace) ((reprotect ++ [Event.commit 0]).map .planner) = .ok k ∧
      k.views sharedPermit.object = some 3 ∧ k.world.space.viewCount sharedPermit.object = 1 := by
  constructor
  · obtain ⟨w, run, test⟩ := returnsWith_ok (runEvents World.step (World.start smallSpace) reprotect)
      (fun w => w.space.viewCount sharedPermit.object == 3 && w.prepared.any fun x =>
        returnsWith (w.space.commit x.2) (fun out => out.1.viewCount sharedPermit.object == 1 &&
          decide (deltaFor x.2.plan.objectRegionDeltas sharedPermit.object = ⟨sharedPermit.object, 1, 1⟩)))
      (by decide +kernel)
    rw [Bool.and_eq_true, beq_iff_eq] at test
    obtain ⟨⟨request, p⟩, member, token⟩ := any_eq_true.mp test.2
    obtain ⟨⟨space, payload⟩, done, counts⟩ := returnsWith_ok _ _ token
    rw [Bool.and_eq_true, beq_iff_eq, decide_eq_true_iff] at counts
    exact ⟨w, request, p, space, payload, run, reachable_small run, member, done, test.1, counts.1, counts.2⟩
  · obtain ⟨k, run, test⟩ := returnsWith_ok
      (runEvents BoundSpace.step (BoundSpace.start smallSpace) ((reprotect ++ [Event.commit 0]).map .planner))
      (fun k => decide (k.views sharedPermit.object = some 3) && k.world.space.viewCount sharedPermit.object == 1)
      (by decide +kernel)
    rw [Bool.and_eq_true, beq_iff_eq, decide_eq_true_iff] at test
    exact ⟨k, run, test⟩

def splitShared : List Event := completeChange (.map (sharedPages 16 4 .readWrite)) [sharedPermit] ++ [
    .validate plenty (.protect ⟨pageSpan 17 0, .readOnly, .addressSpace⟩),
    .reserve 0 plenty [sharedPermit, sharedPermit]]

theorem region_accounting_splitShared :
    (∃ w p space payload, runEvents World.step (World.start smallSpace) splitShared = .ok w ∧
      w.space.commit p = .ok (space, payload) ∧ (space.viewCount sharedPermit.object : Int) =
        w.space.viewCount sharedPermit.object + (deltaFor p.plan.objectRegionDeltas sharedPermit.object).replacement -
          (deltaFor p.plan.objectRegionDeltas sharedPermit.object).retiring) ∧
    ∃ k, runEvents BoundSpace.step (BoundSpace.start smallSpace) ((splitShared ++ [Event.commit 0]).map .planner) = .ok k ∧
      k.world.space.viewCount sharedPermit.object = 3 ∧ (k.views sharedPermit.object).getD 0 = 3 := by
  constructor
  · obtain ⟨w, run, test⟩ := returnsWith_ok (runEvents World.step (World.start smallSpace) splitShared)
      (fun w => w.prepared.any fun x => w.space.snapshotValid x.2.plan.remove && x.2.plan.absorbed.isEmpty)
      (by decide +kernel)
    obtain ⟨⟨request, p⟩, member, token⟩ := any_eq_true.mp test
    rw [Bool.and_eq_true, snapshotValid_iff, List.isEmpty_iff] at token
    obtain ⟨space, payload, done, changed⟩ := ((region_accounting _).1 w (reachable_small run) request p member).mpr
      ⟨token.1, fun r _ absorbed => by simp [token.2] at absorbed⟩
    exact ⟨w, p, space, payload, run, done, changed⟩
  · obtain ⟨k, run, test⟩ := returnsWith_ok
      (runEvents BoundSpace.step (BoundSpace.start smallSpace) ((splitShared ++ [Event.commit 0]).map .planner))
      (fun k => k.world.space.viewCount sharedPermit.object == 3) (by decide +kernel)
    rw [beq_iff_eq] at test
    refine ⟨k, run, test, ?_⟩
    rw [← test]
    exact (region_accounting _).2 plenty smallBounds smallLimits smallSpace _ k smallSpace_new
      (of_decide_eq_true (by decide +kernel)) run

end Halcyon.Space
