import Halcyon.Base.Runs
import Halcyon.Space.Operations

/-!
One address space under any number of open changes. A `World` is a ledger with every token its callers hold; the typestate of
the source is the stage beside each token. A panic ends the run.
-/

namespace Halcyon.Space

def MemorySpace.validate (s : MemorySpace) (heap : Heap) : Request → Outcome ChangeError ValidatedChange
  | .map q => s.validateMap heap q
  | .unmap q => s.validateUnmap heap q
  | .protect q => s.validateProtect heap q

/-- A ledger and the tokens in the hands of its callers. The last three fields record where the
permits given to `reserve` went: handed back at once, or popped from a batch or a drained region. -/
structure World where
  space : MemorySpace
  validated : List (Request × ValidatedChange)
  prepared : List (Request × PreparedChange)
  staged : List (ChangeStage × ChangePayload)
  batches : List RetireBatch
  supplied : List WritePermit
  returned : List WritePermit
  released : List WritePermit

inductive Event where
  | validate (heap : Heap) (request : Request)
  | discard (i : Nat)
  | reserve (i : Nat) (heap : Heap) (permits : List WritePermit)
  | rollback (i : Nat)
  | commit (i : Nat)
  | publish (i : Nat)
  | synchronize (i : Nat)
  | beginRetire (i : Nat)
  | popFragment (j : Nat)
  | popPermit (j : Nat)
  | intoParts (j : Nat)
  | finishRetire (i j : Nat)
  | complete (i : Nat)
  | drainOne

namespace World

def start (space : MemorySpace) : World := ⟨space, [], [], [], [], [], [], []⟩

/-- The calls on token `i`, when it is in the stage that the call takes. -/
def onStaged (w : World) (i : Nat) (stage : ChangeStage) (call : ChangePayload → Outcome Empty World) :
    Outcome Empty World :=
  match w.staged[i]? with
  | some (current, payload) => if current = stage then call payload else return w
  | none => return w

def onBatch (w : World) (j : Nat) (call : RetireBatch → Outcome Empty World) : Outcome Empty World :=
  match w.batches[j]? with
  | some batch => call batch
  | none => return w

def step (w : World) : Event → Outcome Empty World
  | .validate heap request =>
    settle (w.space.validate heap request)
      (fun v => { w with validated := w.validated ++ [(request, v)] }) (fun _ => w)
  | .discard i => return { w with validated := w.validated.eraseIdx i }
  | .reserve i heap permits =>
    match w.validated[i]? with
    | none => return w
    | some (request, v) =>
      conclude
        (fun p space => { w with
          space
          validated := w.validated.eraseIdx i
          prepared := w.prepared ++ [(request, p)]
          supplied := w.supplied ++ permits })
        (fun failure space => { w with
          space
          validated := w.validated.set i (request, failure.validated)
          supplied := w.supplied ++ permits
          returned := w.returned ++ failure.permits })
        (MemorySpace.reserve heap v permits w.space)
  | .rollback i =>
    match w.prepared[i]? with
    | none => return w
    | some (_, p) => do
      let (space, permits) ← w.space.rollback p
      return { w with space, prepared := w.prepared.eraseIdx i, returned := w.returned ++ permits }
  | .commit i =>
    match w.prepared[i]? with
    | none => return w
    | some (_, p) => do
      let (space, payload) ← w.space.commit p
      return { w with
        space
        prepared := w.prepared.eraseIdx i
        staged := w.staged ++ [(.committed, payload)] }
  | .publish i => w.onStaged i .committed fun committed => do
      let (space, payload) ← w.space.publish committed
      return { w with space, staged := w.staged.set i (.published, payload) }
  | .synchronize i => w.onStaged i .published fun published => do
      let (space, payload) ← w.space.synchronize published
      return { w with space, staged := w.staged.set i (.synchronized, payload) }
  | .beginRetire i => w.onStaged i .synchronized fun synchronized => do
      let (space, payload, batch) ← w.space.beginRetire synchronized
      return { w with space, staged := w.staged.set i (.retiring, payload), batches := w.batches ++ [batch] }
  | .popFragment j => w.onBatch j fun batch =>
      return { w with batches := w.batches.set j { batch with fragments := batch.fragments.dropLast } }
  | .popPermit j => w.onBatch j fun batch =>
      return { w with
        batches := w.batches.set j { batch with permits := batch.permits.dropLast }
        released := w.released ++ batch.permits.getLast?.toList }
  | .intoParts j => w.onBatch j fun batch =>
      return { w with batches := w.batches.eraseIdx j, released := w.released ++ batch.permits }
  | .finishRetire i j => w.onBatch j fun batch => w.onStaged i .retiring fun retiring => do
      let (space, payload) ← w.space.finishRetire retiring batch
      return { w with space, staged := w.staged.set i (.retired, payload) }
  | .complete i => w.onStaged i .retired fun retired => do
      let space ← w.space.complete retired
      return { w with space, staged := w.staged.eraseIdx i }
  | .drainOne => do
      let (space, drained) ← w.space.drainOne
      return { w with space, released := w.released ++ (drained.bind (·.2)).toList }

/-- The worlds that some run without a panic leads to, from a new ledger. -/
def Reachable (w : World) : Prop := ∃ heap bounds limits space events,
    MemorySpace.new heap bounds limits = .ok space ∧ runEvents step (start space) events = .ok w

def pending (w : World) : List Region := w.prepared.flatMap (·.2.plan.replacements)

end World

/-- The effect of one event, with everything its operation has established. -/
inductive Step (w : World) : Event → World → Prop
  | stay (event : Event) : Step w event w
  | validated {heap : Heap} {request : Request} {v : ValidatedChange}
      (accepted : w.space.validate heap request = .ok v) :
      Step w (.validate heap request) { w with validated := w.validated ++ [(request, v)] }
  | discarded (i : Nat) : Step w (.discard i) { w with validated := w.validated.eraseIdx i }
  | refused {i : Nat} {heap : Heap} (permits : List WritePermit) :
      Step w (.reserve i heap permits)
        { w with supplied := w.supplied ++ permits, returned := w.returned ++ permits }
  | reserved {heap request v p space permits before after}
      (token : w.validated = before ++ (request, v) :: after) (effect : Reserves w.space v permits space p) :
      Step w (.reserve before.length heap permits) { w with
        space
        validated := before ++ after
        prepared := w.prepared ++ [(request, p)]
        supplied := w.supplied ++ permits }
  | rolledBack {request p before after pre post record growth} (token : w.prepared = before ++ (request, p) :: after)
      (transactions : w.space.transactions = pre ++ record :: post) (key : record.key = p.key)
      (stage : record.stage = .reserved) (less : growth + record.reservedGrowth = w.space.reservedGrowth) :
      Step w (.rollback before.length) { w with
        space := { w.space with transactions := pre ++ post, reservedGrowth := growth }
        prepared := before ++ after
        returned := w.returned ++ (p.permits ++ p.plan.replacements.filterMap Region.permit) }
  | committed {request p before after space payload removed kept pre post record}
      (token : w.prepared = before ++ (request, p) :: after)
      (effect : Commits w.space p space payload removed kept pre post record) :
      Step w (.commit before.length) { w with
        space
        prepared := before ++ after
        staged := w.staged ++ [(.committed, payload)] }
  | advanced {event from_ to_ payload before after pre post record}
      (token : w.staged = before ++ (from_, payload) :: after)
      (order : from_ = .committed ∧ to_ = .published ∨ from_ = .published ∧ to_ = .synchronized ∨
        from_ = .retiring ∧ to_ = .retired)
      (transactions : w.space.transactions = pre ++ record :: post) (key : record.key = payload.key)
      (stage : record.stage = from_) :
      Step w event { w with
        space := { w.space with transactions := pre ++ { record with stage := to_ } :: post }
        staged := before ++ (to_, payload) :: after }
  | began {payload before after pre post record}
      (token : w.staged = before ++ (.synchronized, payload) :: after)
      (transactions : w.space.transactions = pre ++ record :: post) (key : record.key = payload.key)
      (stage : record.stage = .synchronized) :
      Step w (.beginRetire before.length) { w with
        space := { w.space with transactions := pre ++ { record with stage := .retiring } :: post }
        staged := before ++ (.retiring, { payload with retiring := [], retiringPermits := [] }) :: after
        batches := w.batches ++ [⟨payload.retiring, payload.retiringPermits⟩] }
  | popped {event batch rest before after permits}
      (token : w.batches = before ++ batch :: after) (same : batch.permits = rest.permits ++ permits) :
      Step w event { w with
        batches := before ++ rest :: after
        released := w.released ++ permits }
  | parted {batch : RetireBatch} {before after : List RetireBatch} (token : w.batches = before ++ batch :: after) :
      Step w (.intoParts before.length) { w with
        batches := before ++ after
        released := w.released ++ batch.permits }
  | completed {payload before after pre post record}
      (token : w.staged = before ++ (.retired, payload) :: after)
      (transactions : w.space.transactions = pre ++ record :: post) (key : record.key = payload.key)
      (stage : record.stage = .retired) :
      Step w (.complete before.length) { w with
        space := { w.space with transactions := pre ++ post }
        staged := before ++ after }
  | drained {rest : List Region} {r : Region} (idle : w.space.transactions = [])
      (regions : w.space.regions = rest ++ [r]) :
      Step w .drainOne { w with
        space := { w.space with regions := rest }
        released := w.released ++ r.permit.toList }

variable {w next : World}

theorem World.onStaged_ok {P : World → Prop} {i : Nat} {stage : ChangeStage} {call : ChangePayload → Outcome Empty World}
    (h : w.onStaged i stage call = .ok next) (stays : P w)
    (moves : ∀ before payload after, w.staged = before ++ (stage, payload) :: after → before.length = i →
      call payload = .ok next → P next) : P next := by
  unfold World.onStaged at h
  split at h
  · rename_i current payload found
    split at h
    · rename_i same
      subst same
      obtain ⟨before, after, token, position⟩ := split_at_index found
      exact moves before payload after token position h
    · exact pure_ok h ▸ stays
  · exact pure_ok h ▸ stays

theorem World.onBatch_ok {P : World → Prop} {j : Nat} {call : RetireBatch → Outcome Empty World}
    (h : w.onBatch j call = .ok next) (stays : P w) (moves : ∀ before batch after,
      w.batches = before ++ batch :: after → before.length = j → call batch = .ok next → P next) : P next := by
  unfold World.onBatch at h
  split at h
  · rename_i batch found
    obtain ⟨before, after, token, position⟩ := split_at_index found
    exact moves before batch after token position h
  · exact pure_ok h ▸ stays

theorem advance_step {event : Event} {from_ to_ : ChangeStage} {payload : ChangePayload}
    {before after : List (ChangeStage × ChangePayload)} {space : MemorySpace}
    (token : w.staged = before ++ (from_, payload) :: after)
    (order : from_ = .committed ∧ to_ = .published ∨ from_ = .published ∧ to_ = .synchronized ∨
      from_ = .retiring ∧ to_ = .retired) (h : w.space.advance payload.key from_ to_ = .ok space) :
    Step w event { w with space, staged := w.staged.set before.length (to_, payload) } := by
  obtain ⟨_, _, _, transactions, key, stage, rfl⟩ := advance_ok h
  rw [token, set_split]
  exact .advanced token order transactions key stage

theorem step_cases {event : Event} (h : w.step event = .ok next) : Step w event next := by
  cases event with
  | validate heap request =>
    rcases settle_ok h with ⟨v, accepted, rfl⟩ | ⟨_, _, rfl⟩
    · exact .validated accepted
    · exact .stay _
  | discard i =>
    rw [pure_ok h]
    exact .discarded i
  | reserve i heap permits =>
    rw [World.step] at h
    split at h
    · rw [pure_ok h]
      exact .stay _
    · rename_i request v found
      obtain ⟨before, after, token, rfl⟩ := split_at_index found
      rcases conclude_ok reserve_refuses h with ⟨p, space, made, rfl⟩ | ⟨failure, ⟨same, permits'⟩, rfl⟩
      · rw [token, eraseIdx_split]
        exact .reserved token (reserve_ok made)
      · rw [same, permits', token, set_split, ← token]
        exact .refused permits
  | rollback i =>
    rw [World.step] at h
    split at h
    · rw [pure_ok h]
      exact .stay _
    · rename_i request p found
      obtain ⟨before, after, token, rfl⟩ := split_at_index found
      obtain ⟨⟨space, permits⟩, undone, h⟩ := bind_ok h
      obtain ⟨pre, record, post, growth, transactions, key, stage, less, rfl, rfl⟩ := rollback_ok undone
      rw [pure_ok h, token, eraseIdx_split]
      exact .rolledBack token transactions key stage less
  | commit i =>
    rw [World.step] at h
    split at h
    · rw [pure_ok h]
      exact .stay _
    · rename_i request p found
      obtain ⟨before, after, token, rfl⟩ := split_at_index found
      obtain ⟨⟨space, payload⟩, done, h⟩ := bind_ok h
      obtain ⟨removed, kept, pre, post, record, effect⟩ := commit_ok done
      rw [pure_ok h, token, eraseIdx_split]
      exact .committed token effect
  | publish i | synchronize i =>
    refine World.onStaged_ok h (.stay _) ?_
    rintro before payload after token rfl h
    obtain ⟨⟨space, _⟩, moved, h⟩ := bind_ok h
    obtain ⟨_, advanced, same⟩ := bind_ok moved
    cases pure_ok same
    rw [pure_ok h]
    exact advance_step token (by simp) advanced
  | beginRetire i =>
    refine World.onStaged_ok h (.stay _) ?_
    rintro before payload after token rfl h
    obtain ⟨⟨space, _, _⟩, moved, h⟩ := bind_ok h
    obtain ⟨_, advanced, same⟩ := bind_ok moved
    cases pure_ok same
    obtain ⟨pre, record, post, transactions, key, stage, rfl⟩ := advance_ok advanced
    rw [pure_ok h, token, set_split]
    exact .began token transactions key stage
  | popFragment j =>
    refine World.onBatch_ok h (.stay _) ?_
    rintro before batch after token rfl h
    rw [pure_ok h, token, set_split]
    have popped : Step w (.popFragment before.length) { w with
        batches := before ++ { batch with fragments := batch.fragments.dropLast } :: after
        released := w.released ++ [] } := .popped token (List.append_nil _).symm
    rwa [List.append_nil] at popped
  | popPermit j =>
    refine World.onBatch_ok h (.stay _) ?_
    rintro before batch after token rfl h
    rw [pure_ok h, token, set_split]
    refine .popped token ?_
    cases last : batch.permits.getLast? with
    | none => simp [List.getLast?_eq_none_iff.mp last]
    | some permit =>
      obtain ⟨rest, same⟩ := List.getLast?_eq_some_iff.mp last
      simp [same]
  | intoParts j =>
    refine World.onBatch_ok h (.stay _) ?_
    rintro before batch after token rfl h
    rw [pure_ok h, token, eraseIdx_split]
    exact .parted token
  | finishRetire i j =>
    refine World.onBatch_ok h (.stay _) ?_
    rintro _ batch _ _ _ h
    refine World.onStaged_ok h (.stay _) ?_
    rintro before payload after token rfl h
    obtain ⟨⟨space, _⟩, moved, h⟩ := bind_ok h
    obtain ⟨_, _, moved⟩ := bind_ok moved
    obtain ⟨_, advanced, same⟩ := bind_ok moved
    cases pure_ok same
    rw [pure_ok h]
    exact advance_step token (.inr (.inr ⟨rfl, rfl⟩)) advanced
  | complete i =>
    refine World.onStaged_ok h (.stay _) ?_
    rintro before payload after token rfl h
    obtain ⟨space, moved, h⟩ := bind_ok h
    obtain ⟨pre, record, post, transactions, key, stage, rfl⟩ := complete_ok moved
    rw [pure_ok h, token, eraseIdx_split]
    exact .completed token transactions key stage
  | drainOne =>
    obtain ⟨⟨space, drained⟩, done, h⟩ := bind_ok h
    obtain ⟨idle, ⟨_, rfl, rfl⟩ | ⟨rest, r, regions, rfl, rfl⟩⟩ := drainOne_ok done
    · rw [pure_ok h]
      simpa using Step.stay (w := w) .drainOne
    · rw [pure_ok h]
      exact .drained idle regions

end Halcyon.Space
