import Halcyon.Threads.Held
import Halcyon.Threads.Stale

/-!
No thread is left behind, but for two races: a handle closed before `bind_thread` has told the control its thread, and a
thread started before `install_ready_batch` has given it its batch.
-/

namespace Halcyon.Threads

open List

open Tasks Threads.World

/-- The last capability is closed after the thread is bound, and a thread is published after its batch is installed. -/
def Orderly (w : World) : Event → Prop
  | .close c => w.reachable c = true → (w.control c).capabilities = 1 → (w.control c).thread ≠ none
  | .advance index =>
    match w.pending[index]? with
    | some (.started t) => (w.thread t).readyBatch = true
    | _ => True
  | _ => True

instance (w : World) (event : Event) : Decidable (Orderly w event) := by
  unfold Orderly
  split
  · infer_instance
  · split <;> infer_instance
  · infer_instance

section
variable {w next : World} {t : ThreadRef} {c : Nat} {call : Pending} {hand : Option ThreadRef}

theorem not_resident (free : t ∉ w.owned) (started : w.Started t) : ¬ w.Resident t := by
  rintro (created | queued | ⟨call, inside, owns, _⟩)
  · obtain ⟨entry, current, later⟩ := started
    rw [Lifecycle.stateOf, current] at created
    rw [Option.some.inj created] at later
    cases later
  · exact free (mem_append_left _ queued)
  · exact free (mem_append_right _ (mem_filterMap.mpr ⟨call, inside, owns⟩))

variable {key : MemberKey} {lifecycle : Lifecycle} {synchronized : Bool}

theorem alive_of_created (created : w.lifecycle.stateOf key = some (.created t)) : w.alive t = true := by
  obtain ⟨entry, current, state⟩ := Lifecycle.stateOf_iff.mp created
  obtain ⟨retired, found, _⟩ := entryOf_some.mp current
  have any : (w.lifecycle.members.any fun slot => slot.entry.any fun entry => entry.state == .created t) = true :=
    any_eq_true.mpr ⟨_, mem_of_getElem? found, by simp [state]⟩
  simp only [World.alive, any, Bool.true_or]

theorem Held.resume (held : Held none w) (cleanup : Option (Nat × Nat)) : Held none (w.resume cleanup) := by
  cases cleanup with
  | none => exact held
  | some place => exact held.putIdle rfl nofun

theorem Held.awaitTodo (held : Held none w) (todo : Option TerminationTodo) : Held none (w.awaitTodo todo) := by
  unfold World.awaitTodo
  split
  · split
    · exact held.putIdle rfl nofun
    · exact held
  · exact held

theorem Held.request (held : Held (some t) w) (less : t < w.threads.length) (fresh : (w.thread t).requested = false)
    (absent : ¬ w.Resident t) (holds : Bool) (cleanup : Option (Nat × Nat)) :
    Held none (w.request t holds cleanup) := by
  rw [World.request, if_neg (by rw [fresh]; exact Bool.false_ne_true)]
  refine Held.put (held.setThread less rfl rfl fun resident => (absent resident).elim) rfl ?_ nofun
  intro _ _ final
  cases final

theorem Pending.makes_of_owner (owns : call.owner = some t) : call.makes = none := by
  cases call <;> first | rfl | cases owns

theorem Held.putOwner (held : Held (some t) w) (owns : call.owner = some t) (fresh : (w.thread t).requested = false) :
    Held none (w.await call) := by
  refine held.put owns (fun t' same _ => ?_) fun c t' made => ?_
  · cases same
    exact fresh
  · rw [call.makes_of_owner owns] at made
    cases made

theorem Held.takeOver (held : Held none w) {entry : MemberEntry} (less : t < w.threads.length)
    (created : w.lifecycle.stateOf (w.thread t).member = some (.created t))
    (updates : Updates w.lifecycle lifecycle (w.thread t).member (some entry)) (owns : call.owner = some t) :
    Held none ({ w with lifecycle }.await call) := by
  refine Held.putOwner (held.updated less updates (.inl rfl)) owns ?_
  exact held.fresh t less (.inl created)

theorem Sound.created_same (sound : Sound w) {thread : ThreadRef} (less : t < w.threads.length)
    (created : w.lifecycle.stateOf (w.thread t).member = some (.created thread)) : thread = t := by
  obtain ⟨known, member⟩ := sound.created_at created
  exact sound.member_inj known less member

theorem Held.released (held : Held none (w.await (.releasing c))) :
    Held none (match w.upgrade c with | some t => w.await (.abandoning t) | none => w) := by
  have upgrades : ∀ {t}, w.lifecycle.stateOf (w.thread t).member = some (.created t) →
      (w.control c).thread = some t → w.upgrade c = some t := by
    intro t created bound
    rw [World.upgrade, bound]
    exact Option.filter_eq_some_iff.mpr ⟨rfl, alive_of_created created⟩
  cases found : w.upgrade c with
  | none =>
    refine held.takeWith (.inl rfl) fun t created capable => ?_
    rcases capable.cases with stays | ⟨_, _, ⟨same, bound⟩ | same⟩
    · exact stays
    all_goals cases same
    cases found.symm.trans (upgrades created bound)
  | some t =>
    have passed : Held none ((w.await (.abandoning t)).await (.releasing c)) := by
      have both : Held none ((w.await (.releasing c)).await (.abandoning t)) := held.putIdle rfl nofun
      exact both.permuted (List.Perm.swap _ _ _)
    refine passed.takeWith (.inl rfl) fun t' created capable => ?_
    rcases capable.cases with stays | ⟨_, mine, ⟨same, bound⟩ | same⟩
    · exact stays
    all_goals cases same
    cases found.symm.trans (upgrades created bound)
    exact ⟨c, mine, .inr (.inr mem_cons_self)⟩

theorem Held.abandoned (held : Held hand (w.await (.abandoning t)))
    (started : w.lifecycle.stateOf (w.thread t).member ≠ some (.created t)) : Held hand w := by
  have after : Held (hand.or none) w := by
    refine held.takeWith (.inr rfl) fun t' created capable => ?_
    rcases capable.cases with stays | ⟨_, _, ⟨same, _⟩ | same⟩
    · exact stays
    all_goals cases same
    exact (started created).elim
  rwa [Option.or_none] at after

section Moving

variable (sound : Sound (w.await call)) (held : Held none (w.await call))
include sound held

theorem Held.moving (owns : call.owner = some t) (pending : call.final = false) (idle : call.abandons = false) :
    t < w.threads.length ∧ (w.thread t).requested = false ∧ ¬ w.Resident t ∧ Held (some t) w := by
  obtain ⟨less, free, started⟩ := sound.moving owns
  refine ⟨less, held.fresh t less (.inr (.inr ⟨call, mem_cons_self, owns, pending⟩)), not_resident free started, ?_⟩
  exact owns ▸ held.take idle

theorem advance_held (batch : ∀ t, call = .started t → (w.thread t).readyBatch = true) (h : w.advance call = .ok next) :
    Held none next := by
  have before := sound.drop
  cases call with
  | staged c t =>
    cases pure_ok h
    have mine := held.creates _ mem_cons_self c t rfl
    have rest : Held none w := held.take rfl
    have less := rest.control_less mine
    refine Held.putIdle (rest.setControl less (fun t' bound => rest.binds c t' bound) ?_) rfl ?_
    · exact fun t' same _ capable => capable.setControl less same id id
    · rintro _ _ ⟨⟩
      exact mine
  | published c t =>
    cases pure_ok h
    have mine := held.creates _ mem_cons_self c t rfl
    have rest : Held none w := held.take rfl
    have less := rest.control_less mine
    refine Held.putIdle (rest.setControl less ?_ ?_) rfl (fun _ _ same => by cases same)
    · rintro _ ⟨⟩
      exact mine
    · intro t' same _ capable
      refine capable.setControl less same id fun _ => ?_
      exact congrArg some ((rest.paired t c mine).trans (rest.paired t' c same).symm)
  | bound t =>
    obtain ⟨_, _, h⟩ := bind_ok h
    cases pure_ok h
    have rest : Held none w := held.take rfl
    have less := sound.known rfl
    exact Held.putIdle (rest.setThread less rfl rfl fun resident => rest.fresh t less resident) rfl (fun _ _ same => by cases same)
  | installed t =>
    cases pure_ok h
    exact held.take rfl
  | resolved c =>
    cases pure_ok h
    have rest : Held none w := held.take rfl
    split
    · exact rest.putIdle rfl (fun _ _ same => by cases same)
    · exact rest
  | upgraded t =>
    have rest : Held none w := held.take rfl
    rcases settle_ok h with ⟨⟨thread, lifecycle⟩, started, rfl⟩ | ⟨_, _, rfl⟩
    · obtain ⟨created, entry, updates⟩ := Lifecycle.startCreated_ok started
      have less := sound.known rfl
      cases before.created_same less created
      exact rest.takeOver less created updates rfl
    · exact rest
  | started t =>
    obtain ⟨less, fresh, _, rest⟩ := held.moving sound rfl rfl rfl
    rw [World.advance, if_pos (batch t rfl)] at h
    cases pure_ok h
    refine Held.putOwner (rest.setThread less rfl rfl fun _ => fresh) rfl ?_
    rw [thread_setThread less, if_pos rfl]
    exact fresh
  | publishing t =>
    obtain ⟨less, fresh, _, rest⟩ := held.moving sound rfl rfl rfl
    cases pure_ok h
    exact rest.putQueue fresh
  | releasing c =>
    cases pure_ok h
    exact held.released
  | abandoning t =>
    obtain ⟨⟨claimed, lifecycle⟩, claim, h⟩ := bind_ok h
    cases pure_ok h
    have less := sound.known rfl
    rcases Lifecycle.claimCreatedDeparture_updates claim with ⟨rfl, rfl, not⟩ | ⟨thread, entry, rfl, created, updates⟩
    · exact held.abandoned (not t)
    · cases before.created_same less created
      have fresh := held.fresh t less (.inl created)
      have taken := held.updated less updates (.inl rfl)
      exact Held.putOwner (taken.abandoned updates.not_created) rfl fresh
  | departing t cleanup =>
    cases pure_ok h
    obtain ⟨less, fresh, absent, rest⟩ := held.moving sound rfl rfl rfl
    exact rest.request less fresh absent true cleanup
  | finalizing t holds cleanup =>
    obtain ⟨⟨⟨todo, reapable⟩, lifecycle⟩, departed, h⟩ := bind_ok h
    cases pure_ok h
    have rest : Held (some t) w := held.take rfl
    exact ((rest.departed (Lifecycle.threadDeparted_updates departed) (.inr rfl)).resume cleanup).awaitTodo todo
  | picked slot t | onHart slot t =>
    cases pure_ok h
    exact held
  | requeued slot t =>
    obtain ⟨less, fresh, _, rest⟩ := held.moving sound rfl rfl rfl
    rw [World.advance] at h
    split at h
    · cases pure_ok h
      exact rest.putOwner rfl fresh
    · cases pure_ok h
      exact rest.putQueue fresh
  | reaping t =>
    cases pure_ok h
    obtain ⟨less, fresh, absent, rest⟩ := held.moving sound rfl rfl rfl
    exact rest.request less fresh absent false none
  | todo reapable =>
    have rest : Held none w := held.take rfl
    rw [World.advance] at h
    split at h
    · cases pure_ok h
      exact rest
    · cases pure_ok h
      exact rest.putIdle rfl (fun _ _ same => by cases same)
  | cleanup cursor slots =>
    have rest : Held none w := held.take rfl
    rw [World.advance] at h
    split at h
    · split at h
      · rename_i thread lifecycle slot
        cases pure_ok h
        rcases Lifecycle.takeTerminationSlot_updates slot with ⟨_, key, _, ⟨⟩, created, updates⟩ | ⟨not, _⟩
        · obtain ⟨less, rfl⟩ := before.created_at created
          exact rest.takeOver less created updates rfl
        · exact (not thread rfl).elim
      · rename_i taken lifecycle other slot
        cases pure_ok h
        rcases Lifecycle.takeTerminationSlot_updates slot with
          ⟨thread, _, _, same, _⟩ | ⟨_, rfl | ⟨_, _, _, waits, updates⟩⟩
        · exact (other thread same).elim
        · exact rest.putIdle rfl (fun _ _ same => by cases same)
        · exact Held.putIdle (rest.restated waits rfl updates) rfl (fun _ _ same => by cases same)
    · cases pure_ok h
      exact rest

theorem fault_held (h : w.fault call = .ok next) : Held none next := by
  unfold World.fault at h
  split at h
  · rename_i c t
    obtain ⟨⟨⟨thread, reapable⟩, lifecycle⟩, rolled, h⟩ := bind_ok h
    cases pure_ok h
    obtain ⟨_, updates⟩ := Lifecycle.rollbackCreated_ok rolled
    have mine := held.creates _ mem_cons_self c t rfl
    have rest : Held none w := held.take rfl
    have after := rest.departed updates (.inl rfl)
    refine after.setControl (after.control_less mine) (fun t' bound => rest.binds c t' bound) fun t' same created _ => ?_
    -- the control is that of the member that is gone
    cases (rest.paired t' c same).trans (rest.paired t c mine).symm
    exact (updates.not_created created).elim
  · cases pure_ok h
    exact held

theorem onward_held (onward : Onward w call next) : Held none next := by
  rcases onward with rfl | ⟨t, later, lifecycle, todo, ⟨slot, turns⟩, changes, owns, rfl⟩
  · exact held
  obtain ⟨less, fresh, _, rest⟩ : t < w.threads.length ∧ (w.thread t).requested = false ∧ ¬ w.Resident t ∧
      Held (some t) w := by
    rcases turns with rfl | rfl
    · exact held.moving sound rfl rfl rfl
    · exact held.moving sound rfl rfl rfl
  refine Held.awaitTodo ?_ todo
  rcases changes with same | ⟨entry, updates⟩
  · exact (rest.same same).putOwner owns fresh
  · exact (rest.updated less updates (.inr rfl)).putOwner owns fresh

end Moving

theorem proceed_held {index : Nat} {part : World → Pending → Outcome Empty World} (sound : Sound w) (held : Held none w)
    (keeps : ∀ {w next : World} {call}, Sound (w.await call) → Held none (w.await call) → part w call = .ok next →
      Held none next) (h : w.proceed index part = .ok next) : Held none next := by
  unfold World.proceed at h
  split at h
  · rename_i found
    exact keeps (sound.take found) (held.takeAt found) h
  · cases pure_ok h
    exact held

theorem getD_concat {α : Type} (xs : List α) (x default : α) (i : Nat) :
    (xs ++ [x]).getD i default = if i = xs.length then x else xs.getD i default := by
  simp only [getD_eq_getElem?_getD]
  split
  · rename_i last
    simp [last]
  · rename_i other
    rcases Nat.lt_or_gt_of_ne other with less | more
    · rw [getElem?_append_left less]
    · rw [getElem?_eq_none (by simp; omega), getElem?_eq_none (Nat.le_of_lt more)]

theorem thread_created : (w.created key lifecycle).thread t =
    if t = w.threads.length then ⟨key, some w.controls.length, false, false⟩ else w.thread t := getD_concat _ _ _ _

theorem control_created : (w.created key lifecycle).control c =
    if c = w.controls.length then ⟨none, 1, false⟩ else w.control c := getD_concat _ _ _ _

theorem World.Capable.created (capable : w.Capable t) (less : t < w.threads.length) :
    (w.created key lifecycle).Capable t := by
  obtain ⟨c, mine, how⟩ := capable
  refine ⟨c, ?_, ?_⟩
  · rw [thread_created, if_neg (Nat.ne_of_lt less)]
    exact mine
  · rw [control_created]
    split
    · exact .inl Nat.one_pos
    · exact how

theorem create_held (held : Held none w) {build : Lifecycle.Build} {reserves : Bool}
    (h : w.lifecycle.createRunning reserves build = .ok (key, w.threads.length, lifecycle)) :
    Held none ((w.created key lifecycle).await (.staged w.controls.length w.threads.length)) := by
  obtain ⟨_, _, absent, _, _, maps⟩ := Lifecycle.createRunning_ok h
  have length : (w.created key lifecycle).threads.length = w.threads.length + 1 := by simp [World.created]
  -- the index of the new thread had no control before
  have other : ∀ {t c}, (w.thread t).control = some c → t ≠ w.threads.length := by
    rintro t c mine rfl
    rw [World.thread, getD_eq_getElem?_getD, getElem?_eq_none (Nat.le_refl _)] at mine
    cases mine
  have after : Held none (w.created key lifecycle) := by
    refine ⟨?_, ?_, ?_, ?_, ?_, ?_⟩
    · intro key' entry current
      have here := maps key'
      split at here
      · rename_i same
        cases here.symm.trans current
        refine ⟨w.threads.length, by omega, ?_, .inr (.inr ⟨rfl, w.controls.length, ?_, .inl ?_⟩)⟩
        · rw [thread_created, if_pos rfl, same]
        · rw [thread_created, if_pos rfl]
        · rw [control_created, if_pos rfl]
          exact Nat.one_pos
      · obtain ⟨t, less, member, place⟩ := held.held key' entry (here.symm.trans current)
        refine ⟨t, by omega, ?_, place.imp_right fun place => place.imp_right fun created => ?_⟩
        · rw [thread_created, if_neg (Nat.ne_of_lt less)]
          exact member
        · exact ⟨created.1, created.2.created less⟩
    · intro t less resident
      rw [thread_created]
      split
      · rfl
      · rename_i old
        rw [length] at less
        have less' := Nat.lt_of_le_of_ne (Nat.le_of_lt_succ less) old
        refine held.fresh t less' (resident.imp_left fun created => ?_)
        rw [thread_created, if_neg old] at created
        obtain ⟨entry, current, state⟩ := Lifecycle.stateOf_iff.mp created
        have here := maps (w.thread t).member
        split at here
        · cases here.symm.trans current
          cases state
          exact (old rfl).elim
        · rw [Lifecycle.stateOf, ← here]
          exact created
    · rw [length, held.count]
      simp [World.created]
    · intro t c mine
      rw [thread_created] at mine
      split at mine
      · rename_i last
        cases mine
        exact last.trans held.count
      · exact held.paired t c mine
    · intro c t bound
      rw [control_created] at bound
      split at bound
      · cases bound
      · have mine := held.binds c t bound
        rw [thread_created, if_neg (other mine)]
        exact mine
    · intro call inside c t makes
      have mine := held.creates call inside c t makes
      rw [thread_created, if_neg (other mine)]
      exact mine
  refine after.putIdle rfl ?_
  rintro _ _ ⟨⟩
  rw [thread_created, if_pos rfl]

theorem reachable_less (visible : w.reachable c = true) : c < w.controls.length := by
  by_contra outside
  rw [World.reachable, World.control, getD_eq_getElem?_getD, getElem?_eq_none (Nat.le_of_not_lt outside)]
    at visible
  cases visible

theorem close_held (held : Held none w) (visible : w.reachable c = true)
    (bound : (w.control c).capabilities = 1 → (w.control c).thread ≠ none) :
    let next := w.setControl c { w.control c with capabilities := (w.control c).capabilities - 1 }
    Held none (if (w.control c).capabilities = 1 then next.await (.releasing c) else next) := by
  have less := reachable_less visible
  intro next
  split
  · rename_i last
    have waits : Held none (w.await (.releasing c)) := held.putIdle rfl nofun
    refine waits.setControl less (fun t' same => held.binds c t' same) fun t' mine _ _ => ?_
    -- the thread of the control is bound, so its release finds it
    obtain ⟨t, there⟩ := Option.ne_none_iff_exists'.mp (bound last)
    cases (held.paired t' c mine).trans (held.paired t c (held.binds c t there)).symm
    refine ⟨c, mine, .inr (.inl ⟨mem_cons_self, ?_⟩)⟩
    rw [control_setControl (w := w.await (.releasing c)) less, if_pos rfl]
    exact there
  · rename_i more
    refine held.setControl less (fun t' same => held.binds c t' same) fun t' mine _ capable => ?_
    refine capable.setControl less mine (fun some_ => ?_) id
    show 0 < (w.control c).capabilities - 1
    omega

theorem Held.picked (held : Held none w) {queue : List ThreadRef} {slot : HartSlot} (head : w.queue = t :: queue) :
    Held none ({ w with queue }.await (.picked slot t)) := by
  refine { held with held := ?_, fresh := ?_, creates := forall_mem_cons.mpr ⟨nofun, held.creates⟩ }
  · intro key entry current
    obtain ⟨t', less, member, place⟩ := held.held key entry current
    refine ⟨t', less, member, place.imp (fun owned => ?_) fun place => place.imp_right fun created => ?_⟩
    · refine mem_owned_await.mpr ?_
      rw [World.owned, head] at owned
      rcases mem_cons.mp owned with rfl | owned
      · exact .inl rfl
      · exact .inr owned
    · obtain ⟨state, c, mine, how⟩ := created
      exact ⟨state, World.Capable.await ⟨c, mine, how⟩⟩
  · intro t' less resident
    refine held.fresh t' less ?_
    rcases resident with created | queued | ⟨call, inside, owns, pending⟩
    · exact .inl created
    · exact .inr (.inl (head ▸ mem_cons_of_mem _ queued))
    · rcases mem_cons.mp inside with rfl | inside
      · cases owns
        exact .inr (.inl (head ▸ mem_cons_self))
      · exact .inr (.inr ⟨call, inside, owns, pending⟩)

theorem step_held {event : Event} (sound : Sound w) (held : Held none w) (orderly : Orderly w event)
    (h : step w event = .ok next) : Held none next := by
  cases event with
  | create reserves builds =>
    rcases settle_ok h with ⟨⟨key, thread, lifecycle⟩, made, rfl⟩ | ⟨_, _, rfl⟩
    · cases create_thread made
      exact create_held held made
    · exact held
  | duplicate c =>
    rw [step] at h
    split at h
    · rename_i visible
      obtain ⟨count, more, h⟩ := bind_ok h
      cases pure_ok h
      have less := reachable_less visible
      refine held.setControl less (fun t' same => held.binds c t' same) fun t' mine _ capable => ?_
      refine capable.setControl less mine (fun some_ => ?_) id
      obtain ⟨rfl, _⟩ := checkedAdd_some (expect_ok more)
      exact Nat.succ_pos _
    · cases pure_ok h
      exact held
  | close c =>
    rw [step] at h
    split at h
    · rename_i visible
      cases pure_ok h
      exact close_held held visible (orderly visible)
    · cases pure_ok h
      exact held
  | resolve c =>
    cases pure_ok h
    split
    · exact held.putIdle rfl (fun _ _ same => by cases same)
    · exact held
  | pick slot =>
    rw [step] at h
    split at h
    · rename_i t queue head
      split at h
      · cases pure_ok h
        exact held
      · cases pure_ok h
        exact held.picked head
    · cases pure_ok h
      exact held
  | terminate cause detail =>
    obtain ⟨⟨todo, lifecycle⟩, requested, h⟩ := bind_ok h
    cases pure_ok h
    exact (held.same (Lifecycle.requestTermination_changes requested)).awaitTodo (some todo)
  | advance index =>
    rw [step, World.proceed] at h
    split at h
    · rename_i call found
      refine advance_held (sound.take found) (held.takeAt found) (fun t same => ?_) h
      subst same
      have batch : (w.thread t).readyBatch = true := by simpa only [Orderly, found] using orderly
      exact batch
    · cases pure_ok h
      exact held
  | fault index => exact proceed_held sound held fault_held h
  | enter index synchronized => exact proceed_held sound held (fun sound held h => onward_held sound held (enter_onward h)) h
  | requeue index synchronized => exact proceed_held sound held (fun sound held h => onward_held sound held (requeue_onward h)) h
  | exit index synchronized => exact proceed_held sound held (fun sound held h => onward_held sound held (exit_onward h)) h
  | endProcess index cause detail => exact proceed_held sound held (fun sound held h => onward_held sound held (endProcess_onward h)) h

theorem initial_held : Held none initial where
  held := by
    intro key entry current
    obtain ⟨retired, found, same⟩ := entryOf_some.mp current
    have first : key.slot = 0 := Nat.lt_one_iff.mp (List.getElem?_eq_some_iff.mp found).1
    rw [first] at found
    obtain ⟨slot, generation, tid⟩ := key
    cases first
    cases found
    cases same
    exact ⟨0, Nat.one_pos, rfl, .inl mem_cons_self⟩
  fresh := by
    intro t less _
    cases Nat.lt_one_iff.mp less
    rfl
  count := rfl
  paired := by
    intro t c mine
    cases t with
    | zero | succ t => cases mine
  binds := nofun
  creates := nofun

end

def World.Quiet (w : World) : Prop := ∀ call ∈ w.pending, call.hart ≠ none

instance (w : World) : Decidable w.Quiet := inferInstanceAs (Decidable (∀ call ∈ w.pending, call.hart ≠ none))

def World.OnHart (w : World) (t : ThreadRef) : Prop := ∃ call ∈ w.pending, call.hart ≠ none ∧ call.owner = some t

/-- A ready member is in the queue or on a hart, and a created one has a capability left. -/
structure World.Unstranded (w : World) : Prop where
  ready : ∀ key, w.lifecycle.stateOf key = some .ready → ∃ t, (w.thread t).member = key ∧ (t ∈ w.queue ∨ w.OnHart t)
  created : ∀ key t, w.lifecycle.stateOf key = some (.created t) →
    ∃ c, (w.thread t).control = some c ∧ 0 < (w.control c).capabilities

theorem Held.unstranded {w : World} (sound : Sound w) (held : Held none w) (quiet : w.Quiet) : w.Unstranded where
  ready := by
    intro key state
    obtain ⟨entry, current, ready⟩ := Lifecycle.stateOf_iff.mp state
    obtain ⟨t, _, member, owned | none_ | ⟨created, _⟩⟩ := held.held key entry current
    · refine ⟨t, member, ?_⟩
      rcases mem_append.mp owned with queued | waits
      · exact .inl queued
      · obtain ⟨call, inside, owns⟩ := mem_filterMap.mp waits
        exact .inr ⟨call, inside, quiet call inside, owns⟩
    · cases none_
    · cases ready.symm.trans created
  created := by
    intro key t state
    obtain ⟨entry, current, created⟩ := Lifecycle.stateOf_iff.mp state
    obtain ⟨less, mine⟩ := sound.created key entry t current created
    obtain ⟨t', less', member, place⟩ := held.held key entry current
    cases sound.member_inj less' less (member.trans mine.symm)
    rcases place with owned | none_ | ⟨_, c, control, has | ⟨inside, _⟩ | inside⟩
    · exact ((sound.created_free less (mine.symm ▸ state)).2 owned).elim
    · cases none_
    · exact ⟨c, control, has⟩
    · exact (quiet _ inside rfl).elim
    · exact (quiet _ inside rfl).elim

theorem run_unstranded {events : List Event} {w : World} (orderly : RunMeets step Orderly initial events)
    (h : runEvents step initial events = .ok w) (quiet : w.Quiet) : w.Unstranded := by
  have kept : Sound w ∧ Held none w := by
    refine run_invariant_of_meets (I := fun w => Sound w ∧ Held none w) ?_ ⟨initial_sound, initial_held⟩ orderly h
    intro before event after both orderly taken
    exact ⟨step_sound both.1 taken, step_held both.1 both.2 orderly taken⟩
  exact kept.2.unstranded kept.1 quiet

/-- The thread in the queue is the second one; the first has made it and started it. -/
def startedInOrder : List Event :=
  [.pick 0, .enter 0 true, .create true true, .advance 0, .advance 0, .advance 0, .advance 0, .resolve 0, .advance 0,
    .advance 0, .advance 0, .advance 0]

theorem run_unstranded_started : ∃ w, runEvents step initial startedInOrder = .ok w ∧ w.Unstranded := by
  obtain ⟨w, run, test⟩ := returnsWith_ok (runEvents step initial startedInOrder) (fun w => decide w.Quiet)
    (by decide +kernel)
  exact ⟨w, run, run_unstranded (by decide +kernel) run (of_decide_eq_true test)⟩

/-- A third thread is made, and its handle is closed after the table has it and before its control is bound. -/
def closedBeforeBound : List Event := twoThreads ++
  [.create true true, .advance 0, .close 1, .advance 0, .advance 0, .advance 0, .advance 0]

/-- A third thread is made, and it is started after it is bound and before its batch is installed. -/
def startedBeforeInstalled : List Event := twoThreads ++
  [.create true true, .advance 0, .advance 0, .resolve 1, .advance 0, .advance 0, .advance 0, .advance 0, .advance 0]

theorem threads_stranded : (∃ w, runEvents step initial closedBeforeBound = .ok w ∧ w.Quiet ∧ ¬ w.Unstranded) ∧
      ∃ w, runEvents step initial startedBeforeInstalled = .ok w ∧ w.Quiet ∧ ¬ w.Unstranded := by
  constructor
  · obtain ⟨w, run, test⟩ := returnsWith_ok (runEvents step initial closedBeforeBound)
      (fun w => decide (w.Quiet ∧ w.lifecycle.stateOf ⟨2, 1, 3⟩ = some (.created 2) ∧ (w.thread 2).control = some 1 ∧
        (w.control 1).capabilities = 0)) (by decide +kernel)
    obtain ⟨quiet, created, control, closed⟩ := of_decide_eq_true test
    refine ⟨w, run, quiet, fun good => ?_⟩
    obtain ⟨c, mine, some_⟩ := good.created ⟨2, 1, 3⟩ 2 created
    cases control.symm.trans mine
    exact Nat.ne_of_gt some_ closed
  · obtain ⟨w, run, test⟩ := returnsWith_ok (runEvents step initial startedBeforeInstalled)
      (fun w => decide (w.Quiet ∧ w.lifecycle.stateOf ⟨2, 1, 3⟩ = some .ready ∧ w.queue = [] ∧
        ∀ call ∈ w.pending, ∀ t ∈ call.owner, (w.thread t).member ≠ ⟨2, 1, 3⟩)) (by decide +kernel)
    obtain ⟨quiet, ready, empty, others⟩ := of_decide_eq_true test
    refine ⟨w, run, quiet, fun good => ?_⟩
    obtain ⟨t, member, queued | ⟨call, inside, _, owns⟩⟩ := good.ready ⟨2, 1, 3⟩ ready
    · rw [empty] at queued
      cases queued
    · exact others call inside t owns member

end Halcyon.Threads
