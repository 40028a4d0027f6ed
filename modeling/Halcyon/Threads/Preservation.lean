import Halcyon.Threads.Owners

/-!
Every section of every call keeps the owners apart, so they are apart in every run.
-/

namespace Halcyon.Threads

open List

open Tasks Threads.World

section
variable {w next : World} {t : ThreadRef} {c : Nat} {call : Pending}

theorem count_await : (w.await call).owned.count t = w.owned.count t + if call.owner = some t then 1 else 0 := by
  simp only [owned, await, count_append, filterMap_cons]
  cases owner : call.owner with
  | none => simp
  | some thread =>
    rw [count_cons]
    simp only [beq_iff_eq, Option.some.injEq]
    omega

theorem Sound.drop (sound : Sound (w.await call)) : Sound w := by
  refine sound.moved (fun other inside => sound.calls other (mem_cons_of_mem _ inside)) sound.queued sound.bound ?_
  intro t
  rw [count_await]
  exact Nat.le_add_right _ _

theorem Sound.known (sound : Sound (w.await call)) (h : call.thread = some t) : t < w.threads.length :=
  sound.calls call mem_cons_self t h

theorem Sound.moving (sound : Sound (w.await call)) (owns : call.owner = some t) :
    t < w.threads.length ∧ t ∉ w.owned ∧ w.Started t := by
  have count := nodup_iff_count_le_one.mp sound.single t
  rw [count_await, if_pos owns] at count
  refine ⟨sound.known (Pending.owner_thread owns), count_eq_zero.mp (by omega), ?_⟩
  refine sound.member t (count_pos_iff.mp ?_)
  rw [count_await, if_pos owns]
  omega

section

variable (sound : Sound w)
include sound

theorem Sound.await (known : ∀ t, call.thread = some t → t < w.threads.length)
    (owns : ∀ t, call.owner = some t → t ∉ w.owned ∧ w.Started t) : Sound (w.await call) := by
  refine { sound with calls := forall_mem_cons.mpr ⟨known, sound.calls⟩, single := ?_, member := ?_ }
  · refine nodup_iff_count_le_one.mpr fun t => ?_
    have before := nodup_iff_count_le_one.mp sound.single t
    rw [count_await]
    split
    · rename_i owner
      rw [count_eq_zero.mpr (owns t owner).1]
    · omega
  · intro t inside
    have count := count_pos_iff.mpr inside
    rw [count_await] at count
    split at count
    · rename_i owner
      exact (owns t owner).2
    · exact sound.member t (count_pos_iff.mp count)

theorem Sound.awaitIdle (idle : call.owner = none)
    (known : ∀ t, call.thread = some t → t < w.threads.length) : Sound (w.await call) :=
  sound.await known fun t owns => by
    rw [idle] at owns
    cases owns

theorem Sound.keep (known : t < w.threads.length) (free : t ∉ w.owned) (held : w.Started t)
    (mentions : call.thread = some t) : Sound (w.await call) := by
  refine sound.await (fun t' same => ?_) fun t' owns => ?_
  · cases mentions.symm.trans same
    exact known
  · cases mentions.symm.trans (Pending.owner_thread owns)
    exact ⟨free, held⟩

theorem Sound.enqueue (known : t < w.threads.length) (free : t ∉ w.owned) (held : w.Started t) :
    Sound { w with queue := w.queue ++ [t] } := by
  -- the same owners as those of a call that moves the thread
  have moving : Sound (w.await (.publishing t)) := sound.keep known free held rfl
  refine moving.moved (fun call inside => sound.calls call inside) ?_ sound.bound fun t' => ?_
  · exact forall_mem_concat sound.queued known
  · rw [count_await]
    simp only [owned, count_append, count_singleton, Pending.owner, beq_iff_eq, Option.some.injEq]
    omega

theorem Sound.control_bound (h : (w.control c).thread = some t) : t < w.threads.length := by
  unfold World.control at h
  rw [getD_eq_getElem?_getD] at h
  cases found : w.controls[c]? with
  | none =>
    rw [found] at h
    cases h
  | some control =>
    rw [found] at h
    exact sound.bound control (mem_of_getElem? found) t h

theorem Sound.setControl {control : Control}
    (known : ∀ t, control.thread = some t → t < w.threads.length) : Sound (w.setControl c control) := by
  refine sound.moved sound.calls sound.queued (fun other inside t bound => ?_) fun t => Nat.le_refl _
  rcases mem_or_eq_of_mem_set inside with inside | rfl
  · exact sound.bound other inside t bound
  · exact known t bound

end

theorem upgrade_bound (h : w.upgrade c = some t) : (w.control c).thread = some t := (Option.filter_eq_some_iff.mp h).1

theorem Sound.resume (sound : Sound w) (cleanup : Option (Nat × Nat)) : Sound (w.resume cleanup) := by
  cases cleanup with
  | none => exact sound
  | some place => exact sound.awaitIdle rfl nofun

theorem Sound.awaitTodo (sound : Sound w) (todo : Option TerminationTodo) : Sound (w.awaitTodo todo) := by
  unfold World.awaitTodo
  split
  · split
    · exact sound.awaitIdle rfl nofun
    · exact sound
  · exact sound

theorem Sound.setMoving (sound : Sound w) {thread : Thread} (known : t < w.threads.length) (free : t ∉ w.owned)
    (held : w.Started t) (same : thread.member = (w.thread t).member) (mentions : call.thread = some t) :
    Sound ((w.setThread t thread).await call) := by
  refine (sound.setThread same).keep (by simpa [World.setThread] using known) free ?_ mentions
  rw [World.Started, World.thread_eq (by simpa [World.setThread] using known)]
  simpa [World.setThread, same, World.Started] using held

theorem Sound.request (sound : Sound w) (known : t < w.threads.length) (free : t ∉ w.owned) (held : w.Started t)
    (holds : Bool) (cleanup : Option (Nat × Nat)) : Sound (w.request t holds cleanup) := by
  unfold World.request
  split
  · exact sound.resume cleanup
  · exact Sound.setMoving sound known free held rfl rfl

variable {lifecycle : Lifecycle} {synchronized : Bool}

theorem Sound.takeOver (sound : Sound w) {thread : ThreadRef} {entry : MemberEntry}
    (known : t < w.threads.length) (created : w.lifecycle.stateOf (w.thread t).member = some (.created thread))
    (updates : Updates w.lifecycle lifecycle (w.thread t).member (some entry)) (mentions : call.thread = some t) :
    Sound ({ w with lifecycle }.await call) := by
  refine (sound.updated updates).keep known (sound.created_free known created).2 ⟨entry, ?_, ?_⟩ mentions
  · exact (updates.maps _).trans (if_pos rfl)
  · exact updates.started entry rfl

def Pending.Turns (call : Pending) (t : ThreadRef) : Prop := ∃ slot, call = .picked slot t ∨ call = .onHart slot t

theorem Pending.Turns.owner (turns : call.Turns t) : call.owner = some t := by
  obtain ⟨slot, rfl | rfl⟩ := turns
  · rfl
  · rfl

/-- The loop has changed the member of its thread and goes on, or it waits. -/
def Onward (w : World) (call : Pending) (next : World) : Prop :=
  next = w.await call ∨ ∃ t later lifecycle todo, call.Turns t ∧ Changes w.lifecycle lifecycle (w.thread t).member ∧
    later.owner = some t ∧ next = ({ w with lifecycle }.await later).awaitTodo todo

variable {cause : TerminationCause} {detail : TerminationDetail}

theorem enter_onward (h : w.enter synchronized call = .ok next) : Onward w call next := by
  unfold World.enter at h
  split at h
  · rename_i slot t
    obtain ⟨⟨result, lifecycle⟩, entered, h⟩ := bind_ok h
    cases pure_ok h
    have changes := Lifecycle.enterRunningIf_changes entered
    cases result with
    | entered => exact .inr ⟨t, .onHart slot t, lifecycle, none, ⟨slot, .inl rfl⟩, changes, rfl, rfl⟩
    | retry => exact .inr ⟨t, .picked slot t, lifecycle, none, ⟨slot, .inl rfl⟩, changes, rfl, rfl⟩
    | closed => exact .inr ⟨t, .reaping t, lifecycle, none, ⟨slot, .inl rfl⟩, changes, rfl, rfl⟩
  · exact .inl (pure_ok h)

theorem requeue_onward (h : w.requeue synchronized call = .ok next) : Onward w call next := by
  unfold World.requeue at h
  split at h
  · rename_i slot t
    obtain ⟨⟨left, lifecycle⟩, requeued, h⟩ := bind_ok h
    refine .inr ⟨t, _, lifecycle, none, ⟨slot, .inr rfl⟩, Lifecycle.onRequeueIf_changes requeued, ?_, pure_ok h⟩
    cases left <;> rfl
  · exact .inl (pure_ok h)

theorem exit_onward (h : w.exit synchronized call = .ok next) : Onward w call next := by
  unfold World.exit at h
  split at h
  · rename_i slot t
    obtain ⟨⟨left, lifecycle⟩, cleared, h⟩ := bind_ok h
    refine .inr ⟨t, _, lifecycle, none, ⟨slot, .inr rfl⟩, Lifecycle.clearActiveIf_changes cleared, ?_, pure_ok h⟩
    cases left <;> rfl
  · exact .inl (pure_ok h)

theorem endProcess_onward (h : w.endProcess cause detail call = .ok next) : Onward w call next := by
  unfold World.endProcess at h
  split at h
  · rename_i slot t
    obtain ⟨⟨todo, lifecycle⟩, requested, h⟩ := bind_ok h
    have changes := Lifecycle.requestTermination_changes requested
    exact .inr ⟨t, .onHart slot t, lifecycle, some todo, ⟨slot, .inr rfl⟩, changes, rfl, pure_ok h⟩
  · exact .inl (pure_ok h)

section Moving

variable (sound : Sound (w.await call))
include sound

theorem advance_sound (h : w.advance call = .ok next) : Sound next := by
  have before := sound.drop
  cases call with
  | staged c t =>
    cases pure_ok h
    refine Sound.awaitIdle (before.setControl fun _ bound => ?_) rfl fun _ same => ?_
    · exact before.control_bound (c := c) bound
    · exact sound.known same
  | published c t =>
    cases pure_ok h
    refine Sound.awaitIdle (before.setControl fun _ bound => ?_) rfl fun _ same => ?_
    · exact sound.known bound
    · exact sound.known same
  | bound t =>
    obtain ⟨_, _, h⟩ := bind_ok h
    cases pure_ok h
    refine Sound.awaitIdle (before.setThread rfl) rfl fun _ same => ?_
    simpa [World.setThread] using sound.known same
  | installed t =>
    cases pure_ok h
    exact before
  | resolved c | releasing c =>
    cases pure_ok h
    split
    · rename_i found
      refine before.awaitIdle rfl fun _ same => ?_
      cases same
      exact before.control_bound (upgrade_bound found)
    · exact before
  | upgraded t =>
    rcases settle_ok h with ⟨⟨thread, lifecycle⟩, started, rfl⟩ | ⟨_, _, rfl⟩
    · obtain ⟨created, entry, updates⟩ := Lifecycle.startCreated_ok started
      exact before.takeOver (sound.known rfl) created updates rfl
    · exact before
  | started t =>
    obtain ⟨known, free, held⟩ := sound.moving rfl
    rw [World.advance] at h
    split at h
    · cases pure_ok h
      exact Sound.setMoving before known free held rfl rfl
    · cases pure_ok h
      exact before
  | publishing t =>
    cases pure_ok h
    obtain ⟨known, free, held⟩ := sound.moving rfl
    exact before.enqueue known free held
  | abandoning t =>
    obtain ⟨⟨claimed, lifecycle⟩, claim, h⟩ := bind_ok h
    cases pure_ok h
    rcases Lifecycle.claimCreatedDeparture_updates claim with ⟨rfl, rfl, _⟩ | ⟨thread, entry, rfl, created, updates⟩
    · exact before
    · exact before.takeOver (sound.known rfl) created updates rfl
  | departing t cleanup =>
    cases pure_ok h
    obtain ⟨known, free, held⟩ := sound.moving rfl
    exact before.request known free held true cleanup
  | finalizing t holds cleanup =>
    obtain ⟨⟨⟨todo, reapable⟩, lifecycle⟩, departed, h⟩ := bind_ok h
    cases pure_ok h
    obtain ⟨known, free, _⟩ := sound.moving rfl
    exact ((before.departed known free (Lifecycle.threadDeparted_updates departed)).resume cleanup).awaitTodo todo
  | picked slot t | onHart slot t =>
    cases pure_ok h
    exact sound
  | requeued slot t =>
    obtain ⟨known, free, held⟩ := sound.moving rfl
    rw [World.advance] at h
    split at h
    · cases pure_ok h
      exact before.keep known free held rfl
    · cases pure_ok h
      exact before.enqueue known free held
  | reaping t =>
    cases pure_ok h
    obtain ⟨known, free, held⟩ := sound.moving rfl
    exact before.request known free held false none
  | todo reapable =>
    rw [World.advance] at h
    split at h
    · cases pure_ok h
      exact before
    · cases pure_ok h
      exact before.awaitIdle rfl (fun _ same => by cases same)
  | cleanup cursor slots =>
    rw [World.advance] at h
    split at h
    · split at h
      · rename_i thread lifecycle slot
        cases pure_ok h
        rcases Lifecycle.takeTerminationSlot_updates slot with ⟨_, key, _, ⟨⟩, created, updates⟩ | ⟨not, _⟩
        · obtain ⟨known, rfl⟩ := before.created_at created
          exact before.takeOver known created updates rfl
        · exact (not thread rfl).elim
      · rename_i taken lifecycle other slot
        cases pure_ok h
        rcases Lifecycle.takeTerminationSlot_updates slot with ⟨thread, _, _, same, _⟩ | ⟨_, rfl | ⟨_, _, _, _, updates⟩⟩
        · exact (other thread same).elim
        · exact before.awaitIdle rfl (fun _ same => by cases same)
        · exact (before.updated updates).awaitIdle rfl (fun _ same => by cases same)
    · cases pure_ok h
      exact before

theorem fault_sound (h : w.fault call = .ok next) : Sound next := by
  unfold World.fault at h
  split at h
  · rename_i c t
    obtain ⟨⟨⟨thread, reapable⟩, lifecycle⟩, rolled, h⟩ := bind_ok h
    cases pure_ok h
    obtain ⟨created, updates⟩ := Lifecycle.rollbackCreated_ok rolled
    have before := sound.drop
    have known := sound.known (t := t) rfl
    have after := before.departed known (before.created_free known created).2 updates
    exact after.setControl fun _ bound => after.control_bound bound
  · cases pure_ok h
    exact sound

theorem onward_sound (onward : Onward w call next) : Sound next := by
  rcases onward with rfl | ⟨t, later, lifecycle, todo, turns, changes, owns, rfl⟩
  · exact sound
  obtain ⟨known, free, held⟩ := sound.moving turns.owner
  have mentions := Pending.owner_thread owns
  refine Sound.awaitTodo ?_ todo
  rcases changes with same | ⟨entry, updates⟩
  · refine (sound.drop.same same).keep known free ?_ mentions
    show ∃ entry, entryOf lifecycle.members _ = some entry ∧ _
    rw [same.members]
    exact held
  · refine (sound.drop.updated updates).keep known free ⟨entry, ?_, updates.started entry rfl⟩ mentions
    exact (updates.maps _).trans (if_pos rfl)

end Moving

theorem Sound.take (sound : Sound w) {index : Nat} (found : w.pending[index]? = some call) :
    Sound ({ w with pending := w.pending.eraseIdx index }.await call) := by
  obtain ⟨inside, rfl⟩ := List.getElem?_eq_some_iff.mp found
  have calls := getElem_cons_eraseIdx_perm inside
  refine sound.moved (fun other there => sound.calls other (calls.subset there)) sound.queued sound.bound fun t => ?_
  exact Nat.le_of_eq (((calls.filterMap Pending.owner).append_left w.queue).count_eq t)

theorem proceed_sound {index : Nat} {part : World → Pending → Outcome Empty World} (sound : Sound w)
    (keeps : ∀ {w next call}, Sound (w.await call) → part w call = .ok next → Sound next)
    (h : w.proceed index part = .ok next) : Sound next := by
  unfold World.proceed at h
  split at h
  · rename_i found
    exact keeps (sound.take found) h
  · cases pure_ok h
    exact sound

theorem create_thread {reserves builds : Bool} {key : MemberKey} {thread : ThreadRef}
    (h : w.lifecycle.createRunning reserves (fun _ _ => if builds then .ok w.threads.length else fail .oom) =
      .ok (key, thread, lifecycle)) : thread = w.threads.length := by
  obtain ⟨_, _, _, _, built, _⟩ := Lifecycle.createRunning_ok h
  cases builds with
  | true => exact (Except.ok.inj built).symm
  | false => cases built

theorem create_sound (sound : Sound w) {key : MemberKey} {build : Lifecycle.Build} {reserves : Bool}
    (h : w.lifecycle.createRunning reserves build = .ok (key, w.threads.length, lifecycle)) :
    Sound ((w.created key lifecycle).await (.staged w.controls.length w.threads.length)) := by
  obtain ⟨tid, nextTid, absent, counted, _, maps⟩ := Lifecycle.createRunning_ok h
  have old : ∀ {t}, t < w.threads.length → (w.created key lifecycle).thread t = w.thread t := by
    intro t less
    simp [World.thread, World.created, getElem?_append_left less]
  have new : ((w.created key lifecycle).thread w.threads.length).member = key := by
    simp [World.thread, World.created]
  have length : (w.created key lifecycle).threads.length = w.threads.length + 1 := by simp [World.created]
  have after : Sound (w.created key lifecycle) := by
    refine ⟨counted sound.counted, ?_, ?_, ?_, ?_, ?_, ?_, sound.single, ?_⟩
    · intro other inside
      show other.tid < lifecycle.nextTid
      rw [nextTid]
      simp only [World.created, map_append, mem_append, map_singleton, mem_singleton] at inside
      rcases inside with inside | rfl
      · exact Nat.lt_succ_of_lt (sound.numbered other inside)
      · exact Nat.lt_succ_of_le (Nat.le_of_eq tid)
    · refine nodup_map_concat sound.distinct fun thread inside same => ?_
      have below := sound.numbered _ (mem_map_of_mem inside)
      rw [same, tid] at below
      exact Nat.lt_irrefl _ below
    · intro other entry t held state
      rw [length]
      have here := maps other
      split at here
      · rename_i same
        cases here.symm.trans held
        cases state
        exact ⟨Nat.lt_succ_self _, new.trans same.symm⟩
      · obtain ⟨less, member⟩ := sound.created other entry t (here.symm.trans held) state
        exact ⟨Nat.lt_succ_of_lt less, by rw [old less]; exact member⟩
    · intro call inside t mentions
      rw [length]
      exact Nat.lt_succ_of_lt (sound.calls call inside t mentions)
    · intro t inside
      rw [length]
      exact Nat.lt_succ_of_lt (sound.queued t inside)
    · rw [length]
      refine forall_mem_concat (fun control inside t bound => ?_) fun t bound => ?_
      · exact Nat.lt_succ_of_lt (sound.bound control inside t bound)
      · cases bound
    · intro t inside
      have less := sound.owned_less inside
      obtain ⟨entry, held, started⟩ := sound.member t inside
      rw [World.Started, old less]
      refine ⟨entry, (maps _).trans ((if_neg fun same => ?_).trans held), started⟩
      rw [same, absent] at held
      cases held
  refine after.awaitIdle rfl fun t mentions => ?_
  cases mentions
  rw [length]
  exact Nat.lt_succ_self _

theorem step_sound {event : Event} (sound : Sound w) (h : step w event = .ok next) : Sound next := by
  cases event with
  | create reserves builds =>
    rcases settle_ok h with ⟨⟨key, thread, lifecycle⟩, made, rfl⟩ | ⟨_, _, rfl⟩
    · cases create_thread made
      exact create_sound sound made
    · exact sound
  | duplicate c =>
    rw [step] at h
    split at h
    · obtain ⟨count, _, h⟩ := bind_ok h
      cases pure_ok h
      exact sound.setControl fun _ bound => sound.control_bound bound
    · cases pure_ok h
      exact sound
  | close c =>
    rw [step] at h
    split at h
    · cases pure_ok h
      have after : Sound (w.setControl c { w.control c with capabilities := (w.control c).capabilities - 1 }) :=
        sound.setControl fun _ bound => sound.control_bound bound
      split
      · exact after.awaitIdle rfl nofun
      · exact after
    · cases pure_ok h
      exact sound
  | resolve c =>
    cases pure_ok h
    split
    · exact sound.awaitIdle rfl nofun
    · exact sound
  | pick slot =>
    rw [step] at h
    split at h
    · rename_i t queue head
      split at h
      · cases pure_ok h
        exact sound
      · cases pure_ok h
        refine sound.moved (forall_mem_cons.mpr ⟨fun t' mentions => ?_, sound.calls⟩)
          (fun t' inside => sound.queued t' (head ▸ mem_cons_of_mem _ inside)) sound.bound fun t' => ?_
        · cases mentions
          exact sound.queued t (head ▸ mem_cons_self)
        · simp only [owned, head, filterMap_cons, Pending.owner, count_append, count_cons]
          omega
    · cases pure_ok h
      exact sound
  | terminate cause detail =>
    obtain ⟨⟨todo, lifecycle⟩, requested, h⟩ := bind_ok h
    cases pure_ok h
    exact Sound.awaitTodo (sound.same (Lifecycle.requestTermination_changes requested)) (some todo)
  | advance index => exact proceed_sound sound advance_sound h
  | fault index => exact proceed_sound sound fault_sound h
  | enter index synchronized => exact proceed_sound sound (fun sound h => onward_sound sound (enter_onward h)) h
  | requeue index synchronized => exact proceed_sound sound (fun sound h => onward_sound sound (requeue_onward h)) h
  | exit index synchronized => exact proceed_sound sound (fun sound h => onward_sound sound (exit_onward h)) h
  | endProcess index cause detail => exact proceed_sound sound (fun sound h => onward_sound sound (endProcess_onward h)) h

theorem initial_sound : Sound initial where
  counted := rfl
  numbered := by decide
  distinct := by decide
  created := by
    intro key entry t held state
    obtain ⟨retired, found, _⟩ := entryOf_some.mp held
    have only := mem_singleton.mp (mem_of_getElem? found)
    injection only with _ _ same
    cases same
    cases state
  calls := nofun
  queued := by decide
  bound := nofun
  single := by decide
  member := by
    intro t inside
    cases mem_singleton.mp inside
    exact ⟨⟨1, .ready⟩, rfl, rfl⟩

theorem run_sound {events : List Event} (h : runEvents step initial events = .ok w) : Sound w :=
  run_invariant (fun _ _ _ sound h => step_sound sound h) initial_sound h

end

end Halcyon.Threads
