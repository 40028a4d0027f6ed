import Halcyon.Threads.Preservation

/-!
Who takes care of the members: a member has an owner that will move it on, or it is created and can be reached through
its control. A call in progress may have its thread in hand.
-/

namespace Halcyon.Threads

open List

open Tasks Threads.World

/-- The thread and the control that a `create` in progress makes. -/
def Pending.makes : Pending → Option (Nat × ThreadRef)
  | .staged c t | .published c t => some (c, t)
  | _ => none

def Pending.final : Pending → Bool
  | .finalizing .. => true
  | _ => false

/-- A created thread can be started or abandoned: its control has a capability, or its last one is being released. -/
def World.Capable (w : World) (t : ThreadRef) : Prop :=
  ∃ c, (w.thread t).control = some c ∧ (0 < (w.control c).capabilities ∨
    .releasing c ∈ w.pending ∧ (w.control c).thread = some t ∨ .abandoning t ∈ w.pending)

def World.Resident (w : World) (t : ThreadRef) : Prop :=
  w.lifecycle.stateOf (w.thread t).member = some (.created t) ∨ t ∈ w.queue ∨
    ∃ call ∈ w.pending, call.owner = some t ∧ call.final = false

/-- Every member is taken care of; `hand` is the thread between two sections of a call. -/
structure Held (hand : Option ThreadRef) (w : World) : Prop where
  held : ∀ key entry, entryOf w.lifecycle.members key = some entry → ∃ t, t < w.threads.length ∧
    (w.thread t).member = key ∧ (t ∈ w.owned ∨ hand = some t ∨ entry.state = .created t ∧ w.Capable t)
  fresh : ∀ t, t < w.threads.length → w.Resident t → (w.thread t).requested = false
  count : w.threads.length = w.controls.length + 1
  paired : ∀ t c, (w.thread t).control = some c → t = c + 1
  binds : ∀ c t, (w.control c).thread = some t → (w.thread t).control = some c
  creates : ∀ call ∈ w.pending, ∀ c t, call.makes = some (c, t) → (w.thread t).control = some c

section
variable {w next : World} {t : ThreadRef} {c : Nat} {call : Pending} {hand : Option ThreadRef}

theorem mem_owned_await : t ∈ (w.await call).owned ↔ call.owner = some t ∨ t ∈ w.owned := by
  rw [← count_pos_iff, count_await, ← count_pos_iff]
  split
  · rename_i owns
    simp [owns]
  · rename_i other
    simp [other]

def Pending.abandons : Pending → Bool
  | .releasing _ | .abandoning _ => true
  | _ => false

/-- A call in progress is what makes the thread capable, or it is not needed for it. -/
theorem World.Capable.cases (capable : (w.await call).Capable t) : w.Capable t ∨ ∃ c, (w.thread t).control = some c ∧
      (call = .releasing c ∧ (w.control c).thread = some t ∨ call = .abandoning t) := by
  obtain ⟨c, control, has | ⟨inside, bound⟩ | inside⟩ := capable
  · exact .inl ⟨c, control, .inl has⟩
  · rcases mem_cons.mp inside with same | inside
    · exact .inr ⟨c, control, .inl ⟨same.symm, bound⟩⟩
    · exact .inl ⟨c, control, .inr (.inl ⟨inside, bound⟩)⟩
  · rcases mem_cons.mp inside with same | inside
    · exact .inr ⟨c, control, .inr same.symm⟩
    · exact .inl ⟨c, control, .inr (.inr inside)⟩

theorem World.Capable.drop (idle : call.abandons = false) (capable : (w.await call).Capable t) : w.Capable t := by
  rcases capable.cases with stays | ⟨c, _, ⟨rfl, _⟩ | rfl⟩
  · exact stays
  all_goals cases idle

theorem World.Capable.await (capable : w.Capable t) : (w.await call).Capable t := by
  obtain ⟨c, control, has | ⟨inside, bound⟩ | inside⟩ := capable
  · exact ⟨c, control, .inl has⟩
  · exact ⟨c, control, .inr (.inl ⟨mem_cons_of_mem _ inside, bound⟩)⟩
  · exact ⟨c, control, .inr (.inr (mem_cons_of_mem _ inside))⟩

theorem World.Resident.await (resident : w.Resident t) : (w.await call).Resident t := by
  rcases resident with created | queued | ⟨other, inside, owns⟩
  · exact .inl created
  · exact .inr (.inl queued)
  · exact .inr (.inr ⟨other, mem_cons_of_mem _ inside, owns⟩)

theorem Held.takeWith (held : Held hand (w.await call)) (alone : hand = none ∨ call.owner = none)
    (capable : ∀ t, w.lifecycle.stateOf (w.thread t).member = some (.created t) → (w.await call).Capable t → w.Capable t) :
    Held (hand.or call.owner) w := by
  refine { held with
    held := fun key entry current => ?_
    fresh := fun t less resident => held.fresh t less resident.await
    creates := fun other inside => held.creates other (mem_cons_of_mem _ inside) }
  obtain ⟨t, less, member, place⟩ := held.held key entry current
  refine ⟨t, less, member, ?_⟩
  rcases place with owned | here | ⟨created, can⟩
  · rcases mem_owned_await.mp owned with owns | owned
    · rcases alone with rfl | none_
      · exact .inr (.inl owns)
      · rw [none_] at owns
        cases owns
    · exact .inl owned
  · rw [here]
    exact .inr (.inl rfl)
  · refine .inr (.inr ⟨created, capable t ?_ can⟩)
    exact Lifecycle.stateOf_iff.mpr ⟨entry, (congrArg _ member).trans current, created⟩

theorem Held.take (held : Held none (w.await call)) (idle : call.abandons = false) : Held call.owner w :=
  held.takeWith (.inl rfl) fun _ _ capable => capable.drop idle

theorem Held.put (held : Held hand w) (owns : call.owner = hand)
    (fresh : ∀ t, hand = some t → call.final = false → (w.thread t).requested = false)
    (makes : ∀ c t, call.makes = some (c, t) → (w.thread t).control = some c) : Held none (w.await call) := by
  refine { held with held := ?_, fresh := ?_, creates := forall_mem_cons.mpr ⟨makes, held.creates⟩ }
  · intro key entry current
    obtain ⟨t, less, member, place⟩ := held.held key entry current
    refine ⟨t, less, member, ?_⟩
    rcases place with owned | here | ⟨created, capable⟩
    · exact .inl (mem_owned_await.mpr (.inr owned))
    · exact .inl (mem_owned_await.mpr (.inl (owns.trans here)))
    · exact .inr (.inr ⟨created, capable.await⟩)
  · intro t less resident
    rcases resident with created | queued | ⟨other, inside, mine, pending⟩
    · exact held.fresh t less (.inl created)
    · exact held.fresh t less (.inr (.inl queued))
    · rcases mem_cons.mp inside with rfl | inside
      · exact fresh t (owns.symm.trans mine) pending
      · exact held.fresh t less (.inr (.inr ⟨other, inside, mine, pending⟩))

theorem Held.putIdle (held : Held none w) (owns : call.owner = none)
    (makes : ∀ c t, call.makes = some (c, t) → (w.thread t).control = some c) : Held none (w.await call) :=
  held.put owns nofun makes

theorem Held.putQueue (held : Held (some t) w) (fresh : (w.thread t).requested = false) :
    Held none { w with queue := w.queue ++ [t] } := by
  refine { held with held := ?_, fresh := ?_ }
  · intro key entry current
    obtain ⟨t', less, member, place⟩ := held.held key entry current
    refine ⟨t', less, member, ?_⟩
    have owned : ∀ {t'}, t' ∈ w.owned ∨ t' = t → t' ∈ ({ w with queue := w.queue ++ [t] } : World).owned := by
      intro t' either
      simp only [owned, mem_append, mem_singleton] at either ⊢
      tauto
    rcases place with inside | here | created
    · exact .inl (owned (.inl inside))
    · cases here
      exact .inl (owned (.inr rfl))
    · exact .inr (.inr created)
  · intro t' less resident
    rcases resident with created | queued | pending
    · exact held.fresh t' less (.inl created)
    · rcases mem_append.mp queued with queued | last
      · exact held.fresh t' less (.inr (.inl queued))
      · cases mem_singleton.mp last
        exact fresh
    · exact held.fresh t' less (.inr (.inr pending))

variable {lifecycle : Lifecycle}

section

variable (held : Held hand w)
include held

theorem Held.relaxed {key : MemberKey} {entry : Option MemberEntry} {hand' : Option ThreadRef}
    (updates : Updates w.lifecycle lifecycle key entry)
    (cares : ∀ key entry, entryOf lifecycle.members key = some entry → ∃ t, t < w.threads.length ∧
      (w.thread t).member = key ∧ (t ∈ w.owned ∨ hand' = some t ∨ entry.state = .created t ∧ w.Capable t)) :
    Held hand' { w with lifecycle } :=
  { held with
    held := cares
    fresh := fun t less resident =>
      held.fresh t less (resident.imp_left fun created => Lifecycle.created_before updates created) }

theorem Held.updated {entry : MemberEntry} (less : t < w.threads.length)
    (updates : Updates w.lifecycle lifecycle (w.thread t).member (some entry))
    (mine : hand = none ∨ hand = some t) : Held (some t) { w with lifecycle } := by
  refine held.relaxed updates fun key entry' current => ?_
  rw [updates.maps key] at current
  split at current
  · rename_i here
    exact ⟨t, less, here.symm, .inr (.inl rfl)⟩
  · obtain ⟨t', less', member, place⟩ := held.held key entry' current
    refine ⟨t', less', member, ?_⟩
    rcases place with owned | here | created
    · exact .inl owned
    · rcases mine with rfl | rfl
      · cases here
      · exact .inr (.inl here)
    · exact .inr (.inr created)

theorem Held.departed (updates : Updates w.lifecycle lifecycle (w.thread t).member none)
    (mine : hand = none ∨ hand = some t) : Held none { w with lifecycle } := by
  refine held.relaxed updates fun key entry' current => ?_
  rw [updates.maps key] at current
  split at current
  · cases current
  · rename_i other
    obtain ⟨t', less', member, place⟩ := held.held key entry' current
    refine ⟨t', less', member, ?_⟩
    rcases place with owned | here | created
    · exact .inl owned
    · rcases mine with rfl | rfl
      · cases here
      · cases here
        exact (other member.symm).elim
    · exact .inr (.inr created)

theorem Held.same (same : SameMembers w.lifecycle lifecycle) : Held hand { w with lifecycle } := by
  refine { held with held := ?_, fresh := fun t less resident => held.fresh t less (resident.imp_left fun created => ?_) }
  · show ∀ key entry, entryOf lifecycle.members key = some entry → _
    rw [same.members]
    exact held.held
  · rwa [Lifecycle.stateOf, same.members] at created

theorem Held.restated {key : MemberKey} {state : ThreadState} {entry : MemberEntry}
    (before : w.lifecycle.stateOf key = some state) (started : state.createdThread = none)
    (updates : Updates w.lifecycle lifecycle key (some entry)) : Held hand { w with lifecycle } := by
  refine held.relaxed updates fun other entry' current => ?_
  rw [updates.maps other] at current
  split at current
  · rename_i here
    obtain ⟨old, current', rfl⟩ := Lifecycle.stateOf_iff.mp before
    obtain ⟨t', less', member, place⟩ := held.held key old current'
    refine ⟨t', less', member.trans here.symm, ?_⟩
    rcases place with owned | inHand | ⟨created, _⟩
    · exact .inl owned
    · exact .inr (.inl inHand)
    · rw [created] at started
      cases started
  · exact held.held other entry' current

end

theorem thread_setThread {thread : Thread} {t' : ThreadRef} (less : t < w.threads.length) :
    (w.setThread t thread).thread t' = if t' = t then thread else w.thread t' := by
  simp only [World.thread, World.setThread, getD_eq_getElem?_getD, getElem?_set]
  by_cases same : t' = t
  · subst same
    simp [less]
  · simp [same, Ne.symm same]

variable {control : Control}

theorem control_setControl {c' : Nat} (less : c < w.controls.length) :
    (w.setControl c control).control c' = if c' = c then control else w.control c' := by
  simp only [World.control, World.setControl, getD_eq_getElem?_getD, getElem?_set]
  by_cases same : c' = c
  · subst same
    simp [less]
  · simp [same, Ne.symm same]

theorem Held.setThread (held : Held hand w) {thread : Thread} (less : t < w.threads.length)
    (member : thread.member = (w.thread t).member) (control : thread.control = (w.thread t).control)
    (fresh : w.Resident t → thread.requested = false) : Held hand (w.setThread t thread) := by
  have members : ∀ t', ((w.setThread t thread).thread t').member = (w.thread t').member := by
    intro t'
    rw [thread_setThread less]
    split
    · rename_i same
      rw [same, member]
    · rfl
  have controls : ∀ t', ((w.setThread t thread).thread t').control = (w.thread t').control := by
    intro t'
    rw [thread_setThread less]
    split
    · rename_i same
      rw [same, control]
    · rfl
  have length : (w.setThread t thread).threads.length = w.threads.length := length_set
  refine ⟨?_, ?_, ?_, ?_, ?_, ?_⟩
  · intro key entry current
    obtain ⟨t', less', same, place⟩ := held.held key entry current
    refine ⟨t', length ▸ less', (members t').trans same, place.imp_right fun place => place.imp_right fun created => ?_⟩
    obtain ⟨state, c, mine, can⟩ := created
    exact ⟨state, c, (controls t').trans mine, can⟩
  · intro t' less' resident
    have before : w.Resident t' := by
      refine resident.imp_left fun created => ?_
      rw [members] at created
      exact created
    rw [thread_setThread less]
    split
    · rename_i same
      exact fresh (same ▸ before)
    · exact held.fresh t' (length ▸ less') before
  · rw [length]
    exact held.count
  · intro t' c mine
    rw [controls] at mine
    exact held.paired t' c mine
  · intro c t' bound
    rw [controls]
    exact held.binds c t' bound
  · intro call inside c t' makes
    rw [controls]
    exact held.creates call inside c t' makes

theorem Held.setControl (held : Held hand w) (less : c < w.controls.length)
    (bound : ∀ t, control.thread = some t → (w.thread t).control = some c)
    (capable : ∀ t, (w.thread t).control = some c → w.lifecycle.stateOf (w.thread t).member = some (.created t) →
      w.Capable t → (w.setControl c control).Capable t) : Held hand (w.setControl c control) := by
  refine ⟨?_, held.fresh, ?_, held.paired, ?_, held.creates⟩
  · intro key entry current
    obtain ⟨t, less', member, place⟩ := held.held key entry current
    refine ⟨t, less', member, place.imp_right fun place => place.imp_right fun created => ?_⟩
    obtain ⟨state, can⟩ := created
    refine ⟨state, ?_⟩
    obtain ⟨c', mine, how⟩ := can
    by_cases same : c' = c
    · subst same
      refine capable t mine ?_ ⟨c', mine, how⟩
      exact Lifecycle.stateOf_iff.mpr ⟨entry, (congrArg _ member).trans current, state⟩
    · refine ⟨c', mine, ?_⟩
      rw [control_setControl less, if_neg same]
      exact how
  · show w.threads.length = (w.controls.set c control).length + 1
    rw [length_set]
    exact held.count
  · intro c' t there
    rw [control_setControl less] at there
    split at there
    · rename_i same
      subst same
      exact bound t there
    · exact held.binds c' t there

theorem World.Capable.setControl (less : c < w.controls.length)
    (mine : (w.thread t).control = some c) (capable : w.Capable t)
    (has : 0 < (w.control c).capabilities → 0 < control.capabilities)
    (same : (w.control c).thread = some t → control.thread = some t) : (w.setControl c control).Capable t := by
  obtain ⟨c', mine', how⟩ := capable
  cases mine.symm.trans mine'
  refine ⟨c, mine, ?_⟩
  rw [control_setControl less, if_pos rfl]
  exact how.imp has (Or.imp_left (And.imp_right same))

theorem Held.control_less (held : Held hand w) (mine : (w.thread t).control = some c) : c < w.controls.length := by
  have less : t < w.threads.length := by
    by_contra outside
    rw [World.thread, getD_eq_getElem?_getD, getElem?_eq_none (Nat.le_of_not_lt outside)] at mine
    cases mine
  rw [held.paired t c mine, held.count] at less
  exact Nat.lt_of_succ_lt_succ less

theorem Held.permuted (held : Held hand w) {pending : List Pending} (perm : pending.Perm w.pending) :
    Held hand { w with pending } := by
  refine { held with held := ?_, fresh := ?_, creates := fun call inside => held.creates call (perm.subset inside) }
  · intro key entry current
    obtain ⟨t, less, member, place⟩ := held.held key entry current
    refine ⟨t, less, member, place.imp (fun owned => ?_) fun place => place.imp_right fun created => ?_⟩
    · exact ((perm.symm.filterMap Pending.owner).append_left w.queue).subset owned
    · obtain ⟨state, c, mine, how⟩ := created
      exact ⟨state, c, mine, how.imp_right fun how =>
        how.imp (And.imp_left fun inside => perm.symm.subset inside) fun inside => perm.symm.subset inside⟩
  · intro t less resident
    refine held.fresh t less (resident.imp_right fun place => place.imp_right fun pending => ?_)
    obtain ⟨call, inside, how⟩ := pending
    exact ⟨call, perm.subset inside, how⟩

theorem Held.takeAt (held : Held none w) {index : Nat} (found : w.pending[index]? = some call) :
    Held none ({ w with pending := w.pending.eraseIdx index }.await call) := by
  obtain ⟨inside, rfl⟩ := List.getElem?_eq_some_iff.mp found
  exact held.permuted (getElem_cons_eraseIdx_perm inside)

end

end Halcyon.Threads
