import Halcyon.Handles.Invariant

/-!
What callers may rely on: a handle that is over is refused for good, a handle that is not keeps its
entry, no entry is lost or doubled, and a drain hands out every entry that is not pinned.
-/

namespace Halcyon.Handles

open List

variable {T R : Type} {w next : World T R}

open World

structure Rejected (table : HandleTable T R) (handle : Handle) : Prop where
  get : ∀ required, table.get handle required = fail .staleHandle
  remove : table.remove handle = fail .staleHandle
  derive : ∀ rights entry, table.derive handle rights ≠ .ok entry
  extractMoves : ∀ heap items entries next, handle ∈ items.map Prod.fst →
    HandleTable.extractMoves heap items table ≠ .ok entries next
  extractGrants : ∀ heap items entries next, handle ∈ items.map Prod.fst →
    HandleTable.extractGrants heap items table ≠ .ok entries next
  pinConsume : ∀ required token done next, HandleTable.pinConsume handle required token table ≠ .ok done next
  pinTransfer : ∀ protect right grants token done next, handle = protect ∨ handle ∈ grants.map Prod.fst →
    HandleTable.pinTransfer protect right grants token table ≠ .ok done next

def Resolves (table : HandleTable T R) (handle : Handle) (entry : Entry T R) : Prop :=
  (∀ required, table.get handle required =
    if entry.rights.contains required then .ok entry else fail .rightsDenied) ∨
  (∃ token, table.slots[handle.index]? = some ⟨handle.generation, .pinned token entry⟩) ∧
    ∀ required, table.get handle required = fail .objectBusy

section
variable {table : HandleTable T R} {handle : Handle} {entry : Entry T R}

theorem rejected_of_stale (stale : table.occupiedIndex handle = fail .staleHandle) : Rejected table handle := by
  have get : ∀ required, table.get handle required = fail .staleHandle := by
    intro required
    rw [HandleTable.get, stale]
    rfl
  have unread : ∀ required entry, table.get handle required ≠ .ok entry := by
    intro required entry
    rw [get]
    exact fail_ne_ok
  have untouched : ∀ {transport protect prior} {items : List (Handle × Rights)} {done},
      handle ∈ items.map Prod.fst → table.validateItems transport protect prior items ≠ .ok done := by
    intro transport protect prior items done member h
    obtain ⟨item, inside, rfl⟩ := mem_map.mp member
    obtain ⟨_, _, entry, got, _⟩ := (validateItems_ok h).2 item inside
    exact unread _ _ got
  have unextracted : ∀ heap items transport entries next, handle ∈ items.map Prod.fst →
      HandleTable.extractWith heap items transport table ≠ .ok entries next := by
    intro heap items transport entries next member h
    obtain ⟨⟨_, validated⟩, _⟩ := extractWith_ok h
    exact untouched member validated
  have unpinned : ∀ protect right grants token done next, handle = protect ∨ handle ∈ grants.map Prod.fst →
      HandleTable.pinTransaction (protect, right) grants token table ≠ .ok done next := by
    intro protect right grants token done next named h
    obtain ⟨⟨entry, got⟩, ⟨_, validated⟩, _⟩ := pinTransaction_ok h
    rcases named with rfl | member
    · exact unread _ _ got
    · exact untouched member validated
  refine ⟨get, ?_, ?_, ?_, ?_, ?_, ?_⟩
  · rw [HandleTable.remove, stale]
    rfl
  · intro rights entry h
    obtain ⟨_, _, h⟩ := bind_ok h
    obtain ⟨source, got, h⟩ := bind_ok h
    exact unread _ _ got
  · exact fun heap items => unextracted heap items _
  · exact fun heap items => unextracted heap items _
  · exact fun required token done next => unpinned handle required [] token done next (.inl rfl)
  · exact unpinned

theorem occupiedIndex_at {slot : Slot T R} (valid : handle.isValid = true) (found : table.slots[handle.index]? = some slot) :
    table.occupiedIndex handle = if slot.generation = handle.generation then
      match slot.state with
      | .occupied _ => .ok handle.index
      | .pinned _ _ => fail .objectBusy
      | .vacant | .reserved _ | .retired => fail .staleHandle else fail .staleHandle := by
  unfold HandleTable.occupiedIndex
  rw [show handle.slot.toNat = handle.index from rfl, valid, found]
  by_cases current : slot.generation = handle.generation
  · have test : (slot.generation != handle.generation) = false := by simp [current]
    rw [if_pos current]
    simp only [okOr, refuseIf, Bool.not_true, Bool.false_eq_true, if_false, ok_bind, test]
    rfl
  · have test : (slot.generation != handle.generation) = true := by simp [current]
    rw [if_neg current]
    simp only [okOr, refuseIf, Bool.not_true, Bool.false_eq_true, if_false, if_true, ok_bind, test]
    rfl

theorem holds_rejected {token : Nat} (holds : table.Holds token handle) : Rejected table handle := by
  obtain ⟨valid, ⟨_, found, beyond⟩ | ⟨found, _⟩⟩ := holds
  · refine rejected_of_stale ?_
    rw [occupiedIndex_at valid found]
    rcases beyond with less | ⟨same, retired⟩
    · exact if_neg fun same => UInt32.lt_irrefl _ (same ▸ less)
    · rw [if_pos same, retired]
  · refine rejected_of_stale ?_
    rw [occupiedIndex_at valid found, if_pos rfl]

theorem dead_rejected (valid : handle.isValid = true) (dead : table.Dead handle.index handle.generation) :
    Rejected table handle := by
  have holds : table.Holds 0 handle := ⟨valid, .inl dead⟩
  exact holds_rejected holds

theorem stores_resolves (valid : handle.isValid = true)
    (stores : table.Stores handle.index handle.generation entry) : Resolves table handle entry := by
  obtain ⟨⟨_, state⟩, ⟨found, same⟩, held⟩ := stores
  have index := occupiedIndex_at valid found
  rw [if_pos same] at index
  cases state with
  | occupied other =>
    cases held
    refine .inl fun required => ?_
    rw [HandleTable.get, index]
    simp only [ok_bind, HandleTable.entryAt, found, pure_bind_ok, refuseIf]
    cases entry.rights.contains required <;> rfl
  | pinned token =>
    cases held
    cases same
    refine .inr ⟨⟨token, found⟩, fun required => ?_⟩
    rw [HandleTable.get, index]
    rfl
  | vacant | reserved | retired => cases held

end

/-- What callers were told stays told, and an entry leaves its handle only when the handle ends. -/
structure Grows (w next : World T R) : Prop where
  ended : w.ended ⊆ next.ended
  abandoned : w.abandoned ⊆ next.abandoned
  installed : ∀ item ∈ w.installed, item ∈ next.installed ∨ item.1 ∈ next.ended

theorem Grows.refl (w : World T R) : Grows w w := ⟨List.Subset.refl _, List.Subset.refl _, fun _ => .inl⟩

theorem Grows.trans {last : World T R} (first : Grows w next) (second : Grows next last) : Grows w last := by
  refine ⟨List.Subset.trans first.ended second.ended, List.Subset.trans first.abandoned second.abandoned, ?_⟩
  intro item member
  rcases first.installed item member with kept | ended
  · exact second.installed item kept
  · exact .inr (second.ended ended)

theorem ends_grows (w : World T R) (table : HandleTable T R) (handles : List Handle) (entries : List (Entry T R)) :
    Grows w (w.ends table handles entries) := by
  refine ⟨subset_append_left _ _, List.Subset.refl _, fun item member => ?_⟩
  by_cases ends : item.1 ∈ handles
  · exact .inr (mem_append_right _ ends)
  · exact .inl (mem_filter.mpr ⟨member, by simpa using ends⟩)

theorem installs_grows (w : World T R) (table : HandleTable T R) (items : List (Handle × Entry T R)) :
    Grows w (w.installs table items) :=
  ⟨List.Subset.refl _, List.Subset.refl _, fun _ member => .inl (mem_append_right _ member)⟩

theorem grows_of_same {other : World T R} (h : Grows other next) (ended : other.ended = w.ended)
    (abandoned : other.abandoned = w.abandoned) (installed : other.installed = w.installed) : Grows w next :=
  ⟨ended ▸ h.ended, abandoned ▸ h.abandoned, installed ▸ h.installed⟩

theorem step_grows {event : Event T R} (tracked : Tracked w) (h : step w event = .ok next) : Grows w next := by
  cases step_turns tracked h with
  | stays => exact .refl _
  | ended => exact ends_grows _ _ _ _
  | inserted => exact grows_of_same (installs_grows (w.receives _) _ _) rfl rfl rfl
  | lost | quiet | reserved => exact grows_of_same (.refl _) rfl rfl rfl
  | prepared releases => exact grows_of_same (.refl _) releases.ended releases.abandoned releases.installed
  | returned releases =>
    exact grows_of_same (ends_grows _ _ _ _) releases.ended releases.abandoned releases.installed
  | @refused other reservation _ _ releases =>
    have grows := ends_grows other (w.table.rollbackHandles reservation.handles reservation.token) reservation.handles []
    refine grows_of_same ?_ releases.ended releases.abandoned releases.installed
    exact ⟨grows.ended, grows.abandoned, grows.installed⟩
  | committed releases =>
    exact grows_of_same (installs_grows _ _ _) releases.ended releases.abandoned releases.installed
  | abandoned releases =>
    exact ⟨releases.ended ▸ List.Subset.refl _, subset_append_left _ _, fun _ member =>
      .inl (releases.installed ▸ member)⟩

/-- A handle that is over is refused ever after; one that is not keeps its entry; and a slot whose last
generation is over is never used again. -/
theorem handles_never_reused {limit : Nat} {events more : List (Event T R)} {w last : World T R}
    (run : runEvents step (initial limit) events = .ok w) (later : runEvents step w more = .ok last) :
    (∀ handle ∈ w.ended ++ w.abandoned, Rejected last.table handle) ∧ (∀ item ∈ w.installed,
      item ∈ last.installed ∧ Resolves last.table item.1 item.2 ∨ item.1 ∈ last.ended) ∧
    ∀ handle ∈ w.ended, handle.generation = lastGeneration →
      last.table.slots[handle.index]? = some ⟨lastGeneration, .retired⟩ ∧
        ∀ item ∈ last.installed, item.1.index ≠ handle.index := by
  have sound : Sound last := run_invariant (I := Sound) (fun _ _ _ sound h => step_sound sound h) (run_sound run) later
  have grows : Grows w last := (run_invariant (I := fun w' => Sound w' ∧ Grows w w') (fun _ _ _ kept h =>
      ⟨step_sound kept.1 h, kept.2.trans (step_grows kept.1.tracked h)⟩) ⟨run_sound run, .refl w⟩ later).2
  refine ⟨fun handle member => ?_, fun item member => ?_, fun handle member final => ?_⟩
  · rcases mem_append.mp member with ended | abandoned
    · obtain ⟨valid, dead⟩ := sound.tracked.ended handle (grows.ended ended)
      exact dead_rejected valid dead
    · obtain ⟨_, token, holds⟩ := sound.tracked.abandoned handle (grows.abandoned abandoned)
      exact holds_rejected holds
  · refine (grows.installed item member).imp_left fun kept => ⟨kept, ?_⟩
    obtain ⟨valid, stores⟩ := sound.tracked.installed item kept
    exact stores_resolves valid stores
  · obtain ⟨_, slot, found, beyond⟩ := sound.tracked.ended handle (grows.ended member)
    have retired : slot = ⟨lastGeneration, .retired⟩ := by
      obtain ⟨generation, state⟩ := slot
      rcases beyond with less | ⟨same, retired⟩
      · have bound := generation.toNat_lt
        rw [final, UInt32.lt_iff_toNat_lt] at less
        dsimp only at less
        have top : lastGeneration.toNat = 4294967295 := rfl
        omega
      · cases retired
        cases same.trans final
        rfl
    rw [retired] at found
    refine ⟨found, fun item kept same => ?_⟩
    obtain ⟨_, other, ⟨at_, _⟩, held⟩ := sound.tracked.installed item kept
    rw [same] at at_
    cases found.symm.trans at_
    cases held

/-- An entry goes in, is pinned and comes out; its handle is busy and then refused, also when another entry has its
slot. -/
theorem handles_never_reused_slot : ∃ pinned w last : World Nat Unit,
      runEvents step (initial 2) [.insert .ample ⟨7, (), ⟨3⟩⟩, .pinConsume (.fromParts 1 1) ⟨1⟩ 5] = .ok pinned ∧
      Resolves pinned.table (.fromParts 1 1) ⟨7, (), ⟨3⟩⟩ ∧
      pinned.table.get (.fromParts 1 1) ⟨1⟩ = fail .objectBusy ∧
      runEvents step (initial 2) [.insert .ample ⟨7, (), ⟨3⟩⟩, .pinConsume (.fromParts 1 1) ⟨1⟩ 5,
        .commitPinnedConsume 5 (.fromParts 1 1)] = .ok w ∧
      runEvents step w [.insert .ample ⟨8, (), ⟨3⟩⟩] = .ok last ∧
      last.installed = [(.fromParts 1 2, ⟨8, (), ⟨3⟩⟩)] ∧ Rejected last.table (.fromParts 1 1) := by
  let pinned : World Nat Unit := ⟨⟨[⟨0, .retired⟩, ⟨1, .pinned 5 ⟨7, (), ⟨3⟩⟩⟩], 2, 1⟩, [], [],
    [(.fromParts 1 1, ⟨7, (), ⟨3⟩⟩)], [], [], [⟨7, (), ⟨3⟩⟩], [], []⟩
  let w : World Nat Unit := ⟨⟨[⟨0, .retired⟩, ⟨2, .vacant⟩], 2, 0⟩, [], [], [], [.fromParts 1 1], [], [⟨7, (), ⟨3⟩⟩],
    [⟨7, (), ⟨3⟩⟩], []⟩
  let last : World Nat Unit := ⟨⟨[⟨0, .retired⟩, ⟨2, .occupied ⟨8, (), ⟨3⟩⟩⟩], 2, 1⟩, [], [],
    [(.fromParts 1 2, ⟨8, (), ⟨3⟩⟩)], [.fromParts 1 1], [], [⟨7, (), ⟨3⟩⟩, ⟨8, (), ⟨3⟩⟩], [⟨7, (), ⟨3⟩⟩], []⟩
  have first : runEvents step (initial 2) [.insert .ample ⟨7, (), ⟨3⟩⟩, .pinConsume (.fromParts 1 1) ⟨1⟩ 5] =
    .ok pinned := rfl
  have run : runEvents step (initial 2) [.insert .ample ⟨7, (), ⟨3⟩⟩, .pinConsume (.fromParts 1 1) ⟨1⟩ 5,
    .commitPinnedConsume 5 (.fromParts 1 1)] = .ok w := rfl
  have later : runEvents step w [.insert .ample ⟨8, (), ⟨3⟩⟩] = .ok last := rfl
  have busy : Resolves pinned.table (.fromParts 1 1) ⟨7, (), ⟨3⟩⟩ := by
    rcases (handles_never_reused first (show runEvents step pinned [] = .ok pinned from rfl)).2.1 _ mem_cons_self with
      ⟨_, resolves⟩ | ended
    · exact resolves
    · cases ended
  exact ⟨pinned, w, last, first, busy, rfl, run, later, rfl, (handles_never_reused run later).1 _ mem_cons_self⟩

end Halcyon.Handles
