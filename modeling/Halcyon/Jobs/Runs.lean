import Halcyon.Jobs.Moves

/-!
Completion cursors, the steps and the runs.
-/

namespace Halcyon.Jobs

open List World

section
variable {w : World} {j p : JobId} {job : Job} {hand : Option JobId}

variable {cursor : CompletionCursor} {cursors : List CompletionCursor}

section

variable (sound : Sound none w)
include sound

theorem publish_sound (taken : Taken w cursor cursors job) (waits : cursor.published = false) :
    Sound none ((({ w with cursors }.setJob cursor.child { job with closed := true }).await ⟨cursor.child, true⟩).note
      (.closed cursor.child)) := by
  have state := sound.closed cursor.child job taken.found
  refine sound.progress { job with closed := true } (cursors ++ [⟨cursor.child, true⟩]) [.closed cursor.child] taken.found
    rfl rfl (fun _ => rfl) rfl state id ?_ ?_ (fun _ _ _ => taken.live) ?_ ?_
  · intro other apart
    rw [← taken.others other apart]
    exact mem_await apart
  · exact nodup_map_concat taken.distinct taken.idle
  · exact forall_mem_singleton.mpr ⟨beq_self_eq_true _, nofun⟩
  · refine .closed taken.dead rfl (mem_append_right _ (mem_singleton_self _)) ?_
    refine (marks_concat (.closed _) (beq_self_eq_true _)).trans ?_
    rw [taken.marks, waits]
    rfl

theorem leave_sound (taken : Taken w cursor cursors job) (done : cursor.published = true)
    (top : job.parent = none) : Sound none { w with cursors } := by
  have after := sound.progress job cursors [] taken.found rfl rfl (fun _ => rfl) rfl
    (sound.closed cursor.child job taken.found) id taken.others taken.distinct (fun _ _ _ => taken.live) nofun ?_
  · rw [setJob_same (w := { w with cursors, history := w.history ++ [] }) taken.found, append_nil] at after
    exact after
  · refine .root taken.dead (taken.closed.trans done) taken.idle top ?_
    show (w.history ++ []).filter _ = _
    rw [append_nil]
    exact taken.marks.trans (by rw [done]; rfl)

theorem leaveParent_sound {above : Job} (taken : Taken w cursor cursors job)
    (done : cursor.published = true) (parent : job.parent = some p) (found : w.job p = some above)
    (entry : (above.state.table .child).find cursor.child = some .committed) :
    Sound none (({ w with cursors }.setJob p { above with state := above.state.erase .child cursor.child }).note
      (.removed cursor.child)) := by
  have marked : Sound (some cursor.child) ({ w with cursors }.note (.removed cursor.child)) := by
    have after := (sound.take cursor.child).progress job cursors [.removed cursor.child] taken.found rfl rfl
      (fun _ => rfl) rfl (sound.closed cursor.child job taken.found) id taken.others taken.distinct
      (fun _ _ _ => taken.live) ?_ ?_
    · rw [setJob_same (w := { w with cursors, history := w.history ++ [.removed cursor.child] }) taken.found] at after
      exact after
    · exact forall_mem_singleton.mpr ⟨beq_self_eq_true _, fun _ => rfl⟩
    · refine .removed taken.dead (taken.closed.trans done) taken.idle (by rw [parent]; nofun) ?_
      refine (marks_concat (.removed _) (beq_self_eq_true _)).trans ?_
      rw [taken.marks, done]
      rfl
  have erased := marked.eraseCommitted found entry (fun _ => rfl) nofun
  have last : .removed cursor.child ∈ w.history ++ [.removed cursor.child] := mem_append_right _ (mem_singleton_self _)
  have empty : (above.state.children.erase cursor.child).find cursor.child = none := by
    rw [SortedMap.find_erase, if_pos rfl]
  refine erased.put (fun p' above' there inside => ?_) (fun _ _ _ _ open_ => (open_ last).elim)
    fun x p' above' there parent' _ there' => ?_
  -- only its parent had the child in its table
  rcases setJob_cases there with ⟨rfl, rfl⟩ | ⟨ne, there⟩
  · cases empty.symm.trans inside
  · obtain ⟨x, child, parent', _⟩ := sound.listed p' above' cursor.child there nofun inside
    cases taken.found.symm.trans child
    cases parent.symm.trans parent'
    exact (ne rfl).elim
  · rcases setJob_cases there' with ⟨rfl, rfl⟩ | ⟨ne, _⟩
    · exact empty
    · obtain ⟨y, child, same⟩ : ∃ y, w.job cursor.child = some y ∧ x.parent = y.parent := by
        rcases setJob_cases there with ⟨same, rfl⟩ | ⟨_, there⟩
        · exact ⟨above, same ▸ found, rfl⟩
        · exact ⟨x, there, rfl⟩
      cases taken.found.symm.trans child
      cases parent.symm.trans (same.symm.trans parent')
      exact (ne rfl).elim

theorem advance_sound (taken : Taken w cursor cursors job) :
    ∃ next, { w with cursors }.advance cursor = .ok next ∧ Sound none next := by
  simp only [World.advance, taken.found]
  cases done : cursor.published with
  | false => exact ⟨_, rfl, publish_sound sound taken done⟩
  | true =>
    simp only [Bool.not_true, Bool.false_eq_true, if_false]
    cases parent : job.parent with
    | none => exact ⟨_, rfl, leave_sound sound taken done parent⟩
    | some p =>
      have present : .removed cursor.child ∉ w.history := by
        intro inside
        have there : .removed cursor.child ∈ w.marks cursor.child := mem_filter.mpr ⟨inside, beq_self_eq_true _⟩
        rw [taken.marks, done] at there
        simp at there
      obtain ⟨above, found, inside⟩ := sound.attached cursor.child job p taken.found nofun parent present
      have entry : (above.state.table .child).find cursor.child = some .committed := inside
      obtain ⟨_, live⟩ := sound.alive_of_entry found entry
      have upgraded : { w with cursors }.upgrade p = some above := upgrade_eq found live
      simp only [upgraded, expect, ok_bind, remove_eq entry]
      refine ⟨_, rfl, ?_⟩
      have erased := leaveParent_sound sound taken done parent found entry
      exact finish_setJob (w := { w with cursors }.note (.removed cursor.child)) erased

omit sound in
theorem advance_marks {next : World} (taken : Taken w cursor cursors job) (h : { w with cursors }.advance cursor = .ok next) :
    (cursor.published = false → ⟨cursor.child, true⟩ ∈ next.cursors ∧ .closed cursor.child ∈ next.history) ∧
    (cursor.published = true → .removed cursor.child ∈ next.history ∨
      job.parent = none ∧ next.job = w.job ∧ next.Idle cursor.child) := by
  simp only [World.advance, taken.found] at h
  cases done : cursor.published with
  | false =>
    rw [done] at h
    cases pure_ok h
    exact ⟨fun _ => ⟨mem_append_right _ (mem_singleton_self _), mem_append_right _ (mem_singleton_self _)⟩, nofun⟩
  | true =>
    simp only [done, Bool.not_true, Bool.false_eq_true, if_false] at h
    refine ⟨nofun, fun _ => ?_⟩
    split at h
    · rename_i top
      cases pure_ok h
      exact .inr ⟨top, rfl, taken.idle⟩
    · obtain ⟨above, _, h⟩ := bind_ok h
      obtain ⟨⟨completed, state⟩, _, h⟩ := bind_ok h
      cases pure_ok h
      refine .inl ?_
      split
      · exact mem_append_left _ (mem_append_right _ (mem_singleton_self _))
      · exact mem_append_right _ (mem_singleton_self _)

theorem Sound.free (found : w.job j = some job) (dead : job.state.dead = true)
    (unheld : w.Unheld j) : Sound none (w.setJob j { job with freed := true }) := by
  have after := sound.change { job with freed := true } w.cursors [] found rfl (.inr unheld) (fun _ => dead)
    (sound.closed j job found) id (sound.serves found fun _ _ => .inl rfl) (fun _ _ => Iff.rfl) sound.cursors
    (fun cursor inside same => (unheld.idle cursor inside same).elim) nofun ?_
  · rw [append_nil] at after
    exact after
  · rw [append_nil]
    exact (sound.accounted j job found).frame rfl rfl rfl (fun _ _ => Iff.rfl) rfl

theorem drop_sound : Sound none (w.drop j) := by
  unfold World.drop
  split
  · exact sound
  · rename_i job found
    split
    · exact sound
    · rename_i free
      simp only [World.held, Bool.or_eq_true, not_or] at free
      obtain ⟨⟨⟨table, cursors⟩, gates⟩, reservations⟩ := free
      obtain ⟨parent, below⟩ : ∃ parent, job.parent = some parent := by
        cases above : job.parent with
        | none =>
          rw [above] at table
          exact (table rfl).elim
        | some parent => exact ⟨parent, rfl⟩
      rw [below] at table
      have unlisted : ∀ p above, w.job p = some above → above.state.children.find j ≠ some .committed := by
        intro p above there inside
        obtain ⟨x, child, parent', _⟩ := sound.listed p above j there nofun inside
        cases found.symm.trans child
        cases below.symm.trans parent'
        refine table ?_
        simp only [there, Option.any_some, inside, beq_self_eq_true]
      have idle : w.Idle j := by
        intro cursor inside same
        exact cursors (any_eq_true.mpr ⟨cursor, inside, by simpa using same⟩)
      have dead : job.state.dead = true := by
        by_cases history : .removed j ∈ w.history
        · have there : .removed j ∈ w.marks j := mem_filter.mpr ⟨history, beq_self_eq_true _⟩
          cases sound.accounted j job found with
          | alive _ _ _ marks =>
            rw [marks] at there
            cases there
          | died dead | closed dead | removed dead | root dead => exact dead
        · obtain ⟨above, there, inside⟩ := sound.attached j job parent found nofun below history
          exact (unlisted parent above there inside).elim
      refine sound.free found dead ⟨unlisted, idle, fun gate inside there => ?_, fun r inside same => ?_⟩
      · exact gates (any_eq_true.mpr ⟨gate, inside, by simpa using there⟩)
      · exact reservations (any_eq_true.mpr ⟨r, inside, by simpa using same⟩)

end

theorem step_sound (event : Event) (sound : Sound none w) : ∃ next, step w event = .ok next ∧ Sound none next := by
  cases event with
  | collect purpose j memory =>
    cases purpose with
    | reserve => exact ⟨_, rfl, collect_sound sound⟩
    | start =>
      refine ⟨_, rfl, ?_⟩
      split
      · exact collect_sound sound
      · exact sound
  | admitGate index =>
    rw [step]
    cases found : w.gates[index]? with
    | none => exact ⟨w, rfl, sound⟩
    | some gate =>
      obtain ⟨up, live, room⟩ := sound.gates gate (mem_of_getElem? found)
      have fewer : Sound none { w with gates := w.gates.eraseIdx index } :=
        sound.fewer (eraseIdx_sublist _ _) (List.Sublist.refl _) (List.Sublist.refl _)
      exact admit_sound fewer (up.mono fun i x there => ⟨x, there, rfl⟩) live room
  | commit index =>
    rw [step]
    cases found : w.reservations[index]? with
    | none => exact ⟨w, rfl, sound⟩
    | some r =>
      obtain ⟨fewer, job, owned⟩ := sound.takeReservation found
      exact commit_sound fewer owned
  | rollback index =>
    rw [step]
    cases found : w.reservations[index]? with
    | none => exact ⟨w, rfl, sound⟩
    | some =>
      obtain ⟨fewer, job, owned⟩ := sound.takeReservation found
      exact rollback_sound fewer owned
  | remove index =>
    rw [step]
    cases found : w.processes[index]? with
    | none => exact ⟨w, rfl, sound⟩
    | some e =>
      obtain ⟨j, _⟩ := e
      obtain ⟨job, there, entry⟩ := sound.processes _ (mem_of_getElem? found)
      have fewer : Sound none { w with processes := w.processes.eraseIdx index } :=
        sound.fewer (List.Sublist.refl _) (List.Sublist.refl _) (eraseIdx_sublist _ _)
      refine removeMember_sound fewer there entry fun inside => ?_
      exact apart_of_eraseIdx (f := id) (by rw [map_id]; exact sound.single) found _ inside rfl
  | close j => exact ⟨_, rfl, close_sound sound⟩
  | advance index =>
    rw [step]
    cases found : w.cursors[index]? with
    | none => exact ⟨w, rfl, sound⟩
    | some =>
      obtain ⟨_, taken⟩ := sound.takeCursor found
      exact advance_sound sound taken
  | drop => exact ⟨_, rfl, drop_sound sound⟩

theorem initial_sound : Sound none initial := by
  have only : ∀ {i x}, initial.job i = some x → i = 1 ∧ x = ⟨none, .new, false, false⟩ := by
    intro i x there
    simp only [initial] at there
    split at there
    · rename_i same
      cases there
      exact ⟨same, rfl⟩
    · cases there
  have root : initial.job 1 = some ⟨none, .new, false, false⟩ := rfl
  have empty : ∀ kind id, ((JobInner.new).table kind).find id = none := by
    intro kind id
    cases kind <;> rfl
  refine ⟨⟨_, root, rfl⟩, ?_, ?_, ?_, ?_, ?_, nofun, nofun, nodup_nil, nofun, nofun, nodup_nil, nofun, nodup_nil,
    nofun, ?_, ?_, ⟨by decide, by decide⟩, nofun, nofun, List.Pairwise.nil⟩
  · intro i x there
    obtain ⟨rfl, rfl⟩ := only there
    exact ⟨[1], .root root rfl, by decide⟩
  · intro i x there dead
    obtain ⟨rfl, rfl⟩ := only there
    cases dead
  · intro i x there freed
    obtain ⟨rfl, rfl⟩ := only there
    cases freed
  · intro p above c there _ inside
    obtain ⟨rfl, rfl⟩ := only there
    cases inside
  · intro c x p there _ parent
    obtain ⟨rfl, rfl⟩ := only there
    cases parent
  · intro i x there
    obtain ⟨rfl, rfl⟩ := only there
    exact .alive rfl rfl nofun rfl
  · intro i x there
    obtain ⟨rfl, rfl⟩ := only there
    exact ⟨.inr (by decide), fun kind id some_ => (some_ (empty kind id)).elim⟩

theorem run_sound (events : List Event) : ∃ w, runEvents step initial events = .ok w ∧ Sound none w :=
  run_returns (A := fun _ _ => True) (fun _ event sound _ => step_sound event sound) initial_sound fun _ _ _ => trivial

end

end Halcyon.Jobs
