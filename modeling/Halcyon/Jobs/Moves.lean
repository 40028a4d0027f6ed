import Halcyon.Jobs.Steps

/-!
The sections that commit a reservation, take a process or a child out of its table and seal a job.
-/

namespace Halcyon.Jobs

open List World

section
variable {w : World} {j p : JobId} {job : Job} {hand : Option JobId} {state : JobInner}

variable {r : Reservation} {kind : Kind} {id : Nat}

theorem commitMember_sound (sound : Sound none w) (owned : Owned w r job) (member : r.kind = .member)
    (single : (r.owner, r.id) ∉ w.processes) :
    Sound none { w.setJob r.owner { job with state := job.state.insert r.kind r.id .committed } with
      processes := w.processes ++ [(r.owner, r.id)] } := by
  have after : Sound none (w.setJob r.owner { job with state := job.state.insert r.kind r.id .committed }) := by
    refine owned.setState sound (fun child => ?_) setTable_dead setTable_isSealed fun kind id other => ?_
    · cases member.symm.trans child
    · rw [find_insertTable, if_neg fun same => other (Prod.mk.injEq _ _ _ _ ▸ same)]
  refine after.calls rfl rfl rfl (fun _ _ issued => issued) after.words (fun _ inside => .inl inside) after.distinct
    (forall_mem_concat (fun _ => .inl) (.inr ⟨_, setJob_self, ?_⟩)) ?_ fun _ inside => .inl inside
  · show ((job.state.setTable _ r.kind).table .member).find r.id = _
    rw [find_insertTable, if_pos ⟨member.symm, rfl⟩]
  · exact sound.single.append (nodup_singleton _) (disjoint_singleton.mpr single)

theorem Sound.born_job {c : JobId} {chain : List JobId} (sound : Sound (some c) w) (none_ : w.job c = none)
    (up : Upward w p chain) (room : chain.length < jobDepthMax) (issued : w.Issued .child c)
    (unreserved : ∀ r ∈ w.reservations, r.kind = .child → r.id ≠ c) :
    Sound (some c) (w.setJob c ⟨some p, .new, false, false⟩) := by
  have other : ∀ {i x}, w.job i = some x → i ≠ c := by
    rintro i x there rfl
    cases none_.symm.trans there
  have keeps : ∀ {i} {P : Job → Prop}, (∃ x, w.job i = some x ∧ P x) →
      ∃ x, (w.setJob c ⟨some p, .new, false, false⟩).job i = some x ∧ P x :=
    fun there => exists_setJob there fun same => (other there.choose_spec.1 same).elim
  have ext : Extends w (w.setJob c ⟨some p, .new, false, false⟩) := fun i x there => keeps ⟨x, there, rfl⟩
  have empty : ∀ kind id, ((JobInner.new).table kind).find id = none := by
    intro kind id
    cases kind <;> rfl
  refine ⟨keeps sound.root, ?_, ?_, ?_, ?_, ?_, ?_, fun r inside => keeps (sound.reserved r inside), sound.distinct, ?_,
    fun e inside => keeps (sound.processes e inside), sound.single, ?_, sound.cursors,
    fun cursor inside => keeps (sound.completes cursor inside), ?_, ?_, sound.words, ?_,
    fun i inside => keeps (sound.barred i inside), sound.barrier_mono ext⟩
  · intro i x there
    rcases setJob_cases there with ⟨rfl, rfl⟩ | ⟨_, there⟩
    · refine ⟨chain ++ [i], .child setJob_self rfl (up.mono ext), ?_⟩
      rw [length_append]
      exact room
    · obtain ⟨chain', up', length⟩ := sound.depth i x there
      exact ⟨chain', up'.mono ext, length⟩
  · exact forall_setJob nofun sound.closed
  · exact forall_setJob nofun sound.freed
  · intro p' above c' there free inside
    rcases setJob_cases there with ⟨rfl, rfl⟩ | ⟨_, there⟩
    · cases inside
    · exact keeps (sound.listed p' above c' there free inside)
  · intro c' x p' there free parent history
    rcases setJob_cases there with ⟨rfl, _⟩ | ⟨_, there⟩
    · exact (free rfl).elim
    · exact keeps (sound.attached c' x p' there free parent history)
  · intro c' x p' above there free parent history above_
    rcases setJob_cases there with ⟨rfl, _⟩ | ⟨_, there⟩
    · exact (free rfl).elim
    · rcases setJob_cases above_ with ⟨rfl, rfl⟩ | ⟨_, above_⟩
      · exact empty .child c'
      · exact sound.gone c' x p' above there free parent history above_
  · intro r inside child
    obtain ⟨unborn, chain', up', length⟩ := sound.unborn r inside child
    exact ⟨(setJob_ne (unreserved r inside child)).trans unborn, chain', up'.mono ext, length⟩
  · intro gate inside
    obtain ⟨up', live, length⟩ := sound.gates gate inside
    exact ⟨up'.mono ext, fun i there => keeps (live i there), length⟩
  · intro i x there
    rcases setJob_cases there with ⟨rfl, rfl⟩ | ⟨_, there⟩
    · refine .alive rfl rfl (fun cursor inside same => ?_) ?_
      · obtain ⟨y, there', _⟩ := sound.completes cursor inside
        exact other there' same
      · refine filter_eq_nil_iff.mpr fun mark inside completes => ?_
        exact sound.born mark inside i (.inl completes) none_
    · exact (sound.accounted i x there).frame rfl rfl rfl (fun _ _ => Iff.rfl) rfl
  · exact forall_setJob ⟨issued, fun kind id some_ => (some_ (empty kind id)).elim⟩ sound.issued
  · intro mark inside i which gone
    obtain ⟨x, there⟩ := Option.ne_none_iff_exists'.mp (sound.born mark inside i which)
    obtain ⟨_, there', _⟩ := ext i x there
    cases gone.symm.trans there'

theorem commitChild_sound (sound : Sound none w) (owned : Owned w r job) (child : r.kind = .child) :
    Sound none ((w.setJob r.owner { job with state := job.state.insert r.kind r.id .committed }).setJob r.id
      ⟨some r.owner, .new, false, false⟩) := by
  obtain ⟨none_, _, up, room⟩ := owned.unborn child
  have apart : r.owner ≠ r.id := by
    intro same
    rw [← same, owned.found] at none_
    cases none_
  have listed : Sound (some r.id) (w.setJob r.owner { job with state := job.state.insert r.kind r.id .committed }) := by
    refine owned.setState (sound.take r.id) (fun _ => .inl rfl) setTable_dead setTable_isSealed fun kind id other => ?_
    rw [find_insertTable, if_neg fun same => other (Prod.mk.injEq _ _ _ _ ▸ same)]
  have issued : w.Issued .child r.id := by
    refine child ▸ (sound.issued r.owner job owned.found).2 r.kind r.id ?_
    rw [owned.entry]
    nofun
  have unlisted : ∀ {p above}, w.job p = some above → above.state.children.find r.id ≠ some .committed := by
    intro p above there inside
    obtain ⟨x, born, _⟩ := sound.listed p above r.id there nofun inside
    cases none_.symm.trans born
  have after := listed.born_job ((setJob_ne apart.symm).trans none_) (up.mono (extends_setJob owned.found rfl)) room issued
    (fun other inside kind same => owned.others other inside (by rw [kind, child, same]))
  refine after.put (fun p above there inside => ?_) (fun x p there parent _ => ?_) fun _ _ _ _ _ gone _ =>
    (sound.born _ gone r.id (.inl (beq_self_eq_true r.id)) none_).elim
  · rcases setJob_cases there with ⟨rfl, rfl⟩ | ⟨_, there⟩
    · cases inside
    · rcases setJob_cases there with ⟨rfl, rfl⟩ | ⟨_, there⟩
      · refine ⟨_, setJob_self, rfl, rfl, fun gone => ?_⟩
        exact sound.born _ gone r.id (.inl (beq_self_eq_true r.id)) none_
      · exact (unlisted there inside).elim
  · rcases setJob_cases there with ⟨_, rfl⟩ | ⟨ne, _⟩
    · cases parent
      refine ⟨_, (setJob_ne apart).trans setJob_self, ?_⟩
      show ((job.state.setTable _ r.kind).table .child).find r.id = _
      rw [find_insertTable, if_pos ⟨child.symm, rfl⟩]
    · exact (ne rfl).elim

theorem commit_sound (sound : Sound none w) (owned : Owned w r job) : ∃ next, w.commit r = .ok next ∧ Sound none next := by
  simp only [World.commit, owned.found, owned.commit, ok_bind]
  refine ⟨_, rfl, ?_⟩
  split
  · rename_i member
    exact commitMember_sound sound owned member (sound.unlisted owned.found (by rw [owned.entry]; nofun) member)
  · rename_i child
    exact commitChild_sound sound owned child

theorem remove_eq (entry : (state.table kind).find id = some .committed) :
    state.remove kind id = .ok (state.erase kind id).completeIfReady := by
  simp only [JobInner.remove, entry, expect, ok_bind, beq_self_eq_true, assertThat, if_true]
  rfl

theorem Sound.alive_of_entry {entry : Entry} (sound : Sound hand w) (found : w.job j = some job)
    (inside : (job.state.table kind).find id = some entry) : job.state.dead = false ∧ job.freed = false := by
  have alive : job.state.dead = false := by
    cases dead : job.state.dead with
    | false => rfl
    | true => cases inside.symm.trans ((sound.closed j job found dead).2 kind id)
  exact ⟨alive, sound.live found alive⟩

theorem Sound.eraseCommitted (sound : Sound hand w) (found : w.job j = some job)
    (entry : (job.state.table kind).find id = some .committed) (free : kind = .child → hand = some id)
    (gone : kind = .member → (j, id) ∉ w.processes) :
    Sound hand (w.setJob j { job with state := job.state.erase kind id }) := by
  obtain ⟨alive, _⟩ := sound.alive_of_entry found entry
  refine sound.setState found setTable_dead (fun barred => setTable_isSealed.trans barred)
    (fun dead => nomatch alive.symm.trans (setTable_dead.symm.trans dead)) (sound.serves found fun other c => ?_)
  rw [find_eraseTable]
  split
  · rename_i here
    obtain ⟨rfl, rfl⟩ := here
    exact .inr ⟨fun child => .inl (free child), sound.unreserved found (by rw [entry]; nofun), gone,
      (sound.issued j job found).2 _ _ (by rw [entry]; nofun), fun _ => .inr rfl⟩
  · exact .inl rfl

theorem finish_setJob {a : Job} (sound : Sound hand (w.setJob j a)) :
    Sound hand (if a.state.completeIfReady.1 then (w.setJob j { a with state := a.state.completeIfReady.2 }).complete j
      else w.setJob j { a with state := a.state.completeIfReady.2 }) := by
  have after := sound.finish setJob_self
  rwa [setJob_setJob] at after

theorem removeMember_sound {pid : Pid} (sound : Sound none w) (found : w.job j = some job)
    (entry : job.state.members.find pid = some .committed) (gone : (j, pid) ∉ w.processes) :
    ∃ next, w.removeMember j pid = .ok next ∧ Sound none next := by
  have entry : (job.state.table .member).find pid = some .committed := entry
  obtain ⟨_, live⟩ := sound.alive_of_entry found entry
  have erased := sound.eraseCommitted found entry nofun fun _ => gone
  simp only [World.removeMember, upgrade_eq found live, expect, ok_bind, remove_eq entry]
  exact ⟨_, rfl, finish_setJob erased⟩

theorem close_sound (sound : Sound none w) : Sound none (w.close j) := by
  unfold World.close
  split
  · exact sound
  · rename_i job upgraded
    obtain ⟨found, live⟩ := upgrade_some upgraded
    split
    · exact sound
    · rename_i alive
      have sealed_ : Sound none (w.setJob j { job with state := { job.state with isSealed := true } }) := by
        have tables : ∀ kind, JobInner.table { job.state with isSealed := true } kind = job.state.table kind := by
          intro kind
          cases kind <;> rfl
        exact sound.setState found rfl (fun _ => rfl) (fun dead => (alive dead).elim)
          (sound.serves found fun kind id => .inl (by rw [tables]))
      have noted : Sound none ((w.setJob j { job with state := { job.state with isSealed := true } }).note (.closing j)) := by
        refine sealed_.note (fun _ => rfl) nofun (fun i same => ?_) fun _ _ _ _ _ _ admitted => nomatch admitted
        cases same
        exact ⟨_, setJob_self, rfl⟩
      exact finish_setJob (w := w.note (.closing j)) noted

structure Taken (w : World) (cursor : CompletionCursor) (cursors : List CompletionCursor) (job : Job) : Prop where
  found : w.job cursor.child = some job
  live : job.freed = false
  dead : job.state.dead = true
  closed : job.closed = cursor.published
  marks : w.marks cursor.child = if cursor.published then [.died cursor.child, .closed cursor.child]
    else [.died cursor.child]
  idle : ∀ other ∈ cursors, other.child ≠ cursor.child
  others : ∀ other, other.child ≠ cursor.child → (other ∈ cursors ↔ other ∈ w.cursors)
  distinct : (cursors.map CompletionCursor.child).Nodup

theorem Sound.takeCursor {index : Nat} {cursor : CompletionCursor} (sound : Sound none w)
    (at_ : w.cursors[index]? = some cursor) : ∃ job, Taken w cursor (w.cursors.eraseIdx index) job := by
  have inside := mem_of_getElem? at_
  obtain ⟨job, found, live⟩ := sound.completes cursor inside
  have state : job.state.dead = true ∧ job.closed = cursor.published ∧ w.marks cursor.child =
      if cursor.published then [.died cursor.child, .closed cursor.child] else [.died cursor.child] := by
    cases sound.accounted cursor.child job found with
    | alive _ _ idle | removed _ _ idle | root _ _ idle => exact (idle cursor inside rfl).elim
    | died dead published there marks | closed dead published there marks =>
      have same := congrArg CompletionCursor.published (inj_on_of_nodup_map sound.cursors there inside rfl)
      exact ⟨dead, published.trans same, by rw [← same]; exact marks⟩
  refine ⟨job, found, live, state.1, state.2.1, state.2.2, apart_of_eraseIdx sound.cursors at_, fun other apart => ?_, ?_⟩
  · obtain ⟨less, rfl⟩ := List.getElem?_eq_some_iff.mp at_
    rw [← (getElem_cons_eraseIdx_perm less).mem_iff, mem_cons]
    exact (or_iff_right fun same => apart (congrArg _ same)).symm
  · exact sound.cursors.sublist ((eraseIdx_sublist ..).map _)

end

end Halcyon.Jobs
