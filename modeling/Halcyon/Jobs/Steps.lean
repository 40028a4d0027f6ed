import Halcyon.Jobs.Sections

/-!
Every section of every call returns and keeps the invariant, so every run returns and ends in a sound state.
-/

namespace Halcyon.Jobs

open List World

section
variable {w : World} {j p : JobId} {job : Job} {hand : Option JobId} {state : JobInner}

theorem setJob_setJob {a b : Job} : (w.setJob j a).setJob j b = w.setJob j b := by
  unfold setJob
  congr 1
  funext i
  simp only
  split <;> rfl

theorem setJob_same (found : w.job j = some job) : w.setJob j job = w := by
  have same : (fun i => if i = j then some job else w.job i) = w.job := by
    funext i
    split
    · rename_i here
      rw [here, found]
    · rfl
  unfold setJob
  rw [same]

theorem Accounted.of_alive (accounted : Accounted w j job) (alive : job.state.dead = false) :
    job.closed = false ∧ w.Idle j ∧ w.marks j = [] := by
  cases accounted with
  | alive _ open_ idle marks => exact ⟨open_, idle, marks⟩
  | died dead | closed dead | removed dead | root dead => cases alive.symm.trans dead

theorem marks_concat (mark : Mark) (mine : mark.completes j = true) :
    (w.history ++ [mark]).filter (·.completes j) = w.marks j ++ [mark] := by
  rw [filter_append, filter_cons_of_pos mine]
  rfl

theorem mem_await {cursor : CompletionCursor} {cursors : List CompletionCursor} {published : Bool}
    (other : cursor.child ≠ j) : cursor ∈ cursors ++ [⟨j, published⟩] ↔ cursor ∈ cursors := by
  rw [mem_append, mem_singleton]
  exact or_iff_left fun same => other (congrArg _ same)

theorem Sound.live (sound : Sound hand w) (found : w.job j = some job) (alive : job.state.dead = false) :
    job.freed = false := by
  cases freed : job.freed with
  | false => rfl
  | true => cases alive.symm.trans (sound.freed j job found freed)

theorem Sound.complete (sound : Sound hand w) (found : w.job j = some job) (barred : job.state.isSealed = true)
    (alive : job.state.dead = false) (empty : ∀ kind id, (job.state.table kind).find id = none) :
    Sound hand ((w.setJob j { job with state := { job.state with dead := true } }).complete j) := by
  obtain ⟨open_, idle, marks⟩ := (sound.accounted j job found).of_alive alive
  have live := sound.live found alive
  refine sound.progress { job with state := { job.state with dead := true } } (w.cursors ++ [⟨j, false⟩]) [.died j]
    found rfl rfl (fun kind => ?_) rfl
    (fun _ => ⟨barred, empty⟩) (fun _ => rfl) ?_ ?_ (fun _ _ _ => live) ?_ ?_
  · cases kind <;> rfl
  · exact fun cursor other => mem_await other
  · exact nodup_map_concat sound.cursors idle
  · exact forall_mem_singleton.mpr ⟨beq_self_eq_true j, nofun⟩
  · refine .died rfl open_ (mem_append_right _ (mem_singleton_self _)) ?_
    exact (marks_concat (.died j) (beq_self_eq_true j)).trans (by rw [marks]; rfl)

theorem completeIfReady_cases (state : JobInner) :
    state.completeIfReady = (false, state) ∨ state.completeIfReady = (true, { state with dead := true }) ∧
      state.isSealed = true ∧ state.dead = false ∧ ∀ kind id, (state.table kind).find id = none := by
  unfold JobInner.completeIfReady
  split
  · rename_i ready
    simp only [Bool.and_eq_true, Bool.not_eq_true', beq_iff_eq] at ready
    obtain ⟨⟨⟨barred, alive⟩, members⟩, children⟩ := ready
    refine .inr ⟨rfl, barred, alive, fun kind id => ?_⟩
    cases kind with
    | member => exact SortedMap.size_eq_zero_iff.mp members id
    | child => exact SortedMap.size_eq_zero_iff.mp children id
  · exact .inl rfl

theorem Sound.finish (sound : Sound hand w) (found : w.job j = some job) : Sound hand (if job.state.completeIfReady.1 then
      (w.setJob j { job with state := job.state.completeIfReady.2 }).complete j
      else w.setJob j { job with state := job.state.completeIfReady.2 }) := by
  rcases completeIfReady_cases job.state with same | ⟨ready, barred, alive, empty⟩
  · rw [same, if_neg Bool.false_ne_true, setJob_same found]
    exact sound
  · rw [ready, if_pos rfl]
    exact sound.complete found barred alive empty

variable {chain : List JobId} {id : Nat} {kind other : Kind} {table : SortedMap Nat Entry} {allocates : Bool}
    {r : Reservation}

theorem collectChain_ok {room : Nat} (h : w.collectChain room j = .ok chain) :
    Upward w j chain ∧ (∀ i ∈ chain, ∃ job, w.job i = some job ∧ job.freed = false) ∧ chain.length ≤ room := by
  induction room generalizing j chain with
  | zero => exact (fail_ne_ok h).elim
  | succ room ih =>
    obtain ⟨job, upgraded, h⟩ := bind_ok h
    obtain ⟨found, live⟩ := upgrade_some (okOr_ok upgraded)
    have here : ∀ i ∈ [j], ∃ job, w.job i = some job ∧ job.freed = false := forall_mem_singleton.mpr ⟨job, found, live⟩
    split at h
    · rename_i top
      cases pure_ok h
      exact ⟨.root found top, here, Nat.succ_le_succ (Nat.zero_le _)⟩
    · rename_i parent below
      obtain ⟨above, collected, h⟩ := bind_ok h
      cases pure_ok h
      obtain ⟨up, alive, length⟩ := ih collected
      refine ⟨.child found below up, forall_mem_append.mpr ⟨alive, here⟩, ?_⟩
      rw [length_append]
      exact Nat.succ_le_succ length

theorem collect_sound {purpose : Purpose} {memory : Bool} (sound : Sound none w) :
    Sound none (w.collect purpose j memory) := by
  unfold collect
  split
  · rename_i chain collected
    obtain ⟨up, live, _⟩ := collectChain_ok collected
    split
    · exact sound
    · split
      · exact sound
      · rename_i room
        refine sound.calls rfl rfl rfl (fun _ _ issued => issued) sound.words (fun _ inside => .inl inside)
          sound.distinct (fun _ inside => .inl inside) sound.single (forall_mem_concat (fun _ => .inl) (.inr ?_))
        exact ⟨up, live, fun child => Nat.lt_of_not_le fun full => room ⟨child, full⟩⟩
  · exact sound

theorem allocate_some {next id after : Nat} (h : allocate next = some (id, after)) (word : next < 2 ^ 64) :
    id = next ∧ next ≠ 0 ∧ after < 2 ^ 64 ∧ (after = 0 ∨ after = next + 1) := by
  unfold allocate at h
  split at h
  · cases h
  · rename_i some_
    cases h
    refine ⟨rfl, some_, Nat.mod_lt _ (by decide), ?_⟩
    rcases Nat.lt_or_eq_of_le (Nat.succ_le_of_lt word) with small | last
    · exact .inr (Nat.mod_eq_of_lt small)
    · exact .inl (by rw [show next + 1 = 2 ^ 64 from last, Nat.mod_self])

theorem allocateId_some {next : World} (sound : Sound none w) (h : w.allocateId kind = some (id, next)) :
    Sound none next ∧ next.job = w.job ∧ next.reservations = w.reservations ∧ ¬ w.Issued kind id ∧ next.Issued kind id := by
  cases kind with
  | member =>
    obtain ⟨⟨id', after⟩, taken, same⟩ := Option.map_eq_some_iff.mp h
    cases same
    obtain ⟨rfl, some_, word, grows⟩ := allocate_some taken sound.words.2
    refine ⟨sound.counts _ (fun kind id issued => ?_) ⟨sound.words.1, word⟩, rfl, rfl, ?_, ?_⟩
    · cases kind with
      | member =>
        simp only [World.Issued] at issued ⊢
        omega
      | child => exact issued
    all_goals
      simp only [World.Issued]
      omega
  | child =>
    obtain ⟨⟨_, _⟩, taken, same⟩ := Option.map_eq_some_iff.mp h
    cases same
    obtain ⟨rfl, _, word, _⟩ := allocate_some taken sound.words.1
    refine ⟨sound.counts _ (fun kind id issued => ?_) ⟨word, sound.words.2⟩, rfl, rfl, ?_, ?_⟩
    · cases kind with
      | child =>
        simp only [World.Issued] at issued ⊢
        omega
      | member => exact issued
    all_goals
      simp only [World.Issued]
      omega

abbrev JobInner.insert (state : JobInner) (kind : Kind) (id : Nat) (entry : Entry) : JobInner :=
  state.setTable ((state.table kind).insert id entry) kind

abbrev JobInner.erase (state : JobInner) (kind : Kind) (id : Nat) : JobInner :=
  state.setTable ((state.table kind).erase id) kind

theorem table_setTable : (state.setTable table kind).table other = if other = kind then table else state.table other := by
  cases kind <;> cases other <;> rfl

theorem find_insertTable {c : Nat} {entry : Entry} : ((state.insert kind id entry).table other).find c =
      if other = kind ∧ c = id then some entry else (state.table other).find c := by
  rw [table_setTable]
  by_cases same : other = kind
  · rw [if_pos same, SortedMap.find_insert, same]
    simp
  · simp [same]

theorem find_eraseTable {c : Nat} : ((state.erase kind id).table other).find c =
      if other = kind ∧ c = id then none else (state.table other).find c := by
  rw [table_setTable]
  by_cases same : other = kind
  · rw [if_pos same, SortedMap.find_erase, same]
    simp
  · simp [same]

theorem setTable_dead : (state.setTable table kind).dead = state.dead := by
  cases kind <;> rfl

theorem setTable_isSealed : (state.setTable table kind).isSealed = state.isSealed := by
  cases kind <;> rfl

theorem tryInsert_eq {token : Nat} (absent : (state.table kind).find id = none) :
    state.tryInsert kind id token allocates = if (state.table kind).size = jobDirectEntryLimit then fail .reachLimit
      else if allocates then .ok (state.insert kind id (.reserved token)) else fail .outOfMemory := by
  simp only [JobInner.tryInsert, absent]
  by_cases full : (state.table kind).size = jobDirectEntryLimit
  · simp only [full, refuseIf, beq_self_eq_true, if_true]
    rfl
  · cases allocates <;> simp [full, refuseIf, assertThat, ok_bind, fail]

theorem Sound.unreserved (sound : Sound hand w) (found : w.job j = some job)
    (other : ∀ token, (job.state.table kind).find id ≠ some (.reserved token)) :
    ∀ r ∈ w.reservations, r.owner = j → (r.kind, r.id) ≠ (kind, id) := by
  intro r inside owner same
  obtain ⟨_, there, _, entry⟩ := sound.reserved r inside
  rw [owner, found] at there
  cases there
  obtain ⟨rfl, rfl⟩ := Prod.mk.inj same
  exact other _ entry

theorem Sound.unlisted (sound : Sound hand w) (found : w.job j = some job)
    (other : (job.state.table kind).find id ≠ some .committed) : kind = .member → (j, id) ∉ w.processes := by
  rintro rfl inside
  obtain ⟨_, there, entry⟩ := sound.processes _ inside
  cases found.symm.trans there
  exact other entry

theorem Sound.insertReserved (token : Nat) (sound : Sound none w) (found : w.job j = some job)
    (alive : job.state.dead = false) (absent : (job.state.table kind).find id = none) (issued : w.Issued kind id)
    (unborn : kind = .child → w.job id = none) :
    Sound none (w.setJob j { job with state := job.state.insert kind id (.reserved token) }) := by
  refine sound.setState found setTable_dead (fun barred => setTable_isSealed.trans barred)
    (fun dead => nomatch alive.symm.trans (setTable_dead.symm.trans dead)) (sound.serves found fun other c => ?_)
  rw [find_insertTable]
  split
  · rename_i here
    obtain ⟨rfl, rfl⟩ := here
    rw [absent]
    exact .inr ⟨fun _ => .inr ⟨nofun, nofun⟩, sound.unreserved found (by rw [absent]; nofun),
      sound.unlisted found (by rw [absent]; nofun), issued, fun child => .inl (unborn child)⟩
  · exact .inl rfl

section

variable (sound : Sound none w)
include sound

theorem Sound.admitted (up : Upward w j chain)
    (open_ : ∀ i ∈ chain, ∀ job, w.job i = some job → job.state.isSealed = false) :
    Sound none (w.note (.admitted j)) := by
  refine sound.note (fun _ => rfl) (fun i same none_ => ?_) nofun fun first inside top i chain' closing admitted up' => ?_
  · cases same
    obtain ⟨x, there⟩ := up.found
    cases none_.symm.trans there
  · cases admitted
    cases up.unique up'
    obtain ⟨x, there, barred⟩ := sound.barred top (closing ▸ inside)
    intro above
    cases barred.symm.trans (open_ top above x there)

theorem Sound.holds {token : Nat} (found : w.job j = some job) (live : job.freed = false)
    (entry : (job.state.table kind).find id = some (.reserved token))
    (fresh : ∀ r ∈ w.reservations, (r.kind, r.id) ≠ (kind, id))
    (unborn : kind = .child → w.job id = none ∧ chain.length < jobDepthMax) (up : Upward w j chain) :
    Sound none (w.hold ⟨kind, j, id, token⟩) := by
  refine sound.calls rfl rfl rfl (fun _ _ issued => issued) sound.words
    (forall_mem_concat (fun _ => .inl) (.inr ⟨⟨job, found, live, entry⟩, fun child => ?_⟩)) ?_
    (fun _ inside => .inl inside) sound.single fun _ inside => .inl inside
  · exact ⟨(unborn child).1, chain, up, (unborn child).2⟩
  · exact nodup_map_concat sound.distinct fresh

theorem reserve_sound (up : Upward w j chain) (room : kind = .child → chain.length < jobDepthMax)
    (open_ : ∀ i ∈ chain, ∀ job, w.job i = some job → job.freed = false ∧ job.state.isSealed = false) :
    ∃ next, w.reserve kind j allocates = .ok next ∧ Sound none next := by
  unfold reserve
  cases tokens : allocate w.nextToken with
  | none => exact ⟨w, rfl, sound⟩
  | some taken =>
    obtain ⟨token, nextToken⟩ := taken
    have counted := sound.counts nextToken (fun _ _ issued => issued) sound.words
    simp only
    cases ids : { w with nextToken }.allocateId kind with
    | none => exact ⟨_, rfl, counted⟩
    | some taken =>
      obtain ⟨id, after⟩ := taken
      obtain ⟨sound', jobs, reservations, fresh, issued⟩ := allocateId_some counted ids
      obtain ⟨job, found⟩ := up.found
      obtain ⟨live, closing⟩ := open_ j up.self_mem job found
      have unused : ∀ {i x}, w.job i = some x → (x.state.table kind).find id = none := by
        intro i x there
        by_contra some_
        exact fresh ((counted.issued i x there).2 kind id some_)
      have found' := jobs ▸ found
      simp only [found', tryInsert_eq (unused found)]
      split
      · exact ⟨_, rfl, sound'⟩
      · split
        · refine ⟨_, rfl, ?_⟩
          have alive : job.state.dead = false := by
            cases dead : job.state.dead with
            | false => rfl
            | true => cases closing.symm.trans (sound.closed j job found dead).1
          have unborn : kind = .child → w.job id = none := by
            rintro rfl
            cases there : w.job id with
            | none => rfl
            | some x => exact (fresh (counted.issued id x there).1).elim
          have inserted := sound'.insertReserved token found' alive (unused found) issued (jobs ▸ unborn)
          have ext : Extends w (after.setJob j { job with state := job.state.insert kind id (.reserved token) }) := by
            intro i x there
            refine extends_setJob found' ?_ i x (jobs ▸ there)
            rfl
          have held := inserted.holds setJob_self live (by rw [find_insertTable, if_pos ⟨rfl, rfl⟩])
            (fun r inside same => ?_) (fun child => ⟨?_, room child⟩) (up.mono ext)
          · refine held.admitted (up.mono fun i x there => ext i x there) fun i above x there => ?_
            rcases setJob_cases there with ⟨rfl, rfl⟩ | ⟨_, there⟩
            · exact setTable_isSealed.trans closing
            · exact (open_ i above x (jobs ▸ there)).2
          · obtain ⟨_, there, _, entry⟩ := counted.reserved r (reservations ▸ inside)
            obtain ⟨rfl, rfl⟩ := Prod.mk.inj same
            cases (unused there).symm.trans entry
          · rw [setJob_ne fun same => ?_]
            · rw [jobs]
              exact unborn child
            · have none_ := unborn child
              rw [same, found] at none_
              cases none_
        · exact ⟨_, rfl, sound'⟩

theorem admit_sound {gate : Gate} {memory begins : Bool}
    (up : Upward w gate.owner gate.chain) (live : ∀ j ∈ gate.chain, ∃ job, w.job j = some job ∧ job.freed = false)
    (room : gate.purpose = .reserve .child → gate.chain.length < jobDepthMax) :
    ∃ next, w.admitGate gate memory allocates begins = .ok next ∧ Sound none next := by
  unfold admitGate
  split
  · exact ⟨w, rfl, sound⟩
  · split
    · exact ⟨w, rfl, sound⟩
    · rename_i none_
      have open_ : ∀ i ∈ gate.chain, ∀ job, w.job i = some job → job.freed = false ∧ job.state.isSealed = false := by
        intro i above job there
        obtain ⟨x, there', live⟩ := live i above
        cases there.symm.trans there'
        refine ⟨live, Bool.eq_false_of_not_eq_true fun barred => none_ ?_⟩
        exact any_eq_true.mpr ⟨i, above, by rw [there]; exact barred⟩
      split
      · rename_i kind which
        exact reserve_sound sound up (fun child => room (by rw [which, child])) open_
      · refine ⟨_, rfl, ?_⟩
        split
        · exact sound.admitted up fun i above job there => (open_ i above job there).2
        · exact sound

end

/-- What a reservation that has just been taken from the list says about its owner. -/
structure Owned (w : World) (r : Reservation) (job : Job) : Prop where
  found : w.job r.owner = some job
  live : job.freed = false
  entry : (job.state.table r.kind).find r.id = some (.reserved r.token)
  others : ∀ other ∈ w.reservations, (other.kind, other.id) ≠ (r.kind, r.id)
  unborn : r.kind = .child → w.job r.id = none ∧ ∃ chain, Upward w r.owner chain ∧ chain.length < jobDepthMax

theorem Sound.takeReservation {index : Nat} (sound : Sound none w) (found : w.reservations[index]? = some r) :
    Sound none { w with reservations := w.reservations.eraseIdx index } ∧
      ∃ job, Owned { w with reservations := w.reservations.eraseIdx index } r job := by
  have after : Sound none { w with reservations := w.reservations.eraseIdx index } :=
    sound.fewer (List.Sublist.refl _) (eraseIdx_sublist _ _) (List.Sublist.refl _)
  have inside := mem_of_getElem? found
  obtain ⟨job, owner, live, entry⟩ := sound.reserved r inside
  refine ⟨after, job, owner, live, entry, apart_of_eraseIdx sound.distinct found, fun child => ?_⟩
  obtain ⟨none_, chain, up, length⟩ := sound.unborn r inside child
  exact ⟨none_, chain, up.mono fun i x there => ⟨x, there, rfl⟩, length⟩

section

variable (owned : Owned w r job)
include owned

theorem Owned.alive (sound : Sound hand w) : job.state.dead = false := by
  cases dead : job.state.dead with
  | false => rfl
  | true => cases owned.entry.symm.trans ((sound.closed r.owner job owned.found dead).2 r.kind r.id)

theorem Owned.setState {state' : JobInner} (sound : Sound hand w)
    (free : r.kind = .child → hand = some r.id ∨ (state'.table .child).find r.id ≠ some .committed)
    (dead : state'.dead = job.state.dead) (closing : state'.isSealed = job.state.isSealed)
    (others : ∀ kind id, (kind, id) ≠ (r.kind, r.id) → (state'.table kind).find id = (job.state.table kind).find id) :
    Sound hand (w.setJob r.owner { job with state := state' }) := by
  refine sound.setState owned.found dead (fun barred => closing.trans barred)
    (fun gone => nomatch (owned.alive sound).symm.trans (dead.symm.trans gone)) (sound.serves owned.found fun kind id => ?_)
  by_cases same : (kind, id) = (r.kind, r.id)
  · obtain ⟨rfl, rfl⟩ := Prod.mk.inj same
    refine .inr ⟨fun child => (free child).imp_right fun other => ⟨child ▸ other, by rw [owned.entry]; nofun⟩,
      fun other inside _ => owned.others other inside, sound.unlisted owned.found (by rw [owned.entry]; nofun), ?_,
      fun child => .inl (owned.unborn child).1⟩
    exact (sound.issued r.owner job owned.found).2 r.kind r.id (by rw [owned.entry]; nofun)
  · exact .inl (others kind id same)

theorem Owned.commit : job.state.commit r.kind r.id r.token = .ok (job.state.insert r.kind r.id .committed) := by
  simp only [JobInner.commit, owned.entry, expect, ok_bind, beq_self_eq_true, assertThat, if_true]
  rfl

theorem Owned.rollback : job.state.rollback r.kind r.id r.token = .ok (job.state.erase r.kind r.id) := by
  simp only [JobInner.rollback, owned.entry, expect, ok_bind, beq_self_eq_true, assertThat, if_true]
  rfl

end

theorem rollback_sound (sound : Sound none w) (owned : Owned w r job) :
    ∃ next, w.rollback r = .ok next ∧ Sound none next := by
  refine ⟨w.setJob r.owner { job with state := job.state.erase r.kind r.id }, ?_, ?_⟩
  · simp only [rollback, owned.found, owned.rollback, ok_bind]
    rfl
  · refine owned.setState sound (fun child => .inr ?_) setTable_dead setTable_isSealed fun kind id other => ?_
    · rw [find_eraseTable, if_pos ⟨child.symm, rfl⟩]
      nofun
    · rw [find_eraseTable, if_neg fun same => other (Prod.mk.injEq _ _ _ _ ▸ same)]

end

end Halcyon.Jobs
