import Halcyon.Jobs.World

/-!
The invariant under the parts of a section: a job's state changes, a call comes or goes, a mark is made, a job completes.
-/

namespace Halcyon.Jobs

open List World

section
variable {w : World} {j p : JobId} {job : Job} {hand : Option JobId} {state : JobInner}

theorem setJob_cases {job' x : Job} {i : JobId} (h : (w.setJob j job').job i = some x) :
    i = j ∧ x = job' ∨ i ≠ j ∧ w.job i = some x := by
  simp only [World.setJob] at h
  split at h
  · rename_i same
    cases h
    exact .inl ⟨same, rfl⟩
  · rename_i ne
    exact .inr ⟨ne, h⟩

variable {job' : Job}

theorem setJob_self : (w.setJob j job').job j = some job' := if_pos rfl

theorem setJob_ne {i : JobId} (ne : i ≠ j) : (w.setJob j job').job i = w.job i := if_neg ne

theorem forall_setJob {P : JobId → Job → Prop} (new : P j job') (old : ∀ i x, w.job i = some x → P i x) :
    ∀ i x, (w.setJob j job').job i = some x → P i x := by
  intro i x there
  rcases setJob_cases there with ⟨rfl, rfl⟩ | ⟨_, there⟩
  · exact new
  · exact old i x there

theorem exists_setJob {P : Job → Prop} {i : JobId} (there : ∃ x, w.job i = some x ∧ P x) (new : i = j → P job') :
    ∃ x, (w.setJob j job').job i = some x ∧ P x := by
  obtain ⟨x, there, holds⟩ := there
  by_cases same : i = j
  · exact ⟨job', if_pos same, new same⟩
  · exact ⟨x, (setJob_ne same).trans there, holds⟩

theorem extends_setJob (found : w.job j = some job) (parent : job'.parent = job.parent) : Extends w (w.setJob j job') := by
  intro i x there
  refine exists_setJob ⟨x, there, rfl⟩ fun same => ?_
  subst same
  cases found.symm.trans there
  exact parent

theorem upgrade_some (h : w.upgrade j = some job) : w.job j = some job ∧ job.freed = false := by
  obtain ⟨found, live⟩ := Option.filter_eq_some_iff.mp h
  exact ⟨found, by simpa using live⟩

theorem upgrade_eq (found : w.job j = some job) (live : job.freed = false) : w.upgrade j = some job :=
  Option.filter_eq_some_iff.mpr ⟨found, by simp [live]⟩

variable {next : World}

theorem Accounted.frame (accounted : Accounted w j job)
    (dead : job'.state.dead = job.state.dead) (closed : job'.closed = job.closed) (parent : job'.parent = job.parent)
    (cursors : ∀ cursor, cursor.child = j → (cursor ∈ next.cursors ↔ cursor ∈ w.cursors))
    (marks : next.marks j = w.marks j) : Accounted next j job' := by
  have idle : w.Idle j → next.Idle j := fun idle cursor inside same => idle cursor ((cursors cursor same).mp inside) same
  cases accounted with
  | alive state open_ none_ history => exact .alive (dead.trans state) (closed.trans open_) (idle none_) (marks.trans history)
  | died state open_ inside history =>
    exact .died (dead.trans state) (closed.trans open_) ((cursors _ rfl).mpr inside) (marks.trans history)
  | closed state done inside history =>
    exact .closed (dead.trans state) (closed.trans done) ((cursors _ rfl).mpr inside) (marks.trans history)
  | removed state done none_ child history =>
    exact .removed (dead.trans state) (closed.trans done) (idle none_) (by rw [parent]; exact child) (marks.trans history)
  | root state done none_ top history =>
    exact .root (dead.trans state) (closed.trans done) (idle none_) (parent.trans top) (marks.trans history)

theorem Sound.upward (sound : Sound hand w) (found : w.job j ≠ none) : ∃ chain, Upward w j chain := by
  obtain ⟨job, found⟩ := Option.ne_none_iff_exists'.mp found
  obtain ⟨chain, up, _⟩ := sound.depth j job found
  exact ⟨chain, up⟩

theorem Sound.apart_mono (sound : Sound hand w) {first second : Mark} (ext : Extends w next)
    (born : ∀ j, second = .admitted j → w.job j ≠ none) (apart : w.Apart first second) : next.Apart first second := by
  intro top j chain closing admitted up
  obtain ⟨chain', up'⟩ := sound.upward (born j admitted)
  rw [up.unique (up'.mono ext)]
  exact apart top j chain' closing admitted up'

theorem Sound.barrier_mono (sound : Sound hand w) (ext : Extends w next) : w.history.Pairwise next.Apart :=
  sound.barrier.imp_of_mem fun {_ b} _ inside apart =>
    sound.apart_mono ext (fun i admitted => sound.born b inside i (.inr admitted)) apart

structure World.Unheld (w : World) (j : JobId) : Prop where
  unlisted : ∀ p above, w.job p = some above → above.state.children.find j ≠ some .committed
  idle : w.Idle j
  chains : ∀ gate ∈ w.gates, j ∉ gate.chain
  owners : ∀ r ∈ w.reservations, r.owner ≠ j

/-- The tables of `state` have an entry for all that the world holds of the job, whose tables were those of `before`. -/
structure World.Serves (w : World) (hand : Option JobId) (j : JobId) (before state : JobInner) : Prop where
  listed : ∀ c, hand ≠ some c → (state.children.find c = some .committed ↔ before.children.find c = some .committed)
  reserved : ∀ r ∈ w.reservations, r.owner = j → (state.table r.kind).find r.id = some (.reserved r.token)
  processes : ∀ pid, (j, pid) ∈ w.processes → state.members.find pid = some .committed
  issued : ∀ kind id, (state.table kind).find id ≠ none → w.Issued kind id
  gone : ∀ c, w.job c ≠ none → before.children.find c = none → state.children.find c = none

/-- Nobody who may look for it holds the entry, which is `before` and becomes `after`. -/
structure World.Loose (w : World) (hand : Option JobId) (j : JobId) (kind : Kind) (id : Nat) (before after : Option Entry) :
    Prop where
  listed : kind = .child → hand = some id ∨ after ≠ some .committed ∧ before ≠ some .committed
  reserved : ∀ r ∈ w.reservations, r.owner = j → (r.kind, r.id) ≠ (kind, id)
  processes : kind = .member → (j, id) ∉ w.processes
  issued : w.Issued kind id
  gone : kind = .child → w.job id = none ∨ after = none

theorem Sound.serves (sound : Sound hand w) (found : w.job j = some job)
    (entries : ∀ kind id, (state.table kind).find id = (job.state.table kind).find id ∨
      w.Loose hand j kind id ((job.state.table kind).find id) ((state.table kind).find id)) :
    w.Serves hand j job.state state := by
  refine ⟨fun c apart => ?_, fun r inside owner => ?_, fun pid inside => ?_, fun kind id some_ => ?_, fun c born none_ => ?_⟩
  · show (state.table .child).find c = _ ↔ (job.state.table .child).find c = _
    rcases entries .child c with same | loose
    · rw [same]
    · obtain inHand | ⟨after, before⟩ := loose.listed rfl
      · exact (apart inHand).elim
      · exact iff_of_false after before
  · obtain ⟨x, there, _, entry⟩ := sound.reserved r inside
    rw [owner, found] at there
    cases there
    rcases entries r.kind r.id with same | loose
    · exact same.trans entry
    · exact (loose.reserved r inside owner rfl).elim
  · obtain ⟨x, there, entry⟩ := sound.processes _ inside
    cases found.symm.trans there
    rcases entries .member pid with same | loose
    · exact same.trans entry
    · exact (loose.processes rfl inside).elim
  · rcases entries kind id with same | loose
    · exact (sound.issued j job found).2 kind id (same ▸ some_)
    · exact loose.issued
  · rcases entries .child c with same | loose
    · exact same.trans none_
    · exact (loose.gone rfl).resolve_left born

theorem Sound.change (sound : Sound hand w) (job' : Job) (cursors : List CompletionCursor) (marks : List Mark)
    (found : w.job j = some job) (parent : job'.parent = job.parent) (freed : job'.freed = job.freed ∨ w.Unheld j)
    (gone : job'.freed = true → job'.state.dead = true)
    (closed : job'.state.dead = true → job'.state.isSealed = true ∧ ∀ kind id, (job'.state.table kind).find id = none)
    (closing : job.state.isSealed = true → job'.state.isSealed = true) (serves : w.Serves hand j job.state job'.state)
    (others : ∀ cursor, cursor.child ≠ j → (cursor ∈ cursors ↔ cursor ∈ w.cursors))
    (distinct : (cursors.map CompletionCursor.child).Nodup)
    (live : ∀ cursor ∈ cursors, cursor.child = j → job'.freed = false)
    (mine : ∀ mark ∈ marks, mark.completes j = true ∧ (mark = .removed j → hand = some j))
    (accounted : Accounted ({ w with cursors, history := w.history ++ marks }.setJob j job') j job') :
    Sound hand ({ w with cursors, history := w.history ++ marks }.setJob j job') := by
  have ext : Extends w ({ w with cursors, history := w.history ++ marks }.setJob j job') :=
    fun i x there => extends_setJob found parent i x there
  have back : ∀ {i x}, ({ w with cursors, history := w.history ++ marks }.setJob j job').job i = some x →
      ∃ y, w.job i = some y ∧ x.parent = y.parent := by
    intro i x there
    rcases setJob_cases there with ⟨rfl, rfl⟩ | ⟨_, there⟩
    · exact ⟨job, found, parent⟩
    · exact ⟨x, there, rfl⟩
  -- a job that is held stays
  have stays : ∀ {i x}, w.job i = some x → x.freed = false → ¬w.Unheld i →
      ∃ y, ({ w with cursors, history := w.history ++ marks }.setJob j job').job i = some y ∧ y.parent = x.parent ∧
        y.freed = false := by
    intro i x there live holds
    by_cases same : i = j
    · subst same
      cases found.symm.trans there
      exact ⟨_, setJob_self, parent, (freed.resolve_right holds).trans live⟩
    · exact ⟨x, (setJob_ne same).trans there, rfl, live⟩
  have only : ∀ mark ∈ marks, ∀ i, mark.completes i = true → i = j := by
    intro mark inside i completes
    have own := (mine mark inside).1
    cases mark <;> simp_all [Mark.completes]
  have admits : ∀ mark ∈ marks, ∀ i, mark ≠ .admitted i := by
    rintro mark inside i rfl
    cases (mine _ inside).1
  have history : ∀ c, hand ≠ some c → (.removed c ∉ w.history ++ marks ↔ .removed c ∉ w.history) := by
    intro c free
    refine not_congr ⟨fun inside => ?_, fun inside => mem_append_left _ inside⟩
    rcases mem_append.mp inside with inside | new
    · exact inside
    · have same : c = j := only _ new c (by simp [Mark.completes])
      exact (free (same ▸ (mine _ new).2 (by rw [same]))).elim
  refine ⟨?_, ?_, ?_, ?_, ?_, ?_, ?_, ?_, sound.distinct, ?_, ?_, sound.single, ?_, distinct, ?_, ?_, ?_, sound.words, ?_, ?_,
    ?_⟩
  · obtain ⟨top, there, none_⟩ := sound.root
    obtain ⟨top', there', same⟩ := ext 1 top there
    exact ⟨top', there', same.trans none_⟩
  · intro i x there
    obtain ⟨y, there, _⟩ := back there
    obtain ⟨chain, up, length⟩ := sound.depth i y there
    exact ⟨chain, up.mono ext, length⟩
  · exact forall_setJob closed sound.closed
  · exact forall_setJob gone sound.freed
  · intro p above c there free inside
    have before : ∃ above', w.job p = some above' ∧ above'.state.children.find c = some .committed := by
      rcases setJob_cases there with ⟨rfl, rfl⟩ | ⟨_, there⟩
      · exact ⟨job, found, (serves.listed c free).mp inside⟩
      · exact ⟨above, there, inside⟩
    obtain ⟨above', there, inside⟩ := before
    obtain ⟨x, child, below, live, open_⟩ := sound.listed p above' c there free inside
    obtain ⟨y, child', same, live'⟩ := stays child live fun unheld => unheld.unlisted p above' there inside
    exact ⟨y, child', same.trans below, live', (history c free).mpr open_⟩
  · intro c x p there free below open_
    obtain ⟨y, there, same⟩ := back there
    obtain ⟨above, above_, inside⟩ := sound.attached c y p there free (same.symm.trans below) ((history c free).mp open_)
    refine exists_setJob ⟨above, above_, inside⟩ fun same => (serves.listed c free).mpr ?_
    subst same
    cases found.symm.trans above_
    exact inside
  · intro c x p above there free below removed above_
    obtain ⟨y, child, same⟩ := back there
    have removed := not_not.mp ((not_congr (history c free)).mp (not_not.mpr removed))
    have absent := fun above' => sound.gone c y p above' child free (same.symm.trans below) removed
    rcases setJob_cases above_ with ⟨rfl, rfl⟩ | ⟨_, above_⟩
    · exact serves.gone c (by rw [child]; nofun) (absent job found)
    · exact absent above above_
  · intro r inside
    obtain ⟨x, there, live, entry⟩ := sound.reserved r inside
    by_cases same : r.owner = j
    · obtain ⟨y, there', _, live'⟩ := stays there live fun unheld => unheld.owners r inside rfl
      rw [same] at there' ⊢
      cases setJob_self.symm.trans there'
      exact ⟨_, setJob_self, live', serves.reserved r inside same⟩
    · exact ⟨x, (setJob_ne same).trans there, live, entry⟩
  · intro r inside child
    obtain ⟨none_, chain, up, length⟩ := sound.unborn r inside child
    refine ⟨(setJob_ne fun same => ?_).trans none_, chain, up.mono ext, length⟩
    rw [same, found] at none_
    cases none_
  · exact fun e inside => exists_setJob (sound.processes e inside) fun same => serves.processes e.2 (same ▸ inside)
  · intro gate inside
    obtain ⟨up, live, length⟩ := sound.gates gate inside
    refine ⟨up.mono ext, fun i there => ?_, length⟩
    obtain ⟨x, there', live⟩ := live i there
    obtain ⟨y, there', _, live⟩ := stays there' live fun unheld => unheld.chains gate inside there
    exact ⟨y, there', live⟩
  · intro cursor inside
    by_cases same : cursor.child = j
    · rw [same]
      exact ⟨_, setJob_self, live cursor inside same⟩
    · exact exists_setJob (sound.completes cursor ((others cursor same).mp inside)) fun this => (same this).elim
  · intro i x there
    rcases setJob_cases there with ⟨rfl, rfl⟩ | ⟨ne, there⟩
    · exact accounted
    · refine (sound.accounted i x there).frame rfl rfl rfl (fun cursor same => others cursor (same ▸ ne)) ?_
      have none_ := filter_eq_nil_iff.mpr fun mark inside completes => ne (only mark inside i completes)
      show (w.history ++ marks).filter _ = _
      rw [filter_append, none_, append_nil]
      rfl
  · exact forall_setJob ⟨(sound.issued j job found).1, serves.issued⟩ sound.issued
  · intro mark inside i which none_
    have before : w.job i ≠ none := by
      rcases mem_append.mp inside with inside | new
      · exact sound.born mark inside i which
      · rw [only mark new i (which.resolve_right (admits mark new i)), found]
        nofun
    obtain ⟨x, there⟩ := Option.ne_none_iff_exists'.mp before
    obtain ⟨y, there', _⟩ := ext i x there
    cases none_.symm.trans there'
  · intro i inside
    have before : .closing i ∈ w.history := by
      rcases mem_append.mp inside with inside | new
      · exact inside
      · cases (mine _ new).1
    obtain ⟨x, there, barred⟩ := sound.barred i before
    refine exists_setJob ⟨x, there, barred⟩ fun same => closing ?_
    subst same
    cases found.symm.trans there
    exact barred
  · refine pairwise_append.mpr ⟨sound.barrier_mono ext, ?_, fun first _ second new => ?_⟩
    · refine pairwise_iff_getElem.mpr fun a b _ less _ top i chain _ admitted => ?_
      exact (admits _ (getElem_mem less) i admitted).elim
    · exact fun top i chain _ admitted => (admits second new i admitted).elim

theorem Sound.setState (sound : Sound hand w) (found : w.job j = some job) (dead : state.dead = job.state.dead)
    (closing : job.state.isSealed = true → state.isSealed = true)
    (empty : state.dead = true → ∀ kind id, (state.table kind).find id = none) (serves : w.Serves hand j job.state state) :
    Sound hand (w.setJob j { job with state }) := by
  have after := sound.change { job with state } w.cursors [] found rfl (.inl rfl)
    (fun gone => dead.trans (sound.freed j job found gone))
    (fun gone => ⟨closing (sound.closed j job found (dead ▸ gone)).1, empty gone⟩) closing serves (fun _ _ => Iff.rfl) sound.cursors (fun cursor inside same => ?_) nofun ?_
  · rw [append_nil] at after
    exact after
  · obtain ⟨x, there, live⟩ := sound.completes cursor inside
    rw [same, found] at there
    cases there
    exact live
  · rw [append_nil]
    exact (sound.accounted j job found).frame dead rfl rfl (fun _ _ => Iff.rfl) rfl

theorem Sound.take (sound : Sound none w) (c : JobId) : Sound (some c) w :=
  { sound with
    listed := fun p above c' there _ => sound.listed p above c' there nofun
    attached := fun c' x p there _ => sound.attached c' x p there nofun
    gone := fun c' x p above there _ => sound.gone c' x p above there nofun }

theorem Sound.put {c : JobId} (sound : Sound (some c) w)
    (listed : ∀ p above, w.job p = some above → above.state.children.find c = some .committed →
      ∃ job, w.job c = some job ∧ job.parent = some p ∧ job.freed = false ∧ .removed c ∉ w.history)
    (attached : ∀ job p, w.job c = some job → job.parent = some p → .removed c ∉ w.history →
      ∃ above, w.job p = some above ∧ above.state.children.find c = some .committed)
    (gone : ∀ job p above, w.job c = some job → job.parent = some p → .removed c ∈ w.history → w.job p = some above →
      above.state.children.find c = none) : Sound none w :=
  { sound with
    listed := by
      intro p above c' there _ inside
      by_cases same : c' = c
      · subst same
        exact listed p above there inside
      · exact sound.listed p above c' there (fun other => same (Option.some.inj other).symm) inside
    attached := by
      intro c' x p there _ parent history
      by_cases same : c' = c
      · subst same
        exact attached x p there parent history
      · exact sound.attached c' x p there (fun other => same (Option.some.inj other).symm) parent history
    gone := by
      intro c' x p above there _
      by_cases same : c' = c
      · subst same
        exact gone x p above there
      · exact sound.gone c' x p above there fun other => same (Option.some.inj other).symm }

section

variable (sound : Sound hand w)
include sound

theorem Sound.calls (jobs : next.job = w.job) (cursors : next.cursors = w.cursors)
    (history : next.history = w.history) (issued : ∀ kind id, w.Issued kind id → next.Issued kind id)
    (words : next.nextJid < 2 ^ 64 ∧ next.nextPid < 2 ^ 64)
    (reserved : ∀ r ∈ next.reservations, r ∈ w.reservations ∨ (∃ job, w.job r.owner = some job ∧ job.freed = false ∧
        (job.state.table r.kind).find r.id = some (.reserved r.token)) ∧
      (r.kind = .child → w.job r.id = none ∧ ∃ chain, Upward w r.owner chain ∧ chain.length < jobDepthMax))
    (distinct : (next.reservations.map fun r => (r.kind, r.id)).Nodup)
    (processes : ∀ e ∈ next.processes, e ∈ w.processes ∨
      ∃ job, w.job e.1 = some job ∧ job.state.members.find e.2 = some .committed) (single : next.processes.Nodup)
    (gates : ∀ gate ∈ next.gates, gate ∈ w.gates ∨ Upward w gate.owner gate.chain ∧
      (∀ j ∈ gate.chain, ∃ job, w.job j = some job ∧ job.freed = false) ∧
      (gate.purpose = .reserve .child → gate.chain.length < jobDepthMax)) : Sound hand next := by
  obtain ⟨job, _, _, _, _, _, _, _, _⟩ := next
  cases jobs
  cases cursors
  cases history
  have ext : Extends w ⟨w.job, w.cursors, _, _, _, _, _, _, w.history⟩ := fun i x there => ⟨x, there, rfl⟩
  refine ⟨sound.root, ?_, sound.closed, sound.freed, sound.listed, sound.attached, sound.gone, ?_, distinct, ?_, ?_, single, ?_,
    sound.cursors, sound.completes, ?_, ?_, words, sound.born, sound.barred, sound.barrier_mono ext⟩
  · intro i x there
    obtain ⟨chain, up, length⟩ := sound.depth i x there
    exact ⟨chain, up.mono ext, length⟩
  · intro r inside
    exact (reserved r inside).elim (sound.reserved r) And.left
  · intro r inside child
    obtain ⟨none_, chain, up, length⟩ :=
      (reserved r inside).elim (fun old => sound.unborn r old child) fun new => new.2 child
    exact ⟨none_, chain, up.mono ext, length⟩
  · intro e inside
    exact (processes e inside).elim (sound.processes e) id
  · intro gate inside
    obtain ⟨up, rest⟩ := (gates gate inside).elim (sound.gates gate) id
    exact ⟨up.mono ext, rest⟩
  · intro i x there
    exact (sound.accounted i x there).frame rfl rfl rfl (fun _ _ => Iff.rfl) rfl
  · intro i x there
    obtain ⟨own, tables⟩ := sound.issued i x there
    exact ⟨issued _ _ own, fun kind id entry => issued _ _ (tables kind id entry)⟩

theorem Sound.counts {nextJid nextPid : Nat} (nextToken : Nat)
    (issued : ∀ kind id, w.Issued kind id → { w with nextJid, nextPid, nextToken }.Issued kind id)
    (words : nextJid < 2 ^ 64 ∧ nextPid < 2 ^ 64) : Sound hand { w with nextJid, nextPid, nextToken } :=
  sound.calls rfl rfl rfl issued words (fun _ inside => .inl inside) sound.distinct (fun _ inside => .inl inside)
    sound.single fun _ inside => .inl inside

theorem Sound.fewer {gates : List Gate} {reservations : List Reservation}
    {processes : List (JobId × Pid)} (fewerGates : gates.Sublist w.gates)
    (fewerReservations : reservations.Sublist w.reservations) (fewerProcesses : processes.Sublist w.processes) :
    Sound hand { w with gates, reservations, processes } :=
  sound.calls rfl rfl rfl (fun _ _ issued => issued) sound.words
    (fun _ inside => .inl (fewerReservations.subset inside)) ((fewerReservations.map _).nodup sound.distinct)
    (fun _ inside => .inl (fewerProcesses.subset inside)) (fewerProcesses.nodup sound.single)
    fun _ inside => .inl (fewerGates.subset inside)

theorem Sound.note {mark : Mark} (idle : ∀ j, mark.completes j = false) (born : ∀ j, mark = .admitted j → w.job j ≠ none)
    (barred : ∀ j, mark = .closing j → ∃ job, w.job j = some job ∧ job.state.isSealed = true)
    (apart : ∀ first ∈ w.history, w.Apart first mark) : Sound hand (w.note mark) := by
  have ext : Extends w (w.note mark) := fun i x there => ⟨x, there, rfl⟩
  have history : ∀ c, .removed c ∉ (w.note mark).history ↔ .removed c ∉ w.history := by
    intro c
    refine not_congr ⟨fun inside => ?_, fun inside => mem_append_left _ inside⟩
    rcases mem_append.mp inside with inside | last
    · exact inside
    · have none_ := idle c
      rw [← mem_singleton.mp last] at none_
      simp [Mark.completes] at none_
  have marks : ∀ i, (w.note mark).marks i = w.marks i := by
    intro i
    rw [World.marks, World.note, filter_append, filter_cons_of_neg (by rw [idle i]; exact Bool.false_ne_true)]
    exact append_nil _
  refine ⟨sound.root, ?_, sound.closed, sound.freed, ?_, ?_, ?_, sound.reserved, sound.distinct, ?_, sound.processes,
    sound.single, ?_, sound.cursors, sound.completes, ?_, sound.issued, sound.words, ?_, ?_, ?_⟩
  · intro i x there
    obtain ⟨chain, up, length⟩ := sound.depth i x there
    exact ⟨chain, up.mono ext, length⟩
  · intro p above c there free inside
    obtain ⟨x, child, parent, live, open_⟩ := sound.listed p above c there free inside
    exact ⟨x, child, parent, live, (history c).mpr open_⟩
  · intro c x p there free parent open_
    exact sound.attached c x p there free parent ((history c).mp open_)
  · intro c x p above there free parent removed
    exact sound.gone c x p above there free parent (not_not.mp ((not_congr (history c)).mp (not_not.mpr removed)))
  · intro r inside child
    obtain ⟨none_, chain, up, length⟩ := sound.unborn r inside child
    exact ⟨none_, chain, up.mono ext, length⟩
  · intro gate inside
    obtain ⟨up, rest⟩ := sound.gates gate inside
    exact ⟨up.mono ext, rest⟩
  · intro i x there
    exact (sound.accounted i x there).frame rfl rfl rfl (fun _ _ => Iff.rfl) (marks i)
  · intro other inside i which
    rcases mem_append.mp inside with inside | last
    · exact sound.born other inside i which
    · cases mem_singleton.mp last
      rcases which with completes | admitted
      · rw [idle i] at completes
        cases completes
      · exact born i admitted
  · intro i inside
    rcases mem_append.mp inside with inside | last
    · exact sound.barred i inside
    · exact barred i (mem_singleton.mp last).symm
  · refine pairwise_append.mpr
      ⟨sound.barrier_mono ext, pairwise_singleton _ _, fun first inside other last => ?_⟩
    cases mem_singleton.mp last
    exact sound.apart_mono ext born (apart first inside)

theorem Sound.progress (job' : Job) (cursors : List CompletionCursor) (marks : List Mark)
    (found : w.job j = some job) (parent : job'.parent = job.parent) (freed : job'.freed = job.freed)
    (tables : ∀ kind, job'.state.table kind = job.state.table kind)
    (closing : job'.state.isSealed = job.state.isSealed)
    (closed : job'.state.dead = true → job.state.isSealed = true ∧ ∀ kind id, (job.state.table kind).find id = none)
    (dead : job.state.dead = true → job'.state.dead = true)
    (others : ∀ cursor, cursor.child ≠ j → (cursor ∈ cursors ↔ cursor ∈ w.cursors))
    (distinct : (cursors.map CompletionCursor.child).Nodup)
    (live : ∀ cursor ∈ cursors, cursor.child = j → job.freed = false)
    (mine : ∀ mark ∈ marks, mark.completes j = true ∧ (mark = .removed j → hand = some j))
    (accounted : Accounted ({ w with cursors, history := w.history ++ marks }.setJob j job') j job') :
    Sound hand ({ w with cursors, history := w.history ++ marks }.setJob j job') := by
  have serves := sound.serves found fun kind id => .inl (by rw [tables])
  refine sound.change job' cursors marks found parent (.inl freed) ?_ ?_ (fun barred => closing.trans barred) serves others
    distinct (fun cursor inside same => freed.trans (live cursor inside same)) mine accounted
  · exact fun gone => dead (sound.freed j job found (freed.symm.trans gone))
  · intro gone
    refine ⟨closing.trans (closed gone).1, fun kind id => ?_⟩
    rw [tables]
    exact (closed gone).2 kind id

end

end

end Halcyon.Jobs
