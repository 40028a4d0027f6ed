import Halcyon.Base.Runs
import Halcyon.Base.SortedMap
import Halcyon.Ordered.Scan

/-!
Jobs and their calls, section by section. Between two sections a call waits in the world: a gate with the chain it has
collected, a reservation, a completion cursor. The parent of a job is weak. The history says what has happened.
-/

namespace Halcyon.Jobs

abbrev JobId := Nat

abbrev Pid := Nat

def jobDepthMax : Nat := 32

def jobDirectEntryLimit : Nat := 65536

inductive SystemCallError where
  | objectClosed | illegalArgument | outOfMemory | reachLimit
  deriving DecidableEq

inductive Kind where
  | member | child
  deriving DecidableEq

/-- `MemberEntry` and `ChildEntry`: a reservation, or the process or job itself. -/
inductive Entry where
  | reserved (token : Nat)
  | committed
  deriving DecidableEq

/-- `AtomicId64::allocate`: the identity and the next one; zero is exhausted. -/
def allocate (next : Nat) : Option (Nat × Nat) := if next = 0 then none else some (next, (next + 1) % 2 ^ 64)

structure JobInner where
  children : SortedMap JobId Entry
  members : SortedMap Pid Entry
  isSealed : Bool
  dead : Bool

namespace JobInner

variable (state : JobInner)

def new : JobInner := ⟨.empty, .empty, false, false⟩

def table : Kind → SortedMap Nat Entry
  | .member => state.members
  | .child => state.children

def setTable (table : SortedMap Nat Entry) : Kind → JobInner
  | .member => { state with members := table }
  | .child => { state with children := table }

def completeIfReady : Bool × JobInner :=
  if state.isSealed && !state.dead && state.members.size == 0 && state.children.size == 0 then
    (true, { state with dead := true })
  else (false, state)

/-- `try_insert` of a reservation; `allocates` says whether there is memory for the node. -/
def tryInsert (kind : Kind) (id token : Nat) (allocates : Bool) : Outcome SystemCallError JobInner := do
  refuseIf ((state.table kind).size == jobDirectEntryLimit) .reachLimit
  assertThat ((state.table kind).find id).isNone "internal error: entered unreachable code: ordered table key prepared twice"
  refuseIf (!allocates) .outOfMemory
  pure (state.setTable ((state.table kind).insert id (.reserved token)) kind)

def disappeared : Kind → String
  | .member => "job member reservation disappeared"
  | .child => "job child reservation disappeared"

def tokenChanged : Kind → String
  | .member => "job member reservation token changed"
  | .child => "job child reservation token changed"

/-- `commit_member_with` and `commit_child`. -/
def commit (kind : Kind) (id token : Nat) : Outcome Empty JobInner := do
  let entry ← expect (disappeared kind) ((state.table kind).find id)
  assertThat (entry == .reserved token) (tokenChanged kind)
  pure (state.setTable ((state.table kind).insert id .committed) kind)

/-- `rollback_member` and `rollback_child`. -/
def rollback (kind : Kind) (id token : Nat) : Outcome Empty JobInner := do
  let removed ← expect (disappeared kind) ((state.table kind).find id)
  assertThat (removed == .reserved token) (tokenChanged kind)
  pure (state.setTable ((state.table kind).erase id) kind)

def removedBefore : Kind → String
  | .member => "job process member disappeared before removal"
  | .child => "job child disappeared before ancestor removal"

def kindChanged : Kind → String
  | .member => "job process entry kind changed"
  | .child => "job child entry kind changed"

/-- A process or child leaves its table; whether the job is complete now. -/
def remove (kind : Kind) (id : Nat) : Outcome Empty (Bool × JobInner) := do
  let removed ← expect (removedBefore kind) ((state.table kind).find id)
  assertThat (removed == .committed) (kindChanged kind)
  pure (state.setTable ((state.table kind).erase id) kind).completeIfReady

end JobInner

structure Job where
  parent : Option JobId
  state : JobInner
  /-- `CLOSED` is published. -/
  closed : Bool
  /-- The last strong reference is gone. -/
  freed : Bool

structure CompletionCursor where
  child : JobId
  published : Bool
  deriving DecidableEq

inductive Purpose where
  | reserve (kind : Kind)
  | start (pid : Pid)
  deriving DecidableEq

structure Gate where
  purpose : Purpose
  owner : JobId
  chain : List JobId
  deriving DecidableEq

structure Reservation where
  kind : Kind
  owner : JobId
  id : Nat
  token : Nat
  deriving DecidableEq

inductive Mark where
  | closing (job : JobId)
  | admitted (job : JobId)
  | died (job : JobId)
  | closed (job : JobId)
  | removed (job : JobId)
  deriving DecidableEq

structure World where
  job : JobId → Option Job
  cursors : List CompletionCursor
  gates : List Gate
  reservations : List Reservation
  /-- The committed processes that are not removed yet. -/
  processes : List (JobId × Pid)
  nextJid : Nat
  nextPid : Nat
  nextToken : Nat
  history : List Mark

inductive Event where
  | collect (purpose : Purpose) (job : JobId) (memory : Bool)
  | admitGate (index : Nat) (memory allocates begins : Bool)
  | commit (index : Nat)
  | rollback (index : Nat)
  | remove (index : Nat)
  | close (job : JobId)
  | advance (index : Nat)
  | drop (job : JobId)
  deriving DecidableEq

namespace World

def initial : World where
  job := fun j => if j = 1 then some ⟨none, .new, false, false⟩ else none
  cursors := []
  gates := []
  reservations := []
  processes := []
  nextJid := 2
  nextPid := 1
  nextToken := 1
  history := []

variable (w : World)

def setJob (j : JobId) (job : Job) : World := { w with job := fun i => if i = j then some job else w.job i }

def note (mark : Mark) : World := { w with history := w.history ++ [mark] }

/-- `Weak::upgrade`, or a reference that a caller may hold. -/
def upgrade (j : JobId) : Option Job := (w.job j).filter fun job => !job.freed

/-- `collect_chain`: up to the root, with room for `jobDepthMax` jobs. -/
def collectChain : Nat → JobId → Outcome SystemCallError (List JobId)
  | 0, _ => fail .illegalArgument
  | room + 1, j => do
    let job ← okOr .objectClosed (w.upgrade j)
    match job.parent with
    | none => pure [j]
    | some parent => do
      let above ← collectChain room parent
      pure (above ++ [j])

/-- The first section of a gate. `memory` says whether the vector of the chain could grow. -/
def collect (purpose : Purpose) (j : JobId) (memory : Bool) : World :=
  match w.collectChain jobDepthMax j with
  | .ok chain =>
    if !memory then w
    else if purpose = .reserve .child ∧ jobDepthMax ≤ chain.length then w
    else { w with gates := w.gates ++ [⟨purpose, j, chain⟩] }
  | .error _ => w

def await (cursor : CompletionCursor) : World := { w with cursors := w.cursors ++ [cursor] }

def hold (r : Reservation) : World := { w with reservations := w.reservations ++ [r] }

/-- A job is complete: a cursor has to publish and to remove it. -/
def complete (j : JobId) : World := (w.await ⟨j, false⟩).note (.died j)

/-- The identity of a new member or child and the world with the next one. -/
def allocateId : Kind → Option (Nat × World)
  | .member => (allocate w.nextPid).map fun (id, next) => (id, { w with nextPid := next })
  | .child => (allocate w.nextJid).map fun (id, next) => (id, { w with nextJid := next })

/-- The section of `gate_reserve_member` and `gate_reserve_child`, behind the check of the chain. -/
def reserve (kind : Kind) (owner : JobId) (allocates : Bool) : Outcome Empty World :=
  match allocate w.nextToken with
  | none => pure w
  | some (token, next) =>
    match { w with nextToken := next }.allocateId kind with
    | none => pure { w with nextToken := next }
    | some (id, w) =>
      match w.job owner with
      | none => pure w
      | some job =>
        settle (job.state.tryInsert kind id token allocates)
          (fun state => ((w.setJob owner { job with state }).hold ⟨kind, owner, id, token⟩).note (.admitted owner))
          fun _ => w

/-- The second section of a gate: all locks of the chain are held. -/
def admitGate (gate : Gate) (memory allocates begins : Bool) : Outcome Empty World :=
  if !memory then pure w
  else if gate.chain.any fun j => (w.job j).any fun job => job.state.isSealed then pure w
  else match gate.purpose with
    | .reserve kind => w.reserve kind gate.owner allocates
    | .start _ => pure (if begins then w.note (.admitted gate.owner) else w)

def commit (r : Reservation) : Outcome Empty World :=
  match w.job r.owner with
  | none => pure w
  | some job => do
    let state ← job.state.commit r.kind r.id r.token
    let w := w.setJob r.owner { job with state }
    pure (match r.kind with
      | .member => { w with processes := w.processes ++ [(r.owner, r.id)] }
      | .child => w.setJob r.id ⟨some r.owner, .new, false, false⟩)

def rollback (r : Reservation) : Outcome Empty World :=
  match w.job r.owner with
  | none => pure w
  | some job => do
    let state ← job.state.rollback r.kind r.id r.token
    pure (w.setJob r.owner { job with state })

/-- `remove_member` by a process that is dead. -/
def removeMember (j : JobId) (pid : Pid) : Outcome Empty World := do
  let job ← expect "process outlives its job" (w.upgrade j)
  let (completed, state) ← job.state.remove .member pid
  let w := w.setJob j { job with state }
  pure (if completed then w.complete j else w)

/-- `Job::seal`. -/
def close (j : JobId) : World :=
  match w.upgrade j with
  | none => w
  | some job =>
    if job.state.dead then w
    else
      let (completed, state) := { job.state with isSealed := true }.completeIfReady
      let w := (w.setJob j { job with state }).note (.closing j)
      if completed then w.complete j else w

/-- `CompletionCursor::advance`; the world is without the cursor. -/
def advance (cursor : CompletionCursor) : Outcome Empty World :=
  match w.job cursor.child with
  | none => pure w
  | some job =>
    if !cursor.published then
      pure (((w.setJob cursor.child { job with closed := true }).await ⟨cursor.child, true⟩).note (.closed cursor.child))
    else match job.parent with
      | none => pure w
      | some parent => do
        let above ← expect "ancestor jobs outlive their members" (w.upgrade parent)
        let (completed, state) ← above.state.remove .child cursor.child
        let w := (w.setJob parent { above with state }).note (.removed cursor.child)
        pure (if completed then w.complete parent else w)

/-- Someone in the kernel holds the job: its parent, a cursor, a chain or a call with a reservation. -/
def held (j : JobId) (job : Job) : Bool := (match job.parent with
    | none => true
    | some parent => (w.job parent).any fun above => above.state.children.find j == some .committed) ||
  w.cursors.any (fun cursor => cursor.child == j) || w.gates.any (fun gate => gate.chain.contains j) ||
  w.reservations.any fun r => r.owner == j

def drop (j : JobId) : World :=
  match w.job j with
  | none => w
  | some job => if w.held j job then w else w.setJob j { job with freed := true }

def step (w : World) : Event → Outcome Empty World
  | .collect purpose j memory =>
    match purpose with
    | .start pid => pure (if (j, pid) ∈ w.processes then w.collect purpose j memory else w)
    | .reserve _ => pure (w.collect purpose j memory)
  | .admitGate index memory allocates begins =>
    match w.gates[index]? with
    | none => pure w
    | some gate => { w with gates := w.gates.eraseIdx index }.admitGate gate memory allocates begins
  | .commit index =>
    match w.reservations[index]? with
    | none => pure w
    | some r => { w with reservations := w.reservations.eraseIdx index }.commit r
  | .rollback index =>
    match w.reservations[index]? with
    | none => pure w
    | some r => { w with reservations := w.reservations.eraseIdx index }.rollback r
  | .remove index =>
    match w.processes[index]? with
    | none => pure w
    | some (j, pid) => { w with processes := w.processes.eraseIdx index }.removeMember j pid
  | .close j => pure (w.close j)
  | .advance index =>
    match w.cursors[index]? with
    | none => pure w
    | some cursor => { w with cursors := w.cursors.eraseIdx index }.advance cursor
  | .drop j => pure (w.drop j)

end World

/-! What holds between two sections. A section that moves a child between its parent's table and the history has it in hand. -/

open World

inductive Upward (w : World) : JobId → List JobId → Prop where
  | root {j : JobId} {job : Job} : w.job j = some job → job.parent = none → Upward w j [j]
  | child {j parent : JobId} {job : Job} {above : List JobId} : w.job j = some job → job.parent = some parent →
      Upward w parent above → Upward w j (above ++ [j])

def Extends (w next : World) : Prop :=
  ∀ j job, w.job j = some job → ∃ job', next.job j = some job' ∧ job'.parent = job.parent

section
variable {w next : World} {j p : JobId} {job : Job} {chain other : List JobId}

section

variable (up : Upward w j chain)
include up

theorem Upward.mono (ext : Extends w next) : Upward next j chain := by
  induction up with
  | root found top =>
    obtain ⟨job', found', same⟩ := ext _ _ found
    exact .root found' (same.trans top)
  | child found parent _ ih =>
    obtain ⟨_, found', same⟩ := ext _ _ found
    exact .child found' (same.trans parent) ih

theorem Upward.unique (up' : Upward w j other) : chain = other := by
  induction up generalizing other with
  | root found top =>
    cases up' with
    | root => rfl
    | child found' parent =>
      cases found.symm.trans found'
      cases top.symm.trans parent
  | child found parent _ ih =>
    cases up' with
    | root found' top =>
      cases found.symm.trans found'
      cases top.symm.trans parent
    | child found' parent' above =>
      cases found.symm.trans found'
      cases parent.symm.trans parent'
      rw [ih above]

theorem Upward.found : ∃ job, w.job j = some job := by
  cases up with
  | root found | child found => exact ⟨_, found⟩

theorem Upward.self_mem : j ∈ chain := by
  cases up with
  | root => exact List.mem_singleton_self _
  | child => exact List.mem_append_right _ (List.mem_singleton_self _)

end

end

def Mark.completes (j : JobId) : Mark → Bool
  | .died job | .closed job | .removed job => job == j
  | _ => false

def World.marks (w : World) (j : JobId) : List Mark := w.history.filter (·.completes j)

def World.Idle (w : World) (j : JobId) : Prop := ∀ cursor ∈ w.cursors, cursor.child ≠ j

/-- How far the completion of a job is, and that nothing of it has been done twice. -/
inductive Accounted (w : World) (j : JobId) (job : Job) : Prop where
  | alive : job.state.dead = false → job.closed = false → w.Idle j → w.marks j = [] → Accounted w j job
  | died : job.state.dead = true → job.closed = false → ⟨j, false⟩ ∈ w.cursors → w.marks j = [.died j] →
      Accounted w j job
  | closed : job.state.dead = true → job.closed = true → ⟨j, true⟩ ∈ w.cursors → w.marks j = [.died j, .closed j] →
      Accounted w j job
  | removed : job.state.dead = true → job.closed = true → w.Idle j → job.parent ≠ none →
      w.marks j = [.died j, .closed j, .removed j] → Accounted w j job
  | root : job.state.dead = true → job.closed = true → w.Idle j → job.parent = none → w.marks j = [.died j, .closed j] →
      Accounted w j job

def World.Issued (w : World) : Kind → Nat → Prop
  | .member, id => w.nextPid = 0 ∨ id < w.nextPid
  | .child, id => w.nextJid = 0 ∨ id < w.nextJid

/-- An admission is not behind the sealing of a job of its chain. -/
def World.Apart (w : World) (first second : Mark) : Prop :=
  ∀ top j chain, first = .closing top → second = .admitted j → Upward w j chain → top ∉ chain

/-- `hand` is the child that is on its way into or out of its parent's table. -/
structure Sound (hand : Option JobId) (w : World) : Prop where
  root : ∃ job, w.job 1 = some job ∧ job.parent = none
  depth : ∀ j job, w.job j = some job → ∃ chain, Upward w j chain ∧ chain.length ≤ jobDepthMax
  closed : ∀ j job, w.job j = some job → job.state.dead = true →
    job.state.isSealed = true ∧ ∀ kind id, (job.state.table kind).find id = none
  freed : ∀ j job, w.job j = some job → job.freed = true → job.state.dead = true
  listed : ∀ p above c, w.job p = some above → hand ≠ some c → above.state.children.find c = some .committed →
    ∃ job, w.job c = some job ∧ job.parent = some p ∧ job.freed = false ∧ .removed c ∉ w.history
  attached : ∀ c job p, w.job c = some job → hand ≠ some c → job.parent = some p → .removed c ∉ w.history →
    ∃ above, w.job p = some above ∧ above.state.children.find c = some .committed
  gone : ∀ c job p above, w.job c = some job → hand ≠ some c → job.parent = some p → .removed c ∈ w.history →
    w.job p = some above → above.state.children.find c = none
  reserved : ∀ r ∈ w.reservations, ∃ job, w.job r.owner = some job ∧ job.freed = false ∧
    (job.state.table r.kind).find r.id = some (.reserved r.token)
  distinct : (w.reservations.map fun r => (r.kind, r.id)).Nodup
  unborn : ∀ r ∈ w.reservations, r.kind = .child → w.job r.id = none ∧
    ∃ chain, Upward w r.owner chain ∧ chain.length < jobDepthMax
  processes : ∀ e ∈ w.processes, ∃ job, w.job e.1 = some job ∧ job.state.members.find e.2 = some .committed
  single : w.processes.Nodup
  gates : ∀ gate ∈ w.gates, Upward w gate.owner gate.chain ∧
    (∀ j ∈ gate.chain, ∃ job, w.job j = some job ∧ job.freed = false) ∧
    (gate.purpose = .reserve .child → gate.chain.length < jobDepthMax)
  cursors : (w.cursors.map CompletionCursor.child).Nodup
  completes : ∀ cursor ∈ w.cursors, ∃ job, w.job cursor.child = some job ∧ job.freed = false
  accounted : ∀ j job, w.job j = some job → Accounted w j job
  issued : ∀ j job, w.job j = some job → w.Issued .child j ∧
    ∀ kind id, (job.state.table kind).find id ≠ none → w.Issued kind id
  words : w.nextJid < 2 ^ 64 ∧ w.nextPid < 2 ^ 64
  born : ∀ mark ∈ w.history, ∀ j, mark.completes j = true ∨ mark = .admitted j → w.job j ≠ none
  barred : ∀ j, .closing j ∈ w.history → ∃ job, w.job j = some job ∧ job.state.isSealed = true
  barrier : w.history.Pairwise w.Apart

/-! The listing of a job's children or members, page by page. -/

section

open Ordered List

/-- `Job::enumerate`: the scan of the table of the kind, in which only committed entries are visible. -/
def enumerate (children members : OrderedTable Nat Entry) (cursor : Nat) (ids : List Nat) : Kind → Nat × Bool × List Nat
  | .child => children.scanVisible (· == .committed) cursor ids
  | .member => members.scanVisible (· == .committed) cursor ids

/-- A scan gives the longest visible run behind its cursor that has room, in order, and says whether a key behind the
cursor is missing. Scans that follow each other list all keys once if all are visible. The pages of a job's table list
committed entries, none of them twice and none behind a reserved one. -/
theorem scan_pages_in_order : (∀ (K V : Type) [LinearOrder K] (limit : Nat) (table : OrderedTable K V) (m : SortedMap K V),
      Represents limit table m → ∀ (visible : V → Bool) (cursor : K),
        (∀ out keys, keys = shown visible out.length (above cursor m.entries) → ∃ more,
          table.scanVisible visible cursor out = (keys.length, more, keys ++ out.drop keys.length) ∧
          keys.Pairwise (· < ·) ∧ (more = true ↔ ∃ e ∈ m.entries, cursor < e.1 ∧ e.1 ∉ keys)) ∧
        ((∀ e ∈ m.entries, cursor < e.1 → visible e.2 = true) → ∀ buffers, (∀ out ∈ buffers, out ≠ []) →
          m.size ≤ buffers.length → (pages (table.scanVisible visible) cursor buffers).Nodup ∧ ∀ key,
            key ∈ pages (table.scanVisible visible) cursor buffers ↔ cursor < key ∧ ∃ value, (key, value) ∈ m.entries)) ∧
    ∀ (limit : Nat) (children members : OrderedTable Nat Entry) (state : JobInner),
      Represents limit children state.children → Represents limit members state.members →
      ∀ kind cursor buffers keys, keys = pages (fun cursor ids => enumerate children members cursor ids kind) cursor buffers →
        keys.Nodup ∧ ∀ key ∈ keys, cursor < key ∧ (key, Entry.committed) ∈ (state.table kind).entries ∧
          ∀ other token, cursor < other → (other, Entry.reserved token) ∈ (state.table kind).entries → key < other := by
  refine ⟨fun K V _ limit table m represents visible cursor => ⟨represents.scan_more visible cursor, represents.lists_all⟩,
    fun limit children members state reflected reflected' kind cursor buffers keys listed => ?_⟩
  have scans : ∀ cursor out keys, keys = shown (· == .committed) out.length (above cursor (state.table kind).entries) →
      enumerate children members cursor out kind = (keys.length,
        decide (keys.length < (above cursor (state.table kind).entries).length), keys ++ out.drop keys.length) := by
    cases kind with
    | child => exact reflected.scans _
    | member => exact reflected'.scans _
  obtain ⟨room, run, -⟩ := pages_eq (state.table kind).sorted scans cursor buffers
  rw [listed, run]
  refine ⟨(shown_ascending (state.table kind).sorted _).imp fun less => less.ne, fun key member => ?_⟩
  obtain ⟨ahead, ⟨entry, live, seen⟩, between⟩ := shown_sound (state.table kind).sorted member
  rw [eq_of_beq seen] at live
  exact ⟨ahead, live, fun other token more there => between _ there more rfl⟩

/-- Two committed entries and a reserved one behind them, which the scan does not pass. -/
theorem scan_pages_in_order_reserved : ∃ (table : OrderedTable Nat Entry) (m : SortedMap Nat Entry) (more : Bool),
    Represents 8 table m ∧ m.entries = [(1, .committed), (2, .committed), (5, .reserved 9)] ∧
    table.scanVisible (· == .committed) 0 [0, 0, 0] = (2, more, [1, 2, 0]) ∧ more = true := by
  have represents : Represents 8 ⟨.node 2 .committed 2 (.node 1 .committed 1 .nil .nil) (.node 5 (.reserved 9) 1 .nil .nil),
      3, 8⟩ (⟨[(1, .committed), (2, .committed), (5, .reserved 9)], by simp [Entries.Sorted]⟩ : SortedMap Nat Entry) :=
    ⟨rfl, rfl, rfl, by decide, by simp [Ordered.Balanced, Ordered.depth]⟩
  obtain ⟨more, scanned, _, missing⟩ :=
    (scan_pages_in_order.1 Nat Entry 8 _ _ represents (· == .committed) 0).1 [0, 0, 0] [1, 2] rfl
  exact ⟨_, _, more, represents, rfl, scanned, missing.mpr ⟨(5, .reserved 9), by simp, by decide, by decide⟩⟩

end

end Halcyon.Jobs
