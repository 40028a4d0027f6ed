import Halcyon.Base.Runs
import Halcyon.Base.Word
import Halcyon.Ordered.Operations

/-!
The ordered table: a tree with its length and its limit. It is a sorted map of bounded size over every run, and the
only panics left are those of a caller that inserts more than it prepared for.
-/

namespace Halcyon.Ordered

open Entries

variable {K V : Type} [LinearOrder K]

inductive InsertError (V : Type) where
  | limit (value : V)
  | allocation (value : V)
  deriving DecidableEq

structure OrderedTable (K V : Type) where
  root : Link K V
  len : Nat
  limit : Nat
  deriving DecidableEq

namespace OrderedTable

def new (limit : Nat) : Outcome Empty (OrderedTable K V) := do
  assertThat (0 < limit) "assertion failed: limit > 0"
  pure ⟨.nil, 0, limit⟩

variable (self : OrderedTable K V)

def get (key : K) : Option V := getBy key self.root

/-- A node for the key is allocated; `allocates` says whether there is memory for it. -/
def prepareInsert (key : K) (value : V) (allocates : Bool) : Outcome (InsertError V) (K × V) := do
  refuseIf (self.len == self.limit) (.limit value)
  assertThat (self.get key).isNone "internal error: entered unreachable code: ordered table key prepared twice"
  refuseIf (!allocates) (.allocation value)
  pure (key, value)

def insertPrepared (entry : K × V) : Outcome Empty (OrderedTable K V) := do
  assertThat (self.len < self.limit) "ordered table capacity changed after preparation"
  assertThat (self.get entry.1).isNone "ordered table key changed after preparation"
  let root ← insertNode entry.1 entry.2 self.root
  let len ← increment self.len
  pure { self with root, len }

def tryInsert (key : K) (value : V) (allocates : Bool) : Outcome (InsertError V) (OrderedTable K V) := do
  let entry ← self.prepareInsert key value allocates
  mapError Empty.elim (self.insertPrepared entry)

/-- `get_mut` and what its caller writes. -/
def getMut (key : K) (value : V) : Option V × OrderedTable K V :=
  (self.get key, { self with root := setBy key value self.root })

def removeBy (key : K) : Outcome Empty (Option V × OrderedTable K V) := do
  let (root, removed) ← removeNode key self.root
  let len ← if removed.isSome then subtract self.len 1 else pure self.len
  pure (removed, { self with root, len })

def nextAfter (cursor : Option K) : Option (K × V) := nextAfterFrom cursor none self.root

def popFirst : Outcome Empty (Option (K × V) × OrderedTable K V) :=
  match self.root with
  | .nil => pure (none, self)
  | .node key value _ left right => do
    let (root, minimum) ← takeMin key value left right
    let len ← subtract self.len 1
    pure (some minimum, { self with root, len })

end OrderedTable

inductive Call (K V : Type) where
  | prepareInsert (key : K) (value : V) (allocates : Bool)
  | insertPrepared (entry : K × V)
  | tryInsert (key : K) (value : V) (allocates : Bool)
  | get (key : K)
  | getMut (key : K) (value : V)
  | removeBy (key : K)
  | nextAfter (cursor : Option K)
  | popFirst
  | len
  deriving DecidableEq

inductive Reply (K V : Type) where
  | done
  | prepared (entry : K × V)
  | refused (error : InsertError V)
  | value (found : Option V)
  | entry (found : Option (K × V))
  | size (len : Nat)
  deriving DecidableEq

def OrderedTable.call (self : OrderedTable K V) : Call K V → Outcome Empty (Reply K V × OrderedTable K V)
  | .prepareInsert key value allocates =>
    settle (self.prepareInsert key value allocates) (fun entry => (.prepared entry, self)) fun error =>
      (.refused error, self)
  | .insertPrepared entry => do
    let next ← self.insertPrepared entry
    pure (.done, next)
  | .tryInsert key value allocates =>
    settle (self.tryInsert key value allocates) (fun next => (.done, next)) fun error => (.refused error, self)
  | .get key => pure (.value (self.get key), self)
  | .getMut key value => let (found, next) := self.getMut key value; pure (.value found, next)
  | .removeBy key => do
    let (removed, next) ← self.removeBy key
    pure (.value removed, next)
  | .nextAfter cursor => pure (.entry (self.nextAfter cursor), self)
  | .popFirst => do
    let (first, next) ← self.popFirst
    pure (.entry first, next)
  | .len => pure (.size self.len, self)

def mapCall (limit : Nat) (m : SortedMap K V) : Call K V → Outcome Empty (Reply K V × SortedMap K V)
  | .prepareInsert key value allocates => pure
    (if m.size = limit then .refused (.limit value)
      else if allocates then .prepared (key, value) else .refused (.allocation value), m)
  | .insertPrepared entry => do
    assertThat (m.size < limit) "ordered table capacity changed after preparation"
    pure (.done, m.insert entry.1 entry.2)
  | .tryInsert key value allocates => pure
    (if m.size = limit then (.refused (.limit value), m)
      else if allocates then (.done, m.insert key value) else (.refused (.allocation value), m))
  | .get key => pure (.value (m.find key), m)
  | .getMut key value => pure (.value (m.find key), m.write key value)
  | .removeBy key => pure (.value (m.find key), m.erase key)
  | .nextAfter cursor => pure (.entry (m.after cursor), m)
  | .popFirst => pure (.entry m.entries.head?, m.rest)
  | .len => pure (.size m.size, m)

def NewKey (m : SortedMap K V) : Call K V → Prop
  | .prepareInsert key _ _ | .tryInsert key _ _ => m.find key = none
  | .insertPrepared entry => m.find entry.1 = none
  | _ => True

instance [DecidableEq V] (m : SortedMap K V) (c : Call K V) : Decidable (NewKey m c) := by
  cases c <;> unfold NewKey <;> infer_instance

structure Represents (limit : Nat) (table : OrderedTable K V) (m : SortedMap K V) : Prop where
  entries : entries table.root = m.entries
  len : table.len = m.size
  bound : table.limit = limit
  full : m.size ≤ limit
  balanced : Balanced table.root

section
variable {limit : Nat} {table : OrderedTable K V} {m : SortedMap K V} {key : K} {value : V}

namespace Represents

variable (represents : Represents limit table m)
include represents

theorem sorted : Sorted (Ordered.entries table.root) := represents.entries ▸ m.sorted

theorem get : table.get key = m.find key := by
  rw [OrderedTable.get, getBy_eq represents.sorted, represents.entries]
  rfl

theorem absent (fresh : m.find key = none) : ∀ e ∈ Ordered.entries table.root, e.1 ≠ key := by
  rw [represents.entries]
  exact find_none_iff.mp fresh

theorem shallow (word : limit ≤ usizeMax) : depth table.root ≤ 129 := by
  refine represents.balanced.shallow ?_
  have full := represents.full
  rw [represents.entries]
  unfold SortedMap.size at full
  unfold usizeMax at word
  omega

theorem prepareInsert (value : V) (allocates : Bool) (fresh : m.find key = none) : table.prepareInsert key value allocates =
      if m.size = limit then fail (.limit value) else if allocates then .ok (key, value) else fail (.allocation value) := by
  have absent : table.get key = none := represents.get.trans fresh
  simp only [OrderedTable.prepareInsert, represents.len, represents.bound, absent]
  by_cases full : m.size = limit
  · simp only [full, beq_self_eq_true, refuseIf, if_true]
    rfl
  · cases allocates with
    | true => simp [full, refuseIf, assertThat, ok_bind]
    | false => simp [full, refuseIf, assertThat, ok_bind, fail]

theorem insertPrepared (entry : K × V) (word : limit ≤ usizeMax) (fresh : m.find entry.1 = none) (room : m.size < limit) :
    ∃ next, table.insertPrepared entry = .ok next ∧ Represents limit next (m.insert entry.1 entry.2) := by
  have shallow := represents.shallow word
  have len := represents.len
  obtain ⟨root, inserted, balanced, list, _, _⟩ := insertNode_spec entry.2 represents.balanced represents.sorted
    (represents.absent fresh) (by unfold heightMax; omega)
  have grows : (m.insert entry.1 entry.2).size = m.size + 1 := length_insert (find_none_iff.mp fresh)
  have counted : (increment table.len : Outcome Empty Nat) = .ok (table.len + 1) :=
    increment_returns (Nat.lt_of_lt_of_le (len ▸ room) word)
  refine ⟨{ table with root, len := table.len + 1 }, ?_, ?_, ?_, represents.bound, ?_, balanced⟩
  · simp only [OrderedTable.insertPrepared, represents.get, fresh, represents.bound, len, room, decide_true, assertThat,
      Option.isNone_none, if_true, ok_bind, inserted, len ▸ counted]
    rfl
  · rw [list, represents.entries]
    rfl
  · rw [grows, ← len]
  · omega

theorem removeBy (key : K) (word : limit ≤ usizeMax) :
    ∃ next, table.removeBy key = .ok (m.find key, next) ∧ Represents limit next (m.erase key) := by
  have shallow := represents.shallow word
  have len := represents.len
  have full := represents.full
  obtain ⟨root, removed, balanced, list, _, _⟩ := removeNode_spec key represents.balanced represents.sorted
    (by unfold heightMax; omega)
  rw [represents.entries] at removed list
  cases found : find key m.entries with
  | none =>
    have same : (m.erase key).size = m.size := congrArg List.length (erase_absent (find_none_iff.mp found))
    refine ⟨{ table with root }, ?_, list, len.trans same.symm, represents.bound, by omega, balanced⟩
    simp only [OrderedTable.removeBy, removed, found, SortedMap.find, ok_bind, Option.isSome_none]
    rfl
  | some =>
    have shrinks : (m.erase key).size + 1 = m.size := length_erase m.sorted found
    have counted : (subtract table.len 1 : Outcome Empty Nat) = .ok (table.len - 1) := subtract_returns (by omega)
    refine ⟨{ table with root, len := table.len - 1 }, ?_, list, ?_, represents.bound, by omega, balanced⟩
    swap
    · show table.len - 1 = (m.erase key).size
      omega
    simp only [OrderedTable.removeBy, removed, found, SortedMap.find, ok_bind, Option.isSome_some, if_true, counted]
    rfl

theorem popFirst (word : limit ≤ usizeMax) :
    ∃ next, table.popFirst = .ok (m.entries.head?, next) ∧ Represents limit next m.rest := by
  have shallow := represents.shallow word
  have len := represents.len
  have full := represents.full
  have list := represents.entries
  have balanced := represents.balanced
  unfold OrderedTable.popFirst
  cases tree : table.root with
  | nil =>
    rw [tree] at list
    have empty : m.entries = [] := list.symm
    have same : m.rest.entries = m.entries := by rw [SortedMap.rest_entries, empty]; rfl
    refine ⟨table, by rw [empty]; rfl, ?_, ?_, represents.bound, ?_, represents.balanced⟩
    · rw [tree, same, empty]
      rfl
    · rw [len, SortedMap.size, SortedMap.size, same]
    · rw [SortedMap.size, same]
      exact full
  | node =>
    rw [tree] at list balanced shallow
    obtain ⟨root, _, taken, balanced', first, _, _⟩ := takeMin_spec balanced (by unfold heightMax; omega)
    have entries_ := list.symm.trans first
    have shrinks : m.rest.size + 1 = m.size := by
      rw [SortedMap.size, SortedMap.size, SortedMap.rest_entries, entries_]
      rfl
    have counted : (subtract table.len 1 : Outcome Empty Nat) = .ok (table.len - 1) := subtract_returns (by omega)
    refine ⟨{ table with root, len := table.len - 1 }, ?_, ?_, ?_, represents.bound, by omega, balanced'⟩
    · simp only [taken, ok_bind, counted, entries_, List.head?_cons]
      rfl
    · rw [SortedMap.rest_entries, entries_]
      rfl
    · show table.len - 1 = m.rest.size
      omega

theorem getMut (key : K) (value : V) :
    Represents limit { table with root := setBy key value table.root } (m.write key value) where
  entries := by
    rw [entries_setBy represents.sorted, represents.entries]
    rfl
  len := represents.len.trans (List.length_map _).symm
  bound := represents.bound
  full := (List.length_map _).trans_le represents.full
  balanced := represents.balanced.setBy

theorem nextAfter (cursor : Option K) : table.nextAfter cursor = m.after cursor := by
  rw [OrderedTable.nextAfter, nextAfterFrom_eq represents.sorted, Option.or_none, represents.entries]
  rfl

end Represents

def capacityPanic : Stop Empty := .panic "ordered table capacity changed after preparation"

theorem call_agrees {c : Call K V} (word : limit ≤ usizeMax) (represents : Represents limit table m) (fresh : NewKey m c) :
    (∃ reply next m', table.call c = .ok (reply, next) ∧ mapCall limit m c = .ok (reply, m') ∧ Represents limit next m') ∨
      table.call c = .error capacityPanic ∧ mapCall limit m c = .error capacityPanic := by
  cases c with
  | prepareInsert key value allocates =>
    refine .inl ⟨_, table, m, ?_, rfl, represents⟩
    rw [OrderedTable.call, represents.prepareInsert value allocates fresh]
    split
    · rfl
    · split <;> rfl
  | insertPrepared entry =>
    by_cases room : m.size < limit
    · obtain ⟨next, inserted, after⟩ := represents.insertPrepared entry word fresh room
      refine .inl ⟨.done, next, m.insert entry.1 entry.2, ?_, ?_, after⟩
      · rw [OrderedTable.call, inserted]
        rfl
      · simp only [mapCall, room, decide_true, assertThat, if_true, ok_bind]
        rfl
    · refine .inr ⟨?_, ?_⟩
      · simp only [OrderedTable.call, OrderedTable.insertPrepared, represents.len, represents.bound, room, decide_false,
          assertThat]
        rfl
      · simp only [mapCall, room, decide_false, assertThat]
        rfl
  | tryInsert key value allocates =>
    left
    rw [OrderedTable.call, OrderedTable.tryInsert, represents.prepareInsert value allocates fresh, mapCall]
    by_cases full : m.size = limit
    · rw [if_pos full, if_pos full]
      exact ⟨_, table, m, rfl, rfl, represents⟩
    · rw [if_neg full, if_neg full]
      cases allocates with
      | false => exact ⟨_, table, m, rfl, rfl, represents⟩
      | true =>
        have room := Nat.lt_of_le_of_ne represents.full full
        obtain ⟨next, inserted, after⟩ := represents.insertPrepared (key, value) word fresh room
        refine ⟨.done, next, m.insert key value, ?_, rfl, after⟩
        rw [if_pos rfl, ok_bind, inserted]
        rfl
  | get key => exact .inl ⟨_, table, m, rfl, by rw [represents.get]; rfl, represents⟩
  | getMut key value =>
    refine .inl ⟨.value (table.get key), _, m.write key value, rfl, ?_, represents.getMut key value⟩
    rw [represents.get]
    rfl
  | removeBy key =>
    obtain ⟨next, removed, after⟩ := represents.removeBy key word
    refine .inl ⟨_, next, m.erase key, ?_, rfl, after⟩
    rw [OrderedTable.call, removed]
    rfl
  | nextAfter => exact .inl ⟨_, table, m, rfl, by rw [represents.nextAfter]; rfl, represents⟩
  | popFirst =>
    obtain ⟨next, popped, after⟩ := represents.popFirst word
    refine .inl ⟨_, next, m.rest, ?_, rfl, after⟩
    rw [OrderedTable.call, popped]
    rfl
  | len => exact .inl ⟨_, table, m, rfl, by rw [represents.len]; rfl, represents⟩

def tableStep (s : List (Reply K V) × OrderedTable K V) (c : Call K V) :
    Outcome Empty (List (Reply K V) × OrderedTable K V) := do
  let (reply, next) ← s.2.call c
  pure (s.1 ++ [reply], next)

def mapStep (limit : Nat) (s : List (Reply K V) × SortedMap K V) (c : Call K V) :
    Outcome Empty (List (Reply K V) × SortedMap K V) := do
  let (reply, next) ← mapCall limit s.2 c
  pure (s.1 ++ [reply], next)

def Agree (limit : Nat) (s : List (Reply K V) × OrderedTable K V) (t : List (Reply K V) × SortedMap K V) : Prop :=
  s.1 = t.1 ∧ Represents limit s.2 t.2

theorem step_agrees (word : limit ≤ usizeMax) (s : List (Reply K V) × OrderedTable K V)
    (t : List (Reply K V) × SortedMap K V) (c : Call K V) (agree : Agree limit s t) (fresh : NewKey t.2 c) :
    (∃ s' t', tableStep s c = .ok s' ∧ mapStep limit t c = .ok t' ∧ Agree limit s' t') ∨
      ∃ stop, tableStep s c = .error stop ∧ mapStep limit t c = .error stop ∧ stop = capacityPanic := by
  obtain ⟨same, represents⟩ := agree
  rcases call_agrees word represents fresh with ⟨reply, next, m', first, first', after⟩ | ⟨first, first'⟩
  · refine .inl ⟨(s.1 ++ [reply], next), (t.1 ++ [reply], m'), ?_, ?_, by rw [same], after⟩
    · rw [tableStep, first]
      rfl
    · rw [mapStep, first']
      rfl
  · refine .inr ⟨capacityPanic, ?_, ?_, rfl⟩
    · rw [tableStep, first]
      rfl
    · rw [mapStep, first']
      rfl

/-- Every run of the table with new keys gives the replies of the map, the table stands for the map, and only the
assertion about the capacity of a prepared entry can panic, where the map has no room either. -/
theorem table_refines_map {calls : List (Call K V)} (some_ : 0 < limit) (word : limit ≤ usizeMax)
    (fresh : RunMeets (mapStep limit) (fun s => NewKey s.2) ([], .empty) calls) :
    ∃ start : OrderedTable K V, OrderedTable.new limit = .ok start ∧
      ((∃ replies table m, runEvents tableStep ([], start) calls = .ok (replies, table) ∧
        runEvents (mapStep limit) ([], .empty) calls = .ok (replies, m) ∧ Represents limit table m) ∨
      runEvents tableStep ([], start) calls = .error capacityPanic ∧
        runEvents (mapStep limit) ([], .empty) calls = .error capacityPanic) := by
  refine ⟨⟨.nil, 0, limit⟩, by simp only [OrderedTable.new, some_, decide_true, assertThat, if_true, ok_bind]; rfl, ?_⟩
  have start : Represents limit (⟨.nil, 0, limit⟩ : OrderedTable K V) .empty := ⟨rfl, rfl, rfl, Nat.zero_le _, trivial⟩
  rcases run_agrees (s := ([], ⟨.nil, 0, limit⟩)) (step_agrees word) ⟨rfl, start⟩ fresh with
    ⟨⟨replies, table⟩, ⟨_, m⟩, run, run', rfl, represents⟩ | ⟨_, run, run', rfl⟩
  · exact .inl ⟨replies, table, m, run, run', represents⟩
  · exact .inr ⟨run, run'⟩

end

def fourKeys : List (Call Nat Nat) :=
  [.tryInsert 1 10 true, .tryInsert 2 20 true, .tryInsert 3 30 true, .prepareInsert 4 40 true, .insertPrepared (4, 40),
    .removeBy 2, .nextAfter (some 2), .popFirst, .len]

theorem table_refines_map_fourKeys : ∃ start : OrderedTable Nat Nat, OrderedTable.new 4 = .ok start ∧
    ((∃ replies table m, runEvents tableStep ([], start) fourKeys = .ok (replies, table) ∧
      runEvents (mapStep 4) ([], .empty) fourKeys = .ok (replies, m) ∧ Represents 4 table m) ∨
    runEvents tableStep ([], start) fourKeys = .error capacityPanic ∧
      runEvents (mapStep 4) ([], .empty) fourKeys = .error capacityPanic) :=
  table_refines_map (by decide) (by decide) (by decide +kernel)

end Halcyon.Ordered
