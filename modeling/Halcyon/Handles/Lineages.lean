import Halcyon.Handles.Machine

/-!
What operations do to entries one by one. A table changes by moves that install named entries only, and an
entry that leaves a table under reduced rights is the stored entry with those rights.
-/

namespace Halcyon.Handles

section

variable {T R : Type}

section
variable {table middle next : HandleTable T R} {move : Move T R} {moves : List (Move T R)} {index : Nat}
  {generation : UInt32} {entry other : Entry T R} {handle : Handle}

theorem stores_unique (stores : table.Stores index generation entry) (again : table.Stores index generation other) :
    other = entry := by
  obtain ⟨_, ⟨found, _⟩, held⟩ := stores
  obtain ⟨_, ⟨found', _⟩, held'⟩ := again
  cases found.symm.trans found'
  exact (List.singleton_inj.mp (held.symm.trans held')).symm

theorem stores_alive (stores : table.Stores index generation entry) : ¬table.Dead index generation := by
  rintro ⟨_, found, beyond⟩
  obtain ⟨_, ⟨found', current⟩, held⟩ := stores
  cases found.symm.trans found'
  rcases beyond with less | ⟨_, retired⟩
  · rw [current] at less
    exact UInt32.lt_irrefl _ less
  · rw [Slot.entries, retired] at held
    cases held

theorem trace_taken (h : Trace table moves next) (taken : .take index generation entry ∈ moves) :
    next.Dead index generation := by
  induction h with
  | nil => cases taken
  | cons first tail ih =>
    rcases List.mem_cons.mp taken with rfl | later
    · exact trace_dead tail (take_dead first)
    · exact ih later

structure Follows (table next : HandleTable T R) (items : List (Handle × Entry T R)) : Prop where
  trace : ∃ moves, Trace table moves next ∧ ∀ index generation entry, .install index generation entry ∈ moves →
    ∃ item ∈ items, item.1.index = index ∧ item.1.generation = generation
  stores : ∀ item ∈ items, next.Stores item.1.index item.1.generation item.2

theorem Follows.refl (table : HandleTable T R) : Follows table table [] := ⟨⟨[], .nil _, nofun⟩, nofun⟩

theorem Follows.trans (first : Follows table middle []) (second : Follows middle next []) : Follows table next [] := by
  obtain ⟨moves, runs, none_⟩ := first.trace
  obtain ⟨moves', runs', none'⟩ := second.trace
  refine ⟨⟨moves ++ moves', runs.append runs', fun index generation entry member => ?_⟩, nofun⟩
  exact (List.mem_append.mp member).elim (none_ index generation entry) (none' index generation entry)

theorem Moves.follows (h : Moves table move next) (silent : move.installed = []) : Follows table next [] := by
  refine ⟨⟨[move], h.trace, fun index generation entry member => ?_⟩, nofun⟩
  cases List.mem_singleton.mp member
  cases silent

variable {entries : List (Entry T R)}

theorem Ended.follows {handles : List Handle} (h : Ended table next handles entries) : Follows table next [] := by
  obtain ⟨moves, runs, only, _⟩ := h.trace
  refine ⟨⟨moves, runs, fun index generation entry member => ?_⟩, nofun⟩
  rcases only _ member with wrong | ⟨_, _, wrong | ⟨_, wrong⟩⟩ <;> cases wrong

theorem Quiet.follows (h : Quiet table next) : Follows table next [] := by
  obtain ⟨moves, runs, silent⟩ := h.trace
  refine ⟨⟨moves, runs, fun index generation entry member => ?_⟩, nofun⟩
  cases (silent _ member).2

theorem Installs.follows {items : List (Handle × Entry T R)} (h : Installs table next items) : Follows table next items := by
  obtain ⟨moves, runs, only, _⟩ := h.trace
  refine ⟨⟨moves, runs, fun index generation entry member => ?_⟩, fun item member => (h.stores item member).2⟩
  rcases only _ member with ⟨_, _, wrong⟩ | ⟨item, inside, same⟩
  · cases wrong
  · obtain ⟨rfl, rfl, rfl⟩ := Move.install.inj same
    exact ⟨item, inside, rfl, rfl⟩

section
variable {items : List (Handle × Entry T R)}

section

variable (h : Follows table next items)
include h

theorem Follows.sound (sound : TableSound table) : TableSound next := by
  obtain ⟨_, runs, _⟩ := h.trace
  exact trace_sound runs sound

theorem Follows.dead (dead : table.Dead index generation) : next.Dead index generation := by
  obtain ⟨_, runs, _⟩ := h.trace
  exact trace_dead runs dead

theorem Follows.kept (stores : table.Stores index generation entry) :
    next.Stores index generation entry ∨ next.Dead index generation := by
  obtain ⟨_, runs, _⟩ := h.trace
  exact (trace_stores runs stores).imp_right (trace_taken runs)

theorem Follows.before (stores : next.Stores index generation entry)
    (other : ∀ item ∈ items, ¬(item.1.index = index ∧ item.1.generation = generation)) :
    table.Stores index generation entry := by
  obtain ⟨_, runs, only⟩ := h.trace
  refine (trace_before runs stores).resolve_right fun installed => ?_
  obtain ⟨item, member, same⟩ := only _ _ _ installed
  exact other item member same

end

end

theorem rollbackHandle_follows (table : HandleTable T R) (token : Nat) (handle : Handle) :
    Follows table (table.rollbackHandle token handle) [] := by
  by_cases reserved : table.isReserved handle token = true
  · obtain ⟨valid, claimed⟩ := isReserved_iff.mp reserved
    exact (rollbackHandle_ok ⟨valid, .inr claimed⟩).follows
  · unfold HandleTable.rollbackHandle
    rw [if_neg reserved]
    exact .refl _

theorem rollbackHandles_follows (table : HandleTable T R) (token : Nat) (handles : List Handle) :
    Follows table (table.rollbackHandles handles token) [] := by
  induction handles generalizing table with
  | nil => exact .refl _
  | cons first _ ih => exact (rollbackHandle_follows table token first).trans (ih _)

theorem unpin_follows (table : HandleTable T R) (token : Nat) : Follows table (table.unpin token) [] :=
  (Moves.unpin token).follows rfl

def Permits (table : HandleTable T R) (right : Rights) (item : Handle × Rights) : Prop :=
  ∃ source, table.Stores item.1.index item.1.generation source ∧ source.rights.contains right = true ∧
    item.2.isSubsetOf source.rights = true

theorem get_stores {required : Rights} (h : table.get handle required = .ok entry) :
    table.Stores handle.index handle.generation entry ∧ entry.rights.contains required = true := by
  obtain ⟨_, found, allowed⟩ := get_ok h
  exact ⟨⟨_, ⟨found, rfl⟩, rfl⟩, allowed⟩

theorem derive_ok {source : Handle} {rights : Rights} (h : table.derive source rights = .ok entry) :
    ∃ before, table.Stores source.index source.generation before ∧ before.rights.contains .duplicate = true ∧
      rights.isSubsetOf before.rights = true ∧ entry = before.withRights rights := by
  obtain ⟨_, _, h⟩ := bind_ok h
  obtain ⟨before, read, h⟩ := bind_ok h
  obtain ⟨_, less, h⟩ := bind_ok h
  cases pure_ok h
  obtain ⟨stores, allowed⟩ := get_stores read
  exact ⟨before, stores, allowed, by simpa using refuseIf_ok less, rfl⟩

theorem validateItems_permits {transport : Rights} {protect : Option Handle} {prior : List Handle}
    {items : List (Handle × Rights)} {done : Unit} (h : table.validateItems transport protect prior items = .ok done) :
    ∀ item ∈ items, Permits table transport item := by
  intro item member
  obtain ⟨_, _, entry, read, less⟩ := (validateItems_ok h).2 item member
  obtain ⟨stores, allowed⟩ := get_stores read
  exact ⟨entry, stores, allowed, less⟩

theorem extractWith_permits {heap : Heap} {items : List (Handle × Rights)} {transport : Rights}
    (h : HandleTable.extractWith heap items transport table = .ok entries next) : ∀ item ∈ items, Permits table transport item := by
  obtain ⟨⟨_, checked⟩, _⟩ := extractWith_ok h
  exact validateItems_permits checked

theorem pinTransaction_permits {protect : Handle × Rights} {grants : List (Handle × Rights)} {token : Nat}
    {done : Unit} (h : HandleTable.pinTransaction protect grants token table = .ok done next) :
    ∀ item ∈ grants, Permits table .grant item := by
  obtain ⟨_, ⟨_, checked⟩, _⟩ := pinTransaction_ok h
  exact validateItems_permits checked

end

end

/-!
Many handle tables and the entries that travel between them. Each entry has a line of descent, written down when the entry
is made: its root entry, and every duplication, move and grant since.
-/

section

variable {T R : Type}

inductive Kind where
  | duplicate
  | move
  | grant
  deriving DecidableEq

def Kind.right : Kind → Rights
  | duplicate => .duplicate
  | move => .transit
  | grant => .grant

structure Lineage (T R : Type) where
  root : Entry T R
  steps : List (Kind × Entry T R)

namespace Lineage

def current (line : Lineage T R) : Entry T R :=
  match line.steps with
  | [] => line.root
  | (_, entry) :: _ => entry

def extend (line : Lineage T R) (kind : Kind) (entry : Entry T R) : Lineage T R :=
  { line with steps := (kind, entry) :: line.steps }

def entries (line : Lineage T R) : List (Entry T R) := line.steps.map Prod.snd ++ [line.root]

end Lineage

/-- The younger entry is the older one with fewer rights, and the older one had the right to it. -/
structure Reduces (kind : Kind) (before after : Entry T R) : Prop where
  object : after.object = before.object
  role : after.role = before.role
  rights : after.rights.isSubsetOf before.rights = true
  allowed : before.rights.contains kind.right = true

def Descends (root : Entry T R) : List (Kind × Entry T R) → Prop
  | [] => True
  | (kind, entry) :: earlier => Reduces kind (Lineage.current ⟨root, earlier⟩) entry ∧ Descends root earlier

namespace Rights

theorem subset_refl (rights : Rights) : rights.isSubsetOf rights = true := by
  simp [isSubsetOf, contains]

theorem subset_trans {a b c : Rights} (first : a.isSubsetOf b = true) (second : b.isSubsetOf c = true) :
    a.isSubsetOf c = true := by
  unfold isSubsetOf contains at *
  rw [beq_iff_eq] at *
  rw [← first, ← UInt64.and_assoc, second]

end Rights

structure Attenuated (line : Lineage T R) (entry : Entry T R) : Prop where
  last : line.current = entry
  object : entry.object = line.root.object
  role : entry.role = line.root.role
  rights : ∀ ancestor ∈ line.entries, entry.rights.isSubsetOf ancestor.rights = true
  steps : ∀ later kind after earlier, line.steps = later ++ (kind, after) :: earlier →
    (Lineage.current ⟨line.root, earlier⟩).rights.contains kind.right = true

variable {root : Entry T R}

theorem descends_body {steps : List (Kind × Entry T R)} (h : Descends root steps) :
    (Lineage.current ⟨root, steps⟩).object = root.object ∧ (Lineage.current ⟨root, steps⟩).role = root.role := by
  induction steps with
  | nil => exact ⟨rfl, rfl⟩
  | cons _ _ ih =>
    obtain ⟨reduces, rest⟩ := h
    exact ⟨reduces.object.trans (ih rest).1, reduces.role.trans (ih rest).2⟩

theorem descends_rights {steps : List (Kind × Entry T R)} (h : Descends root steps) :
    ∀ ancestor ∈ Lineage.entries ⟨root, steps⟩,
      (Lineage.current ⟨root, steps⟩).rights.isSubsetOf ancestor.rights = true := by
  induction steps with
  | nil =>
    intro ancestor member
    rw [List.mem_singleton.mp member]
    exact Rights.subset_refl _
  | cons _ _ ih =>
    obtain ⟨reduces, rest⟩ := h
    refine List.forall_mem_cons.mpr ⟨Rights.subset_refl _, fun ancestor member => ?_⟩
    exact Rights.subset_trans reduces.rights (ih rest ancestor member)

theorem attenuated {line : Lineage T R} (h : Descends line.root line.steps) : Attenuated line line.current := by
  refine ⟨rfl, (descends_body h).1, (descends_body h).2, descends_rights h, fun later kind after earlier same => ?_⟩
  rw [same] at h
  clear same
  induction later with
  | nil => exact h.1.allowed
  | cons _ _ ih => exact ih h.2

structure Realm (T R : Type) where
  tables : List (HandleTable T R)
  reservations : List Reservation
  /-- Commits that were prepared, with the lines of their entries. -/
  prepared : List (PreparedCommit T R × List (Lineage T R))
  /-- Transfers that were pinned: the table, and the pairs that were checked. -/
  pins : List (Nat × List (Handle × Rights))
  /-- Entries that were put in circulation. -/
  roots : List (Entry T R)
  /-- Entries that can be installed. -/
  transit : List (Lineage T R)
  /-- The line of the entry in a slot, by table, slot and generation. -/
  line : Nat → Nat → UInt32 → Lineage T R

/-- A caller takes what it installs from the entries in transit, and reservations, prepared commits and pinned
pairs from those that were made. None of them is used up, although a caller could use it only once. -/
inductive Call (T R : Type) where
  | mint (entry : Entry T R)
  | openTable (limit : Nat)
  | insert (i : Nat) (heap : Heap) (k : Nat)
  | derive (i : Nat) (source : Handle) (rights : Rights)
  | duplicate (i : Nat) (heap : Heap) (source : Handle) (rights : Rights)
  | remove (i : Nat) (handle : Handle)
  | extractMoves (i : Nat) (heap : Heap) (moves : List (Handle × Rights))
  | extractGrants (i : Nat) (heap : Heap) (grants : List (Handle × Rights))
  | pinConsume (i : Nat) (handle : Handle) (required : Rights) (token : Nat)
  | pinTransfer (i : Nat) (protect : Handle) (protectRight : Rights) (grants : List (Handle × Rights)) (token : Nat)
  | commitPinnedConsume (i : Nat) (token : Nat) (handle : Handle)
  | commitPinnedTransfer (n : Nat) (token : Nat) (protect : Handle)
  | unpin (i : Nat) (token : Nat)
  | reserve (i : Nat) (heap : Heap) (count token : Nat)
  | prepareCommit (i n : Nat) (ks : List Nat)
  | commitPrepared (i n : Nat)
  | rollbackPrepared (i n : Nat)
  | commit (i n : Nat) (ks : List Nat)
  | rollback (i n : Nat)
  | takeNext (i : Nat) (cursor : Nat)
  | takeNextBounded (i : Nat) (cursor maxSlots : Nat)

namespace Realm

variable (r : Realm T R)

/-- No tables yet; `nobody` stands for the lines that are not written. -/
def initial (nobody : Lineage T R) : Realm T R := ⟨[], [], [], [], [], [], fun _ _ _ => nobody⟩

def withTable (i : Nat) (f : HandleTable T R → Outcome Empty (Realm T R)) : Outcome Empty (Realm T R) :=
  match r.tables[i]? with
  | some table => f table
  | none => pure r

def put (i : Nat) (table : HandleTable T R) : Realm T R := { r with tables := r.tables.set i table }

def record (i : Nat) (items : List (Handle × Lineage T R)) : Realm T R :=
  { r with line := fun j index generation =>
      if j = i then
        match items.find? fun item => item.1.index == index && item.1.generation == generation with
        | some item => item.2
        | none => r.line j index generation
      else r.line j index generation }

def carry (lines : List (Lineage T R)) : Realm T R := { r with transit := r.transit ++ lines }

def leaving (i : Nat) (kind : Kind) (items : List (Handle × Rights)) (entries : List (Entry T R)) : List (Lineage T R) :=
  List.zipWith (fun item entry => (r.line i item.1.index item.1.generation).extend kind entry) items entries

def picked (ks : List Nat) : List (Lineage T R) := ks.filterMap fun k => r.transit[k]?

def step : Call T R → Outcome Empty (Realm T R)
  | .mint entry => pure { r with roots := entry :: r.roots, transit := r.transit ++ [⟨entry, []⟩] }
  | .openTable limit => pure { r with tables := r.tables ++ [.withLimit limit] }
  | .insert i heap k => r.withTable i fun table =>
    match r.transit[k]? with
    | none => pure r
    | some line =>
      settle (table.insert heap line.current) (fun (handle, next) => (r.put i next).record i [(handle, line)]) (fun _ => r)
  | .derive i source rights => r.withTable i fun table =>
    settle (table.derive source rights)
      (fun entry => r.carry [(r.line i source.index source.generation).extend .duplicate entry]) (fun _ => r)
  | .duplicate i heap source rights => r.withTable i fun table =>
    settle (table.duplicate heap source rights)
      (fun (handle, next) => (r.put i next).record i (match table.derive source rights with
        | .ok entry => [(handle, (r.line i source.index source.generation).extend .duplicate entry)]
        | .error _ => [])) (fun _ => r)
  | .remove i handle => r.withTable i fun table =>
    settle (table.remove handle) (fun (_, next) => r.put i next) (fun _ => r)
  | .extractMoves i heap moves => r.withTable i fun table =>
    conclude (fun entries next => (r.put i next).carry (r.leaving i .move moves entries)) (fun _ next => r.put i next)
      (HandleTable.extractMoves heap moves table)
  | .extractGrants i heap grants => r.withTable i fun table =>
    conclude (fun entries next => (r.put i next).carry (r.leaving i .grant grants entries)) (fun _ next => r.put i next)
      (HandleTable.extractGrants heap grants table)
  | .pinConsume i handle required token => r.withTable i fun table =>
    conclude (fun _ next => r.put i next) (fun _ next => r.put i next)
      (HandleTable.pinConsume handle required token table)
  | .pinTransfer i protect protectRight grants token => r.withTable i fun table =>
    conclude (fun _ next => { r.put i next with pins := r.pins ++ [(i, grants)] }) (fun _ next => r.put i next)
      (HandleTable.pinTransfer protect protectRight grants token table)
  | .commitPinnedConsume i token handle => r.withTable i fun table => do
    let (_, next) ← table.commitPinnedConsume token handle
    pure (r.put i next)
  | .commitPinnedTransfer n token protect =>
    match r.pins[n]? with
    | none => pure r
    | some (i, grants) => r.withTable i fun table => do
      let (entries, next) ← table.commitPinnedTransfer token protect grants []
      pure ((r.put i next).carry (r.leaving i .grant grants entries))
  | .unpin i token => r.withTable i fun table => pure (r.put i (table.unpin token))
  | .reserve i heap count token => r.withTable i fun table => do
    let (answer, next) ← table.reserve heap count token
    match answer with
    | .ok reservation => pure { r.put i next with reservations := r.reservations ++ [reservation] }
    | .error _ => pure (r.put i next)
  | .prepareCommit i n ks => r.withTable i fun table =>
    match r.reservations[n]? with
    | none => pure r
    | some reservation =>
      match table.prepareCommit reservation ((r.picked ks).map Lineage.current) with
      | (.ok prepared, next) => pure { r.put i next with prepared := r.prepared ++ [(prepared, r.picked ks)] }
      | (.error _, next) => pure (r.put i next)
  | .commitPrepared i n => r.withTable i fun table =>
    match r.prepared[n]? with
    | none => pure r
    | some (prepared, lines) => do
      let (handles, next) ← table.commitPrepared prepared
      pure ((r.put i next).record i (handles.zip lines))
  | .rollbackPrepared i n => r.withTable i fun table =>
    match r.prepared[n]? with
    | none => pure r
    | some (prepared, _) => do
      let (_, next) ← table.rollbackPrepared prepared
      pure (r.put i next)
  | .commit i n ks => r.withTable i fun table =>
    match r.reservations[n]? with
    | none => pure r
    | some reservation => do
      let (answer, next) ← table.commit reservation ((r.picked ks).map Lineage.current)
      match answer with
      | .ok handles => pure ((r.put i next).record i (handles.zip (r.picked ks)))
      | .error _ => pure (r.put i next)
  | .rollback i n => r.withTable i fun table =>
    match r.reservations[n]? with
    | none => pure r
    | some reservation => settle (table.rollback reservation) (fun next => r.put i next) (fun _ => r)
  | .takeNext i cursor => r.withTable i fun table => do
    let (_, _, next) ← table.takeNext cursor
    pure (r.put i next)
  | .takeNextBounded i cursor maxSlots => r.withTable i fun table => do
    let (_, _, next) ← HandleTable.takeNextBounded maxSlots table cursor
    pure (r.put i next)

/-- A line that starts at a root in circulation and reduces at every step. -/
def Known (line : Lineage T R) : Prop := line.root ∈ r.roots ∧ Descends line.root line.steps

def Checked (table : HandleTable T R) (right : Rights) (item : Handle × Rights) : Prop :=
  table.Dead item.1.index item.1.generation ∨ Permits table right item

structure Sound : Prop where
  tables : ∀ table ∈ r.tables, TableSound table
  stored : ∀ i table, r.tables[i]? = some table → ∀ index generation entry, table.Stores index generation entry →
    (r.line i index generation).current = entry ∧ r.Known (r.line i index generation)
  transit : ∀ line ∈ r.transit, r.Known line
  reservations : ∀ reservation ∈ r.reservations, reservation.handles.Nodup
  prepared : ∀ item ∈ r.prepared, item.1.reservation.handles.Nodup ∧
    item.1.reservation.handles.length = item.1.entries.length ∧ item.1.entries = item.2.map Lineage.current ∧
    ∀ line ∈ item.2, r.Known line
  pins : ∀ pin ∈ r.pins, ∃ table, r.tables[pin.1]? = some table ∧ ∀ item ∈ pin.2, Checked table .grant item

end Realm

end

end Halcyon.Handles
