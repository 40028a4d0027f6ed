import Halcyon.Base.Methods
import Halcyon.Base.Word

/-!
The process-local handle table (`os/handle_table`). Extraction and pinning are methods on the table. Other functions
that leave the table alone when they fail return an `Outcome`; those that change it and fail return the error beside
the new table.
-/

namespace Halcyon.Handles

structure Handle where
  raw : UInt64
  deriving DecidableEq

namespace Handle

def fromParts (slot generation : UInt32) : Handle := ⟨(generation.toUInt64 <<< 32) ||| slot.toUInt64⟩

def slot (handle : Handle) : UInt32 := handle.raw.toUInt32

def generation (handle : Handle) : UInt32 := (handle.raw >>> 32).toUInt32

def isValid (handle : Handle) : Bool := handle.raw != 0 && handle.slot != 0 && handle.generation != 0

end Handle

structure Rights where
  raw : UInt64
  deriving DecidableEq

namespace Rights

def transit : Rights := ⟨(1 : UInt64) <<< 4⟩

def duplicate : Rights := ⟨(1 : UInt64) <<< 5⟩

def grant : Rights := ⟨(1 : UInt64) <<< 8⟩

def known : Rights := ⟨((1 : UInt64) <<< 11) - 1⟩

def contains (rights required : Rights) : Bool := rights.raw &&& required.raw == required.raw

def isSubsetOf (rights other : Rights) : Bool := other.contains rights

def isKnown (rights : Rights) : Bool := rights.raw &&& ~~~known.raw == 0

end Rights

inductive TableError where
  | invalidHandle | staleHandle | objectBusy | rightsDenied | duplicateHandle | reachLimit | badReservation
  | allocationFailed
  deriving DecidableEq

structure Entry (T R : Type) where
  object : T
  role : R
  rights : Rights
  deriving DecidableEq

def Entry.withRights {T R : Type} (entry : Entry T R) (rights : Rights) : Entry T R := { entry with rights }

inductive SlotState (T R : Type) where
  | vacant
  | occupied (entry : Entry T R)
  | reserved (token : Nat)
  | pinned (token : Nat) (entry : Entry T R)
  | retired
  deriving DecidableEq

structure Slot (T R : Type) where
  generation : UInt32
  state : SlotState T R
  deriving DecidableEq

def lastGeneration : UInt32 := 4294967295

namespace Slot

variable {T R : Type}

def isVacant (slot : Slot T R) : Bool :=
  match slot.state with
  | .vacant => true
  | _ => false

def isReservedFor (slot : Slot T R) (token : Nat) : Bool :=
  match slot.state with
  | .reserved actual => actual == token
  | _ => false

def unpin (slot : Slot T R) (token : Nat) : Slot T R :=
  match slot.state with
  | .pinned actual entry => if actual == token then { slot with state := .occupied entry } else slot
  | _ => slot

/-- The end of one generation of a slot; the last one retires it. -/
def advance (slot : Slot T R) : Slot T R :=
  if slot.generation == lastGeneration then { slot with state := .retired }
  else ⟨slot.generation + 1, .vacant⟩

end Slot

structure Reservation where
  token : Nat
  handles : List Handle
  deriving DecidableEq

structure PreparedCommit (T R : Type) where
  reservation : Reservation
  entries : List (Entry T R)
  deriving DecidableEq

structure PrepareCommitFailure (T R : Type) where
  error : TableError
  entries : List (Entry T R)

inductive TakeNext (T R : Type) where
  | entry (entry : Entry T R)
  | progress
  | exhausted

/-- What the kernel heap answers: whether a list of a length can be had, and a slot beyond the first so many. -/
structure Heap where
  list : Nat → Bool
  slot : Nat → Bool

def Heap.ample : Heap := ⟨fun _ => true, fun _ => true⟩

structure HandleTable (T R : Type) where
  slots : List (Slot T R)
  limit : Nat
  occupied : Nat
  deriving DecidableEq

namespace HandleTable

variable {T R : Type} (table : HandleTable T R)

def withLimit (limit : Nat) : HandleTable T R := ⟨[⟨0, .retired⟩], min limit lastGeneration.toNat, 0⟩

def setState (index : Nat) (state : SlotState T R) : HandleTable T R :=
  { table with slots := table.slots.modify index fun slot => { slot with state } }

def advanceGeneration (index : Nat) : HandleTable T R := { table with slots := table.slots.modify index Slot.advance }

def occupiedIndex (handle : Handle) : Outcome TableError Nat := do
  refuseIf (!handle.isValid) .invalidHandle
  let slot ← okOr .staleHandle table.slots[handle.slot.toNat]?
  refuseIf (slot.generation != handle.generation) .staleHandle
  match slot.state with
  | .occupied _ => pure handle.slot.toNat
  | .pinned _ _ => fail .objectBusy
  | .vacant | .reserved _ | .retired => fail .staleHandle

def entryAt {ε : Type} (index : Nat) : Outcome ε (Entry T R) :=
  match table.slots[index]? with
  | some ⟨_, .occupied entry⟩ => pure entry
  | _ => panicked "occupied_index only returns occupied slots"

def reserveSlot (heap : Heap) (token : Nat) : Outcome TableError (Handle × HandleTable T R) :=
  match (List.range' 1 (table.slots.length - 1)).find? fun i => table.slots[i]?.any Slot.isVacant with
  | some index => do
    let slot ← expect "index out of bounds" table.slots[index]?
    pure (.fromParts (.ofNat index) slot.generation, table.setState index (.reserved token))
  | none => do
    refuseIf (table.limit ≤ table.slots.length - 1) .reachLimit
    refuseIf (!heap.slot table.slots.length) .allocationFailed
    pure (.fromParts (.ofNat table.slots.length) 1, { table with slots := table.slots ++ [⟨1, .reserved token⟩] })

def isReserved (handle : Handle) (token : Nat) : Bool := handle.isValid && table.slots[handle.slot.toNat]?.any fun slot =>
    slot.generation == handle.generation && slot.isReservedFor token

def rollbackHandle (token : Nat) (handle : Handle) : HandleTable T R :=
  if table.isReserved handle token then
    (table.setState handle.slot.toNat .vacant).advanceGeneration handle.slot.toNat
  else table

def rollbackHandles (handles : List Handle) (token : Nat) : HandleTable T R :=
  handles.foldl (fun table handle => table.rollbackHandle token handle) table

def insert (heap : Heap) (entry : Entry T R) : Outcome TableError (Handle × HandleTable T R) := do
  let (handle, table) ← table.reserveSlot heap 0
  let table := table.setState handle.slot.toNat (.occupied entry)
  pure (handle, { table with occupied := table.occupied + 1 })

def get (handle : Handle) (required : Rights) : Outcome TableError (Entry T R) := do
  let index ← table.occupiedIndex handle
  let entry ← table.entryAt index
  refuseIf (!entry.rights.contains required) .rightsDenied
  pure entry

def remove (handle : Handle) : Outcome TableError (Entry T R × HandleTable T R) := do
  let index ← table.occupiedIndex handle
  let entry ← table.entryAt index
  let occupied ← subtract table.occupied 1
  pure (entry, { table.setState index .vacant with occupied }.advanceGeneration index)

def derive (source : Handle) (rights : Rights) : Outcome TableError (Entry T R) := do
  refuseIf (!rights.isKnown) .rightsDenied
  let entry ← table.get source .duplicate
  refuseIf (!rights.isSubsetOf entry.rights) .rightsDenied
  pure (entry.withRights rights)

def duplicate (heap : Heap) (source : Handle) (rights : Rights) : Outcome TableError (Handle × HandleTable T R) := do
  let derived ← table.derive source rights
  table.insert heap derived

/-- The checks that extraction and pinning make on each item, in order. -/
def validateItems (transport : Rights) (protect : Option Handle) :
    List Handle → List (Handle × Rights) → Outcome TableError Unit
  | _, [] => pure ()
  | prior, (handle, rights) :: rest => do
    refuseIf (prior.contains handle || protect == some handle) .duplicateHandle
    refuseIf (!rights.isKnown) .rightsDenied
    let entry ← table.get handle transport
    refuseIf (!rights.isSubsetOf entry.rights) .rightsDenied
    validateItems transport protect (prior ++ [handle]) rest

abbrev Method (ε T R : Type) : Type → Type := EStateM (Stop ε) (HandleTable T R)

def commitExtraction : List (Handle × Rights) → List (Entry T R) → Method Empty T R (List (Entry T R))
  | [], extracted => pure extracted
  | (handle, rights) :: rest, extracted => do
    let table ← MonadState.get
    let (entry, table) ← look (expectOk "validated move remains installed" (table.remove handle))
    set table
    commitExtraction rest (extracted ++ [entry.withRights rights])

/-- `prepare_extract_with`, whose borrow of the table ends with its commit. -/
def extractWith (heap : Heap) (items : List (Handle × Rights)) (transport : Rights) :
    Method TableError T R (List (Entry T R)) := do
  let table ← MonadState.get
  look (refuseIf (!heap.list items.length) .allocationFailed)
  look (table.validateItems transport none [] items)
  perform (commitExtraction items [])

def extractMoves (heap : Heap) (moves : List (Handle × Rights)) : Method TableError T R (List (Entry T R)) :=
  extractWith heap moves .transit

def extractGrants (heap : Heap) (grants : List (Handle × Rights)) : Method TableError T R (List (Entry T R)) :=
  extractWith heap grants .grant

def pinEntry (token : Nat) (handle : Handle) : Method Empty T R Unit := do
  let table ← MonadState.get
  let index ← look (expectOk "validated handle must remain occupied" (table.occupiedIndex handle))
  let entry ← look (table.entryAt index)
  set (table.setState index (.pinned token entry))

def pinTransaction (protect : Handle × Rights) (grants : List (Handle × Rights)) (token : Nat) :
    Method TableError T R Unit := do
  let table ← MonadState.get
  look (refuseIf (token == 0) .badReservation)
  let _ ← look (table.get protect.1 protect.2)
  look (table.validateItems .grant (some protect.1) [] grants)
  perform do
    grants.forM fun item => pinEntry token item.1
    pinEntry token protect.1

def pinConsume (handle : Handle) (required : Rights) (token : Nat) : Method TableError T R Unit :=
  pinTransaction (handle, required) [] token

def pinTransfer (protect : Handle) (protectRight : Rights) (grants : List (Handle × Rights)) (token : Nat) :
    Method TableError T R Unit :=
  pinTransaction (protect, protectRight) grants token

/-- The checks that `take_pinned` and `restore_pinned` share. -/
def pinnedEntry (token : Nat) (handle : Handle) : Outcome Empty (Entry T R) := do
  assertThat handle.isValid "pinned handle must be valid"
  let slot ← expect "pinned handle slot must exist" table.slots[handle.slot.toNat]?
  assertThat (slot.generation == handle.generation) "pinned handle generation changed"
  match slot.state with
  | .pinned actual entry => do
    assertThat (actual == token) "pinned handle belongs to another transaction"
    pure entry
  | _ => panicked "pinned handle disappeared"

def takePinned (token : Nat) (handle : Handle) : Outcome Empty (Entry T R × HandleTable T R) := do
  let entry ← table.pinnedEntry token handle
  let occupied ← subtract table.occupied 1
  pure (entry, { table.setState handle.slot.toNat .vacant with occupied }.advanceGeneration handle.slot.toNat)

def restorePinned (token : Nat) (handle : Handle) : Outcome Empty (HandleTable T R) := do
  let entry ← table.pinnedEntry token handle
  pure (table.setState handle.slot.toNat (.occupied entry))

def commitPinnedConsume (token : Nat) (handle : Handle) : Outcome Empty (Entry T R × HandleTable T R) :=
  table.takePinned token handle

def takeGrants (token : Nat) : HandleTable T R → List (Handle × Rights) → List (Entry T R) →
    Outcome Empty (List (Entry T R) × HandleTable T R)
  | table, [], grants => pure (grants, table)
  | table, (handle, rights) :: rest, grants => do
    let (entry, table) ← table.takePinned token handle
    takeGrants token table rest (grants ++ [entry.withRights rights])

def commitPinnedTransfer (token : Nat) (protect : Handle) (grantPairs : List (Handle × Rights))
    (grants : List (Entry T R)) : Outcome Empty (List (Entry T R) × HandleTable T R) := do
  let (grants, table) ← takeGrants token table grantPairs grants
  let table ← table.restorePinned token protect
  pure (grants, table)

def unpin (token : Nat) : HandleTable T R := { table with slots := table.slots.map fun slot => slot.unpin token }

/-- The slots of a reservation; those already taken are rolled back when one cannot be had. -/
def reserveSlots (heap : Heap) (token : Nat) : Nat → HandleTable T R → List Handle →
    Outcome Empty (Except TableError Reservation × HandleTable T R)
  | 0, table, handles => pure (.ok ⟨token, handles⟩, table)
  | count + 1, table, handles =>
    match table.reserveSlot heap token with
    | .ok (handle, table) => reserveSlots heap token count table (handles ++ [handle])
    | .error (.error error) => pure (.error error, table.rollbackHandles handles token)
    | .error (.panic message) => panicked message

def reserve (heap : Heap) (count token : Nat) : Outcome Empty (Except TableError Reservation × HandleTable T R) :=
  if token == 0 || table.slots.any fun slot => slot.isReservedFor token then pure (.error .badReservation, table)
  else if !heap.list count then pure (.error .allocationFailed, table)
  else reserveSlots heap token count table []

def allReserved (reservation : Reservation) : Bool :=
  reservation.handles.all fun handle => table.isReserved handle reservation.token

def prepareCommit (reservation : Reservation) (entries : List (Entry T R)) :
    Except (PrepareCommitFailure T R) (PreparedCommit T R) × HandleTable T R :=
  if reservation.handles.length ≠ entries.length ∨ table.allReserved reservation = false then
    (.error ⟨.badReservation, entries⟩, table.rollbackHandles reservation.handles reservation.token)
  else (.ok ⟨reservation, entries⟩, table)

def installEntry (handle : Handle) (entry : Entry T R) : HandleTable T R :=
  { table.setState handle.slot.toNat (.occupied entry) with occupied := table.occupied + 1 }

def commitPrepared (prepared : PreparedCommit T R) : Outcome Empty (List Handle × HandleTable T R) := do
  assertThat (table.allReserved prepared.reservation) "prepared handle reservation changed before commit"
  let table := (prepared.reservation.handles.zip prepared.entries).foldl
    (fun table item => table.installEntry item.1 item.2) table
  pure (prepared.reservation.handles, table)

def rollbackPrepared (prepared : PreparedCommit T R) : Outcome Empty (List (Entry T R) × HandleTable T R) := do
  assertThat (table.allReserved prepared.reservation) "prepared handle reservation changed before rollback"
  pure (prepared.entries, table.rollbackHandles prepared.reservation.handles prepared.reservation.token)

def commit (reservation : Reservation) (entries : List (Entry T R)) :
    Outcome Empty (Except TableError (List Handle) × HandleTable T R) :=
  match table.prepareCommit reservation entries with
  | (.ok prepared, table) => do
    let (handles, table) ← table.commitPrepared prepared
    pure (.ok handles, table)
  | (.error failure, table) => pure (.error failure.error, table)

def rollback (reservation : Reservation) : Outcome TableError (HandleTable T R) := do
  refuseIf (!table.allReserved reservation) .badReservation
  pure (table.rollbackHandles reservation.handles reservation.token)

/-- One turn of the loops below: a slot under the cursor is emptied, unless it is pinned. -/
def drainSlot (index : Nat) : Outcome Empty (Option (Entry T R) × HandleTable T R) :=
  match table.slots[index]? with
  | some ⟨_, .occupied entry⟩ => do
    let occupied ← subtract table.occupied 1
    pure (some entry, { table.setState index .vacant with occupied }.advanceGeneration index)
  | some ⟨_, .reserved _⟩ => pure (none, (table.setState index .vacant).advanceGeneration index)
  | _ => pure (none, table)

/-- The loop of `take_next`; each turn moves the cursor, so the slots left bound the turns. -/
def takeNextLoop : Nat → HandleTable T R → Nat → Outcome Empty (Option (Entry T R) × Nat × HandleTable T R)
  | 0, table, cursor => pure (none, cursor, table)
  | left + 1, table, cursor => do
    let (found, table) ← table.drainSlot cursor
    match found with
    | some entry => pure (some entry, cursor + 1, table)
    | none => takeNextLoop left table (cursor + 1)

def takeNext (cursor : Nat) : Outcome Empty (Option (Entry T R) × Nat × HandleTable T R) :=
  takeNextLoop (table.slots.length - cursor) table cursor

/-- The argument is `max_slots - scanned`. -/
def takeNextBounded : Nat → HandleTable T R → Nat → Outcome Empty (TakeNext T R × Nat × HandleTable T R)
  | 0, table, cursor => pure (if cursor < table.slots.length then .progress else .exhausted, cursor, table)
  | budget + 1, table, cursor =>
    if cursor < table.slots.length then do
      let (found, table) ← table.drainSlot cursor
      match found with
      | some entry => pure (.entry entry, cursor + 1, table)
      | none => takeNextBounded budget table (cursor + 1)
    else pure (.exhausted, cursor, table)

end HandleTable

end Halcyon.Handles
