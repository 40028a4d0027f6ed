import Halcyon.Base.Bytes
import Halcyon.Base.Loops
import Halcyon.Handles.Table

/-!
The startup block (`erhino_shared::startup`): a header, the handles of the new process, an optional
descriptor of its entry thread and a payload nobody here interprets, with zero bytes between them.
-/

namespace Halcyon.Startup

open List

open Handles (Handle)

section

def startupVersion : UInt16 := 3

def startupBlockMagic : UInt64 := 0x4250555452415453

def entryThreadSectionKind : UInt16 := 1
def entryThreadSectionVersion : UInt16 := 2

structure StartupBlockHeader where
  magic : UInt64
  blockLen : UInt32
  version : UInt16
  reserved0 : UInt16
  pid : UInt64
  parentPid : UInt64
  handleCount : UInt32
  payloadOff : UInt32
  payloadLen : UInt32
  entryDescriptorOff : UInt32
  entryDescriptorLen : UInt32
  reserved : UInt32
  deriving DecidableEq

structure EntryThreadDescriptor where
  kind : UInt16
  version : UInt16
  sectionLen : UInt32
  controlIndex : UInt32
  reserved : UInt32
  stackReservationStart : UInt64
  stackReservationLen : UInt64
  usableStart : UInt64
  usableLen : UInt64
  deriving DecidableEq

inductive StartupBuildError where
  | overflow
  | allocationFailed
  deriving DecidableEq

inductive StartupParseError where
  | truncatedHeader
  | lengthMismatch
  | badMagic
  | unsupportedVersion
  | nonzeroReserved
  | geometryOverflow
  | payloadBeforeHandles
  | nonzeroPadding
  | invalidHandle
  | missingEntryThread
  | badEntryThread
  deriving DecidableEq

namespace StartupBlockHeader

def widths : List Nat := [8, 4, 2, 2, 8, 8, 4, 4, 4, 4, 4, 4]

def size : Nat := 56

def fields (header : StartupBlockHeader) : List Nat :=
  [header.magic.toNat, header.blockLen.toNat, header.version.toNat, header.reserved0.toNat, header.pid.toNat,
    header.parentPid.toNat, header.handleCount.toNat, header.payloadOff.toNat, header.payloadLen.toNat,
    header.entryDescriptorOff.toNat, header.entryDescriptorLen.toNat, header.reserved.toNat]

def ofFields : List Nat → StartupBlockHeader
  | [magic, blockLen, version, reserved0, pid, parentPid, handleCount, payloadOff, payloadLen, entryDescriptorOff,
      entryDescriptorLen, reserved] =>
    ⟨.ofNat magic, .ofNat blockLen, .ofNat version, .ofNat reserved0, .ofNat pid, .ofNat parentPid, .ofNat handleCount,
      .ofNat payloadOff, .ofNat payloadLen, .ofNat entryDescriptorOff, .ofNat entryDescriptorLen, .ofNat reserved⟩
  | _ => ⟨0, 0, 0, 0, 0, 0, 0, 0, 0, 0, 0, 0⟩

def bytes (header : StartupBlockHeader) : Bytes := encodeFields widths header.fields

/-- `read_unaligned` of a header; a read beyond the block is out of bounds. -/
def read {ε : Type} (block : Bytes) (offset : Nat) : Outcome ε StartupBlockHeader :=
  (ofFields ∘ decodeFields widths) <$> slice block offset (offset + size)

def descriptorOff (header : StartupBlockHeader) : Nat :=
  if header.entryDescriptorLen = 0 then header.payloadOff.toNat else header.entryDescriptorOff.toNat

end StartupBlockHeader

namespace EntryThreadDescriptor

def widths : List Nat := [2, 2, 4, 4, 4, 8, 8, 8, 8]

def size : Nat := 48

def fields (entry : EntryThreadDescriptor) : List Nat :=
  [entry.kind.toNat, entry.version.toNat, entry.sectionLen.toNat, entry.controlIndex.toNat, entry.reserved.toNat,
    entry.stackReservationStart.toNat, entry.stackReservationLen.toNat, entry.usableStart.toNat, entry.usableLen.toNat]

def ofFields : List Nat → EntryThreadDescriptor
  | [kind, version, sectionLen, controlIndex, reserved, stackReservationStart, stackReservationLen, usableStart,
      usableLen] =>
    ⟨.ofNat kind, .ofNat version, .ofNat sectionLen, .ofNat controlIndex, .ofNat reserved, .ofNat stackReservationStart,
      .ofNat stackReservationLen, .ofNat usableStart, .ofNat usableLen⟩
  | _ => ⟨0, 0, 0, 0, 0, 0, 0, 0, 0⟩

def bytes (entry : EntryThreadDescriptor) : Bytes := encodeFields widths entry.fields

def read {ε : Type} (block : Bytes) (offset : Nat) : Outcome ε EntryThreadDescriptor :=
  (ofFields ∘ decodeFields widths) <$> slice block offset (offset + size)

/-- The checks of `entry_thread_descriptor` on the fields of a descriptor. -/
def accepted (entry : EntryThreadDescriptor) (handleCount : UInt32) : Bool :=
  entry.kind == entryThreadSectionKind && entry.version == entryThreadSectionVersion &&
    entry.sectionLen.toNat == size && entry.reserved == 0 && entry.controlIndex < handleCount &&
    entry.stackReservationLen != 0 && entry.usableLen != 0 && entry.stackReservationStart ≤ entry.usableStart &&
    match checkedAdd entry.stackReservationStart.toNat entry.stackReservationLen.toNat,
      checkedAdd entry.usableStart.toNat entry.usableLen.toNat with
    | some stackEnd, some usableEnd => usableEnd ≤ stackEnd
    | _, _ => false

end EntryThreadDescriptor

def handleSize : Nat := 8

def handleBytes (handle : Handle) : Bytes := littleBytes handleSize handle.raw.toNat

def readHandle {ε : Type} (block : Bytes) (offset : Nat) : Outcome ε Handle :=
  (fun bytes => Handle.mk (.ofNat (littleEndian bytes))) <$> slice block offset (offset + handleSize)

def toU32 (value : Nat) : Option UInt32 := if value < 2 ^ 32 then some (.ofNat value) else none

def checkHandles (block : Bytes) (count : Nat) : Outcome StartupParseError Unit := forRange count (fun index _ => do
    let offset ← add StartupBlockHeader.size (← multiply index handleSize)
    let handle ← readHandle block offset
    refuseIf (!handle.isValid) .invalidHandle) ()

def validateStartupBlock (block : Bytes) : Outcome StartupParseError StartupBlockHeader := do
  refuseIf (block.length < StartupBlockHeader.size) .truncatedHeader
  let header ← StartupBlockHeader.read block 0
  refuseIf (header.blockLen.toNat ≠ block.length) .lengthMismatch
  refuseIf (header.magic ≠ startupBlockMagic) .badMagic
  refuseIf (header.version ≠ startupVersion) .unsupportedVersion
  refuseIf (header.reserved0 ≠ 0 || header.reserved ≠ 0) .nonzeroReserved
  let handleBytes ← okOr .geometryOverflow (checkedMul header.handleCount.toNat handleSize)
  let handlesEnd ← okOr .geometryOverflow (checkedAdd StartupBlockHeader.size handleBytes)
  let payloadOff := header.payloadOff.toNat
  refuseIf (payloadOff < handlesEnd) .payloadBeforeHandles
  let payloadEnd ← okOr .geometryOverflow (checkedAdd payloadOff header.payloadLen.toNat)
  refuseIf (payloadEnd ≠ block.length) .lengthMismatch
  let descriptorEnd ← okOr .geometryOverflow (checkedAdd header.descriptorOff header.entryDescriptorLen.toNat)
  refuseIf (header.entryDescriptorLen ≠ 0 && (header.descriptorOff < handlesEnd || payloadOff < descriptorEnd))
    .geometryOverflow
  let before ← slice block handlesEnd header.descriptorOff
  let after ← slice block descriptorEnd payloadOff
  refuseIf (before.any (· ≠ 0) || after.any (· ≠ 0)) .nonzeroPadding
  checkHandles block header.handleCount.toNat
  pure header

def entryThreadDescriptor (block : Bytes) (header : StartupBlockHeader) :
    Outcome StartupParseError (EntryThreadDescriptor × Bytes) := do
  refuseIf ((← validateStartupBlock block) ≠ header) .geometryOverflow
  refuseIf (header.entryDescriptorLen.toNat ≠ EntryThreadDescriptor.size) .missingEntryThread
  let descriptor ← EntryThreadDescriptor.read block header.entryDescriptorOff.toNat
  refuseIf (!descriptor.accepted header.handleCount) .badEntryThread
  let payload ← slice block header.payloadOff.toNat block.length
  pure (descriptor, payload)

def resize (bytes : Bytes) (length : Nat) : Bytes := bytes.take length ++ List.replicate (length - bytes.length) 0

/-- `block[offset..].copy_from_slice(source)`, for a source that is as long as the range it replaces. -/
def overwrite {ε : Type} (block : Bytes) (offset : Nat) (source : Bytes) : Outcome ε Bytes :=
  if offset + source.length ≤ block.length then
    .ok (block.take offset ++ source ++ block.drop (offset + source.length))
  else panicked "range end index out of range"

def buildStartupPrefix (grant : Bool) (pid parentPid : UInt64) (handles : List Handle) (payloadOff payloadLen : Nat) :
    Outcome StartupBuildError Bytes := do
  let handleBytes' ← okOr .overflow (checkedMul handles.length handleSize)
  let handlesEnd ← okOr .overflow (checkedAdd StartupBlockHeader.size handleBytes')
  refuseIf (payloadOff < handlesEnd) .overflow
  let total ← okOr .overflow (checkedAdd payloadOff payloadLen)
  let blockLen ← okOr .overflow (toU32 total)
  let handleCount ← okOr .overflow (toU32 handles.length)
  let payloadOff' ← okOr .overflow (toU32 payloadOff)
  let payloadLen' ← okOr .overflow (toU32 payloadLen)
  let header : StartupBlockHeader :=
    { magic := startupBlockMagic, blockLen, version := startupVersion, reserved0 := 0, pid, parentPid, handleCount,
      payloadOff := payloadOff', payloadLen := payloadLen', entryDescriptorOff := 0, entryDescriptorLen := 0,
      reserved := 0 }
  refuseIf (!grant) .allocationFailed
  pure (resize (header.bytes ++ handles.flatMap handleBytes) payloadOff)

def buildStartupPrefixWithEntry (grant : Bool) (pid parentPid : UInt64) (handles : List Handle)
    (payloadOff payloadLen : Nat) (entry : EntryThreadDescriptor) : Outcome StartupBuildError Bytes := do
  let descriptorOff ← okOr .overflow (checkedAdd StartupBlockHeader.size (handles.length * handleSize))
  let descriptorEnd ← okOr .overflow (checkedAdd descriptorOff EntryThreadDescriptor.size)
  refuseIf (payloadOff < descriptorEnd) .overflow
  let block ← buildStartupPrefix grant pid parentPid handles payloadOff payloadLen
  let block ← overwrite block descriptorOff entry.bytes
  let header ← StartupBlockHeader.read block 0
  let entryDescriptorOff ← okOr .overflow (toU32 descriptorOff)
  let entryDescriptorLen ← okOr .overflow (toU32 entry.bytes.length)
  overwrite block 0 { header with entryDescriptorOff, entryDescriptorLen }.bytes

/-- The reservations of a construction: for the prefix, and for the payload behind it. -/
structure Grants where
  reserved : Bool
  extended : Bool

def buildStartupBlockWithEntry (grants : Grants) (pid parentPid : UInt64) (handles : List Handle)
    (entry : EntryThreadDescriptor) (payload : Bytes) : Outcome StartupBuildError Bytes := do
  let descriptorOff ← okOr .overflow (checkedAdd StartupBlockHeader.size (handles.length * handleSize))
  let payloadOff ← okOr .overflow (checkedAdd descriptorOff EntryThreadDescriptor.size)
  let block ← buildStartupPrefixWithEntry grants.reserved pid parentPid handles payloadOff payload.length entry
  refuseIf (!grants.extended) .allocationFailed
  pure (block ++ payload)

def buildStartupBlock (grants : Grants) (pid parentPid : UInt64) (handles : List Handle) (payload : Bytes) :
    Outcome StartupBuildError Bytes := do
  let handleBytes' ← okOr .overflow (checkedMul handles.length handleSize)
  let payloadOff ← okOr .overflow (checkedAdd StartupBlockHeader.size handleBytes')
  let block ← buildStartupPrefix grants.reserved pid parentPid handles payloadOff payload.length
  refuseIf (!grants.extended) .allocationFailed
  pure (block ++ payload)

end

/-! Records and handles are read back where they were written, and validation stays inside the block. -/

section

variable {ε : Type}

theorem fit64 (value : UInt64) : value.toNat < 256 ^ 8 := UInt64.toNat_lt value
theorem fit32 (value : UInt32) : value.toNat < 256 ^ 4 := UInt32.toNat_lt value
theorem fit16 (value : UInt16) : value.toNat < 256 ^ 2 := UInt16.toNat_lt value

theorem StartupBlockHeader.fields_fit (header : StartupBlockHeader) : FieldsFit widths header.fields := by
  refine .cons (fit64 _) (.cons (fit32 _) (.cons (fit16 _) (.cons (fit16 _) ?_)))
  refine .cons (fit64 _) (.cons (fit64 _) (.cons (fit32 _) (.cons (fit32 _) ?_)))
  exact .cons (fit32 _) (.cons (fit32 _) (.cons (fit32 _) (.cons (fit32 _) .nil)))

@[simp] theorem StartupBlockHeader.length_bytes (header : StartupBlockHeader) : header.bytes.length = size :=
  length_encodeFields header.fields_fit

theorem StartupBlockHeader.read_bytes (header : StartupBlockHeader) (rest : Bytes) :
    (read (header.bytes ++ rest) 0 : Outcome ε StartupBlockHeader) = .ok header := by
  have front : (slice (header.bytes ++ rest) 0 (0 + size) : Outcome ε Bytes) = .ok header.bytes := by
    rw [slice_returns (Nat.zero_le _) (by simp), Nat.zero_add, ← header.length_bytes, take_left]
    rfl
  have decoded := decodeFields_encodeFields header.fields_fit []
  rw [append_nil] at decoded
  rw [read, front]
  refine congrArg Except.ok ?_
  rw [Function.comp, bytes, decoded]
  simp [ofFields, fields]

section

variable (entry : EntryThreadDescriptor)
include entry

theorem EntryThreadDescriptor.fields_fit : FieldsFit widths entry.fields := by
  refine .cons (fit16 _) (.cons (fit16 _) (.cons (fit32 _) (.cons (fit32 _) (.cons (fit32 _) ?_))))
  exact .cons (fit64 _) (.cons (fit64 _) (.cons (fit64 _) (.cons (fit64 _) .nil)))

@[simp] theorem EntryThreadDescriptor.length_bytes : entry.bytes.length = size := length_encodeFields entry.fields_fit

theorem EntryThreadDescriptor.read_bytes (before after : Bytes) :
    (read (before ++ entry.bytes ++ after) before.length : Outcome ε EntryThreadDescriptor) = .ok entry := by
  have middle : (slice (before ++ entry.bytes ++ after) before.length (before.length + size) : Outcome ε Bytes) =
      .ok entry.bytes := by
    rw [← entry.length_bytes]
    exact slice_append before entry.bytes after
  have decoded := decodeFields_encodeFields entry.fields_fit []
  rw [append_nil] at decoded
  rw [read, middle]
  refine congrArg Except.ok ?_
  rw [Function.comp, bytes, decoded]
  simp [ofFields, fields]

end

@[simp] theorem length_handleBytes (handle : Handle) : (handleBytes handle).length = handleSize := length_littleBytes

theorem length_handles (handles : List Handle) : (handles.flatMap handleBytes).length = handles.length * handleSize := by
  induction handles with
  | nil => rfl
  | cons _ _ ih =>
    rw [flatMap_cons, length_append, ih, length_handleBytes, length_cons, Nat.add_mul, Nat.one_mul, Nat.add_comm]

theorem readHandle_bytes (handle : Handle) (before after : Bytes) :
    (readHandle (before ++ handleBytes handle ++ after) before.length : Outcome ε Handle) = .ok handle := by
  have middle : (slice (before ++ handleBytes handle ++ after) before.length (before.length + handleSize) :
      Outcome ε Bytes) = .ok (handleBytes handle) := by
    rw [← length_handleBytes handle]
    exact slice_append before (handleBytes handle) after
  have value : littleEndian (handleBytes handle) = handle.raw.toNat := littleEndian_littleBytes (UInt64.toNat_lt _)
  rw [readHandle, middle]
  refine congrArg Except.ok ?_
  simp only [value, UInt64.ofNat_toNat]

theorem readHandle_array {handles : List Handle} {index : Nat} {handle : Handle} (found : handles[index]? = some handle)
    (before after : Bytes) :
    (readHandle (before ++ handles.flatMap handleBytes ++ after) (before.length + index * handleSize) : Outcome ε Handle) =
      .ok handle := by
  obtain ⟨less, rfl⟩ := List.getElem?_eq_some_iff.mp found
  have split : handles.flatMap handleBytes = (handles.take index).flatMap handleBytes ++ handleBytes handles[index] ++
        (handles.drop (index + 1)).flatMap handleBytes := by
    rw [← flatMap_singleton handleBytes, ← flatMap_append, ← flatMap_append, append_assoc,
      singleton_append, ← drop_eq_getElem_cons less, take_append_drop]
  have offset : before.length + index * handleSize = (before ++ (handles.take index).flatMap handleBytes).length := by
    rw [length_append, length_handles, length_take, Nat.min_eq_left (Nat.le_of_lt less)]
  have read := @readHandle_bytes ε handles[index] (before ++ (handles.take index).flatMap handleBytes)
    ((handles.drop (index + 1)).flatMap handleBytes ++ after)
  rw [offset, split]
  simpa only [append_assoc] using read

end

end Halcyon.Startup
