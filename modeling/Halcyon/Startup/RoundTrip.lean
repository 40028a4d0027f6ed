import Halcyon.Startup.Block

/-! Validation stays inside the block, and what it accepts is laid out in order. -/

namespace Halcyon.Startup

open List

open Handles (Handle)

section

variable {block : Bytes} {header : StartupBlockHeader}

def StartupBlockHeader.handlesEnd (header : StartupBlockHeader) : Nat := size + header.handleCount.toNat * handleSize

/-- The geometry that validation checks before it looks at the padding. -/
structure Geometry (block : Bytes) (header : StartupBlockHeader) : Prop where
  long : StartupBlockHeader.size ≤ block.length
  handles : header.handlesEnd ≤ header.payloadOff.toNat
  payload : header.payloadOff.toNat + header.payloadLen.toNat = block.length
  descriptor : header.entryDescriptorLen ≠ 0 → header.handlesEnd ≤ header.entryDescriptorOff.toNat ∧
    header.entryDescriptorOff.toNat + header.entryDescriptorLen.toNat ≤ header.payloadOff.toNat

theorem Geometry.ordered (geometry : Geometry block header) : header.handlesEnd ≤ header.descriptorOff ∧
      header.descriptorOff + header.entryDescriptorLen.toNat ≤ header.payloadOff.toNat := by
  unfold StartupBlockHeader.descriptorOff
  split
  · rename_i none
    rw [none]
    exact ⟨geometry.handles, Nat.le_refl _⟩
  · rename_i some
    exact geometry.descriptor some

/-- The header, the handles, the descriptor and the payload follow each other in the block, with nothing but
zero bytes between them. -/
structure LaidOut (block : Bytes) (header : StartupBlockHeader) : Prop where
  geometry : Geometry block header
  before : ∀ index, header.handlesEnd ≤ index → index < header.descriptorOff → block[index]? = some 0
  after : ∀ index, header.descriptorOff + header.entryDescriptorLen.toNat ≤ index → index < header.payloadOff.toNat →
    block[index]? = some 0

theorem zero_of_slice {ε : Type} {start stop index : Nat} {padding : Bytes}
    (h : (slice block start stop : Outcome ε Bytes) = .ok padding) (zero : padding.any (· ≠ 0) = false) (from' : start ≤ index)
    (below : index < stop) : block[index]? = some 0 := by
  have length := slice_length h
  have less : index - start < padding.length := by omega
  have isZero : padding[index - start] = 0 := by
    rw [any_eq_false] at zero
    simpa using zero _ (getElem_mem less)
  rw [slice_getElem? h from' below, getElem?_eq_getElem less, isZero]

theorem checkHandles_calm {count : Nat} (few : count < 2 ^ 32)
    (inside : StartupBlockHeader.size + count * handleSize ≤ block.length) : Calm (checkHandles block count) := by
  refine (ends_foldlM (I := fun _ => True) trivial fun index member _ _ => ⟨fun _ _ => trivial, ?_⟩).2
  have less := mem_range.mp member
  rw [StartupBlockHeader.size, handleSize] at inside
  have product : index * handleSize ≤ usizeMax := by
    rw [handleSize, usizeMax]
    omega
  have sum : StartupBlockHeader.size + index * handleSize ≤ usizeMax := by
    rw [StartupBlockHeader.size, handleSize, usizeMax]
    omega
  refine Avoids.bind (calm_returns (multiply_returns product)) fun scaled isScaled => ?_
  rw [multiply_ok isScaled]
  refine Avoids.bind (calm_returns (add_returns sum)) fun offset isOffset => ?_
  rw [add_ok isOffset]
  refine Avoids.bind ?_ fun _ _ => calm_refuseIf _ _
  rw [readHandle, slice_returns (Nat.le_add_right _ _) (by rw [StartupBlockHeader.size, handleSize]; omega)]
  exact avoids_ok _

theorem validateStartupBlock_calm (block : Bytes) : Ends (LaidOut block) Stop.IsPanic (validateStartupBlock block) := by
  refine Ends.bind (calm_refuseIf _ _) fun _ passed => ?_
  have long : StartupBlockHeader.size ≤ block.length := by simpa using refuseIf_ok passed
  rw [StartupBlockHeader.read, slice_returns (Nat.zero_le _) (by simpa using long)]
  refine Ends.bind (avoids_ok _) fun header _ => ?_
  refine Ends.bind (calm_refuseIf _ _) fun _ _ => Ends.bind (calm_refuseIf _ _) fun _ _ => ?_
  refine Ends.bind (calm_refuseIf _ _) fun _ _ => Ends.bind (calm_refuseIf _ _) fun _ _ => ?_
  refine Ends.bind (calm_okOr _ _) fun bytes product => Ends.bind (calm_okOr _ _) fun handlesEnd sum => ?_
  obtain ⟨rfl, -⟩ := checkedMul_some (okOr_ok product)
  obtain ⟨rfl, -⟩ := checkedAdd_some (okOr_ok sum)
  refine Ends.bind (calm_refuseIf _ _) fun _ behind => Ends.bind (calm_okOr _ _) fun payloadEnd total => ?_
  obtain ⟨rfl, -⟩ := checkedAdd_some (okOr_ok total)
  refine Ends.bind (calm_refuseIf _ _) fun _ whole => Ends.bind (calm_okOr _ _) fun descriptorEnd width => ?_
  obtain ⟨rfl, -⟩ := checkedAdd_some (okOr_ok width)
  refine Ends.bind (calm_refuseIf _ _) fun _ placed => ?_
  have geometry : Geometry block header := by
    refine ⟨long, by simpa [StartupBlockHeader.handlesEnd] using refuseIf_ok behind,
      by simpa using refuseIf_ok whole, fun some => ?_⟩
    simpa [some, StartupBlockHeader.handlesEnd, StartupBlockHeader.descriptorOff] using refuseIf_ok placed
  have ordered := geometry.ordered
  have ends := geometry.payload
  refine Ends.bind (calm_slice ordered.1 ?_) fun before isBefore =>
    Ends.bind (calm_slice ordered.2 ?_) fun after isAfter => ?_
  · omega
  · omega
  refine Ends.bind (calm_refuseIf _ _) fun _ zeros => ?_
  have zero := Bool.or_eq_false_iff.mp (refuseIf_ok zeros)
  have room : StartupBlockHeader.size + header.handleCount.toNat * handleSize ≤ block.length := by
    have le := geometry.handles
    rw [StartupBlockHeader.handlesEnd] at le
    omega
  refine Ends.bind (checkHandles_calm (UInt32.toNat_lt _) room) fun _ _ => ⟨fun a returned => ?_, avoids_ok _⟩
  rw [pure_ok returned]
  exact ⟨geometry, fun _ => zero_of_slice isBefore zero.1, fun _ => zero_of_slice isAfter zero.2⟩

theorem entryThreadDescriptor_calm (block : Bytes) (header : StartupBlockHeader) :
    Calm (entryThreadDescriptor block header) := by
  refine (validateStartupBlock_calm block).2.bind fun read validated => calm_check fun same => ?_
  have same : read = header := by simpa using same
  subst same
  have laid := (validateStartupBlock_calm block).1 read validated
  have ends := laid.geometry.payload
  refine calm_check fun sized => ?_
  have sized : read.entryDescriptorLen.toNat = EntryThreadDescriptor.size := by simpa using sized
  have some : read.entryDescriptorLen ≠ 0 := by
    intro zero
    rw [zero] at sized
    exact absurd sized (by decide)
  have placed := laid.geometry.descriptor some
  refine Avoids.bind ?_ fun descriptor _ => calm_check fun _ => ?_
  · rw [EntryThreadDescriptor.read, slice_returns (Nat.le_add_right _ _) (by omega)]
    exact avoids_ok _
  · exact (calm_slice (by omega) (Nat.le_refl _)).bind fun _ _ => avoids_ok _

end

/-! Blocks that were built are accepted, and give back what they were built from. -/

section

variable {header : StartupBlockHeader} {handles : List Handle} {descriptor payload : Bytes}

def compose (header : StartupBlockHeader) (handles : List Handle) (descriptor payload : Bytes) : Bytes :=
  header.bytes ++ handles.flatMap handleBytes ++ descriptor ++ payload

theorem readHandle_compose {index : Nat} {handle : Handle} (found : handles[index]? = some handle) :
    (readHandle (compose header handles descriptor payload) (StartupBlockHeader.size + index * handleSize) :
      Outcome StartupParseError Handle) = .ok handle := by
  have array := @readHandle_array StartupParseError handles index handle found header.bytes (descriptor ++ payload)
  rw [header.length_bytes] at array
  simpa only [compose, append_assoc] using array

structure Describes (header : StartupBlockHeader) (handles : List Handle) (descriptor payload : Bytes) : Prop where
  magic : header.magic = startupBlockMagic
  version : header.version = startupVersion
  reserved0 : header.reserved0 = 0
  reserved : header.reserved = 0
  blockLen : header.blockLen.toNat = header.payloadOff.toNat + payload.length
  count : header.handleCount.toNat = handles.length
  payloadOff : header.payloadOff.toNat = header.handlesEnd + descriptor.length
  payloadLen : header.payloadLen.toNat = payload.length
  descriptorLen : header.entryDescriptorLen.toNat = descriptor.length
  descriptorOff : descriptor ≠ [] → header.entryDescriptorOff.toNat = header.handlesEnd

namespace Describes

variable (describes : Describes header handles descriptor payload)
include describes

theorem handlesEnd_eq : header.handlesEnd = (header.bytes ++ handles.flatMap handleBytes).length := by
  rw [StartupBlockHeader.handlesEnd, describes.count, length_append, length_handles, header.length_bytes]

theorem length_compose : (compose header handles descriptor payload).length = header.payloadOff.toNat + payload.length := by
  rw [compose, length_append, length_append, ← describes.handlesEnd_eq, describes.payloadOff]

theorem descriptorOff_eq : header.descriptorOff = header.handlesEnd := by
  unfold StartupBlockHeader.descriptorOff
  split
  · rename_i none
    have empty := describes.descriptorLen
    rw [none] at empty
    rw [describes.payloadOff, ← empty]
    rfl
  · rename_i some
    refine describes.descriptorOff fun empty => some (UInt32.toNat_inj.mp ?_)
    rw [describes.descriptorLen, empty]
    rfl

theorem handles_checked (valid : ∀ handle ∈ handles, handle.isValid = true) :
    checkHandles (compose header handles descriptor payload) header.handleCount.toNat = .ok () := by
  have few := UInt32.toNat_lt header.handleCount
  obtain ⟨_, returned, -⟩ := @forRange_returns StartupParseError Unit header.handleCount.toNat
    (fun index _ => do
      let offset ← add StartupBlockHeader.size (← multiply index handleSize)
      let handle ← readHandle (compose header handles descriptor payload) offset
      refuseIf (!handle.isValid) .invalidHandle) () (fun _ _ => True) trivial (by
    intro index _ less _
    rw [describes.count] at less
    have product : index * handleSize ≤ usizeMax := by
      rw [← describes.count] at less
      rw [handleSize, usizeMax]
      omega
    have sum : StartupBlockHeader.size + index * handleSize ≤ usizeMax := by
      rw [← describes.count] at less
      rw [StartupBlockHeader.size, handleSize, usizeMax]
      omega
    refine ⟨(), ?_, trivial⟩
    rw [multiply_returns product, ok_bind, add_returns sum, ok_bind,
      readHandle_compose (getElem?_eq_getElem less), ok_bind, refuseIf, valid _ (getElem_mem less)]
    rfl)
  exact returned

theorem validated (valid : ∀ handle ∈ handles, handle.isValid = true) :
    validateStartupBlock (compose header handles descriptor payload) = .ok header := by
  have length := describes.length_compose
  have behind := describes.payloadOff
  have count := UInt32.toNat_lt header.handleCount
  have off := UInt32.toNat_lt header.payloadOff
  have len := UInt32.toNat_lt header.payloadLen
  have descriptorLen := describes.descriptorLen
  have payloadLen := describes.payloadLen
  have size : StartupBlockHeader.size ≤ header.handlesEnd := Nat.le_add_right _ _
  have endIs : header.handlesEnd = 56 + header.handleCount.toNat * 8 := rfl
  have read : (StartupBlockHeader.read (compose header handles descriptor payload) 0 :
      Outcome StartupParseError StartupBlockHeader) = .ok header := by
    have front := @StartupBlockHeader.read_bytes StartupParseError header
      (handles.flatMap handleBytes ++ (descriptor ++ payload))
    simpa only [compose, append_assoc] using front
  have noPadding : ∀ n, n ≤ (compose header handles descriptor payload).length →
      (slice (compose header handles descriptor payload) n n : Outcome StartupParseError Bytes) = .ok [] := by
    intro n inside
    rw [slice_returns (Nat.le_refl _) inside]
    exact congrArg Except.ok (drop_of_length_le (length_take_le _ _))
  have stop : header.handlesEnd + header.entryDescriptorLen.toNat = header.payloadOff.toNat := by
    rw [descriptorLen, behind]
  have handlesEnd : StartupBlockHeader.size + header.handleCount.toNat * handleSize = header.handlesEnd := rfl
  have product : header.handleCount.toNat * handleSize ≤ usizeMax := by
    rw [handleSize, usizeMax]
    omega
  have sum : StartupBlockHeader.size + header.handleCount.toNat * handleSize ≤ usizeMax := by
    rw [StartupBlockHeader.size, handleSize, usizeMax]
    omega
  have total : header.payloadOff.toNat + header.payloadLen.toNat ≤ usizeMax := by
    rw [usizeMax]
    omega
  have width : header.handlesEnd + header.entryDescriptorLen.toNat ≤ usizeMax := by
    rw [stop, usizeMax]
    omega
  rw [validateStartupBlock, pass_check (by simpa using (by omega)), read, ok_bind,
    pass_check (by simpa [describes.blockLen] using length.symm), pass_check (by simp [describes.magic]),
    pass_check (by simp [describes.version]), pass_check (by simp [describes.reserved0, describes.reserved]),
    pass_okOr (checkedMul_fits product), pass_okOr (checkedAdd_fits sum)]
  simp only [handlesEnd]
  rw [pass_check (by simpa using (by omega)), pass_okOr (checkedAdd_fits total),
    pass_check (by simpa [payloadLen] using length.symm), describes.descriptorOff_eq, pass_okOr (checkedAdd_fits width),
    stop, pass_check (by simp), noPadding _ (by omega), ok_bind, noPadding _ (by omega), ok_bind, pass_check (by simp),
    describes.handles_checked valid, ok_bind]
  rfl

end Describes

theorem toU32_some {value : Nat} {word : UInt32} (h : toU32 value = some word) : word.toNat = value := by
  unfold toU32 at h
  split at h
  · rename_i fits
    cases h
    exact UInt32.toNat_ofNat_of_lt' fits
  · cases h

section Build

variable {grant : Bool} {grants : Grants} {pid parentPid : UInt64} {entry : EntryThreadDescriptor} {block : Bytes}
  {payloadOff payloadLen : Nat}

structure Heads (header : StartupBlockHeader) (pid parentPid : UInt64) (handles : List Handle) (payloadOff payloadLen : Nat) :
    Prop where
  magic : header.magic = startupBlockMagic
  version : header.version = startupVersion
  reserved0 : header.reserved0 = 0
  reserved : header.reserved = 0
  pid : header.pid = pid
  parentPid : header.parentPid = parentPid
  blockLen : header.blockLen.toNat = payloadOff + payloadLen
  count : header.handleCount.toNat = handles.length
  payloadOff : header.payloadOff.toNat = payloadOff
  payloadLen : header.payloadLen.toNat = payloadLen
  descriptorLen : header.entryDescriptorLen = 0

theorem buildStartupPrefix_ok (h : buildStartupPrefix grant pid parentPid handles payloadOff payloadLen = .ok block) :
    ∃ header, Heads header pid parentPid handles payloadOff payloadLen ∧
      block = resize (header.bytes ++ handles.flatMap handleBytes) payloadOff := by
  obtain ⟨_, _, h⟩ := bind_ok h
  obtain ⟨_, _, h⟩ := bind_ok h
  obtain ⟨_, _, h⟩ := bind_ok h
  obtain ⟨_, sum, h⟩ := bind_ok h
  obtain ⟨_, isBlockLen, h⟩ := bind_ok h
  obtain ⟨_, isCount, h⟩ := bind_ok h
  obtain ⟨_, isOff, h⟩ := bind_ok h
  obtain ⟨_, isLen, h⟩ := bind_ok h
  obtain ⟨_, _, result⟩ := bind_ok h
  obtain ⟨rfl, -⟩ := checkedAdd_some (okOr_ok sum)
  exact ⟨_, ⟨rfl, rfl, rfl, rfl, rfl, rfl, toU32_some (okOr_ok isBlockLen), toU32_some (okOr_ok isCount),
    toU32_some (okOr_ok isOff), toU32_some (okOr_ok isLen), rfl⟩, pure_ok result⟩

theorem resize_padded (bytes : Bytes) (zeros : Nat) :
    resize bytes (bytes.length + zeros) = bytes ++ List.replicate zeros 0 := by
  rw [resize, take_of_length_le (Nat.le_add_right _ _), Nat.add_sub_cancel_left]

theorem overwrite_append {ε : Type} (before old after new : Bytes) (same : new.length = old.length) :
    (overwrite (before ++ old ++ after) before.length new : Outcome ε Bytes) = .ok (before ++ new ++ after) := by
  have front : (before ++ old ++ after).take before.length = before := by
    rw [append_assoc, take_left]
  have back : (before ++ old ++ after).drop (before.length + new.length) = after := by
    rw [same, ← length_append, drop_left]
  rw [overwrite, if_pos (by simp [same]), front, back]

theorem length_heads (header : StartupBlockHeader) (handles : List Handle) :
    (header.bytes ++ handles.flatMap handleBytes).length = StartupBlockHeader.size + handles.length * handleSize := by
  rw [length_append, length_handles, header.length_bytes]

theorem buildStartupBlock_ok (h : buildStartupBlock grants pid parentPid handles payload = .ok block) :
    ∃ header, Describes header handles [] payload ∧ header.pid = pid ∧ header.parentPid = parentPid ∧
      block = compose header handles [] payload := by
  obtain ⟨bytes, product, h⟩ := bind_ok h
  obtain ⟨payloadOff, sum, h⟩ := bind_ok h
  obtain ⟨_, built, h⟩ := bind_ok h
  obtain ⟨_, _, result⟩ := bind_ok h
  obtain ⟨rfl, -⟩ := checkedMul_some (okOr_ok product)
  obtain ⟨rfl, -⟩ := checkedAdd_some (okOr_ok sum)
  obtain ⟨header, heads, rfl⟩ := buildStartupPrefix_ok built
  have handlesEnd : header.handlesEnd = StartupBlockHeader.size + handles.length * handleSize := by
    rw [StartupBlockHeader.handlesEnd, heads.count]
  refine ⟨header, ⟨heads.magic, heads.version, heads.reserved0, heads.reserved, ?_, heads.count, ?_, heads.payloadLen, ?_,
    fun some => absurd rfl some⟩, heads.pid, heads.parentPid, ?_⟩
  · rw [heads.blockLen, heads.payloadOff]
  · rw [heads.payloadOff, handlesEnd]
    rfl
  · rw [heads.descriptorLen]
    rfl
  · have whole := resize_padded (header.bytes ++ handles.flatMap handleBytes) 0
    rw [length_heads, Nat.add_zero] at whole
    rw [pure_ok result, whole, compose, replicate_zero]

theorem buildStartupPrefixWithEntry_ok (h : buildStartupPrefixWithEntry grant pid parentPid handles
      (StartupBlockHeader.size + handles.length * handleSize + EntryThreadDescriptor.size) payloadLen entry = .ok block) :
    ∃ header : StartupBlockHeader, ∃ off len : UInt32, Heads header pid parentPid handles
        (StartupBlockHeader.size + handles.length * handleSize + EntryThreadDescriptor.size) payloadLen ∧
      off.toNat = StartupBlockHeader.size + handles.length * handleSize ∧ len.toNat = entry.bytes.length ∧
      block = { header with entryDescriptorOff := off, entryDescriptorLen := len }.bytes ++
        handles.flatMap handleBytes ++ entry.bytes := by
  obtain ⟨_, sum, h⟩ := bind_ok h
  obtain ⟨_, _, h⟩ := bind_ok h
  obtain ⟨_, _, h⟩ := bind_ok h
  obtain ⟨_, isPadded, h⟩ := bind_ok h
  obtain ⟨_, isWritten, h⟩ := bind_ok h
  obtain ⟨read, isRead, h⟩ := bind_ok h
  obtain ⟨entryOff, isEntryOff, h⟩ := bind_ok h
  obtain ⟨entryLen, isEntryLen, result⟩ := bind_ok h
  obtain ⟨rfl, -⟩ := checkedAdd_some (okOr_ok sum)
  obtain ⟨header, heads, rfl⟩ := buildStartupPrefix_ok isPadded
  -- The padding is exactly as long as the descriptor that replaces it.
  have described := @overwrite_append StartupBuildError (header.bytes ++ handles.flatMap handleBytes)
    (List.replicate EntryThreadDescriptor.size 0) [] entry.bytes (by rw [entry.length_bytes, length_replicate])
  rw [← length_heads header, resize_padded] at isWritten
  rw [append_nil, append_nil] at described
  cases described.symm.trans isWritten
  rw [append_assoc, StartupBlockHeader.read_bytes] at isRead
  obtain rfl : header = read := Except.ok.inj isRead
  have headed := @overwrite_append StartupBuildError [] header.bytes (handles.flatMap handleBytes ++ entry.bytes)
    { header with entryDescriptorOff := entryOff, entryDescriptorLen := entryLen }.bytes
    (by rw [StartupBlockHeader.length_bytes, StartupBlockHeader.length_bytes])
  simp only [nil_append, length_nil, ← append_assoc] at headed
  cases headed.symm.trans result
  exact ⟨header, entryOff, entryLen, heads, toU32_some (okOr_ok isEntryOff), toU32_some (okOr_ok isEntryLen), rfl⟩

theorem buildStartupBlockWithEntry_ok (h : buildStartupBlockWithEntry grants pid parentPid handles entry payload = .ok block) :
    ∃ header, Describes header handles entry.bytes payload ∧ header.pid = pid ∧ header.parentPid = parentPid ∧
      block = compose header handles entry.bytes payload := by
  obtain ⟨_, sum, h⟩ := bind_ok h
  obtain ⟨payloadOff, sum', h⟩ := bind_ok h
  obtain ⟨_, built, h⟩ := bind_ok h
  obtain ⟨_, _, result⟩ := bind_ok h
  obtain ⟨rfl, -⟩ := checkedAdd_some (okOr_ok sum)
  obtain ⟨rfl, -⟩ := checkedAdd_some (okOr_ok sum')
  obtain ⟨header, off, len, heads, isOff, isLen, rfl⟩ := buildStartupPrefixWithEntry_ok built
  have handlesEnd : header.handlesEnd = StartupBlockHeader.size + handles.length * handleSize := by
    rw [StartupBlockHeader.handlesEnd, heads.count]
  refine ⟨{ header with entryDescriptorOff := off, entryDescriptorLen := len },
    ⟨heads.magic, heads.version, heads.reserved0, heads.reserved, ?_, heads.count, ?_, heads.payloadLen, isLen,
    fun _ => isOff.trans handlesEnd.symm⟩, heads.pid, heads.parentPid, pure_ok result⟩
  · exact heads.blockLen.trans (congrArg (· + payload.length) heads.payloadOff.symm)
  · rw [entry.length_bytes]
    exact heads.payloadOff.trans (congrArg (· + EntryThreadDescriptor.size) handlesEnd.symm)

end Build

theorem Describes.payload_slice (describes : Describes header handles descriptor payload) :
    (slice (compose header handles descriptor payload) header.payloadOff.toNat
      (compose header handles descriptor payload).length : Outcome StartupParseError Bytes) = .ok payload := by
  have front : (header.bytes ++ handles.flatMap handleBytes ++ descriptor).length = header.payloadOff.toNat := by
    rw [length_append, ← describes.handlesEnd_eq, describes.payloadOff]
  have length := describes.length_compose
  rw [slice_returns (by omega) (Nat.le_refl _), take_length, compose, ← front, drop_left]

theorem Describes.described {entry : EntryThreadDescriptor} (describes : Describes header handles entry.bytes payload)
    (valid : ∀ handle ∈ handles, handle.isValid = true) (accepted : entry.accepted header.handleCount = true) :
    entryThreadDescriptor (compose header handles entry.bytes payload) header = .ok (entry, payload) := by
  have nonempty : entry.bytes ≠ [] := by
    intro empty
    have length := entry.length_bytes
    rw [empty] at length
    cases length
  have read : (EntryThreadDescriptor.read (compose header handles entry.bytes payload) header.entryDescriptorOff.toNat :
      Outcome StartupParseError EntryThreadDescriptor) = .ok entry := by
    rw [describes.descriptorOff nonempty, describes.handlesEnd_eq]
    exact entry.read_bytes _ _
  have sized := describes.descriptorLen.trans entry.length_bytes
  rw [entryThreadDescriptor, describes.validated valid, ok_bind, pass_check (by simp), pass_check (by simp [sized]), read,
    ok_bind, pass_check (by simp [accepted]), describes.payload_slice]
  rfl

/-- Blocks that are built are accepted and give back what they were built from. Whatever the bytes, the validators
do not leave the block, and what is accepted is laid out in order, with zero bytes between the parts. -/
theorem startup_blocks_round_trip :
    (∀ grants pid parentPid handles entry payload block, (∀ handle ∈ handles, handle.isValid = true) →
      entry.accepted (.ofNat handles.length) = true →
      buildStartupBlockWithEntry grants pid parentPid handles entry payload = .ok block →
      ∃ header, validateStartupBlock block = .ok header ∧ header.pid = pid ∧ header.parentPid = parentPid ∧
        header.handleCount.toNat = handles.length ∧ (∀ index handle, handles[index]? = some handle →
          (readHandle block (StartupBlockHeader.size + index * handleSize) : Outcome StartupParseError Handle) =
            .ok handle) ∧ entryThreadDescriptor block header = .ok (entry, payload)) ∧
    (∀ grants pid parentPid handles payload block, (∀ handle ∈ handles, handle.isValid = true) →
      buildStartupBlock grants pid parentPid handles payload = .ok block →
      ∃ header, validateStartupBlock block = .ok header ∧ header.pid = pid ∧ header.parentPid = parentPid ∧
        header.handleCount.toNat = handles.length ∧ (∀ index handle, handles[index]? = some handle →
          (readHandle block (StartupBlockHeader.size + index * handleSize) : Outcome StartupParseError Handle) =
            .ok handle) ∧ header.entryDescriptorLen = 0 ∧
        (slice block header.payloadOff.toNat block.length : Outcome StartupParseError Bytes) = .ok payload) ∧
    (∀ block, ¬ Panics (validateStartupBlock block)) ∧
    (∀ block header, ¬ Panics (entryThreadDescriptor block header)) ∧
    ∀ block header, validateStartupBlock block = .ok header → LaidOut block header := by
  refine ⟨?_, ?_, ?_, ?_, ?_⟩
  · intro grants pid parentPid handles entry payload block valid accepted built
    obtain ⟨header, describes, isPid, isParent, rfl⟩ := buildStartupBlockWithEntry_ok built
    have count : UInt32.ofNat handles.length = header.handleCount := by
      rw [← describes.count, UInt32.ofNat_toNat]
    rw [count] at accepted
    exact ⟨header, describes.validated valid, isPid, isParent, describes.count, fun _ _ => readHandle_compose,
      describes.described valid accepted⟩
  · intro grants pid parentPid handles payload block valid built
    obtain ⟨header, describes, isPid, isParent, rfl⟩ := buildStartupBlock_ok built
    exact ⟨header, describes.validated valid, isPid, isParent, describes.count, fun _ _ => readHandle_compose,
      UInt32.toNat_inj.mp describes.descriptorLen, describes.payload_slice⟩
  · exact fun block => not_panics_iff.mpr (validateStartupBlock_calm block).2
  · exact fun block header => not_panics_iff.mpr (entryThreadDescriptor_calm block header)
  · exact fun block => (validateStartupBlock_calm block).1

theorem startup_blocks_round_trip_small : ∃ block header,
    buildStartupBlockWithEntry ⟨true, true⟩ 7 1 [⟨0x100000005⟩, ⟨0x200000009⟩]
      ⟨1, 2, 48, 1, 0, 4096, 8192, 8192, 4096⟩ [1, 2, 3] = .ok block ∧ block.length = 123 ∧
    validateStartupBlock block = .ok header ∧ header.pid = 7 ∧ header.parentPid = 1 ∧ LaidOut block header ∧
    entryThreadDescriptor block header = .ok (⟨1, 2, 48, 1, 0, 4096, 8192, 8192, 4096⟩, [1, 2, 3]) := by
  obtain ⟨block, built, length⟩ := returnsWith_ok (buildStartupBlockWithEntry ⟨true, true⟩ 7 1
    [⟨0x100000005⟩, ⟨0x200000009⟩] ⟨1, 2, 48, 1, 0, 4096, 8192, 8192, 4096⟩ [1, 2, 3])
    (fun block => block.length == 123) (by decide +kernel)
  obtain ⟨withEntry, _, _, _, accepted⟩ := startup_blocks_round_trip
  obtain ⟨header, valid, isPid, isParent, _, _, entry⟩ := withEntry _ _ _ _ _ _ block (by decide) (by decide) built
  exact ⟨block, header, built, eq_of_beq length, valid, isPid, isParent, accepted block header valid, entry⟩

end

end Halcyon.Startup
