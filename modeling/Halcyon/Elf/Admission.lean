import Halcyon.Elf.Extensions
import Halcyon.Elf.Image

/-!
What an admitted image guarantees: the geometry of its segments, its entry point, the protection of its page
runs and an ISA requirement that agrees with what the file declares.
-/

namespace Halcyon.Elf

open List

variable {buf : Bytes} {limits : LoadLimits} {header : Header} {scan next : Scan} {p : ProgramHeader}

structure LoadSegment.Fits (buf : Bytes) (limits : LoadLimits) (segment : LoadSegment) : Prop where
  inMemory : segment.vaddr + segment.memsz ≤ limits.imageLimit
  inFile : segment.offset + segment.filesz ≤ buf.length
  backed : segment.filesz ≤ segment.memsz
  filled : 0 < segment.memsz

def LoadSegment.Precedes (first second : LoadSegment) : Prop := first.vaddr + first.memsz ≤ second.vaddr

/-- The segments seen so far fit, follow each other and end where the scan says. -/
structure Scan.Sound (buf : Bytes) (limits : LoadLimits) (scan : Scan) : Prop where
  fits : ∀ segment ∈ scan.segments, segment.Fits buf limits
  ordered : scan.segments.Pairwise LoadSegment.Precedes
  ended : ∀ segment ∈ scan.segments, ∃ stop, scan.previousEnd = some stop ∧ segment.vaddr + segment.memsz ≤ stop

theorem loadSegment_ok (h : loadSegment buf limits scan p = .ok next) :
    ∃ segment : LoadSegment, next.segments = scan.segments ++ [segment] ∧
      next.previousEnd = some (segment.vaddr + segment.memsz) ∧ segment.Fits buf limits ∧
      ∀ stop, scan.previousEnd = some stop → stop ≤ segment.vaddr := by
  obtain ⟨_, _, h⟩ := bind_ok h
  obtain ⟨_, sized, h⟩ := bind_ok h
  obtain ⟨fileEnd, file, h⟩ := bind_ok h
  obtain ⟨_, inFile, h⟩ := bind_ok h
  obtain ⟨stop, memory, h⟩ := bind_ok h
  obtain ⟨inPage, _, h⟩ := bind_ok h
  obtain ⟨inFilePage, _, h⟩ := bind_ok h
  obtain ⟨_, placed, h⟩ := bind_ok h
  obtain ⟨_, after, h⟩ := bind_ok h
  obtain ⟨_, _, h⟩ := bind_ok h
  obtain ⟨rfl, -⟩ := checkedAdd_some (okOr_ok file)
  obtain ⟨rfl, -⟩ := checkedAdd_some (okOr_ok memory)
  have sizes : p.memsz ≠ 0 ∧ p.filesz ≤ p.memsz := by simpa using refuseIf_ok sized
  have within : p.offset + p.filesz ≤ buf.length := by simpa using refuseIf_ok inFile
  have below : p.vaddr + p.memsz ≤ limits.imageLimit ∧ inPage = inFilePage := by simpa using refuseIf_ok placed
  have follows : ∀ stop, scan.previousEnd = some stop → stop ≤ p.vaddr := by
    intro stop previous
    have test := refuseIf_ok after
    rw [previous] at test
    simpa using test
  cases pure_ok h
  exact ⟨_, rfl, rfl, ⟨below.1, within, sizes.2, Nat.pos_of_ne_zero sizes.1⟩, follows⟩

section

variable (sound : scan.Sound buf limits)
include sound

theorem Scan.Sound.append (h : loadSegment buf limits scan p = .ok next) : next.Sound buf limits := by
  obtain ⟨segment, segments, previousEnd, fits, follows⟩ := loadSegment_ok h
  have before : ∀ earlier ∈ scan.segments, earlier.vaddr + earlier.memsz ≤ segment.vaddr := by
    intro earlier member
    obtain ⟨stop, previous, le⟩ := sound.ended earlier member
    exact Nat.le_trans le (follows stop previous)
  refine ⟨?_, ?_, ?_⟩
  · rw [segments]
    exact forall_mem_concat sound.fits fits
  · rw [segments, pairwise_append]
    refine ⟨sound.ordered, pairwise_singleton _ _, fun earlier member later isLast => ?_⟩
    rw [mem_singleton.mp isLast]
    exact before earlier member
  · rw [segments]
    refine forall_mem_concat (fun other old => ⟨_, previousEnd, ?_⟩) ⟨_, previousEnd, Nat.le_refl _⟩
    have le := before other old
    omega

theorem Scan.Sound.of_eq (segments : next.segments = scan.segments)
    (previousEnd : next.previousEnd = scan.previousEnd) : next.Sound buf limits := by
  refine ⟨?_, ?_, ?_⟩
  · rw [segments]
    exact sound.fits
  · rw [segments]
    exact sound.ordered
  · rw [segments, previousEnd]
    exact sound.ended

theorem Scan.Sound.byKind (h : segmentByKind buf limits header scan p = .ok next) : next.Sound buf limits := by
  unfold segmentByKind at h
  split at h
  · exact sound.append h
  split at h
  · obtain ⟨_, _, h⟩ := bind_ok h
    cases pure_ok h
    exact sound
  split at h
  · iterate 3 obtain ⟨_, _, h⟩ := bind_ok h
    cases pure_ok h
    exact sound.of_eq rfl rfl
  split at h
  · obtain ⟨_, _, h⟩ := bind_ok h
    cases pure_ok h
    exact sound
  split at h
  · obtain ⟨_, _, h⟩ := bind_ok h
    obtain ⟨_, _, h⟩ := bind_ok h
    cases pure_ok h
    exact sound
  · exact (fail_ne_ok h).elim

theorem Scan.Sound.turn {index : Nat} (h : scanHeader buf limits header index scan = .ok next) : next.Sound buf limits := by
  obtain ⟨p, _, h⟩ := bind_ok h
  split at h
  · cases h
    exact sound
  · obtain ⟨_, _, h⟩ := bind_ok h
    obtain ⟨_, _, h⟩ := bind_ok h
    exact sound.byKind h

end

theorem scan_sound (h : forRange header.phnum (scanHeader buf limits header)
    { segments := [], previousEnd := none, seenLoad := false, phdr := none } = .ok scan) : scan.Sound buf limits := by
  refine forRange_ok (I := fun _ scan => scan.Sound buf limits) ?_ (fun _ _ _ _ sound turn => sound.turn turn) h
  exact ⟨nofun, List.Pairwise.nil, nofun⟩

theorem holdsEntry_true {entry : Nat} {segment : LoadSegment} (h : holdsEntry entry segment = true) :
    segment.executable = true ∧ segment.vaddr ≤ entry ∧ entry < segment.vaddr + segment.filesz := by
  unfold holdsEntry at h
  rw [Bool.and_eq_true] at h
  obtain ⟨executable, within⟩ := h
  cases sum : checkedAdd segment.vaddr segment.filesz with
  | none =>
    rw [sum] at within
    cases within
  | some stop =>
    obtain ⟨rfl, -⟩ := checkedAdd_some sum
    rw [sum] at within
    exact ⟨executable, by simpa using within⟩

def LoadRun.Guarded (run : LoadRun) : Prop := ¬(run.writable = true ∧ run.executable = true)

theorem write_execute_bits {flags : Nat} (apart : flags &&& (pfW ||| pfX) ≠ pfW ||| pfX) :
    ¬(flags &&& pfW ≠ 0 ∧ flags &&& pfX ≠ 0) := by
  have low : flags &&& (pfW ||| pfX) = flags % 4 := Nat.and_two_pow_sub_one_eq_mod flags 2
  have write : flags &&& pfW = flags % 4 &&& pfW := by
    rw [← low, Nat.and_assoc]
    rfl
  have execute : flags &&& pfX = flags % 4 &&& pfX := by
    rw [← low, Nat.and_assoc]
    rfl
  have bound : flags % 4 < 4 := Nat.mod_lt _ (by decide)
  rw [low] at apart
  rw [write, execute]
  have closed : ∀ bits < 4, bits ≠ pfW ||| pfX → ¬(bits &&& pfW ≠ 0 ∧ bits &&& pfX ≠ 0) := by decide
  exact closed _ bound apart

section Runs

variable {segments : List LoadSegment} {pageSize : Nat} {runs after : List LoadRun} {run : LoadRun}

section

variable (guarded : ∀ run ∈ runs, run.Guarded)
include guarded

theorem extendRuns_ok (isNew : run.Guarded) (h : extendRuns runs run = .ok after) : ∀ other ∈ after, other.Guarded := by
  have pushed : ∀ other ∈ runs ++ [run], other.Guarded := by
    exact forall_mem_concat guarded isNew
  unfold extendRuns at h
  split at h
  · cases h
    exact pushed
  rename_i previous last
  obtain ⟨stop, _, h⟩ := bind_ok h
  split at h
  · obtain ⟨memsz, _, h⟩ := bind_ok h
    cases pure_ok h
    exact forall_mem_concat (fun other old => guarded other (dropLast_subset runs old))
      (guarded previous (mem_of_getLast? last))
  · cases pure_ok h
    exact pushed

theorem addRun_ok {window : Nat × Nat}
    (h : addRun segments pageSize runs window = .ok after) : ∀ run ∈ after, run.Guarded := by
  obtain ⟨flags, _, h⟩ := bind_ok h
  split at h
  · cases h
    exact guarded
  obtain ⟨_, apart, h⟩ := bind_ok h
  obtain ⟨width, _, h⟩ := bind_ok h
  have bits := write_execute_bits (of_decide_eq_false (refuseIf_ok apart))
  exact extendRuns_ok guarded (by simpa [LoadRun.Guarded] using bits) h

theorem foldlM_addRun_ok {windows : List (Nat × Nat)}
    (h : windows.foldlM (addRun segments pageSize) runs = .ok after) : ∀ run ∈ after, run.Guarded := by
  induction windows generalizing runs with
  | nil =>
    cases pure_ok h
    exact guarded
  | cons window windows ih =>
    rw [foldlM_cons] at h
    obtain ⟨middle, first, rest⟩ := bind_ok h
    exact ih (addRun_ok guarded first) rest

end

theorem buildRuns_ok {grant : Reservation → Bool} {imageEnd : Nat}
    (h : buildRuns grant segments pageSize = .ok (runs, imageEnd)) : ∀ run ∈ runs, run.Guarded := by
  obtain ⟨_, _, h⟩ := bind_ok h
  obtain ⟨spans, _, h⟩ := bind_ok h
  obtain ⟨_, _, h⟩ := bind_ok h
  obtain ⟨built, folded, h⟩ := bind_ok h
  cases pure_ok h
  exact foldlM_addRun_ok (fun _ member => absurd member not_mem_nil) folded

end Runs

def ReadsArch (buf : Bytes) (arch : Text) : Prop :=
  ∃ shoff shentsize shnum, (u64At buf 40 : Outcome IsaReqError Nat) = .ok shoff ∧
    (u16At buf 58 : Outcome IsaReqError Nat) = .ok shentsize ∧ (u16At buf 60 : Outcome IsaReqError Nat) = .ok shnum ∧
    findArchString buf shoff shentsize shnum = .ok arch

/-- Flags without a reserved bit, RVE or TSO, and with a soft or a double float ABI. -/
structure AcceptedFlags (eFlags : Nat) : Prop where
  reserved : eFlags &&& efRiscvUnsupported = 0
  rve : eFlags &&& efRiscvRve = 0
  tso : eFlags &&& efRiscvTso = 0
  abi : eFlags &&& efRiscvFloatAbi = 0 ∨ eFlags &&& efRiscvFloatAbi = efRiscvFloatAbiDouble

/-- The flags and the architecture string of a file agree with a requirement. -/
def IsaAgrees (buf : Bytes) (requirement : IsaRequirement) : Prop :=
  ∃ eFlags arch, (u32At buf 48 : Outcome IsaReqError Nat) = .ok eFlags ∧ AcceptedFlags eFlags ∧ ReadsArch buf arch ∧
    DeclaresOnlyAccepted arch ∧
    match requirement with
    | .base64 => eFlags &&& efRiscvFloatAbi = 0 ∧ ¬Declares arch "f".toList ∧ ¬Declares arch "d".toList ∧
        ¬Declares arch "zcd".toList
    | .d64 => eFlags &&& efRiscvFloatAbi = efRiscvFloatAbiDouble ∧ Declares arch "f".toList ∧
        (Declares arch "d".toList ∨ Declares arch "zcd".toList)

theorem float_abi_cases (eFlags : Nat) : eFlags &&& efRiscvFloatAbi ∈ [0, 2, 4, 6] := by
  have low : eFlags &&& efRiscvFloatAbi = eFlags % 8 &&& 6 := by
    rw [← Nat.and_two_pow_sub_one_eq_mod eFlags 3, Nat.and_assoc]
    rfl
  have closed : ∀ bits < 8, bits &&& 6 ∈ [0, 2, 4, 6] := by decide
  rw [low]
  exact closed _ (Nat.mod_lt _ (by decide))

theorem acceptedFlags_of_checks {eFlags : Nat} (reserved : decide (eFlags &&& efRiscvUnsupported ≠ 0) = false)
    (rve : decide (eFlags &&& efRiscvRve ≠ 0) = false) (tso : decide (eFlags &&& efRiscvTso ≠ 0) = false)
    (quad : decide (eFlags &&& efRiscvFloatAbi = efRiscvFloatAbiQuad) = false)
    (single : decide (eFlags &&& efRiscvFloatAbi = efRiscvFloatAbiSingle) = false) : AcceptedFlags eFlags := by
  have zero : ∀ {mask : Nat}, decide (eFlags &&& mask ≠ 0) = false → eFlags &&& mask = 0 := by
    intro mask passed
    simpa using passed
  refine ⟨zero reserved, zero rve, zero tso, ?_⟩
  have known := float_abi_cases eFlags
  simp only [mem_cons, not_mem_nil, or_false] at known
  rcases known with soft | isSingle | double | isQuad
  · exact .inl soft
  · exact absurd isSingle (of_decide_eq_false single)
  · exact .inr double
  · exact absurd isQuad (of_decide_eq_false quad)

theorem isaRequirement_ok {requirement : IsaRequirement} (h : isaRequirement buf = .ok requirement) :
    IsaAgrees buf requirement := by
  obtain ⟨_, _, h⟩ := bind_ok h
  obtain ⟨eFlags, flags, h⟩ := bind_ok h
  obtain ⟨shoff, isShoff, h⟩ := bind_ok h
  obtain ⟨shentsize, isShentsize, h⟩ := bind_ok h
  obtain ⟨shnum, isShnum, h⟩ := bind_ok h
  obtain ⟨_, reserved, h⟩ := bind_ok h
  obtain ⟨_, rve, h⟩ := bind_ok h
  obtain ⟨_, tso, h⟩ := bind_ok h
  obtain ⟨_, quad, h⟩ := bind_ok h
  obtain ⟨_, single, h⟩ := bind_ok h
  obtain ⟨arch, found, h⟩ := bind_ok h
  obtain ⟨accepted, agrees⟩ := archRequirement_ok h
  have checked : AcceptedFlags eFlags := acceptedFlags_of_checks (refuseIf_ok reserved) (refuseIf_ok rve)
    (refuseIf_ok tso) (refuseIf_ok quad) (refuseIf_ok single)
  refine ⟨eFlags, arch, flags, checked, ⟨shoff, shentsize, shnum, isShoff, isShentsize, isShnum, found⟩, accepted, ?_⟩
  cases requirement with
  | base64 => exact ⟨checked.abi.resolve_right agrees.1, agrees.2⟩
  | d64 => exact agrees

structure Admitted (buf : Bytes) (limits : LoadLimits) (image : ElfImage) : Prop where
  ordered : image.segments.Pairwise fun first second => first.vaddr < second.vaddr ∧ first.Precedes second
  fits : ∀ segment ∈ image.segments, segment.Fits buf limits
  entry : ∃ segment ∈ image.segments, segment.executable = true ∧ segment.vaddr ≤ image.entry ∧
    image.entry < segment.vaddr + segment.filesz
  guarded : ∀ run ∈ image.runs, run.Guarded
  isa : IsaAgrees buf image.requirement

/-- Every image that is admitted has ordered segments that fit, an entry point in a file-backed executable
part, no page run to write and execute, and a requirement that agrees with its declarations. -/
theorem validate_sound {grant : Reservation → Bool} {image : ElfImage} (h : validate grant buf limits = .ok image) :
    Admitted buf limits image := by
  obtain ⟨loaded, loading, h⟩ := bind_ok h
  obtain ⟨requirement, required, h⟩ := bind_ok h
  cases pure_ok h
  obtain ⟨_, _, h⟩ := bind_ok loading
  obtain ⟨header, _, h⟩ := bind_ok h
  obtain ⟨_, _, h⟩ := bind_ok h
  obtain ⟨scan, scanned, h⟩ := bind_ok h
  obtain ⟨_, _, h⟩ := bind_ok h
  obtain ⟨covered, _, h⟩ := bind_ok h
  obtain ⟨_, _, h⟩ := bind_ok h
  obtain ⟨_, entered, h⟩ := bind_ok h
  obtain ⟨⟨runs, imageEnd⟩, built, h⟩ := bind_ok h
  cases pure_ok h
  have sound := scan_sound scanned
  have held : scan.segments.any (holdsEntry header.entry) = true := by simpa using refuseIf_ok entered
  obtain ⟨segment, member, holds⟩ := any_eq_true.mp held
  have ordered : scan.segments.Pairwise fun first second => first.vaddr < second.vaddr ∧ first.Precedes second := by
    refine sound.ordered.imp_of_mem fun {first second} isFirst _ precedes => ⟨?_, precedes⟩
    have filled := (sound.fits first isFirst).filled
    rw [LoadSegment.Precedes] at precedes
    omega
  exact ⟨ordered, sound.fits, ⟨segment, member, holdsEntry_true holds⟩, buildRuns_ok built,
    isaRequirement_ok (mapError_ok required)⟩

/-- A file of one executable segment and one section header, for an attributes section at the end. -/
def elfWith (attributes : Bytes) : Bytes :=
  -- The file header: identification, kind, entry point, table offsets, flags and table sizes.
  [0x7F, 0x45, 0x4C, 0x46, 2, 1, 1, 0, 0, 0, 0, 0, 0, 0, 0, 0] ++ littleBytes 2 2 ++ littleBytes 2 243 ++
  littleBytes 4 1 ++ littleBytes 8 0x10078 ++ littleBytes 8 64 ++ littleBytes 8 124 ++ littleBytes 4 0 ++
  littleBytes 2 64 ++ littleBytes 2 56 ++ littleBytes 2 1 ++ littleBytes 2 64 ++ littleBytes 2 1 ++ littleBytes 2 0 ++
  -- The program header of the segment, and its code.
  littleBytes 4 1 ++ littleBytes 4 5 ++ littleBytes 8 0 ++ littleBytes 8 0x10000 ++ littleBytes 8 0 ++
  littleBytes 8 124 ++ littleBytes 8 124 ++ littleBytes 8 0x1000 ++ [0x73, 0, 0, 0] ++
  -- The section header.
  littleBytes 4 0 ++ littleBytes 4 shtRiscvAttributes ++ littleBytes 8 0 ++ littleBytes 8 0 ++ littleBytes 8 188 ++
  littleBytes 8 attributes.length ++ littleBytes 8 0 ++ littleBytes 8 0 ++ littleBytes 8 0 ++ attributes

/-- An attributes section with one subsection, of the given tag, size and bytes. -/
def attributesOf (size : Nat) (body : Bytes) : Bytes :=
  [0x41] ++ littleBytes 4 0 ++ encodeUtf8 "riscv".toList ++ [0, 1] ++ littleBytes 4 size ++ body

def smallElf : Bytes := elfWith (attributesOf 15 ([5] ++ encodeUtf8 "rv64i2p1".toList ++ [0]))

theorem validate_sound_small : ∃ image, validate (fun _ => true) smallElf ⟨4096, 0x40000000⟩ = .ok image ∧
    Admitted smallElf ⟨4096, 0x40000000⟩ image := by
  obtain ⟨image, admitted, -⟩ := returnsWith_ok (validate (fun _ => true) smallElf ⟨4096, 0x40000000⟩)
    (fun image => image.requirement = .base64) (by decide +kernel)
  exact ⟨image, admitted, validate_sound admitted⟩

end Halcyon.Elf
