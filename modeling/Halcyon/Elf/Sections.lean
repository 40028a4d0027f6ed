import Halcyon.Elf.Reading

/-!
The subsections of an attributes section. The body of a subsection is taken from its size field on, so the four size bytes
are read as attributes before the first real one.
-/

namespace Halcyon.Elf

open List

section Turn

variable {data vendor tag more : Bytes} {turns pos size : Nat}

theorem drop_add {front rest : Bytes} (split : data.drop pos = front ++ rest) : data.drop (pos + front.length) = rest := by
  rw [← drop_drop, split, drop_left]

variable {rest : Bytes}

theorem length_of_drop (split : data.drop pos = rest) (inside : pos ≤ data.length) : data.length = pos + rest.length := by
  rw [← split, length_drop]
  omega

theorem slice_drop {ε : Type} {stop : Nat} (split : data.drop pos = rest) (ordered : pos ≤ stop)
    (inside : stop ≤ data.length) : (slice data pos stop : Outcome ε Bytes) = .ok (rest.take (stop - pos)) := by
  rw [slice_returns ordered inside, drop_take, split]

theorem littleAt_drop {ε : Type} (split : data.drop pos = littleBytes 4 size ++ more) (fits : size < 256 ^ 4)
    (inside : pos + 4 ≤ data.length) : (littleAt 4 data pos : Outcome ε Nat) = .ok size := by
  have front : (littleBytes 4 size ++ more).take 4 = littleBytes 4 size := by
    rw [take_append_of_le_length (by simp), take_of_length_le (by simp)]
  rw [littleAt, slice_drop split (Nat.le_add_right _ _) inside, Nat.add_sub_cancel_left, front]
  exact congrArg Except.ok (littleEndian_littleBytes fits)

theorem roomy (small : data.length ≤ isizeMax) : data.length + 4 ≤ usizeMax := by
  rw [isizeMax] at small
  rw [usizeMax]
  omega

theorem ntbs_at (split : data.drop pos = vendor ++ 0 :: rest) : data.drop (pos + (vendor.length + 1)) = rest := by
  have joined : data.drop pos = (vendor ++ [0]) ++ rest := by
    rw [split, append_assoc]
    rfl
  have after := drop_add joined
  rwa [length_append] at after

theorem subsectionsFrom_vendor (small : data.length ≤ isizeMax) (inside : pos < data.length)
    (split : data.drop pos = vendor ++ 0 :: rest) (free : 0 ∉ vendor) : subsectionsFrom (turns + 1) data pos =
      subsectionAt (subsectionsFrom turns data) data (pos + (vendor.length + 1)) := by
  have room := roomy small
  have length := length_of_drop split (Nat.le_of_lt inside)
  rw [length_append, length_cons] at length
  have whole : (slice data pos data.length : Outcome IsaReqError Bytes) = .ok (data.drop pos) := by
    rw [slice_drop rfl (Nat.le_of_lt inside) (Nat.le_refl _), ← length_drop, take_length]
  rw [subsectionsFrom, if_neg (Nat.not_le.mpr inside), whole, ok_bind, split, ntbs_append free, ok_bind,
    add_returns (by omega), ok_bind, add_returns (by omega), ok_bind]

variable {later : Nat → Outcome IsaReqError Text}

theorem subsectionAt_reads (small : data.length ≤ isizeMax) (inside : pos ≤ data.length)
    (split : data.drop pos = tag ++ (littleBytes 4 size ++ more)) (uleb : IsUleb tag) (short : tag.length ≤ 10)
    (fits : size < 256 ^ 4) (ends : size ≤ tag.length + 4 + more.length) : subsectionAt later data pos =
      if size < tag.length then panicked "slice index out of range" else if ulebNumber tag % 2 ^ 64 = tagFile then
        archFromSubsection ((littleBytes 4 size ++ more).take (size - tag.length)) else later (pos + size) := by
  have room := roomy small
  have length := length_of_drop split inside
  simp only [length_append, length_littleBytes] at length
  have sized : data.drop (pos + tag.length) = littleBytes 4 size ++ more := drop_add split
  have read : (littleAt 4 data (pos + tag.length) : Outcome IsaReqError Nat) = .ok size :=
    littleAt_drop sized fits (by omega)
  rw [subsectionAt, ulebValue_eq small, split, takeUleb_append uleb short]
  simp only [ok_bind]
  rw [add_returns (by omega), ok_bind, refuseIf, if_neg (by simpa using (by omega)), ok_bind, read, ok_bind, checkedAdd,
    if_pos (by omega), okOr, ok_bind, refuseIf, if_neg (by simpa using (by omega)), ok_bind]
  by_cases behind : size < tag.length
  · rw [if_pos behind, slice, slice?, if_neg (by omega)]
    rfl
  · rw [if_neg behind, slice_drop sized (by omega) (by omega), ok_bind, Nat.add_sub_add_left]

theorem subsectionAt_untagged (small : data.length ≤ isizeMax) (unread : takeUleb 10 (data.drop pos) = none) :
    subsectionAt later data pos = fail .malformedAttributes := by
  rw [subsectionAt, ulebValue_eq small, unread]
  rfl

end Turn

/-- An attribute: its tag and its value, as bytes. -/
inductive Attribute where
  | string (tag value : Bytes)
  | number (tag value : Bytes)
  deriving DecidableEq

namespace Attribute

def tag : Attribute → Bytes
  | string tag _ => tag
  | number tag _ => tag

def bytes : Attribute → Bytes
  | string tag value => tag ++ (value ++ [0])
  | number tag value => tag ++ value

/-- An odd tag has a text ended by a zero, an even one a number. -/
def WellFormed : Attribute → Prop
  | string tag value => IsUleb tag ∧ ulebNumber tag % 2 = 1 ∧ 0 ∉ value
  | number tag value => IsUleb tag ∧ ulebNumber tag % 2 = 0 ∧ IsUleb value

/-- The numbers of the attribute take at most ten bytes, and its tag is a 64-bit word. -/
def Short : Attribute → Prop
  | string tag _ => tag.length ≤ 10 ∧ ulebNumber tag < 2 ^ 64
  | number tag value => tag.length ≤ 10 ∧ ulebNumber tag < 2 ^ 64 ∧ value.length ≤ 10

instance : DecidablePred WellFormed
  | string tag value => inferInstanceAs (Decidable (IsUleb tag ∧ ulebNumber tag % 2 = 1 ∧ 0 ∉ value))
  | number tag value => inferInstanceAs (Decidable (IsUleb tag ∧ ulebNumber tag % 2 = 0 ∧ IsUleb value))

end Attribute

def sequenceBytes (before : List Attribute) (archTag : Bytes) (arch : Text) (after : List Attribute) : Bytes :=
  before.flatMap Attribute.bytes ++ ((Attribute.string archTag (encodeUtf8 arch)).bytes ++ after.flatMap Attribute.bytes)

/-- A well-formed section: a vendor name, the file tag, a size counted from the tag, and attributes of which
the first with the architecture tag has the text `arch`. -/
structure AttributesSection where
  total : Nat
  vendor : Bytes
  fileTag : Bytes
  before : List Attribute
  archTag : Bytes
  arch : Text
  after : List Attribute
  trailing : Bytes
  vendor_free : 0 ∉ vendor
  fileTag_uleb : IsUleb fileTag
  fileTag_number : ulebNumber fileTag = tagFile
  before_formed : ∀ item ∈ before, item.WellFormed
  before_other : ∀ item ∈ before, ulebNumber item.tag ≠ tagRiscvArch
  archTag_uleb : IsUleb archTag
  archTag_number : ulebNumber archTag = tagRiscvArch
  arch_free : 0 ∉ encodeUtf8 arch
  after_formed : ∀ item ∈ after, item.WellFormed
  size_fits : fileTag.length + 4 + (sequenceBytes before archTag arch after).length < 256 ^ 4
  small : 5 + (vendor.length + 1) + fileTag.length + 4 + (sequenceBytes before archTag arch after).length +
    trailing.length ≤ isizeMax

namespace AttributesSection

def attributes (σ : AttributesSection) : Bytes := sequenceBytes σ.before σ.archTag σ.arch σ.after

def size (σ : AttributesSection) : Nat := σ.fileTag.length + 4 + σ.attributes.length

def bytes (σ : AttributesSection) : Bytes := (0x41 :: littleBytes 4 σ.total) ++
    (σ.vendor ++ 0 :: (σ.fileTag ++ (littleBytes 4 σ.size ++ (σ.attributes ++ σ.trailing))))

/-- The numbers that precede the architecture string take at most ten bytes. -/
def Short (σ : AttributesSection) : Prop := σ.fileTag.length ≤ 10 ∧ σ.archTag.length ≤ 10 ∧ ∀ item ∈ σ.before, item.Short

section

variable (σ : AttributesSection)
include σ

theorem length_bytes : σ.bytes.length ≤ isizeMax := by
  have small := σ.small
  simp only [bytes, attributes, size, length_append, length_cons, length_littleBytes] at small ⊢
  omega

theorem split_bytes : σ.bytes.drop 5 =
    σ.vendor ++ 0 :: (σ.fileTag ++ (littleBytes 4 σ.size ++ (σ.attributes ++ σ.trailing))) := rfl

theorem five_lt_length : 5 + (σ.vendor.length + 1) ≤ σ.bytes.length := by
  simp only [bytes, length_append, length_cons, length_littleBytes]
  omega

theorem parseAttributes_tag : ∃ turns, parseAttributes σ.bytes =
    subsectionAt (subsectionsFrom turns σ.bytes) σ.bytes (5 + (σ.vendor.length + 1)) := by
  have enough := σ.five_lt_length
  obtain ⟨turns, more⟩ : ∃ turns, σ.bytes.length = turns + 1 := ⟨_, (Nat.succ_pred_eq_of_pos (by omega)).symm⟩
  have first : refuseIf (σ.bytes.head? != some 0x41 || σ.bytes.length < 5) IsaReqError.malformedAttributes = .ok () := by
    rw [refuseIf, if_neg]
    simp [bytes]
  refine ⟨turns, ?_⟩
  rw [parseAttributes, first, ok_bind, more, subsectionsFrom_vendor σ.length_bytes (by omega) σ.split_bytes σ.vendor_free]

theorem parseAttributes_eq (short : σ.fileTag.length ≤ 10) :
    parseAttributes σ.bytes = archFromSubsection (littleBytes 4 σ.size ++ σ.attributes) := by
  obtain ⟨_, walked⟩ := σ.parseAttributes_tag
  have isFile : ulebNumber σ.fileTag % 2 ^ 64 = tagFile := by
    rw [σ.fileTag_number]
    rfl
  have ahead : ¬σ.size < σ.fileTag.length := by
    rw [size]
    omega
  have ends : σ.size ≤ σ.fileTag.length + 4 + (σ.attributes ++ σ.trailing).length := by
    rw [size, length_append]
    omega
  have body : (littleBytes 4 σ.size ++ (σ.attributes ++ σ.trailing)).take (σ.size - σ.fileTag.length) =
      littleBytes 4 σ.size ++ σ.attributes := by
    have width : σ.size - σ.fileTag.length = (littleBytes 4 σ.size ++ σ.attributes).length := by
      rw [length_append, length_littleBytes, size]
      omega
    rw [width, ← append_assoc, take_left]
  rw [walked, subsectionAt_reads σ.length_bytes σ.five_lt_length (ntbs_at σ.split_bytes) σ.fileTag_uleb short σ.size_fits
    ends, if_neg ahead, if_pos isFile, body]

theorem parseAttributes_long (long : 10 < σ.fileTag.length) : parseAttributes σ.bytes = fail .malformedAttributes := by
  obtain ⟨_, walked⟩ := σ.parseAttributes_tag
  rw [walked, subsectionAt_untagged σ.length_bytes]
  rw [ntbs_at σ.split_bytes]
  exact takeUleb_long σ.fileTag_uleb long

end

end AttributesSection

/-- Complete attributes, none with the architecture tag. -/
inductive Passed : Bytes → Prop where
  | nil : Passed []
  | number {tag value rest : Bytes} (uleb : IsUleb tag) (short : tag.length ≤ 10) (even : ulebNumber tag % 2 = 0)
      (valueUleb : IsUleb value) (valueShort : value.length ≤ 10) (later : Passed rest) :
      Passed (tag ++ (value ++ rest))
  | string {tag value rest : Bytes} (uleb : IsUleb tag) (short : tag.length ≤ 10) (odd : ulebNumber tag % 2 = 1)
      (other : ulebNumber tag % 2 ^ 64 ≠ tagRiscvArch) (free : 0 ∉ value) (later : Passed rest) :
      Passed (tag ++ (value ++ 0 :: rest))

theorem Passed.firstArch {front rest : Bytes} {text : Text} (passed : Passed front) (arch : FirstArch rest text) :
    FirstArch (front ++ rest) text := by
  induction passed with
  | nil => exact arch
  | number uleb short even valueUleb valueShort _ ih =>
    rw [append_assoc, append_assoc]
    exact .number uleb short even valueUleb valueShort ih
  | string uleb short odd other free _ ih =>
    rw [append_assoc, append_assoc, cons_append]
    exact .string uleb short odd other free ih

theorem Attribute.passed {item : Attribute} {rest : Bytes} (formed : item.WellFormed) (short : item.Short)
    (other : ulebNumber item.tag ≠ tagRiscvArch) (later : Passed rest) : Passed (item.bytes ++ rest) := by
  cases item with
  | string tag value =>
    have word := Nat.mod_eq_of_lt short.2
    simp only [bytes, append_assoc, cons_append, nil_append]
    exact .string formed.1 short.1 formed.2.1 (by rwa [word]) formed.2.2 later
  | number =>
    rw [bytes, append_assoc]
    exact .number formed.1 short.1 formed.2.1 formed.2.2 short.2.2 later

theorem Attribute.passed_all {items : List Attribute} (formed : ∀ item ∈ items, item.WellFormed)
    (short : ∀ item ∈ items, item.Short) (other : ∀ item ∈ items, ulebNumber item.tag ≠ tagRiscvArch) :
    Passed (items.flatMap Attribute.bytes) := by
  induction items with
  | nil => exact .nil
  | cons item items ih =>
    rw [flatMap_cons]
    exact Attribute.passed (formed item mem_cons_self) (short item mem_cons_self)
      (other item mem_cons_self) (ih (fun other member => formed other (mem_cons_of_mem _ member))
        (fun other member => short other (mem_cons_of_mem _ member))
        (fun another member => other another (mem_cons_of_mem _ member)))

namespace AttributesSection

theorem firstArch_attributes (σ : AttributesSection) (short : σ.Short) : FirstArch σ.attributes σ.arch := by
  refine (Attribute.passed_all σ.before_formed short.2.2 σ.before_other).firstArch ?_
  have isArch : ulebNumber σ.archTag % 2 ^ 64 = tagRiscvArch := by
    rw [σ.archTag_number]
    rfl
  rw [Attribute.bytes, append_assoc, append_assoc]
  exact .here σ.archTag_uleb short.2.1 isArch σ.arch_free

theorem passed_size {size : Nat} (low : size < 128) (other : size ≠ tagRiscvArch) : Passed (littleBytes 4 size) := by
  have byte : (UInt8.ofNat (size % 256)).toNat = size := by
    rw [UInt8.toNat_ofNat']
    omega
  have written : littleBytes 4 size = [UInt8.ofNat (size % 256), 0, 0, 0] := by
    have zero : size / 256 = 0 := by omega
    rw [littleBytes, zero]
    rfl
  have tail : Passed [0, 0] := @Passed.number [0] [0] [] (by decide) (by decide) (by decide) (by decide) (by decide) .nil
  have uleb : IsUleb [UInt8.ofNat (size % 256)] := by
    rw [IsUleb, byte]
    exact low
  have number : ulebNumber [UInt8.ofNat (size % 256)] = size := by
    rw [ulebNumber, byte, ulebNumber]
    omega
  rw [written]
  by_cases even : size % 2 = 0
  · exact @Passed.number [_] [0] [0, 0] uleb (by simp) (by rw [number]; exact even) (by decide) (by decide) tail
  · refine @Passed.string [_] [] [0, 0] uleb (by simp) ?_ ?_ (by simp) tail
    · rw [number]
      omega
    · rw [number, Nat.mod_eq_of_lt (by omega)]
      exact other

/-- The architecture string is recovered exactly when the size bytes followed by the attributes have it as
their first one. Size bytes that are attributes of their own do no harm, as those of a size below 128. -/
theorem parseAttributes_recovers (σ : AttributesSection) : (parseAttributes σ.bytes = .ok σ.arch ↔
      σ.fileTag.length ≤ 10 ∧ FirstArch (littleBytes 4 σ.size ++ σ.attributes) σ.arch) ∧
    (σ.Short → Passed (littleBytes 4 σ.size) → parseAttributes σ.bytes = .ok σ.arch) ∧
    (σ.size < 128 → Passed (littleBytes 4 σ.size)) := by
  have small : (littleBytes 4 σ.size ++ σ.attributes).length ≤ isizeMax := by
    have whole := σ.length_bytes
    simp only [bytes, length_append, length_cons, length_littleBytes] at whole ⊢
    omega
  refine ⟨⟨fun recovered => ?_, fun ⟨short, arch⟩ => ?_⟩, fun short passed => ?_, fun low => passed_size low ?_⟩
  · by_cases short : σ.fileTag.length ≤ 10
    · rw [σ.parseAttributes_eq short] at recovered
      exact ⟨short, (archFromSubsection_iff small).mp recovered⟩
    · rw [σ.parseAttributes_long (Nat.lt_of_not_le short)] at recovered
      exact (fail_ne_ok recovered).elim
  · rw [σ.parseAttributes_eq short]
    exact (archFromSubsection_iff small).mpr arch
  · rw [σ.parseAttributes_eq short.1]
    exact (archFromSubsection_iff small).mpr (passed.firstArch (σ.firstArch_attributes short))
  · -- The tag, the size and an empty architecture string already take seven bytes.
    have file := σ.fileTag_uleb.length_pos
    have arch := σ.archTag_uleb.length_pos
    rw [size, attributes, sequenceBytes, Attribute.bytes, tagRiscvArch]
    simp only [length_append, length_cons, length_nil]
    omega

end AttributesSection

/-- A section of the attributes a toolchain writes, with every accepted extension. -/
def toolchainSection : AttributesSection where
  total := 138
  vendor := encodeUtf8 "riscv".toList
  fileTag := [1]
  before := [.number [4] [128, 1]]
  archTag := [5]
  arch := ("rv64i2p1_m2p0_a2p1_f2p2_d2p2_c2p0_zicsr2p0_zifencei2p0_zicntr2p0" ++
    "_zmmul1p0_zaamo1p0_zalrsc1p0_zca1p0_zcd1p0").toList
  after := [.number [6] [1], .number [8] [1], .number [10] [12], .number [12] [0], .number [14] [3], .number [16] [0]]
  trailing := []
  vendor_free := by decide +kernel
  fileTag_uleb := by decide
  fileTag_number := by decide
  before_formed := by decide
  before_other := by decide
  archTag_uleb := by decide
  archTag_number := by decide
  arch_free := by decide +kernel
  after_formed := by decide
  size_fits := by decide +kernel
  small := by decide +kernel

def smallSection : AttributesSection :=
  { toolchainSection with
    total := 23
    before := []
    arch := "rv64gc".toList
    after := []
    before_formed := by decide
    before_other := by decide
    arch_free := by decide +kernel
    after_formed := by decide
    size_fits := by decide +kernel
    small := by decide +kernel }

theorem parseAttributes_recovers_small :
    smallSection.size = 13 ∧ parseAttributes smallSection.bytes = .ok "rv64gc".toList := by
  obtain ⟨_, recovers, low⟩ := smallSection.parseAttributes_recovers
  exact ⟨by decide +kernel, recovers ⟨by decide, by decide, nofun⟩ (low (by decide +kernel))⟩

/-- At a size of 128 the first attribute is taken for part of the size, and the string is not found. -/
theorem toolchainSection_not_recovered : toolchainSection.size = 128 ∧
    parseAttributes toolchainSection.bytes = fail .missingArch ∧
    parseAttributes toolchainSection.bytes ≠ .ok toolchainSection.arch := by
  refine ⟨by decide +kernel, by decide +kernel, by decide +kernel⟩

end Halcyon.Elf
