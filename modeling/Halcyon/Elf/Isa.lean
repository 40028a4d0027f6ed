import Halcyon.Base.Text

/-!
The `.riscv.attributes` section of an ELF image: the byte 'A', a total length and subsections, each a vendor name, a tag, a
size counted from the tag, and attributes.
-/

namespace Halcyon.Elf

open List

inductive IsaReqError where
  | missingArch
  | malformedAttributes
  | badBase
  | rve
  | tso
  | badFlags
  | fOnly
  | quadAbi
  | abiArchMismatch
  | unsupportedExtension
  deriving DecidableEq

def shtRiscvAttributes : Nat := 0x70000003
def tagFile : Nat := 1
def tagRiscvArch : Nat := 5

def u16At {ε : Type} : Bytes → Nat → Outcome ε Nat := littleAt 2
def u32At {ε : Type} : Bytes → Nat → Outcome ε Nat := littleAt 4
def u64At {ε : Type} : Bytes → Nat → Outcome ε Nat := littleAt 8

/-- The loop of `uleb128`. The shift ends it: a tenth turn is the last. -/
def ulebFrom : Nat → Bytes → Nat → Nat → Nat → Outcome Unit (Nat × Nat)
  | 0, _, _, _, _ => panicked "the shift does not end the loop"
  | turns + 1, data, pos, result, shift => do
    let byte ← okOr () data[pos]?
    let pos ← add pos 1
    assertThat (shift < 64) "attempt to shift left with overflow"
    let result := result ||| (byte.toNat &&& 0x7F) <<< shift % 2 ^ 64
    if byte.toNat &&& 0x80 = 0 then
      return (result, pos)
    let shift := shift + 7
    refuseIf (shift ≥ 64) ()
    ulebFrom turns data pos result shift

def uleb128 (data : Bytes) (pos : Nat) : Outcome Unit (Nat × Nat) := ulebFrom 10 data pos 0 0

def ntbs (bytes : Bytes) : Outcome IsaReqError Nat := okOr .malformedAttributes (bytes.findIdx? (· == 0))

def ulebValue (data : Bytes) (pos : Nat) : Outcome IsaReqError (Nat × Nat) :=
  mapError (fun _ => .malformedAttributes) (uleb128 data pos)

/-- An attribute whose tag has been read; `later` reads the ones after it. -/
def attributeAt (later : Bytes → Outcome IsaReqError Text) (tag : Nat) (body : Bytes) : Outcome IsaReqError Text :=
  if tag = tagRiscvArch then do
    let len ← ntbs body
    let arch ← slice body 0 len
    okOr .malformedAttributes (decodeUtf8 arch)
  else if tag % 2 = 0 then do
    let (_, next) ← ulebValue body 0
    let body ← slice body next body.length
    later body
  else do
    let len ← ntbs body
    let next ← add len 1
    let body ← slice body next body.length
    later body

/-- The loop of `arch_from_subsection`. Each turn takes at least a byte. -/
def attributesFrom : Nat → Bytes → Outcome IsaReqError Text
  | 0, _ => panicked "the attributes do not end"
  | turns + 1, body =>
    if body.isEmpty then fail .missingArch
    else do
      let (tag, next) ← ulebValue body 0
      let body ← slice body next body.length
      attributeAt (attributesFrom turns) tag body

def archFromSubsection (body : Bytes) : Outcome IsaReqError Text := attributesFrom (body.length + 1) body

/-- A subsection after its vendor name; `later` reads the ones after it. -/
def subsectionAt (later : Nat → Outcome IsaReqError Text) (data : Bytes) (tagPos : Nat) : Outcome IsaReqError Text := do
  let (tag, next) ← ulebValue data tagPos
  refuseIf (data.length < (← add next 4)) .malformedAttributes
  let size ← littleAt 4 data next
  let stop ← okOr .malformedAttributes (checkedAdd tagPos size)
  refuseIf (data.length < stop) .malformedAttributes
  -- The body begins at the size field, which is read again as attributes.
  let body ← slice data next stop
  if tag = tagFile then archFromSubsection body else later stop

/-- The loop of `parse_attributes`. Each turn takes at least the zero of a vendor name. -/
def subsectionsFrom : Nat → Bytes → Nat → Outcome IsaReqError Text
  | 0, _, _ => panicked "the subsections do not end"
  | turns + 1, data, pos =>
    if data.length ≤ pos then fail .missingArch
    else do
      let vendor ← slice data pos data.length
      let vlen ← ntbs vendor
      let tagPos ← add pos (← add vlen 1)
      subsectionAt (subsectionsFrom turns data) data tagPos

def parseAttributes (data : Bytes) : Outcome IsaReqError Text := do
  refuseIf (data.head? != some 0x41 || data.length < 5) .malformedAttributes
  subsectionsFrom data.length data 5

def sectionHeader (buf : Bytes) (shoff shentsize index : Nat) : Outcome IsaReqError Bytes := do
  let table ← slice buf (← add shoff (← multiply index shentsize)) buf.length
  slice table 0 64

/-- The loop of `find_arch_string` over the section headers that are left. -/
def findArchAmong (buf : Bytes) (shoff shentsize : Nat) : List Nat → Outcome IsaReqError Text
  | [] => fail .missingArch
  | index :: rest => do
    let sh ← sectionHeader buf shoff shentsize index
    if (← u32At sh 4) ≠ shtRiscvAttributes then findArchAmong buf shoff shentsize rest
    else
      let off ← u64At sh 24
      let size ← u64At sh 32
      let stop ← okOr .malformedAttributes (checkedAdd off size)
      let data ← okOr .malformedAttributes (slice? buf off stop)
      parseAttributes data

def findArchString (buf : Bytes) (shoff shentsize shnum : Nat) : Outcome IsaReqError Text := do
  refuseIf (shentsize < 64) .malformedAttributes
  let bytes ← okOr .malformedAttributes (checkedMul shnum shentsize)
  let stop ← okOr .malformedAttributes (checkedAdd shoff bytes)
  refuseIf (buf.length < stop) .malformedAttributes
  findArchAmong buf shoff shentsize (List.range shnum)

/-!
The ISA requirement of an image: its `e_flags` and the extensions its architecture string declares.
-/

inductive IsaRequirement where
  | base64
  | d64
  deriving DecidableEq

def efRiscvFloatAbi : Nat := 0x0006
def efRiscvFloatAbiSingle : Nat := 0x0002
def efRiscvFloatAbiDouble : Nat := 0x0004
def efRiscvFloatAbiQuad : Nat := 0x0006
def efRiscvRve : Nat := 0x0008
def efRiscvTso : Nat := 0x0010
def efRiscvUnsupported : Nat := 0xFFFFFFE0

def baseExtensions : List Text :=
  ["m", "a", "c", "zicsr", "zifencei", "zicntr", "zmmul", "zaamo", "zalrsc", "zca", "zcd"].map String.toList

def d64Extensions : List Text := ["f", "d"].map String.toList

def isDigit (char : Char) : Bool := '0' ≤ char && char ≤ '9'

/-- `rfind(test).map(|i| i + 1).unwrap_or(0)`. -/
def afterLast (test : Char → Bool) (text : Text) : Nat := ((rfind test text).map (· + 1)).getD 0

/-- A turn of the loop of `strip_version`: the text before the version it strips, none if it breaks. -/
def stripOne (s : Text) : Outcome Unit (Option Text) :=
  match (rfind isDigit s).map (· + 1) with
  | none => .ok none
  | some lastDigitEnd =>
    if lastDigitEnd ≠ utf8Length s then .ok none
    else do
      let numStart := afterLast (!isDigit ·) (← textTo s lastDigitEnd)
      if numStart = 0 then .ok none
      else if (← expect "index out of bounds" (encodeUtf8 s)[numStart - 1]?) ≠ 0x70 then .ok none
      else
        let beforeP ← textTo s (numStart - 1)
        let majorStart := afterLast (!isDigit ·) beforeP
        if majorStart = numStart - 1 then .ok none
        else some <$> textTo s majorStart

def stripVersionFrom : Nat → Text → Outcome Unit Text
  | 0, _ => panicked "the text does not get shorter"
  | turns + 1, s => do
    match ← stripOne s with
    | none => pure s
    | some shorter => stripVersionFrom turns shorter

def stripVersion (token : Text) : Outcome Unit Text := do
  let s ← stripVersionFrom (token.length + 1) token
  refuseIf s.isEmpty ()
  pure s

structure Declared where
  hasF : Bool
  hasD : Bool
  deriving DecidableEq

def packedLetter (declared : Declared) (letter : Char) : Outcome IsaReqError Declared :=
  if letter = 'i' ∨ letter = 'm' ∨ letter = 'a' ∨ letter = 'c' then .ok declared
  else if letter = 'f' then .ok { declared with hasF := true }
  else if letter = 'd' then .ok { declared with hasD := true }
  else fail .unsupportedExtension

def extensionName (floatAbi : Nat) (declared : Declared) (name : Text) : Outcome IsaReqError Declared :=
  if name = "f".toList then .ok { declared with hasF := true }
  else if name = "d".toList ∨ name = "zcd".toList then .ok { declared with hasD := true }
  else if name ∈ baseExtensions then .ok declared
  else if name = "g".toList then fail .unsupportedExtension
  else if name ∈ d64Extensions ∧ floatAbi = efRiscvFloatAbiDouble then .ok declared
  else fail .unsupportedExtension

def extensionToken (floatAbi : Nat) (declared : Declared) (token : Text) : Outcome IsaReqError Declared := do
  let name ← mapError (fun _ => .unsupportedExtension) (stripVersion token)
  extensionName floatAbi declared name

def archRequirement (floatAbi : Nat) (arch : Text) : Outcome IsaReqError IsaRequirement :=
  match arch.splitOn '_' with
  | [] => fail .missingArch
  | base :: tokens => do
    let baseName ← mapError (fun _ => .badBase) (stripVersion base)
    refuseIf (!"rv64".toList.isPrefixOf baseName) .badBase
    let packed ← textFrom baseName 4
    let declared ← packed.foldlM packedLetter { hasF := false, hasD := false }
    let declared ← tokens.foldlM (extensionToken floatAbi) declared
    if floatAbi = efRiscvFloatAbiDouble then
      if !declared.hasF || !declared.hasD then fail .abiArchMismatch else .ok .d64
    else
      if declared.hasF || declared.hasD then fail .abiArchMismatch else .ok .base64

def isaRequirement (buf : Bytes) : Outcome IsaReqError IsaRequirement := do
  refuseIf (buf.length < 64) .malformedAttributes
  let eFlags ← u32At buf 48
  let shoff ← u64At buf 40
  let shentsize ← u16At buf 58
  let shnum ← u16At buf 60
  refuseIf (eFlags &&& efRiscvUnsupported ≠ 0) .badFlags
  refuseIf (eFlags &&& efRiscvRve ≠ 0) .rve
  refuseIf (eFlags &&& efRiscvTso ≠ 0) .tso
  let floatAbi := eFlags &&& efRiscvFloatAbi
  refuseIf (floatAbi = efRiscvFloatAbiQuad) .quadAbi
  refuseIf (floatAbi = efRiscvFloatAbiSingle) .fOnly
  let arch ← findArchString buf shoff shentsize shnum
  archRequirement floatAbi arch

/-!
What `strip_version` strips: one suffix of digits, a `p` and digits. A character of more than one byte before
such a suffix is cut inside.
-/

def Digits (text : Text) : Prop := ∀ char ∈ text, isDigit char = true

/-- A version suffix such as `2p1`, or none. -/
def IsVersion (suffix : Text) : Prop :=
  suffix = [] ∨ ∃ major minor, suffix = major ++ 'p' :: minor ∧ major ≠ [] ∧ minor ≠ [] ∧ Digits major ∧ Digits minor

/-- A character of more than one byte stands before the digits that would be a version. -/
def CutsCharacter (token : Text) : Prop :=
  ∃ front char major minor, token = front ++ char :: (major ++ 'p' :: minor) ∧ 1 < char.utf8Size ∧ Digits major ∧
    minor ≠ [] ∧ Digits minor

def EndsPlain (text : Text) : Prop := ∀ last, text.getLast? = some last → isDigit last = false

variable {s front major minor : Text} {char : Char}

theorem utf8Size_digit (h : isDigit char = true) : char.utf8Size = 1 := by
  have bounds : '0' ≤ char ∧ char ≤ '9' := by simpa [isDigit] using h
  have small : char.val ≤ 0x7F := UInt32.le_trans bounds.2 (by decide)
  exact Char.utf8Size_eq_one_iff.mpr small

theorem utf8Length_digits (digits : Digits major) : utf8Length major = major.length := by
  induction major with
  | nil => rfl
  | cons char _ ih =>
    rw [utf8Length_cons, utf8Size_digit (digits char mem_cons_self),
      ih fun x member => digits x (mem_cons_of_mem _ member), length_cons, Nat.add_comm]

theorem not_digits_of_rfind (h : rfind (!isDigit ·) s = none) : Digits s := by
  intro x member
  simpa using rfind_none h x member

theorem rfind_digit_last {last : Char} (digit : isDigit last = true) :
    (rfind isDigit (front ++ [last])).map (· + 1) = some (utf8Length (front ++ [last])) := by
  rw [rfind_append digit (fun _ member => absurd member not_mem_nil), utf8Length_append, utf8Length_cons, utf8Size_digit digit]
  rfl

theorem getLast_digit {minor : Text} (some : minor ≠ []) (digits : Digits minor) :
    ∃ front last, minor = front ++ [last] ∧ isDigit last = true :=
  ⟨minor.dropLast, minor.getLast some, (dropLast_append_getLast some).symm, digits _ (getLast_mem some)⟩

theorem rfind_digits_end (some : minor ≠ []) (digits : Digits minor) :
    (rfind isDigit (front ++ minor)).map (· + 1) = .some (utf8Length (front ++ minor)) := by
  obtain ⟨_, _, rfl, digit⟩ := getLast_digit some digits
  rw [← append_assoc]
  exact rfind_digit_last digit

theorem afterLast_digits (front : Text) {char : Char} {digits : Text} (other : isDigit char = false) (all : Digits digits) :
    afterLast (!isDigit ·) (front ++ char :: digits) = utf8Length front + 1 := by
  rw [afterLast, rfind_append (by simp [other])]
  · rfl
  · intro x member
    simp [all x member]

theorem textTo_all {ε : Type} (s : Text) : (textTo s (utf8Length s) : Outcome ε Text) = .ok s := by
  have whole := textTo_append (ε := ε) s []
  rwa [append_nil] at whole

theorem stripOne_p (some : minor ≠ []) (digits : Digits minor) : stripOne (front ++ 'p' :: minor) =
      if afterLast (!isDigit ·) front = utf8Length front then .ok none
      else Option.some <$> textTo (front ++ 'p' :: minor) (afterLast (!isDigit ·) front) := by
  have joined : front ++ 'p' :: minor = (front ++ ['p']) ++ minor := by rw [append_assoc]; rfl
  have ends : (rfind isDigit (front ++ 'p' :: minor)).map (· + 1) = .some (utf8Length (front ++ 'p' :: minor)) := by
    rw [joined]
    exact rfind_digits_end some digits
  have start : afterLast (!isDigit ·) (front ++ 'p' :: minor) = utf8Length front + 1 :=
    afterLast_digits front (by decide) digits
  have byte : (encodeUtf8 (front ++ 'p' :: minor))[utf8Length front]? = .some 0x70 := first_byte (by decide)
  rw [stripOne, ends]
  simp only [ne_eq, not_true_eq_false, if_false, textTo_all, ok_bind, start, Nat.add_sub_cancel, byte, expect,
    Nat.succ_ne_zero, textTo_append]

theorem stripOne_version {last : Char} (major_some : major ≠ []) (minor_some : minor ≠ []) (major_digits : Digits major)
    (minor_digits : Digits minor) (other : isDigit last = false) (single : last.utf8Size = 1) :
    stripOne (front ++ last :: (major ++ 'p' :: minor)) = .ok (some (front ++ [last])) := by
  have joined : front ++ last :: (major ++ 'p' :: minor) = (front ++ last :: major) ++ 'p' :: minor := by
    rw [append_assoc]
    rfl
  have cut : (textTo (front ++ last :: (major ++ 'p' :: minor)) (utf8Length front + 1) : Outcome Unit Text) =
      .ok (front ++ [last]) := by
    have length : utf8Length front + 1 = utf8Length (front ++ [last]) := by
      rw [utf8Length_append, utf8Length_cons, single]
      rfl
    have split : front ++ last :: (major ++ 'p' :: minor) = (front ++ [last]) ++ (major ++ 'p' :: minor) := by
      rw [append_assoc]
      rfl
    rw [length, split]
    exact textTo_append _ _
  have apart : utf8Length front + 1 ≠ utf8Length (front ++ last :: major) := by
    have positive := length_pos_iff.mpr major_some
    rw [utf8Length_append, utf8Length_cons, single, utf8Length_digits major_digits]
    omega
  rw [joined, stripOne_p minor_some minor_digits, afterLast_digits front other major_digits, if_neg apart, ← joined, cut]
  rfl

theorem stripOne_whole (major_some : major ≠ []) (minor_some : minor ≠ []) (major_digits : Digits major)
    (minor_digits : Digits minor) : stripOne (major ++ 'p' :: minor) = .ok (some []) := by
  have start : afterLast (!isDigit ·) major = 0 := by
    rw [afterLast, rfind_eq_none]
    · rfl
    · intro x member
      simp [major_digits x member]
  have apart : 0 ≠ utf8Length major := by
    have positive := length_pos_iff.mpr major_some
    rw [utf8Length_digits major_digits]
    omega
  rw [stripOne_p minor_some minor_digits, start, if_neg apart]
  exact congrArg (some <$> ·) (textTo_append [] _)

theorem stripOne_cuts (major_digits : Digits major) (minor_some : minor ≠ []) (minor_digits : Digits minor)
    (wide : 1 < char.utf8Size) :
    stripOne (front ++ char :: (major ++ 'p' :: minor)) = panicked "byte index is not a char boundary" := by
  have other : isDigit char = false := by
    cases digit : isDigit char with
    | false => rfl
    | true =>
      have size := utf8Size_digit digit
      omega
  have joined : front ++ char :: (major ++ 'p' :: minor) = (front ++ char :: major) ++ 'p' :: minor := by
    rw [append_assoc]
    rfl
  have apart : utf8Length front + 1 ≠ utf8Length (front ++ char :: major) := by
    rw [utf8Length_append, utf8Length_cons]
    omega
  rw [joined, stripOne_p minor_some minor_digits, afterLast_digits front other major_digits, if_neg apart, ← joined,
    textTo_inside Nat.one_pos wide]
  rfl

theorem stripOne_none {last : Char} (other : isDigit last = false) : stripOne (front ++ [last]) = .ok none := by
  rw [stripOne]
  cases found : rfind isDigit (front ++ [last]) with
  | none => rfl
  | some =>
    obtain ⟨before, _, after, split, isOne, _, rfl⟩ := rfind_some found
    have apart : utf8Length before + 1 ≠ utf8Length (front ++ [last]) := by
      have some : after ≠ [] := by
        rintro rfl
        have same := (append_inj' split rfl).2
        cases same
        rw [isOne] at other
        cases other
      have positive := length_pos_iff.mpr some
      have bound := length_le_utf8Length after
      rw [split, utf8Length_append, utf8Length_cons, utf8Size_digit isOne]
      omega
    exact if_pos apart

theorem stripOne_nil : stripOne [] = .ok none := rfl

theorem stripOne_digits (some : minor ≠ []) (digits : Digits minor) : stripOne minor = .ok none := by
  have ends : (rfind isDigit minor).map (· + 1) = .some (utf8Length minor) := @rfind_digits_end [] minor some digits
  have start : afterLast (!isDigit ·) minor = 0 := by
    rw [afterLast, rfind_eq_none]
    · rfl
    · intro x member
      simp [digits x member]
  rw [stripOne, ends]
  simp only [ne_eq, not_true_eq_false, if_false, textTo_all, ok_bind, start, if_true]

theorem stripOne_other (some : minor ≠ []) (digits : Digits minor) (other : isDigit char = false) (notP : char ≠ 'p') :
    stripOne (front ++ char :: minor) = .ok none := by
  have joined : front ++ char :: minor = (front ++ [char]) ++ minor := by rw [append_assoc]; rfl
  have ends : (rfind isDigit (front ++ char :: minor)).map (· + 1) = .some (utf8Length (front ++ char :: minor)) := by
    rw [joined]
    exact rfind_digits_end some digits
  have start := afterLast_digits front other digits
  obtain ⟨byte, read⟩ : ∃ byte, (encodeUtf8 (front ++ char :: minor))[utf8Length front]? = .some byte := by
    refine ⟨_, getElem?_eq_getElem ?_⟩
    have size := Char.utf8Size_pos char
    rw [length_encodeUtf8, utf8Length_append, utf8Length_cons]
    omega
  have apart : byte ≠ 0x70 := by
    rintro rfl
    exact notP (eq_of_first_byte (by decide) read)
  rw [stripOne, ends]
  simp only [ne_eq, not_true_eq_false, if_false, textTo_all, ok_bind, start, Nat.succ_ne_zero, Nat.add_sub_cancel, read,
    expect, apart, not_false_eq_true, if_true]

theorem isDigit_of_rfind {index : Nat} (h : rfind (!isDigit ·) s = some index) :
    ∃ front char digits, s = front ++ char :: digits ∧ isDigit char = false ∧ Digits digits := by
  obtain ⟨front, char, digits, split, other, all, -⟩ := rfind_some h
  refine ⟨front, char, digits, split, by simpa using other, fun x member => ?_⟩
  simpa using all x member

theorem stripOne_p_cases (some : minor ≠ []) (digits : Digits minor) : stripOne (front ++ 'p' :: minor) = .ok none ∨
    (∃ stem suffix, front ++ 'p' :: minor = stem ++ suffix ∧ suffix ≠ [] ∧ IsVersion suffix ∧ EndsPlain stem ∧
      stripOne (front ++ 'p' :: minor) = .ok (.some stem) ∧ stripOne stem = .ok none) ∨
    CutsCharacter (front ++ 'p' :: minor) ∧
      stripOne (front ++ 'p' :: minor) = panicked "byte index is not a char boundary" := by
  cases found : rfind (!isDigit ·) front with
  | none =>
    have major := not_digits_of_rfind found
    by_cases empty : front = []
    · subst empty
      refine .inl ?_
      rw [stripOne_p some digits]
      rfl
    · exact .inr (.inl ⟨[], front ++ 'p' :: minor, rfl, by simp,
        .inr ⟨front, minor, rfl, empty, some, major, digits⟩, (nofun), stripOne_whole empty some major digits,
        stripOne_nil⟩)
  | some =>
    obtain ⟨stem, last, major, rfl, other, all⟩ := isDigit_of_rfind found
    have joined : stem ++ last :: major ++ 'p' :: minor = stem ++ last :: (major ++ 'p' :: minor) := by
      rw [append_assoc]
      rfl
    by_cases wide : 1 < last.utf8Size
    · rw [joined]
      exact .inr (.inr ⟨⟨stem, last, major, minor, rfl, wide, all, some, digits⟩, stripOne_cuts all some digits wide⟩)
    have single : last.utf8Size = 1 := by
      have positive := Char.utf8Size_pos last
      omega
    by_cases empty : major = []
    · subst empty
      refine .inl ?_
      rw [stripOne_p some digits, afterLast_digits stem other all, utf8Length_append, utf8Length_cons, single]
      exact if_pos rfl
    · rw [joined]
      refine .inr (.inl ⟨stem ++ [last], major ++ 'p' :: minor, by simp, by simp,
        .inr ⟨major, minor, rfl, empty, some, all, digits⟩, fun final isLast => ?_,
        stripOne_version empty some all digits other single, stripOne_none other⟩)
      rw [getLast?_append_cons, getLast?_singleton] at isLast
      cases isLast
      exact other

theorem stripOne_cases (s : Text) : stripOne s = .ok none ∨
    (∃ stem suffix, s = stem ++ suffix ∧ suffix ≠ [] ∧ IsVersion suffix ∧ EndsPlain stem ∧
      stripOne s = .ok (some stem) ∧ stripOne stem = .ok none) ∨
    CutsCharacter s ∧ stripOne s = panicked "byte index is not a char boundary" := by
  rcases eq_nil_or_concat s with rfl | ⟨init, last, rfl⟩
  · exact .inl stripOne_nil
  rw [concat_eq_append]
  cases digit : isDigit last with
  | false => exact .inl (stripOne_none digit)
  | true =>
    cases found : rfind (!isDigit ·) (init ++ [last]) with
    | none => exact .inl (stripOne_digits (by simp) (not_digits_of_rfind found))
    | some =>
      obtain ⟨_, char, minor, split, other, digits⟩ := isDigit_of_rfind found
      have some : minor ≠ [] := by
        rintro rfl
        have same := (append_inj' split rfl).2
        cases same
        rw [digit] at other
        cases other
      rw [split]
      by_cases isP : char = 'p'
      · subst isP
        exact stripOne_p_cases some digits
      · exact .inl (stripOne_other some digits other isP)

theorem stripVersion_panics (h : CutsCharacter s) : stripVersion s = panicked "byte index is not a char boundary" := by
  obtain ⟨_, _, _, _, rfl, wide, majors, some, minors⟩ := h
  rw [stripVersion, stripVersionFrom, stripOne_cuts majors some minors wide]
  rfl

theorem stripVersion_of_none (broke : stripOne s = .ok none) : stripVersion s = if s.isEmpty then fail () else .ok s := by
  rw [stripVersion, stripVersionFrom, broke]
  cases s with
  | nil | cons => rfl

theorem stripVersion_of_some {stem : Text} (filled : s ≠ []) (stripped : stripOne s = .ok (some stem))
    (broke : stripOne stem = .ok none) : stripVersion s = if stem.isEmpty then fail () else .ok stem := by
  obtain ⟨turns, more⟩ : ∃ turns, s.length = turns + 1 := ⟨_, (Nat.succ_pred_eq_of_pos (length_pos_iff.mpr filled)).symm⟩
  rw [stripVersion, stripVersionFrom, stripped, ok_bind, more]
  simp only [stripVersionFrom, broke, ok_bind]
  cases stem with
  | nil | cons => rfl

theorem stripVersion_strips (h : ¬CutsCharacter s) :
    ∃ name suffix, s = name ++ suffix ∧ IsVersion suffix ∧ (suffix ≠ [] → EndsPlain name) ∧
      stripVersion s = if name.isEmpty then fail () else .ok name := by
  obtain broke | ⟨stem, suffix, split, suffix_some, version, plain, stripped, broke⟩ | ⟨cut, -⟩ := stripOne_cases s
  · exact ⟨s, [], (append_nil s).symm, .inl rfl, fun some => absurd rfl some, stripVersion_of_none broke⟩
  · have filled : s ≠ [] := by
      rw [split]
      exact append_ne_nil_of_right_ne_nil _ suffix_some
    exact ⟨stem, suffix, split, version, fun _ => plain, stripVersion_of_some filled stripped broke⟩
  · exact absurd cut h

theorem stripVersion_ok {name : Text} (h : stripVersion s = .ok name) :
    name ≠ [] ∧ ∃ suffix, s = name ++ suffix ∧ IsVersion suffix ∧ (suffix ≠ [] → EndsPlain name) := by
  by_cases cut : CutsCharacter s
  · rw [stripVersion_panics cut] at h
    exact (panicked_ne_ok h).elim
  obtain ⟨stem, suffix, split, version, plain, result⟩ := stripVersion_strips cut
  rw [result] at h
  split at h
  · exact (fail_ne_ok h).elim
  · rename_i filled
    cases h
    exact ⟨by simpa using filled, suffix, split, version, plain⟩

end Halcyon.Elf
