import Halcyon.Elf.Walking

/-!
Where the admission of an image panics: at a subsection shorter than its own tag, and at a version whose
digits follow a character of more than one byte.
-/

namespace Halcyon.Elf

open List

section Headers

variable {buf data : Bytes} {shoff shentsize shnum index : Nat}

def Skipped (buf : Bytes) (shoff shentsize index : Nat) : Prop :=
  ∃ sh kind, sectionHeader buf shoff shentsize index = .ok sh ∧ (u32At sh 4 : Outcome IsaReqError Nat) = .ok kind ∧
    kind ≠ shtRiscvAttributes

def PointsTo (buf : Bytes) (shoff shentsize index : Nat) (data : Bytes) : Prop :=
  ∃ sh off size, sectionHeader buf shoff shentsize index = .ok sh ∧
    (u32At sh 4 : Outcome IsaReqError Nat) = .ok shtRiscvAttributes ∧ (u64At sh 24 : Outcome IsaReqError Nat) = .ok off ∧
    (u64At sh 32 : Outcome IsaReqError Nat) = .ok size ∧ off + size ≤ buf.length ∧
    data = (buf.take (off + size)).drop off

def FindsSection (buf : Bytes) (shoff shentsize shnum : Nat) (data : Bytes) : Prop :=
  64 ≤ shentsize ∧ shoff + shnum * shentsize ≤ buf.length ∧
    ∃ before index after, List.range shnum = before ++ index :: after ∧
      (∀ other ∈ before, Skipped buf shoff shentsize other) ∧ PointsTo buf shoff shentsize index data

theorem PointsTo.small (points : PointsTo buf shoff shentsize index data) (small : buf.length ≤ isizeMax) :
    data.length ≤ isizeMax := by
  obtain ⟨sh, off, size, -, -, -, -, inside, rfl⟩ := points
  rw [length_drop, length_take]
  omega

theorem findArchAmong_skips {rest : List Nat} (skipped : Skipped buf shoff shentsize index) :
    findArchAmong buf shoff shentsize (index :: rest) = findArchAmong buf shoff shentsize rest := by
  obtain ⟨sh, kind, header, read, other⟩ := skipped
  rw [findArchAmong, header, ok_bind, read, ok_bind, if_pos other]

theorem findArchAmong_points {rest : List Nat} (small : buf.length ≤ isizeMax)
    (points : PointsTo buf shoff shentsize index data) :
    findArchAmong buf shoff shentsize (index :: rest) = parseAttributes data := by
  obtain ⟨sh, off, size, header, kind, isOff, isSize, inside, rfl⟩ := points
  have room := roomy small
  rw [findArchAmong, header, ok_bind, kind, ok_bind, if_neg (by simp), isOff, ok_bind, isSize, ok_bind, checkedAdd,
    if_pos (by omega), okOr, ok_bind, slice?, if_pos ⟨Nat.le_add_right _ _, inside⟩, okOr, ok_bind]

theorem findArchAmong_finds {before after : List Nat} (small : buf.length ≤ isizeMax)
    (skipped : ∀ other ∈ before, Skipped buf shoff shentsize other) (points : PointsTo buf shoff shentsize index data) :
    findArchAmong buf shoff shentsize (before ++ index :: after) = parseAttributes data := by
  induction before with
  | nil => exact findArchAmong_points small points
  | cons other before ih =>
    rw [cons_append, findArchAmong_skips (skipped other mem_cons_self)]
    exact ih fun another member => skipped another (mem_cons_of_mem _ member)

section

variable (small : buf.length ≤ isizeMax) (wide : 64 ≤ shentsize) (inside : shoff + shnum * shentsize ≤ buf.length)
include small wide inside

theorem sectionHeader_returns (less : index < shnum) :
    ∃ sh, sectionHeader buf shoff shentsize index = .ok sh ∧ sh.length = 64 := by
  have room := roomy small
  have entry : (index + 1) * shentsize ≤ shnum * shentsize := Nat.mul_le_mul_right _ less
  rw [Nat.add_mul, Nat.one_mul] at entry
  have table : (slice buf (shoff + index * shentsize) buf.length : Outcome IsaReqError Bytes) =
      .ok (buf.drop (shoff + index * shentsize)) := by
    rw [slice_returns (by omega) (Nat.le_refl _), take_length]
  have header : (slice (buf.drop (shoff + index * shentsize)) 0 64 : Outcome IsaReqError Bytes) =
      .ok ((buf.drop (shoff + index * shentsize)).take 64) := by
    rw [slice_returns (Nat.zero_le _) (by rw [length_drop]; omega)]
    rfl
  refine ⟨(buf.drop (shoff + index * shentsize)).take 64, ?_, ?_⟩
  · rw [sectionHeader, multiply_returns (by omega), ok_bind, add_returns (by omega), ok_bind, table, ok_bind, header]
  · rw [length_take, length_drop]
    omega

theorem findArchAmong_turn (rest : List Nat) (less : index < shnum) :
    Skipped buf shoff shentsize index ∨ (∃ data, PointsTo buf shoff shentsize index data) ∨
      ∃ reason, findArchAmong buf shoff shentsize (index :: rest) = fail reason := by
  obtain ⟨sh, header, length⟩ := sectionHeader_returns small wide inside less
  obtain ⟨kind, read⟩ : ∃ kind, (u32At sh 4 : Outcome IsaReqError Nat) = .ok kind := ⟨_, littleAt_returns (by omega)⟩
  obtain ⟨off, isOff⟩ : ∃ off, (u64At sh 24 : Outcome IsaReqError Nat) = .ok off := ⟨_, littleAt_returns (by omega)⟩
  obtain ⟨size, isSize⟩ : ∃ size, (u64At sh 32 : Outcome IsaReqError Nat) = .ok size := ⟨_, littleAt_returns (by omega)⟩
  by_cases same : kind = shtRiscvAttributes
  swap
  · exact .inl ⟨sh, kind, header, read, same⟩
  subst same
  by_cases fits : off + size ≤ buf.length
  · exact .inr (.inl ⟨_, sh, off, size, header, read, isOff, isSize, fits, rfl⟩)
  refine .inr (.inr ⟨.malformedAttributes, ?_⟩)
  rw [findArchAmong, header, ok_bind, read, ok_bind, if_neg (by simp), isOff, ok_bind, isSize, ok_bind]
  cases sum : checkedAdd off size with
  | none => rfl
  | some stop =>
    obtain ⟨rfl, -⟩ := checkedAdd_some sum
    rw [okOr, ok_bind, slice?, if_neg fun both => fits both.2]
    rfl

theorem findArchAmong_cases {indices : List Nat} (less : ∀ index ∈ indices, index < shnum) :
    (∃ before index after data, indices = before ++ index :: after ∧
      (∀ other ∈ before, Skipped buf shoff shentsize other) ∧ PointsTo buf shoff shentsize index data) ∨
      ∃ reason, findArchAmong buf shoff shentsize indices = fail reason := by
  induction indices with
  | nil => exact .inr ⟨_, rfl⟩
  | cons index rest ih =>
    rcases findArchAmong_turn small wide inside rest (less index mem_cons_self) with
      skipped | ⟨data, points⟩ | failed
    · rw [findArchAmong_skips skipped]
      rcases ih fun other member => less other (mem_cons_of_mem _ member) with
        ⟨before, found, after, data, rfl, skips, points⟩ | failed
      · exact .inl ⟨index :: before, found, after, data, rfl, forall_mem_cons.mpr ⟨skipped, skips⟩, points⟩
      · exact .inr failed
    · exact .inl ⟨[], index, rest, data, rfl, fun _ member => absurd member not_mem_nil, points⟩
    · exact .inr failed

theorem findArchString_table :
    findArchString buf shoff shentsize shnum = findArchAmong buf shoff shentsize (List.range shnum) := by
  have room := roomy small
  rw [findArchString, refuseIf, if_neg (by simpa using wide), ok_bind, checkedMul, if_pos (by omega), okOr, ok_bind,
    checkedAdd, if_pos (by omega), okOr, ok_bind, refuseIf, if_neg (by simpa using inside), ok_bind]

end

theorem findArchString_outside (outside : ¬(64 ≤ shentsize ∧ shoff + shnum * shentsize ≤ buf.length)) :
    findArchString buf shoff shentsize shnum = fail .malformedAttributes := by
  rw [findArchString]
  by_cases wide : 64 ≤ shentsize
  swap
  · rw [refuseIf, if_pos (by simpa using wide)]
    rfl
  rw [refuseIf, if_neg (by simpa using wide), ok_bind]
  cases product : checkedMul shnum shentsize with
  | none => rfl
  | some bytes =>
    obtain ⟨rfl, -⟩ := checkedMul_some product
    rw [okOr, ok_bind]
    cases sum : checkedAdd shoff (shnum * shentsize) with
    | none => rfl
    | some stop =>
      obtain ⟨rfl, -⟩ := checkedAdd_some sum
      have beyond : ¬shoff + shnum * shentsize ≤ buf.length := fun inside => outside ⟨wide, inside⟩
      rw [okOr, ok_bind, refuseIf, if_pos (by simpa using beyond)]
      rfl

theorem findArchString_cases (small : buf.length ≤ isizeMax) : (∃ data, FindsSection buf shoff shentsize shnum data) ∨
      ∃ reason, findArchString buf shoff shentsize shnum = fail reason := by
  by_cases table : 64 ≤ shentsize ∧ shoff + shnum * shentsize ≤ buf.length
  · obtain ⟨wide, inside⟩ := table
    rcases findArchAmong_cases small wide inside fun index => mem_range.mp with
      ⟨before, index, after, data, split, skips, points⟩ | ⟨reason, failed⟩
    · exact .inl ⟨data, wide, inside, before, index, after, split, skips, points⟩
    · exact .inr ⟨reason, (findArchString_table small wide inside).trans failed⟩
  · exact .inr ⟨_, findArchString_outside table⟩

theorem FindsSection.parses (finds : FindsSection buf shoff shentsize shnum data) (small : buf.length ≤ isizeMax) :
    findArchString buf shoff shentsize shnum = parseAttributes data ∧ data.length ≤ isizeMax := by
  obtain ⟨wide, inside, before, index, after, split, skips, points⟩ := finds
  rw [findArchString_table small wide inside, split]
  exact ⟨findArchAmong_finds small skips points, points.small small⟩

end Headers

section Arch

variable {floatAbi : Nat} {declared : Declared} {token name base : Text} {tokens : List Text}

/-- A base token that is accepted: letters after `rv64` and a version after them. -/
def AcceptsBase (base : Text) : Prop :=
  ∃ letters suffix, base = "rv64".toList ++ letters ++ suffix ∧ IsVersion suffix ∧ (letters = [] → suffix = []) ∧
    ∀ letter ∈ letters, letter ∈ acceptedLetters

def AcceptsToken (token : Text) : Prop := ∃ name ∈ acceptedExtensions, DeclaresToken name token

def CutsLater (tokens : List Text) : Prop :=
  ∃ before token after, tokens = before ++ token :: after ∧ (∀ other ∈ before, AcceptsToken other) ∧ CutsCharacter token

/-- The base token, or a later one after accepted ones, has a character of more than one byte before the
digits of a version. -/
def CutsToken (arch : Text) : Prop := ∃ base tokens, arch.splitOn '_' = base :: tokens ∧
    (CutsCharacter base ∨ AcceptsBase base ∧ CutsLater tokens)

theorem stripVersion_of_version {front suffix : Text} {last : Char} (other : isDigit last = false)
    (single : last.utf8Size = 1) (version : IsVersion suffix) :
    stripVersion (front ++ last :: suffix) = .ok (front ++ [last]) := by
  have plain := @stripOne_none front last other
  have named : (front ++ [last]).isEmpty = false := by simp
  rcases version with rfl | ⟨major, minor, rfl, majorSome, minorSome, majors, minors⟩
  · rw [stripVersion_of_none plain, named]
    rfl
  · rw [stripVersion_of_some (by simp) (stripOne_version majorSome minorSome majors minors other single) plain, named]
    rfl

theorem plain_letters : ∀ letter ∈ acceptedLetters, isDigit letter = false ∧ letter.utf8Size = 1 := by
  have all : (acceptedLetters.all fun letter => decide (isDigit letter = false ∧ letter.utf8Size = 1)) = true := by decide
  exact fun letter member => of_decide_eq_true (all_eq_true.mp all letter member)

theorem plain_names : ∀ name ∈ acceptedExtensions, name ≠ [] ∧ ∀ char ∈ name, isDigit char = false ∧ char.utf8Size = 1 := by
  have filled : ∀ name ∈ acceptedExtensions, name ≠ [] := by decide
  have all : (acceptedExtensions.all fun name =>
      name.all fun char => decide (isDigit char = false ∧ char.utf8Size = 1)) = true := by decide
  exact fun name member => ⟨filled name member, fun char inside =>
    of_decide_eq_true (all_eq_true.mp (all_eq_true.mp all name member) char inside)⟩

theorem stripVersion_of_plain {suffix : Text} (filled : name ≠ [])
    (plain : isDigit (name.getLast filled) = false ∧ (name.getLast filled).utf8Size = 1) (version : IsVersion suffix) :
    stripVersion (name ++ suffix) = .ok name := by
  have split := dropLast_append_getLast filled
  have stripped := @stripVersion_of_version name.dropLast suffix (name.getLast filled) plain.1 plain.2 version
  have joined : name ++ suffix = name.dropLast ++ name.getLast filled :: suffix := by
    rw [append_cons, split]
  rw [joined, stripped, split]

theorem stripVersion_of_accepted (accepts : AcceptsToken token) :
    ∃ name ∈ acceptedExtensions, stripVersion token = .ok name := by
  obtain ⟨name, accepted, suffix, rfl, version⟩ := accepts
  obtain ⟨filled, plain⟩ := plain_names name accepted
  exact ⟨name, accepted, stripVersion_of_plain filled (plain _ (getLast_mem filled)) version⟩

theorem extensionName_returns (accepted : name ∈ acceptedExtensions) :
    ∃ after, extensionName floatAbi declared name = .ok after := by
  have known : ∀ name ∈ acceptedExtensions,
      name = "f".toList ∨ (name = "d".toList ∨ name = "zcd".toList) ∨ name ∈ baseExtensions := by decide
  unfold extensionName
  split
  · exact ⟨_, rfl⟩
  split
  · exact ⟨_, rfl⟩
  rename_i notF notD
  rw [if_pos (((known name accepted).resolve_left notF).resolve_left notD)]
  exact ⟨_, rfl⟩

theorem extensionToken_returns (accepts : AcceptsToken token) :
    ∃ after, extensionToken floatAbi declared token = .ok after := by
  obtain ⟨name, accepted, stripped⟩ := stripVersion_of_accepted accepts
  rw [extensionToken, stripped]
  exact extensionName_returns accepted

theorem extensionToken_cuts (cuts : CutsCharacter token) :
    extensionToken floatAbi declared token = panicked "byte index is not a char boundary" := by
  rw [extensionToken, stripVersion_panics cuts]
  rfl

theorem stripVersion_calm (whole : ¬CutsCharacter token) : Calm (stripVersion token) := by
  obtain ⟨name, suffix, -, -, -, result⟩ := stripVersion_strips whole
  rw [result]
  split
  · exact calm_fail ()
  · exact avoids_ok name

theorem extensionName_calm : Calm (extensionName floatAbi declared name) := by
  unfold extensionName
  repeat' split
  all_goals first | exact avoids_ok _ | exact calm_fail _

theorem extensionToken_calm (whole : ¬CutsCharacter token) : Calm (extensionToken floatAbi declared token) :=
  (calm_mapError (stripVersion_calm whole)).bind fun _ _ => extensionName_calm

theorem extensionTokens_cuts (cuts : CutsLater tokens) :
    tokens.foldlM (extensionToken floatAbi) declared = panicked "byte index is not a char boundary" := by
  obtain ⟨before, token, after, rfl, accepted, cut⟩ := cuts
  induction before generalizing declared with
  | nil =>
    rw [nil_append, foldlM_cons, extensionToken_cuts cut]
    rfl
  | cons other before ih =>
    obtain ⟨middle, returned⟩ := @extensionToken_returns floatAbi declared other (accepted other mem_cons_self)
    rw [cons_append, foldlM_cons, returned, ok_bind]
    exact ih fun another member => accepted another (mem_cons_of_mem _ member)

theorem extensionTokens_calm (whole : ¬CutsLater tokens) : Calm (tokens.foldlM (extensionToken floatAbi) declared) := by
  induction tokens generalizing declared with
  | nil => exact avoids_ok declared
  | cons token tokens ih =>
    rw [foldlM_cons]
    have uncut : ¬CutsCharacter token := fun cut =>
      whole ⟨[], token, tokens, rfl, fun _ member => absurd member not_mem_nil, cut⟩
    refine (extensionToken_calm uncut).bind fun middle returned => ih ?_
    rintro ⟨before, other, after, rfl, accepted, cut⟩
    obtain ⟨name, isAccepted, declares, -⟩ := extensionToken_ok returned
    exact whole ⟨token :: before, other, after, rfl, forall_mem_cons.mpr ⟨⟨name, isAccepted, declares⟩, accepted⟩, cut⟩

theorem packedLetters_return {letters : List Char} (accepted : ∀ letter ∈ letters, letter ∈ acceptedLetters) :
    ∃ after, letters.foldlM packedLetter declared = .ok after := by
  induction letters generalizing declared with
  | nil => exact ⟨declared, rfl⟩
  | cons letter letters ih =>
    have known : ∀ letter ∈ acceptedLetters,
        (letter = 'i' ∨ letter = 'm' ∨ letter = 'a' ∨ letter = 'c') ∨ letter = 'f' ∨ letter = 'd' := by
      simp [acceptedLetters]
    obtain ⟨middle, returned⟩ : ∃ middle, packedLetter declared letter = .ok middle := by
      unfold packedLetter
      rcases known letter (accepted letter mem_cons_self) with plain | rfl | rfl
      · exact ⟨_, if_pos plain⟩
      · exact ⟨_, rfl⟩
      · exact ⟨_, rfl⟩
    rw [foldlM_cons, returned]
    exact ih fun other member => accepted other (mem_cons_of_mem _ member)

theorem packedLetters_calm (letters : List Char) : Calm (letters.foldlM packedLetter declared) := by
  refine avoids_foldlM fun declared letter => ?_
  unfold packedLetter
  repeat' split
  all_goals first | exact avoids_ok _ | exact calm_fail _

theorem stripVersion_of_base {letters suffix : Text} (version : IsVersion suffix) (alone : letters = [] → suffix = [])
    (accepted : ∀ letter ∈ letters, letter ∈ acceptedLetters) :
    stripVersion ("rv64".toList ++ letters ++ suffix) = .ok ("rv64".toList ++ letters) := by
  by_cases empty : letters = []
  · rw [empty, alone empty]
    decide +kernel
  · have filled : "rv64".toList ++ letters ≠ [] := append_ne_nil_of_right_ne_nil _ empty
    refine stripVersion_of_plain filled ?_ version
    rw [getLast_append_of_ne_nil filled empty]
    exact plain_letters _ (accepted _ (getLast_mem empty))

theorem archRequirement_cuts {arch : Text} (cuts : CutsToken arch) :
    archRequirement floatAbi arch = panicked "byte index is not a char boundary" := by
  obtain ⟨base, tokens, split, baseCut | ⟨⟨letters, suffix, rfl, version, alone, accepted⟩, later⟩⟩ := cuts
  · unfold archRequirement
    rw [split]
    simp only [stripVersion_panics baseCut]
    rfl
  · have starts : "rv64".toList.isPrefixOf ("rv64".toList ++ letters) = true := isPrefixOf_iff_prefix.mpr (prefix_append _ _)
    have packed : (textFrom ("rv64".toList ++ letters) 4 : Outcome IsaReqError Text) = .ok letters := textFrom_append _ _
    obtain ⟨declared, returned⟩ := @packedLetters_return { hasF := false, hasD := false } letters accepted
    unfold archRequirement
    rw [split]
    simp only [stripVersion_of_base version alone accepted, mapError, ok_bind, starts, Bool.not_true, refuseIf,
      Bool.false_eq_true, if_false, packed, returned, extensionTokens_cuts later]
    rfl

theorem archRequirement_calm {arch : Text} (whole : ¬CutsToken arch) : Calm (archRequirement floatAbi arch) := by
  unfold archRequirement
  split
  · exact calm_fail _
  rename_i base tokens split
  have uncut : ¬CutsCharacter base := fun cut => whole ⟨base, tokens, split, .inl cut⟩
  refine (calm_mapError (stripVersion_calm uncut)).bind fun baseName stripped => ?_
  refine (calm_refuseIf _ _).bind fun _ starts => ?_
  have test := refuseIf_ok starts
  rw [Bool.not_eq_false'] at test
  obtain ⟨letters, rfl⟩ := isPrefixOf_iff_prefix.mp test
  have packed : (textFrom ("rv64".toList ++ letters) 4 : Outcome IsaReqError Text) = .ok letters := textFrom_append _ _
  refine Avoids.bind (calm_returns packed) fun rest read => ?_
  have same : rest = letters := Except.ok.inj (read.symm.trans packed)
  subst same
  refine (packedLetters_calm rest).bind fun declared folded => ?_
  obtain ⟨-, suffix, rfl, version, plain⟩ := stripVersion_ok (mapError_ok stripped)
  have alone : rest = [] → suffix = [] := by
    rintro rfl
    by_contra some
    exact absurd (plain some '4' rfl) (by decide)
  have base : AcceptsBase ("rv64".toList ++ rest ++ suffix) :=
    ⟨rest, suffix, rfl, version, alone, (packedLetters_ok folded).1⟩
  refine (extensionTokens_calm fun cuts => whole ⟨_, tokens, split, .inr ⟨base, cuts⟩⟩).bind fun _ _ => ?_
  repeat' split
  all_goals first | exact avoids_ok _ | exact calm_fail _

end Arch

variable {buf : Bytes} {limits : LoadLimits} {grant : Reservation → Bool}

/-- The attributes section a file leads to has a subsection shorter than its own tag, or an architecture
string with a token that is cut inside a character. -/
def PanicsAtIsa (buf : Bytes) : Prop := 64 ≤ buf.length ∧ ∃ eFlags shoff shentsize shnum data,
    (u32At buf 48 : Outcome IsaReqError Nat) = .ok eFlags ∧ AcceptedFlags eFlags ∧
    (u64At buf 40 : Outcome IsaReqError Nat) = .ok shoff ∧ (u16At buf 58 : Outcome IsaReqError Nat) = .ok shentsize ∧
    (u16At buf 60 : Outcome IsaReqError Nat) = .ok shnum ∧ FindsSection buf shoff shentsize shnum data ∧ Begins data ∧
    (ShortSubsection (data.drop 5) ∨ ∃ arch, HoldsArch (data.drop 5) arch ∧ CutsToken arch)

theorem abi_of_accepted {eFlags : Nat} (accepted : AcceptedFlags eFlags) :
    eFlags &&& efRiscvFloatAbi ≠ efRiscvFloatAbiQuad ∧ eFlags &&& efRiscvFloatAbi ≠ efRiscvFloatAbiSingle := by
  rcases accepted.abi with soft | double
  · rw [soft]
    decide
  · rw [double]
    decide

theorem isaRequirement_accepted {eFlags shoff shentsize shnum : Nat} (long : 64 ≤ buf.length)
    (flags : (u32At buf 48 : Outcome IsaReqError Nat) = .ok eFlags) (accepted : AcceptedFlags eFlags)
    (isShoff : (u64At buf 40 : Outcome IsaReqError Nat) = .ok shoff)
    (isShentsize : (u16At buf 58 : Outcome IsaReqError Nat) = .ok shentsize)
    (isShnum : (u16At buf 60 : Outcome IsaReqError Nat) = .ok shnum) : isaRequirement buf =
      findArchString buf shoff shentsize shnum >>= archRequirement (eFlags &&& efRiscvFloatAbi) := by
  obtain ⟨notQuad, notSingle⟩ := abi_of_accepted accepted
  rw [isaRequirement, refuseIf, if_neg (by simpa using long), ok_bind, flags, ok_bind, isShoff, ok_bind, isShentsize,
    ok_bind, isShnum, ok_bind, accepted.reserved, accepted.rve, accepted.tso]
  simp only [refuseIf, ne_eq, not_true_eq_false, decide_false, Bool.false_eq_true, if_false, ok_bind, notQuad, notSingle]

theorem isaRequirement_panics (small : buf.length ≤ isizeMax) (h : PanicsAtIsa buf) : Panics (isaRequirement buf) := by
  obtain ⟨long, eFlags, shoff, shentsize, shnum, data, flags, accepted, isShoff, isShentsize, isShnum, finds, begins, bad⟩ := h
  obtain ⟨parses, fits⟩ := finds.parses small
  have enough : data.length < 5 + data.length := by omega
  rw [isaRequirement_accepted long flags accepted isShoff isShentsize isShnum, parses, parseAttributes_begins begins]
  rcases bad with short | ⟨arch, holds, cuts⟩
  · rw [subsectionsFrom_short fits short enough]
    exact ⟨_, rfl⟩
  · rw [subsectionsFrom_arch fits holds enough, ok_bind, archRequirement_cuts cuts]
    exact ⟨_, rfl⟩

theorem isaRequirement_calm (small : buf.length ≤ isizeMax) (h : ¬PanicsAtIsa buf) : Calm (isaRequirement buf) := by
  refine calm_check fun long => ?_
  have long : 64 ≤ buf.length := by simpa using long
  refine (calm_littleAt (by omega)).bind fun eFlags flags => (calm_littleAt (by omega)).bind fun shoff isShoff => ?_
  refine (calm_littleAt (by omega)).bind fun shentsize isShentsize => (calm_littleAt (by omega)).bind fun shnum isShnum => ?_
  refine calm_check fun reserved => calm_check fun rve => calm_check fun tso => ?_
  refine calm_check fun quad => calm_check fun single => ?_
  have accepted : AcceptedFlags eFlags := acceptedFlags_of_checks reserved rve tso quad single
  rcases @findArchString_cases buf shoff shentsize shnum small with
    ⟨data, finds⟩ | ⟨reason, failed⟩
  swap
  · rw [failed]
    exact calm_fail reason
  obtain ⟨parses, fits⟩ := finds.parses small
  rw [parses]
  have found : ∀ bad : ShortSubsection (data.drop 5) ∨ ∃ arch, HoldsArch (data.drop 5) arch ∧ CutsToken arch,
      Begins data → False := fun bad begins =>
    h ⟨long, eFlags, shoff, shentsize, shnum, data, flags, accepted, isShoff, isShentsize, isShnum, finds, begins, bad⟩
  rcases parseAttributes_cases fits with ⟨begins, short, -⟩ | ⟨arch, begins, holds, parsed⟩ | ⟨reason, failed⟩
  · exact (found (.inl short) begins).elim
  · rw [parsed]
    exact archRequirement_calm fun cuts => found (.inr ⟨arch, holds, cuts⟩) begins
  · rw [failed]
    exact calm_fail reason

/-- Admission panics exactly on a file that loads and whose attributes have a subsection shorter than its own
tag, or an architecture token that is cut inside a character. -/
theorem validate_panics_iff (small : buf.length ≤ isizeMax) : ¬Panics (validate grant buf limits) ↔
      ¬((∃ loaded, loadImage grant buf limits = .ok loaded) ∧ PanicsAtIsa buf) := by
  constructor
  · rintro calm ⟨⟨loaded, returned⟩, bad⟩
    obtain ⟨message, panics⟩ := isaRequirement_panics small bad
    refine calm ⟨message, ?_⟩
    rw [validate, returned, ok_bind, panics]
    rfl
  · intro good
    refine not_panics_iff.mpr ((loadImage_calm grant small).bind fun loaded returned => ?_)
    have calm := isaRequirement_calm small fun bad => good ⟨⟨loaded, returned⟩, bad⟩
    exact (calm_mapError calm).bind fun _ _ => avoids_ok _

theorem validate_panics_iff_small : smallElf.length ≤ isizeMax ∧
    (¬Panics (validate (fun _ => true) smallElf ⟨4096, 0x40000000⟩) ↔
      ¬((∃ loaded, loadImage (fun _ => true) smallElf ⟨4096, 0x40000000⟩ = .ok loaded) ∧ PanicsAtIsa smallElf)) :=
  ⟨by decide +kernel, validate_panics_iff (by decide +kernel)⟩

/-- A file whose subsection has the size zero, and one that declares an extension named `é`, version 1.0. -/
theorem validate_panics_on_files : Panics (validate (fun _ => true) (elfWith (attributesOf 0 [])) ⟨4096, 0x40000000⟩) ∧
    Panics (validate (fun _ => true) (elfWith (attributesOf 21 ([5] ++ encodeUtf8 "rv64i2p1_é1p0".toList ++ [0])))
      ⟨4096, 0x40000000⟩) := by
  refine ⟨@panicMessage_some _ _ "slice index out of range" _ ?_,
    @panicMessage_some _ _ "byte index is not a char boundary" _ ?_⟩
  · decide +kernel
  · decide +kernel

end Halcyon.Elf
