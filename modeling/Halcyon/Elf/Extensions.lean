import Halcyon.Elf.Isa

/-!
The extensions an architecture string declares, and the requirement they agree with.
-/

namespace Halcyon.Elf

open List

def acceptedExtensions : List Text := baseExtensions ++ d64Extensions

def acceptedLetters : List Char := ['i', 'm', 'a', 'c', 'f', 'd']

def DeclaresToken (name token : Text) : Prop := ∃ suffix, token = name ++ suffix ∧ IsVersion suffix

/-- An architecture string declares a letter in its base token or an extension in a token of its own. -/
def Declares (arch name : Text) : Prop := ∃ base tokens, arch.splitOn '_' = base :: tokens ∧
    ((∃ letter, name = [letter] ∧ letter ∈ base.drop 4) ∨ ∃ token ∈ tokens, DeclaresToken name token)

def DeclaresOnlyAccepted (arch : Text) : Prop :=
  ∃ base tokens letters suffix, arch.splitOn '_' = base :: tokens ∧ base = "rv64".toList ++ letters ++ suffix ∧
    IsVersion suffix ∧ (∀ letter ∈ letters, letter ∈ acceptedLetters) ∧
    ∀ token ∈ tokens, ∃ name ∈ acceptedExtensions, DeclaresToken name token

variable {floatAbi : Nat} {declared after : Declared} {token name : Text}

variable {letter : Char}

theorem packedLetter_ok (h : packedLetter declared letter = .ok after) :
    letter ∈ acceptedLetters ∧ after.hasF = (declared.hasF || letter == 'f') ∧
      after.hasD = (declared.hasD || letter == 'd') := by
  unfold packedLetter at h
  split at h
  · rename_i plain
    cases h
    rcases plain with rfl | rfl | rfl | rfl <;> exact ⟨by decide, by simp, by simp⟩
  · split at h
    · rename_i isF
      cases h
      subst isF
      exact ⟨by decide, by simp, by simp⟩
    · split at h
      · rename_i isD
        cases h
        subst isD
        exact ⟨by decide, by simp, by simp⟩
      · exact (fail_ne_ok h).elim

theorem packedLetters_ok {letters : List Char} (h : letters.foldlM packedLetter declared = .ok after) :
    (∀ letter ∈ letters, letter ∈ acceptedLetters) ∧ (after.hasF = true ↔ declared.hasF = true ∨ 'f' ∈ letters) ∧
      (after.hasD = true ↔ declared.hasD = true ∨ 'd' ∈ letters) := by
  induction letters generalizing declared with
  | nil =>
    cases pure_ok h
    simp
  | cons letter letters ih =>
    rw [foldlM_cons] at h
    obtain ⟨middle, first, rest⟩ := bind_ok h
    obtain ⟨accepted, hasF, hasD⟩ := packedLetter_ok first
    obtain ⟨all, restF, restD⟩ := ih rest
    refine ⟨forall_mem_cons.mpr ⟨accepted, all⟩, ?_, ?_⟩
    · rw [restF, hasF, Bool.or_eq_true, beq_iff_eq, mem_cons, or_assoc, eq_comm (a := letter)]
    · rw [restD, hasD, Bool.or_eq_true, beq_iff_eq, mem_cons, or_assoc, eq_comm (a := letter)]

theorem extensionName_ok (h : extensionName floatAbi declared name = .ok after) :
    name ∈ acceptedExtensions ∧ after.hasF = (declared.hasF || name == "f".toList) ∧
      after.hasD = (declared.hasD || (name == "d".toList || name == "zcd".toList)) := by
  unfold extensionName at h
  split at h
  · rename_i isF
    cases h
    subst isF
    exact ⟨by decide, by simp, by simp⟩
  split at h
  · rename_i isD
    cases h
    rcases isD with rfl | rfl <;> exact ⟨by decide, by simp, by simp⟩
  rename_i notF notD
  have plain : (name == "f".toList) = false ∧ (name == "d".toList || name == "zcd".toList) = false := by
    simpa using ⟨notF, not_or.mp notD⟩
  rw [plain.1, plain.2, Bool.or_false, Bool.or_false]
  split at h
  · rename_i member
    cases h
    exact ⟨mem_append_left _ member, rfl, rfl⟩
  split at h
  · exact (fail_ne_ok h).elim
  split at h
  · rename_i both
    cases h
    exact ⟨mem_append_right _ both.1, rfl, rfl⟩
  · exact (fail_ne_ok h).elim

theorem IsVersion.head {suffix : Text} {first : Char} {rest : Text} (version : IsVersion suffix) (h : suffix = first :: rest) :
    isDigit first = true := by
  rcases version with rfl | ⟨major, minor, rfl, some, -, digits, -⟩
  · cases h
  · cases major with
    | nil => exact absurd rfl some
    | cons digit major =>
      cases h
      exact digits first mem_cons_self

theorem IsVersion.no_letter {suffix : Text} (version : IsVersion suffix) (other : isDigit letter = false)
    (notP : letter ≠ 'p') : letter ∉ suffix := by
  rcases version with rfl | ⟨major, minor, rfl, -, -, majors, minors⟩
  · exact not_mem_nil
  · intro member
    rcases mem_append.mp member with inMajor | inRest
    · rw [majors letter inMajor] at other
      cases other
    · rcases mem_cons.mp inRest with same | inMinor
      · exact notP same
      · rw [minors letter inMinor] at other
        cases other

theorem DeclaresToken.unique {first second : Text} (one : DeclaresToken first token) (two : DeclaresToken second token)
    (plain : ∀ char ∈ first, isDigit char = false) (plain' : ∀ char ∈ second, isDigit char = false) : first = second := by
  obtain ⟨suffix, rfl, version⟩ := one
  obtain ⟨suffix', same, version'⟩ := two
  induction first generalizing second with
  | nil =>
    cases second with
    | nil => rfl
    | cons char second =>
      have digit := version.head same
      rw [plain' char mem_cons_self] at digit
      cases digit
  | cons char first ih =>
    cases second with
    | nil =>
      have digit := version'.head same.symm
      rw [plain char mem_cons_self] at digit
      cases digit
    | cons char' second =>
      obtain ⟨rfl, rest⟩ := List.cons.inj same
      rw [ih (fun x member => plain x (mem_cons_of_mem _ member)) (fun x member => plain' x (mem_cons_of_mem _ member)) rest]

theorem accepted_plain (member : name ∈ acceptedExtensions) : ∀ char ∈ name, isDigit char = false := by
  have all : (acceptedExtensions.all fun name => name.all fun char => decide (isDigit char = false)) = true := by decide
  intro char inside
  exact of_decide_eq_true (all_eq_true.mp (all_eq_true.mp all name member) char inside)

theorem extensionToken_ok (h : extensionToken floatAbi declared token = .ok after) :
    ∃ name ∈ acceptedExtensions, DeclaresToken name token ∧
      (after.hasF = true ↔ declared.hasF = true ∨ DeclaresToken "f".toList token) ∧
      (after.hasD = true ↔ declared.hasD = true ∨ DeclaresToken "d".toList token ∨ DeclaresToken "zcd".toList token) := by
  obtain ⟨name, stripped, h⟩ := bind_ok h
  obtain ⟨-, suffix, split, version, -⟩ := stripVersion_ok (mapError_ok stripped)
  have declares : DeclaresToken name token := ⟨suffix, split, version⟩
  obtain ⟨accepted, hasF, hasD⟩ := extensionName_ok h
  have same : ∀ other ∈ acceptedExtensions, name = other ↔ DeclaresToken other token := by
    intro other member
    refine ⟨fun equal => equal ▸ declares, fun declaresOther => ?_⟩
    exact DeclaresToken.unique declares declaresOther (accepted_plain accepted) (accepted_plain member)
  refine ⟨name, accepted, declares, ?_, ?_⟩
  · rw [hasF, Bool.or_eq_true, beq_iff_eq, same _ (by decide)]
  · rw [hasD, Bool.or_eq_true, Bool.or_eq_true, beq_iff_eq, beq_iff_eq, same _ (by decide), same _ (by decide)]

theorem extensionTokens_ok {tokens : List Text} (h : tokens.foldlM (extensionToken floatAbi) declared = .ok after) :
    (∀ token ∈ tokens, ∃ name ∈ acceptedExtensions, DeclaresToken name token) ∧
      (after.hasF = true ↔ declared.hasF = true ∨ ∃ token ∈ tokens, DeclaresToken "f".toList token) ∧
      (after.hasD = true ↔ declared.hasD = true ∨
        ∃ token ∈ tokens, DeclaresToken "d".toList token ∨ DeclaresToken "zcd".toList token) := by
  induction tokens generalizing declared with
  | nil =>
    cases pure_ok h
    simp
  | cons token tokens ih =>
    rw [foldlM_cons] at h
    obtain ⟨middle, first, rest⟩ := bind_ok h
    obtain ⟨name, accepted, declares, hasF, hasD⟩ := extensionToken_ok first
    obtain ⟨all, restF, restD⟩ := ih rest
    refine ⟨forall_mem_cons.mpr ⟨⟨name, accepted, declares⟩, all⟩, ?_, ?_⟩
    · rw [restF, hasF, or_assoc]
      simp only [mem_cons, or_and_right, exists_or, exists_eq_left]
    · rw [restD, hasD, or_assoc]
      simp only [mem_cons, or_and_right, exists_or, exists_eq_left]

/-- The requirement agrees with the declarations and the float ABI. -/
def Agrees (floatAbi : Nat) (arch : Text) : IsaRequirement → Prop
  | .base64 => floatAbi ≠ efRiscvFloatAbiDouble ∧ ¬Declares arch "f".toList ∧ ¬Declares arch "d".toList ∧
      ¬Declares arch "zcd".toList
  | .d64 => floatAbi = efRiscvFloatAbiDouble ∧ Declares arch "f".toList ∧
      (Declares arch "d".toList ∨ Declares arch "zcd".toList)

theorem mem_drop_base {letters suffix : Text} (version : IsVersion suffix) (other : isDigit letter = false)
    (notP : letter ≠ 'p') : letter ∈ ("rv64".toList ++ letters ++ suffix).drop 4 ↔ letter ∈ letters := by
  have drop : ("rv64".toList ++ letters ++ suffix).drop 4 = letters ++ suffix := rfl
  rw [drop, mem_append, or_iff_left (version.no_letter other notP)]

theorem archRequirement_ok {arch : Text} {requirement : IsaRequirement} (h : archRequirement floatAbi arch = .ok requirement) :
    DeclaresOnlyAccepted arch ∧ Agrees floatAbi arch requirement := by
  unfold archRequirement at h
  split at h
  · exact (fail_ne_ok h).elim
  rename_i base tokens split
  obtain ⟨baseName, stripped, h⟩ := bind_ok h
  obtain ⟨_, starts, h⟩ := bind_ok h
  obtain ⟨packed, cut, h⟩ := bind_ok h
  obtain ⟨middle, letters, h⟩ := bind_ok h
  obtain ⟨declared, extensions, result⟩ := bind_ok h
  obtain ⟨-, suffix, whole, version, -⟩ := stripVersion_ok (mapError_ok stripped)
  have isPrefix : "rv64".toList <+: baseName := by
    have test := refuseIf_ok starts
    rw [Bool.not_eq_false'] at test
    exact isPrefixOf_iff_prefix.mp test
  obtain ⟨rest, rfl⟩ := isPrefix
  have same : packed = rest := by
    have read : (textFrom ("rv64".toList ++ rest) 4 : Outcome IsaReqError Text) = .ok rest := textFrom_append _ _
    rw [read] at cut
    exact (Except.ok.inj cut).symm
  subst same
  obtain ⟨accepted, packedF, packedD⟩ := packedLetters_ok letters
  obtain ⟨all, hasF, hasD⟩ := extensionTokens_ok extensions
  have declares : ∀ name, Declares arch name ↔
      (∃ letter, name = [letter] ∧ letter ∈ base.drop 4) ∨ ∃ token ∈ tokens, DeclaresToken name token := by
    intro name
    refine ⟨fun ⟨base', tokens', split', found⟩ => ?_, fun found => ⟨base, tokens, split, found⟩⟩
    rw [split] at split'
    cases split'
    exact found
  have declaresF : Declares arch "f".toList ↔ declared.hasF = true := by
    have letter : (∃ letter, "f".toList = [letter] ∧ letter ∈ base.drop 4) ↔ 'f' ∈ packed := by
      rw [whole, ← mem_drop_base version (by decide) (by decide)]
      simp
    rw [declares, hasF, packedF, letter]
    simp
  have declaresD : (Declares arch "d".toList ∨ Declares arch "zcd".toList) ↔ declared.hasD = true := by
    have letter : (∃ letter, "d".toList = [letter] ∧ letter ∈ base.drop 4) ↔ 'd' ∈ packed := by
      rw [whole, ← mem_drop_base version (by decide) (by decide)]
      simp
    rw [declares, declares, hasD, packedD, letter]
    simp only [and_or_left, exists_or]
    simp [or_assoc]
  refine ⟨⟨base, tokens, packed, suffix, split, whole, version, accepted, all⟩, ?_⟩
  split at result
  · rename_i double
    split at result
    · exact (fail_ne_ok result).elim
    · rename_i both
      cases result
      rw [Bool.or_eq_true, Bool.not_eq_true', Bool.not_eq_true', not_or, Bool.not_eq_false, Bool.not_eq_false] at both
      exact ⟨double, declaresF.mpr both.1, declaresD.mpr both.2⟩
  · rename_i soft
    split at result
    · exact (fail_ne_ok result).elim
    · rename_i neither
      cases result
      rw [Bool.or_eq_true, not_or, ← declaresF, ← declaresD, not_or] at neither
      exact ⟨soft, neither⟩

end Halcyon.Elf
