import Halcyon.Elf.Isa

/-! What the attribute readers read: one lemma for each of them. -/

namespace Halcyon.Elf

open List

variable {ε : Type} {data body : Bytes} {pos : Nat}

theorem and_high {n : Nat} (byte : n < 256) : n &&& 0x80 = 0 ↔ n < 128 := by
  revert n
  decide +kernel

theorem and_low (n : Nat) : n &&& 0x7F = n % 128 := Nat.and_two_pow_sub_one_eq_mod n 7

variable {result shift turns : Nat}

theorem or_shifted {x : Nat} (low : result < 2 ^ shift) (inside : shift < 64) :
    result ||| x <<< shift % 2 ^ 64 = (result + 2 ^ shift * x) % 2 ^ 64 := by
  have small : result < 2 ^ 64 := Nat.lt_trans low (Nat.pow_lt_pow_right (by decide) inside)
  have split := Nat.shiftLeft_add_eq_or_of_lt low x
  calc result ||| x <<< shift % 2 ^ 64
      = (result ||| x <<< shift) % 2 ^ 64 := by rw [Nat.or_mod_two_pow, Nat.mod_eq_of_lt small]
    _ = (result + 2 ^ shift * x) % 2 ^ 64 := by
      rw [Nat.or_comm, ← split, Nat.shiftLeft_eq, Nat.add_comm, Nat.mul_comm]

theorem drop_of_getElem? {byte : UInt8} (h : data[pos]? = some byte) : data.drop pos = byte :: data.drop (pos + 1) := by
  obtain ⟨inside, rfl⟩ := List.getElem?_eq_some_iff.mp h
  exact drop_eq_getElem_cons inside

section

variable (small : data.length ≤ isizeMax)
include small

theorem ulebFrom_turn {byte : UInt8} (inside : shift < 64)
    (low : result < 2 ^ shift) (read : data[pos]? = some byte) : ulebFrom (turns + 1) data pos result shift =
      if byte.toNat < 128 then .ok ((result + 2 ^ shift * byte.toNat) % 2 ^ 64, pos + 1)
      else if 64 ≤ shift + 7 then fail ()
      else ulebFrom turns data (pos + 1) ((result + 2 ^ shift * (byte.toNat % 128)) % 2 ^ 64) (shift + 7) := by
  have within := (List.getElem?_eq_some_iff.mp read).1
  have fits : pos + 1 ≤ usizeMax := by
    rw [isizeMax] at small
    rw [usizeMax]
    omega
  rw [ulebFrom, read, okOr, ok_bind, add_returns fits, ok_bind, and_low, or_shifted low inside]
  simp only [assertThat, decide_eq_true inside, if_true, ok_bind, and_high byte.toNat_lt]
  split
  · rename_i ends
    rw [Nat.mod_eq_of_lt ends]
    rfl
  · rw [refuseIf]
    by_cases last : 64 ≤ shift + 7
    · rw [if_pos last, if_pos (decide_eq_true last)]
      rfl
    · rw [if_neg last, if_neg (by simpa using last)]
      rfl

theorem ulebFrom_eq (left : shift + 7 * turns = 63) (low : result < 2 ^ shift) : ulebFrom (turns + 1) data pos result shift =
      match takeUleb (turns + 1) (data.drop pos) with
      | some code => .ok ((result + 2 ^ shift * ulebNumber code) % 2 ^ 64, pos + code.length)
      | none => fail () := by
  induction turns generalizing pos result shift with
  | zero =>
    cases read : data[pos]? with
    | none =>
      rw [ulebFrom, read, drop_eq_nil_of_le (getElem?_eq_none_iff.mp read)]
      rfl
    | some byte =>
      rw [ulebFrom_turn small (by omega) low read, drop_of_getElem? read, takeUleb]
      split
      · rename_i ends
        simp only [ulebNumber, Nat.mod_eq_of_lt ends]
        rfl
      · exact if_pos (by omega)
  | succ turns ih =>
    cases read : data[pos]? with
    | none =>
      rw [ulebFrom, read, drop_eq_nil_of_le (getElem?_eq_none_iff.mp read)]
      rfl
    | some byte =>
      rw [ulebFrom_turn small (by omega) low read, drop_of_getElem? read, takeUleb]
      split
      · rename_i ends
        simp only [ulebNumber, Nat.mod_eq_of_lt ends]
        rfl
      · have bits : byte.toNat % 128 < 128 := Nat.mod_lt _ (by decide)
        have next : result + 2 ^ shift * (byte.toNat % 128) < 2 ^ (shift + 7) := by
          have power := Nat.pow_add 2 shift 7
          have most : 2 ^ shift * (byte.toNat % 128 + 1) ≤ 2 ^ shift * 128 := Nat.mul_le_mul_left _ bits
          rw [Nat.mul_add] at most
          omega
        have whole : result + 2 ^ shift * (byte.toNat % 128) < 2 ^ 64 :=
          Nat.lt_of_lt_of_le next (Nat.pow_le_pow_right (by decide) (by omega))
        rw [if_neg (by omega), Nat.mod_eq_of_lt whole, ih (by omega) next]
        cases takeUleb (turns + 1) (data.drop (pos + 1)) with
        | none => rfl
        | some code =>
          have value : result + 2 ^ shift * (byte.toNat % 128) + 2 ^ (shift + 7) * ulebNumber code =
              result + 2 ^ shift * ulebNumber (byte :: code) := by
            rw [ulebNumber, Nat.pow_add, Nat.mul_add, Nat.mul_assoc, Nat.add_assoc]
          have length : pos + 1 + code.length = pos + (byte :: code).length := by
            rw [length_cons]
            omega
          simp only [Option.map_eq_map, Option.map_some, value, length]

theorem uleb128_eq : uleb128 data pos =
      match takeUleb 10 (data.drop pos) with
      | some code => .ok (ulebNumber code % 2 ^ 64, pos + code.length)
      | none => fail () := by
  rw [uleb128, ulebFrom_eq small (by decide) (by decide)]
  simp only [Nat.pow_zero, Nat.one_mul, Nat.zero_add]

theorem ulebValue_eq : ulebValue data pos =
      match takeUleb 10 (data.drop pos) with
      | some code => .ok (ulebNumber code % 2 ^ 64, pos + code.length)
      | none => fail .malformedAttributes := by
  rw [ulebValue, uleb128_eq small]
  cases takeUleb 10 (data.drop pos) <;> rfl

end

theorem findIdx?_zero_some {bytes : Bytes} {len : Nat} (h : bytes.findIdx? (· == 0) = some len) :
    ∃ text rest, bytes = text ++ 0 :: rest ∧ 0 ∉ text ∧ text.length = len := by
  obtain ⟨inside, zero, first⟩ := findIdx?_eq_some_iff_getElem.mp h
  refine ⟨bytes.take len, bytes.drop (len + 1), ?_, ?_, ?_⟩
  · rw [← (beq_iff_eq.mp zero), ← drop_eq_getElem_cons inside, take_append_drop]
  · intro member
    obtain ⟨i, less, same⟩ := mem_take_iff_getElem.mp member
    have apart := first i (by omega)
    rw [same] at apart
    exact apart rfl
  · rw [length_take]
    omega

variable {text rest : Bytes}

theorem findIdx?_zero_append (free : 0 ∉ text) : (text ++ 0 :: rest).findIdx? (· == 0) = some text.length := by
  rw [findIdx?_append, findIdx?_eq_none_iff.mpr, Option.none_or]
  · simp [findIdx?_cons]
  · intro byte member
    rw [beq_eq_false_iff_ne]
    rintro rfl
    exact free member

theorem ntbs_append (free : 0 ∉ text) : ntbs (text ++ 0 :: rest) = .ok text.length := by
  rw [ntbs, findIdx?_zero_append free]
  rfl

/-- A sequence of attributes whose first architecture string is `text`. Numbers take at most ten bytes and
are read as 64-bit words. -/
inductive FirstArch : Bytes → Text → Prop where
  | here {tag rest : Bytes} {text : Text} (uleb : IsUleb tag) (short : tag.length ≤ 10)
      (isArch : ulebNumber tag % 2 ^ 64 = tagRiscvArch) (free : 0 ∉ encodeUtf8 text) :
      FirstArch (tag ++ (encodeUtf8 text ++ 0 :: rest)) text
  | number {tag value rest : Bytes} {text : Text} (uleb : IsUleb tag) (short : tag.length ≤ 10)
      (even : ulebNumber tag % 2 = 0) (valueUleb : IsUleb value) (valueShort : value.length ≤ 10)
      (later : FirstArch rest text) : FirstArch (tag ++ (value ++ rest)) text
  | string {tag value rest : Bytes} {text : Text} (uleb : IsUleb tag) (short : tag.length ≤ 10)
      (odd : ulebNumber tag % 2 = 1) (other : ulebNumber tag % 2 ^ 64 ≠ tagRiscvArch) (free : 0 ∉ value)
      (later : FirstArch rest text) : FirstArch (tag ++ (value ++ 0 :: rest)) text

theorem slice_rest (front rest : Bytes) {n : Nat} (h : n = (front ++ rest).length) :
    (slice (front ++ rest) front.length n : Outcome ε Bytes) = .ok rest := by
  subst h
  rw [slice_returns (by simp) (Nat.le_refl _), take_length, drop_left]

theorem attributesFrom_tag {tag rest : Bytes} (small : (tag ++ rest).length ≤ isizeMax) (uleb : IsUleb tag)
    (short : tag.length ≤ 10) :
    attributesFrom (turns + 1) (tag ++ rest) = attributeAt (attributesFrom turns) (ulebNumber tag % 2 ^ 64) rest := by
  have filled : (tag ++ rest).isEmpty = false := by
    cases tag with
    | nil => exact uleb.elim
    | cons byte tag => rfl
  rw [attributesFrom, filled, ulebValue_eq small, drop_zero, takeUleb_append uleb short]
  simp only [Bool.false_eq_true, if_false, ok_bind, Nat.zero_add, slice_rest tag rest rfl]

section Attribute

variable {later : Bytes → Outcome IsaReqError Text} {tag : Nat}

theorem attributeAt_arch (isArch : tag = tagRiscvArch) (free : 0 ∉ text) :
    attributeAt later tag (text ++ 0 :: rest) = okOr .malformedAttributes (decodeUtf8 text) := by
  have front : (slice (text ++ 0 :: rest) 0 text.length : Outcome IsaReqError Bytes) = .ok text := by
    rw [slice_returns (Nat.zero_le _) (by simp), take_left]
    rfl
  rw [attributeAt, if_pos isArch, ntbs_append free, ok_bind, front, ok_bind]

theorem attributeAt_number {value rest : Bytes} (small : (value ++ rest).length ≤ isizeMax) (even : tag % 2 = 0)
    (uleb : IsUleb value) (short : value.length ≤ 10) : attributeAt later tag (value ++ rest) = later rest := by
  have other : tag ≠ tagRiscvArch := by
    rintro rfl
    exact absurd even (by decide)
  rw [attributeAt, if_neg other, if_pos even, ulebValue_eq small, drop_zero, takeUleb_append uleb short]
  simp only [ok_bind, Nat.zero_add, slice_rest value rest rfl]

theorem attributeAt_string {value rest : Bytes} (small : (value ++ 0 :: rest).length ≤ isizeMax)
    (odd : tag % 2 = 1) (other : tag ≠ tagRiscvArch) (free : 0 ∉ value) :
    attributeAt later tag (value ++ 0 :: rest) = later rest := by
  have fits : value.length + 1 ≤ usizeMax := by
    rw [length_append, length_cons, isizeMax] at small
    rw [usizeMax]
    omega
  have after : (slice (value ++ 0 :: rest) (value.length + 1) (value ++ 0 :: rest).length : Outcome IsaReqError Bytes) =
      .ok rest := by
    have joined : value ++ 0 :: rest = (value ++ [0]) ++ rest := by rw [append_assoc]; rfl
    have width : value.length + 1 = (value ++ [0]).length := by rw [length_append]; rfl
    rw [joined, width]
    exact slice_rest (value ++ [0]) rest rfl
  rw [attributeAt, if_neg other, if_neg (by omega), ntbs_append free, ok_bind, add_returns fits, ok_bind, after, ok_bind]

end Attribute

theorem attributesFrom_of_firstArch {text : Text} (arch : FirstArch body text) (small : body.length ≤ isizeMax)
    (enough : body.length < turns) : attributesFrom turns body = .ok text := by
  induction arch generalizing turns with
  | here uleb short isArch free =>
    cases turns with
    | zero => cases enough
    | succ turns =>
      rw [attributesFrom_tag small uleb short, attributeAt_arch isArch free, decodeUtf8_encodeUtf8]
      rfl
  | number uleb short even valueUleb valueShort later ih =>
    cases turns with
    | zero => cases enough
    | succ turns =>
      rw [attributesFrom_tag small uleb short]
      have positive := uleb.length_pos
      rw [length_append] at small enough
      rw [attributeAt_number (by omega) (by omega) valueUleb valueShort]
      rw [length_append] at small enough
      exact ih (by omega) (by omega)
  | string uleb short odd other free later ih =>
    cases turns with
    | zero => cases enough
    | succ turns =>
      rw [attributesFrom_tag small uleb short]
      have positive := uleb.length_pos
      rw [length_append] at small enough
      rw [attributeAt_string (by omega) (by omega) other free]
      rw [length_append, length_cons] at small enough
      exact ih (by omega) (by omega)

/-- A call that ends with an error or with a value the relation has. -/
def Answers {α : Type} (R : α → Prop) (x : Outcome ε α) : Prop :=
  (∃ value, x = .ok value ∧ R value) ∨ ∃ reason, x = fail reason

theorem ntbs_answers (bytes : Bytes) :
    (∃ text rest, bytes = text ++ 0 :: rest ∧ 0 ∉ text) ∨ ntbs bytes = fail .malformedAttributes := by
  cases found : bytes.findIdx? (· == 0) with
  | none =>
    rw [ntbs, found]
    exact .inr rfl
  | some len =>
    obtain ⟨text, rest, split, free, -⟩ := findIdx?_zero_some found
    exact .inl ⟨text, rest, split, free⟩

section

variable (small : body.length ≤ isizeMax)
include small

theorem attributeAt_cases {later : Bytes → Outcome IsaReqError Text} {tag : Nat} :
    (∃ reason, attributeAt later tag body = fail reason) ∨
    (∃ text rest, tag = tagRiscvArch ∧ body = encodeUtf8 text ++ 0 :: rest ∧ 0 ∉ encodeUtf8 text ∧
      attributeAt later tag body = .ok text) ∨
    (∃ value rest, tag % 2 = 0 ∧ body = value ++ rest ∧ IsUleb value ∧ value.length ≤ 10 ∧
      attributeAt later tag body = later rest) ∨
    (∃ value rest, tag % 2 = 1 ∧ tag ≠ tagRiscvArch ∧ body = value ++ 0 :: rest ∧ 0 ∉ value ∧
      attributeAt later tag body = later rest) := by
  by_cases isArch : tag = tagRiscvArch
  · obtain ⟨bytes, rest, rfl, free⟩ | unended := ntbs_answers body
    · rw [attributeAt_arch isArch free]
      cases decoded : decodeUtf8 bytes with
      | none => exact .inl ⟨_, rfl⟩
      | some text =>
        have encoded := encodeUtf8_of_decodeUtf8 decoded
        subst encoded
        exact .inr (.inl ⟨text, rest, isArch, rfl, free, rfl⟩)
    · rw [attributeAt, if_pos isArch, unended]
      exact .inl ⟨_, rfl⟩
  · by_cases even : tag % 2 = 0
    · cases taken : takeUleb 10 body with
      | none =>
        rw [attributeAt, if_neg isArch, if_pos even, ulebValue_eq small, drop_zero, taken]
        exact .inl ⟨_, rfl⟩
      | some value =>
        obtain ⟨uleb, short, rest, rfl⟩ := takeUleb_some taken
        exact .inr (.inr (.inl ⟨value, rest, even, rfl, uleb, short, attributeAt_number small even uleb short⟩))
    · obtain ⟨value, rest, rfl, free⟩ | unended := ntbs_answers body
      · have odd : tag % 2 = 1 := by omega
        exact .inr (.inr (.inr ⟨value, rest, odd, isArch, rfl, free, attributeAt_string small odd isArch free⟩))
      · rw [attributeAt, if_neg isArch, if_neg even, unended]
        exact .inl ⟨_, rfl⟩

theorem attributesFrom_answers (enough : body.length < turns) : Answers (FirstArch body) (attributesFrom turns body) := by
  induction turns generalizing body with
  | zero => cases enough
  | succ turns ih =>
    by_cases empty : body = []
    · subst empty
      exact .inr ⟨_, rfl⟩
    cases taken : takeUleb 10 body with
    | none =>
      refine .inr ⟨.malformedAttributes, ?_⟩
      rw [attributesFrom, isEmpty_eq_false_iff.mpr empty, ulebValue_eq small, drop_zero, taken]
      rfl
    | some tag =>
      obtain ⟨uleb, short, after, rfl⟩ := takeUleb_some taken
      have positive := uleb.length_pos
      rw [attributesFrom_tag small uleb short]
      rw [length_append] at small enough
      have inside : after.length ≤ isizeMax := by omega
      obtain ⟨reason, failed⟩ | ⟨text, rest, isArch, rfl, free, found⟩ |
          ⟨value, rest, even, rfl, valueUleb, valueShort, goes⟩ | ⟨value, rest, odd, other, rfl, free, goes⟩ :=
        attributeAt_cases inside
      · exact .inr ⟨reason, failed⟩
      · exact .inl ⟨text, found, .here uleb short isArch free⟩
      · rw [goes]
        rw [length_append] at small enough
        obtain ⟨text, found, arch⟩ | failed := @ih rest (by omega) (by omega)
        · exact .inl ⟨text, found, .number uleb short (by omega) valueUleb valueShort arch⟩
        · exact .inr failed
      · rw [goes]
        rw [length_append, length_cons] at small enough
        obtain ⟨text, found, arch⟩ | failed := @ih rest (by omega) (by omega)
        · exact .inl ⟨text, found, .string uleb short (by omega) other free arch⟩
        · exact .inr failed

theorem archFromSubsection_answers :
    Answers (FirstArch body) (archFromSubsection body) := attributesFrom_answers small (Nat.lt_succ_self _)

theorem archFromSubsection_iff {text : Text} : archFromSubsection body = .ok text ↔ FirstArch body text := by
  constructor
  · intro h
    obtain ⟨found, same, arch⟩ | ⟨reason, failed⟩ := archFromSubsection_answers small
    · rw [same] at h
      cases h
      exact arch
    · rw [failed] at h
      exact (fail_ne_ok h).elim
  · intro arch
    exact attributesFrom_of_firstArch arch small (Nat.lt_succ_self _)

end

end Halcyon.Elf
