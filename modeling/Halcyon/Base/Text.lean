import Halcyon.Base.Bytes

/-!
Text as the code sees it: a list of characters over a string of UTF-8 bytes. `decodeUtf8` accepts exactly
the encodings of texts.
-/

namespace Halcyon

open List

abbrev Text := List Char

/-- `str::as_bytes`. -/
def encodeUtf8 (text : Text) : Bytes := text.flatMap String.utf8EncodeChar

/-- The characters of at most `turns` encodings, which must use up the bytes. -/
def decodeChars : Nat → Bytes → Option Text
  | _, [] => some []
  | 0, _ :: _ => none
  | turns + 1, byte :: rest =>
    match (byte :: rest).toByteArray.utf8DecodeChar? 0 with
    | some char => (char :: ·) <$> decodeChars turns ((byte :: rest).drop char.utf8Size)
    | none => none

/-- `core::str::from_utf8`. -/
def decodeUtf8 (bytes : Bytes) : Option Text := decodeChars bytes.length bytes

theorem decodeChar_append (char : Char) (rest : Bytes) :
    (String.utf8EncodeChar char ++ rest).toByteArray.utf8DecodeChar? 0 = some char := by
  rw [toByteArray_append]
  exact ByteArray.utf8DecodeChar?_utf8EncodeChar_append

variable {bytes : Bytes}

theorem decodeChar_some {char : Char} (h : bytes.toByteArray.utf8DecodeChar? 0 = some char) :
    ∃ rest, bytes = String.utf8EncodeChar char ++ rest := by
  obtain ⟨rest, same⟩ := ByteArray.exists_of_utf8DecodeChar?_eq_some h
  refine ⟨rest.data.toList, toByteArray_inj.mp ?_⟩
  rw [same, toByteArray_append]
  congr 1
  ext1
  rw [data_toByteArray, Array.toArray_toList]

theorem drop_utf8EncodeChar (char : Char) (rest : Bytes) :
    (String.utf8EncodeChar char ++ rest).drop char.utf8Size = rest := by
  rw [← String.length_utf8EncodeChar, drop_left]

theorem encodeUtf8_cons (char : Char) (text : Text) :
    encodeUtf8 (char :: text) = String.utf8EncodeChar char ++ encodeUtf8 text := flatMap_cons

theorem encodeUtf8_append (text more : Text) : encodeUtf8 (text ++ more) = encodeUtf8 text ++ encodeUtf8 more :=
  flatMap_append

theorem utf8EncodeChar_split (char : Char) : ∃ byte more, String.utf8EncodeChar char = byte :: more := by
  cases encoded : String.utf8EncodeChar char with
  | nil =>
    have positive := Char.utf8Size_pos char
    rw [← String.length_utf8EncodeChar, encoded] at positive
    exact absurd positive (Nat.lt_irrefl 0)
  | cons byte more => exact ⟨byte, more, rfl⟩

theorem decodeChars_cons (turns : Nat) (char : Char) (rest : Bytes) :
    decodeChars (turns + 1) (String.utf8EncodeChar char ++ rest) = (char :: ·) <$> decodeChars turns rest := by
  have front := decodeChar_append char rest
  have after := drop_utf8EncodeChar char rest
  obtain ⟨byte, more, encoded⟩ := utf8EncodeChar_split char
  rw [encoded, cons_append] at front after ⊢
  rw [decodeChars, front]
  simp only [after]

theorem decodeChars_encodeUtf8 {turns : Nat} {text : Text} (enough : text.length ≤ turns) :
    decodeChars turns (encodeUtf8 text) = some text := by
  induction text generalizing turns with
  | nil =>
    cases turns with
    | zero | succ turns => rfl
  | cons char text ih =>
    cases turns with
    | zero => cases enough
    | succ turns =>
      rw [encodeUtf8_cons, decodeChars_cons, ih (Nat.le_of_succ_le_succ enough)]
      rfl

theorem length_le_encodeUtf8 (text : Text) : text.length ≤ (encodeUtf8 text).length := by
  induction text with
  | nil => exact Nat.le_refl 0
  | cons char text ih =>
    have positive := Char.utf8Size_pos char
    rw [encodeUtf8_cons, length_append, String.length_utf8EncodeChar, length_cons]
    omega

theorem decodeUtf8_encodeUtf8 (text : Text) : decodeUtf8 (encodeUtf8 text) = some text :=
  decodeChars_encodeUtf8 (length_le_encodeUtf8 text)

theorem encodeUtf8_decodeChars {turns : Nat} {text : Text} (h : decodeChars turns bytes = some text) :
    encodeUtf8 text = bytes := by
  induction turns generalizing bytes text with
  | zero =>
    cases bytes with
    | nil =>
      cases h
      rfl
    | cons byte rest => cases h
  | succ turns ih =>
    cases bytes with
    | nil =>
      cases h
      rfl
    | cons byte rest =>
      rw [decodeChars] at h
      cases read : (byte :: rest).toByteArray.utf8DecodeChar? 0 with
      | none =>
        rw [read] at h
        cases h
      | some char =>
        obtain ⟨after, split⟩ := decodeChar_some read
        rw [read, split] at h
        simp only [drop_utf8EncodeChar, Option.map_eq_map, Option.map_eq_some_iff] at h
        obtain ⟨more, decoded, rfl⟩ := h
        rw [split, encodeUtf8_cons, ih decoded]

theorem encodeUtf8_of_decodeUtf8 {text : Text} (h : decodeUtf8 bytes = some text) :
    encodeUtf8 text = bytes := encodeUtf8_decodeChars h

/-! Operations on text that count in bytes: an index inside a character cuts nothing off, it panics. -/

/-- `str::len`. -/
def utf8Length (text : Text) : Nat := (text.map Char.utf8Size).sum

/-- `str::rfind`: the byte index of the last character that passes a test. -/
def rfind (test : Char → Bool) : Text → Option Nat
  | [] => none
  | char :: rest =>
    match rfind test rest with
    | some index => some (char.utf8Size + index)
    | none => if test char then some 0 else none

/-- The text before and from a byte index; none inside a character or beyond the end. -/
def splitAt? : Text → Nat → Option (Text × Text)
  | text, 0 => some ([], text)
  | [], _ + 1 => none
  | char :: rest, index + 1 =>
    if char.utf8Size ≤ index + 1 then
      (splitAt? rest (index + 1 - char.utf8Size)).map fun parts => (char :: parts.1, parts.2)
    else none

/-- `text[..stop]`; an index that is not a character boundary panics. -/
def textTo {ε : Type} (text : Text) (stop : Nat) : Outcome ε Text :=
  expect "byte index is not a char boundary" ((splitAt? text stop).map Prod.fst)

/-- `text[start..]`. -/
def textFrom {ε : Type} (text : Text) (start : Nat) : Outcome ε Text :=
  expect "byte index is not a char boundary" ((splitAt? text start).map Prod.snd)

section

variable {ε : Type} {front back text : Text} {char : Char} {test : Char → Bool}

theorem utf8Length_append (front back : Text) : utf8Length (front ++ back) = utf8Length front + utf8Length back := by
  rw [utf8Length, map_append, sum_append]
  rfl

theorem utf8Length_cons (char : Char) (text : Text) : utf8Length (char :: text) = char.utf8Size + utf8Length text := rfl

theorem length_le_utf8Length (text : Text) : text.length ≤ utf8Length text := by
  induction text with
  | nil => exact Nat.le_refl 0
  | cons char text ih =>
    have positive := Char.utf8Size_pos char
    rw [length_cons, utf8Length_cons]
    omega

theorem length_encodeUtf8 (text : Text) : (encodeUtf8 text).length = utf8Length text := by
  induction text with
  | nil => rfl
  | cons char text ih =>
    rw [encodeUtf8_cons, length_append, String.length_utf8EncodeChar, ih, utf8Length_cons]

theorem rfind_none (h : rfind test text = none) : ∀ x ∈ text, test x = false := by
  induction text with
  | nil => nofun
  | cons char rest ih =>
    rw [rfind] at h
    cases found : rfind test rest with
    | some index =>
      rw [found] at h
      cases h
    | none =>
      rw [found] at h
      intro x member
      rcases mem_cons.mp member with rfl | later
      · cases tested : test x with
        | false => rfl
        | true => simp [tested] at h
      · exact ih found x later

theorem rfind_eq_none (h : ∀ x ∈ text, test x = false) : rfind test text = none := by
  induction text with
  | nil => rfl
  | cons char rest ih =>
    rw [rfind, ih fun x member => h x (mem_cons_of_mem _ member)]
    simp [h char mem_cons_self]

theorem rfind_append (found : test char = true) (rest : ∀ x ∈ back, test x = false) :
    rfind test (front ++ char :: back) = some (utf8Length front) := by
  induction front with
  | nil =>
    rw [nil_append, rfind, rfind_eq_none rest]
    exact if_pos found
  | cons first front ih =>
    rw [cons_append, rfind, ih]
    rfl

theorem rfind_some {index : Nat} (h : rfind test text = some index) :
    ∃ front char back, text = front ++ char :: back ∧ test char = true ∧ (∀ x ∈ back, test x = false) ∧
      index = utf8Length front := by
  induction text generalizing index with
  | nil => cases h
  | cons first rest ih =>
    rw [rfind] at h
    cases found : rfind test rest with
    | some inner =>
      rw [found] at h
      cases h
      obtain ⟨front, char, back, rfl, passes, after, rfl⟩ := ih found
      exact ⟨first :: front, char, back, rfl, passes, after, rfl⟩
    | none =>
      rw [found] at h
      cases passes : test first with
      | false => simp [passes] at h
      | true =>
        simp only [passes, if_true] at h
        cases h
        exact ⟨[], first, rest, rfl, passes, rfind_none found, rfl⟩

theorem splitAt?_append (front back : Text) : splitAt? (front ++ back) (utf8Length front) = some (front, back) := by
  induction front with
  | nil =>
    cases back with
    | nil | cons char back => rfl
  | cons char front ih =>
    obtain ⟨index, size⟩ : ∃ index, utf8Length (char :: front) = index + 1 :=
      ⟨_, (Nat.succ_pred_eq_of_pos (by have := Char.utf8Size_pos char; rw [utf8Length_cons]; omega)).symm⟩
    have whole := utf8Length_cons char front
    rw [size, cons_append, splitAt?, if_pos (by omega), ← size, whole, Nat.add_sub_cancel_left, ih]
    rfl

theorem splitAt?_inside {within : Nat} (positive : 0 < within) (inside : within < char.utf8Size) :
    splitAt? (front ++ char :: back) (utf8Length front + within) = none := by
  induction front with
  | nil =>
    obtain ⟨index, rfl⟩ : ∃ index, within = index + 1 := ⟨_, (Nat.succ_pred_eq_of_pos positive).symm⟩
    have start : utf8Length [] + (index + 1) = index + 1 := Nat.zero_add _
    rw [start, nil_append, splitAt?, if_neg (by omega)]
  | cons first front ih =>
    have size := Char.utf8Size_pos first
    obtain ⟨index, whole⟩ : ∃ index, utf8Length (first :: front) + within = index + 1 :=
      ⟨_, (Nat.succ_pred_eq_of_pos (by rw [utf8Length_cons]; omega)).symm⟩
    have left : index + 1 - first.utf8Size = utf8Length front + within := by
      rw [← whole, utf8Length_cons]
      omega
    rw [whole, cons_append, splitAt?, left, ih]
    simp

theorem textTo_append (front back : Text) : (textTo (front ++ back) (utf8Length front) : Outcome ε Text) = .ok front := by
  rw [textTo, splitAt?_append]
  rfl

theorem textFrom_append (front back : Text) : (textFrom (front ++ back) (utf8Length front) : Outcome ε Text) = .ok back := by
  rw [textFrom, splitAt?_append]
  rfl

theorem textTo_inside {within : Nat} (positive : 0 < within) (inside : within < char.utf8Size) :
    (textTo (front ++ char :: back) (utf8Length front + within) : Outcome ε Text) =
      panicked "byte index is not a char boundary" := by
  rw [textTo, splitAt?_inside positive inside]
  rfl

theorem eq_of_first_byte {ascii : Char} {byte : UInt8} (single : String.utf8EncodeChar ascii = [byte])
    (h : (encodeUtf8 (front ++ char :: back))[utf8Length front]? = some byte) : char = ascii := by
  obtain ⟨first, more, encoded⟩ := utf8EncodeChar_split char
  rw [encodeUtf8_append, encodeUtf8_cons, ← length_encodeUtf8, List.getElem?_append_right (Nat.le_refl _), Nat.sub_self,
    encoded] at h
  cases h
  have one := decodeChar_append char []
  have other := decodeChar_append ascii more
  rw [encoded, append_nil] at one
  rw [single] at other
  exact Option.some.inj (one.symm.trans other)

theorem first_byte {byte : UInt8} (single : String.utf8EncodeChar char = [byte]) :
    (encodeUtf8 (front ++ char :: back))[utf8Length front]? = some byte := by
  rw [encodeUtf8_append, encodeUtf8_cons, ← length_encodeUtf8, List.getElem?_append_right (Nat.le_refl _), Nat.sub_self,
    single]
  rfl

end

end Halcyon
