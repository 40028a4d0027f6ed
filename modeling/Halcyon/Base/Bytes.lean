import Halcyon.Base.Word

/-!
Byte strings: slices with the checks the compiled code makes, and fixed-width numbers in both byte
orders.
-/

namespace Halcyon

open List

section

abbrev Bytes := List UInt8

section Slices

variable {ε α : Type}

/-- `items.get(start..stop)`. -/
def slice? (items : List α) (start stop : Nat) : Option (List α) :=
  if start ≤ stop ∧ stop ≤ items.length then some ((items.take stop).drop start) else none

/-- `items[start..stop]`; a range that is not inside the slice panics. -/
def slice (items : List α) (start stop : Nat) : Outcome ε (List α) :=
  expect "slice index out of range" (slice? items start stop)

variable {items middle : List α} {start stop : Nat}

theorem slice?_some (h : slice? items start stop = some middle) :
    start ≤ stop ∧ stop ≤ items.length ∧ middle = (items.take stop).drop start := by
  unfold slice? at h
  split at h
  · rename_i inside
    cases h
    exact ⟨inside.1, inside.2, rfl⟩
  · cases h

theorem slice_ok (h : (slice items start stop : Outcome ε (List α)) = .ok middle) :
    start ≤ stop ∧ stop ≤ items.length ∧ middle = (items.take stop).drop start :=
  slice?_some (expect_ok h)

theorem slice_returns (ordered : start ≤ stop) (inside : stop ≤ items.length) :
    (slice items start stop : Outcome ε (List α)) = .ok ((items.take stop).drop start) := by
  rw [slice, slice?, if_pos ⟨ordered, inside⟩]
  rfl

theorem slice_length (h : (slice items start stop : Outcome ε (List α)) = .ok middle) :
    middle.length = stop - start := by
  obtain ⟨_, inside, rfl⟩ := slice_ok h
  rw [length_drop, length_take, Nat.min_eq_left inside]

theorem slice_append (before middle after : List α) :
    (slice (before ++ middle ++ after) before.length (before.length + middle.length) : Outcome ε (List α)) =
      .ok middle := by
  rw [slice_returns (Nat.le_add_right _ _) (by simp), ← length_append, take_left, drop_left]

theorem slice_getElem? {index : Nat} (h : (slice items start stop : Outcome ε (List α)) = .ok middle) (from' : start ≤ index)
    (below : index < stop) : items[index]? = middle[index - start]? := by
  obtain ⟨_, _, rfl⟩ := slice_ok h
  rw [List.getElem?_drop, Nat.add_sub_cancel' from', List.getElem?_take_of_lt below]

end Slices

/-- `from_le_bytes`. -/
def littleEndian : Bytes → Nat
  | [] => 0
  | byte :: rest => byte.toNat + 256 * littleEndian rest

/-- `to_le_bytes` of a number of `width` bytes. -/
def littleBytes : Nat → Nat → Bytes
  | 0, _ => []
  | width + 1, value => UInt8.ofNat (value % 256) :: littleBytes width (value / 256)

/-- `from_be_bytes`. -/
def bigEndian (bytes : Bytes) : Nat := littleEndian bytes.reverse

variable {ε : Type} {bytes : Bytes} {width value offset : Nat}

def littleAt (width : Nat) (bytes : Bytes) (offset : Nat) : Outcome ε Nat :=
  littleEndian <$> slice bytes offset (offset + width)

theorem littleEndian_lt (bytes : Bytes) : littleEndian bytes < 256 ^ bytes.length := by
  induction bytes with
  | nil => decide
  | cons byte =>
    have small := byte.toNat_lt
    rw [littleEndian, length_cons, Nat.pow_succ]
    omega

@[simp] theorem length_littleBytes : (littleBytes width value).length = width := by
  induction width generalizing value with
  | zero => rfl
  | succ _ ih => rw [littleBytes, length_cons, ih]

theorem littleEndian_littleBytes (fits : value < 256 ^ width) : littleEndian (littleBytes width value) = value := by
  induction width generalizing value with
  | zero =>
    have zero : value = 0 := by simpa using fits
    subst value
    rfl
  | succ width ih =>
    have rest : value / 256 < 256 ^ width := by
      rw [Nat.pow_succ] at fits
      exact Nat.div_lt_of_lt_mul (by omega)
    have byte : (UInt8.ofNat (value % 256)).toNat = value % 256 := by
      rw [UInt8.toNat_ofNat']
      omega
    rw [littleBytes, littleEndian, ih rest, byte]
    omega

theorem littleBytes_littleEndian (bytes : Bytes) : littleBytes bytes.length (littleEndian bytes) = bytes := by
  induction bytes with
  | nil => rfl
  | cons byte rest ih =>
    have small := byte.toNat_lt
    have low : (byte.toNat + 256 * littleEndian rest) % 256 = byte.toNat := by omega
    have high : (byte.toNat + 256 * littleEndian rest) / 256 = littleEndian rest := by omega
    rw [length_cons, littleEndian, littleBytes, low, high, ih, UInt8.ofNat_toNat]

theorem littleAt_returns (inside : offset + width ≤ bytes.length) : (littleAt width bytes offset : Outcome ε Nat) =
      .ok (littleEndian ((bytes.take (offset + width)).drop offset)) := by
  rw [littleAt, slice_returns (Nat.le_add_right _ _) inside]
  rfl

end

/-! Records in memory: little-endian fields one after the other, each of its own width. -/

section

def encodeFields : List Nat → List Nat → Bytes
  | width :: widths, value :: values => littleBytes width value ++ encodeFields widths values
  | _, _ => []

def decodeFields : List Nat → Bytes → List Nat
  | [], _ => []
  | width :: widths, bytes => littleEndian (bytes.take width) :: decodeFields widths (bytes.drop width)

def FieldsFit : List Nat → List Nat → Prop := List.Forall₂ fun width value => value < 256 ^ width

variable {widths values : List Nat}

theorem length_encodeFields (fit : FieldsFit widths values) : (encodeFields widths values).length = widths.sum := by
  induction fit with
  | nil => rfl
  | cons _ _ ih => rw [encodeFields, length_append, length_littleBytes, ih, sum_cons]

theorem decodeFields_encodeFields (fit : FieldsFit widths values) (rest : Bytes) :
    decodeFields widths (encodeFields widths values ++ rest) = values := by
  induction fit with
  | nil => rfl
  | cons fits _ ih =>
    rename_i width value widths values _
    have front : (littleBytes width value ++ (encodeFields widths values ++ rest)).take width = littleBytes width value := by
      rw [take_append_of_le_length (by simp), take_of_length_le (by simp)]
    have back : (littleBytes width value ++ (encodeFields widths values ++ rest)).drop width =
        encodeFields widths values ++ rest := by
      rw [drop_append_of_le_length (by simp), drop_of_length_le (by simp), nil_append]
    rw [encodeFields, append_assoc, decodeFields, front, back, littleEndian_littleBytes fits, ih]

end

/-! Calls that do not panic: each kind of step, and the checks that let the next one go on. -/

section

abbrev Calm {ε α : Type} (x : Outcome ε α) : Prop := Avoids Stop.IsPanic x

variable {ε α : Type}

theorem calm_returns {x : Outcome ε α} {value : α} (h : x = .ok value) : Calm x := by
  subst h
  exact avoids_ok value

theorem calm_fail (reason : ε) : Calm (fail reason : Outcome ε α) := avoids_fail id

theorem calm_refuseIf (test : Bool) (reason : ε) : Calm (refuseIf test reason) := avoids_refuseIf id

theorem calm_okOr (reason : ε) (found : Option α) : Calm (okOr reason found) := avoids_okOr id

theorem calm_check {test : Bool} {reason : ε} {f : Unit → Outcome ε α} (rest : test = false → Calm (f ())) :
    Calm (refuseIf test reason >>= f) := (calm_refuseIf test reason).bind fun _ passed => rest (refuseIf_ok passed)

theorem calm_littleAt {bytes : Bytes} {width offset : Nat} (inside : offset + width ≤ bytes.length) :
    Calm (littleAt width bytes offset : Outcome ε Nat) := calm_returns (littleAt_returns inside)

theorem calm_slice {bytes : Bytes} {start stop : Nat} (ordered : start ≤ stop) (inside : stop ≤ bytes.length) :
    Calm (slice bytes start stop : Outcome ε Bytes) := calm_returns (slice_returns ordered inside)

theorem calm_mapError {δ : Type} {f : ε → δ} {x : Outcome ε α} (calm : Calm x) : Calm (mapError f x) :=
  avoids_mapError calm (fun _ => id) fun _ _ => trivial

end

/-!
Numbers in ULEB128: seven bits a byte, the least significant first, and a high bit on every byte but the
last.
-/

section

/-- Every byte but the last has its high bit set. -/
def IsUleb : Bytes → Prop
  | [] => False
  | [last] => last.toNat < 128
  | byte :: next :: rest => 128 ≤ byte.toNat ∧ IsUleb (next :: rest)

def ulebNumber : Bytes → Nat
  | [] => 0
  | byte :: rest => byte.toNat % 128 + 128 * ulebNumber rest

/-- The number of at most so many bytes at the front. -/
def takeUleb : Nat → Bytes → Option Bytes
  | 0, _ => none
  | _ + 1, [] => none
  | most + 1, byte :: rest => if byte.toNat < 128 then some [byte] else (byte :: ·) <$> takeUleb most rest

variable {code bytes rest : Bytes} {most : Nat}

instance : DecidablePred IsUleb := go
where
  go : (bytes : Bytes) → Decidable (IsUleb bytes)
    | [] => .isFalse id
    | [last] => inferInstanceAs (Decidable (last.toNat < 128))
    | byte :: next :: rest =>
      have := go (next :: rest)
      inferInstanceAs (Decidable (128 ≤ byte.toNat ∧ IsUleb (next :: rest)))

theorem IsUleb.ne_nil (h : IsUleb code) : code ≠ [] := by
  rintro rfl
  exact h

theorem IsUleb.length_pos (h : IsUleb code) : 0 < code.length := length_pos_iff.mpr h.ne_nil

theorem isUleb_cons {byte : UInt8} (high : 128 ≤ byte.toNat) (h : IsUleb code) : IsUleb (byte :: code) := by
  cases code with
  | nil => exact h.elim
  | cons => exact ⟨high, h⟩

theorem takeUleb_some (h : takeUleb most bytes = some code) :
    IsUleb code ∧ code.length ≤ most ∧ ∃ rest, bytes = code ++ rest := by
  induction most generalizing bytes code with
  | zero => cases h
  | succ most ih =>
    cases bytes with
    | nil => cases h
    | cons byte rest =>
      rw [takeUleb] at h
      split at h
      · rename_i low
        cases h
        exact ⟨low, Nat.succ_le_succ (Nat.zero_le most), rest, rfl⟩
      · rename_i high
        rw [Option.map_eq_map, Option.map_eq_some_iff] at h
        obtain ⟨tail, taken, rfl⟩ := h
        obtain ⟨uleb, short, after, rfl⟩ := ih taken
        exact ⟨isUleb_cons (Nat.le_of_not_lt high) uleb, Nat.succ_le_succ short, after, rfl⟩

theorem takeUleb_append (h : IsUleb code) (short : code.length ≤ most) : takeUleb most (code ++ rest) = some code := by
  induction code generalizing most with
  | nil => exact h.elim
  | cons _ tail ih =>
    cases most with
    | zero => cases short
    | succ =>
      rw [cons_append, takeUleb]
      cases tail with
      | nil => exact if_pos h
      | cons =>
        rw [if_neg (Nat.not_lt.mpr h.1), ih h.2 (Nat.le_of_succ_le_succ short)]
        rfl

theorem takeUleb_long (h : IsUleb code) (long : most < code.length) : takeUleb most (code ++ rest) = none := by
  cases taken : takeUleb most (code ++ rest) with
  | none => rfl
  | some other =>
    obtain ⟨uleb, _, _, split⟩ := takeUleb_some taken
    have whole : ∀ n, code.length ≤ n → other.length ≤ n → code = other := by
      intro n enough enough'
      have first : takeUleb n (code ++ rest) = some code := takeUleb_append h enough
      rw [split, takeUleb_append uleb enough'] at first
      exact (Option.some.inj first).symm
    have same := whole (code.length + other.length) (Nat.le_add_right _ _) (Nat.le_add_left _ _)
    subst same
    omega

end

end Halcyon
