import Halcyon.Runnel.Rules

/-!
The shared region with both ends on it. A ghost history says what was published and what was consumed so
far; the counters are its lengths, modulo 2^64, and the ring holds what lies between.
-/

namespace Halcyon.Runnel

/-- The cells of the mapping, and the bytes that have changed hands on either side. -/
structure Ring where
  half : Nat → UInt32
  word : Nat → UInt64
  byte : Nat → UInt8
  published : Bytes
  consumed : Bytes

structure Replies where
  notified : Except SystemCallError Unit
  acknowledged : Except SystemCallError Unit
  waited : Except SystemCallError (Option Bool)

def Ring.perform (replies : Replies) : (op : Op) → Ring → Op.Answer op × Ring
  | .load32 offset, ring => (ring.half offset, ring)
  | .load64 offset, ring => (ring.word offset, ring)
  | .store32 offset value, ring => ((), { ring with half := Function.update ring.half offset value })
  | .store64 offset value, ring => ((), { ring with word := Function.update ring.word offset value })
  | .publish offset value moved, ring =>
    ((), { ring with
      word := Function.update ring.word offset value
      published := if offset = headOffset then ring.published ++ moved else ring.published
      consumed := if offset = tailOffset then ring.consumed ++ moved else ring.consumed })
  | .readByte offset, ring => (ring.byte offset, ring)
  | .writeByte offset value, ring => ((), { ring with byte := Function.update ring.byte offset value })
  | .notify, ring => (replies.notified, ring)
  | .acknowledge, ring => (replies.acknowledged, ring)
  | .wait _, ring => (replies.waited, ring)

theorem Ring.perform_head (replies : Replies) (value : UInt64) (moved : Bytes) (ring : Ring) :
    Ring.perform replies (.publish headOffset value moved) ring =
      ((), { ring with word := Function.update ring.word headOffset value, published := ring.published ++ moved }) := rfl

theorem Ring.perform_tail (replies : Replies) (value : UInt64) (moved : Bytes) (ring : Ring) :
    Ring.perform replies (.publish tailOffset value moved) ring =
      ((), { ring with word := Function.update ring.word tailOffset value, consumed := ring.consumed ++ moved }) := rfl

/-- A mapping of an accepted size, with the counter and the cursor its history began at. -/
structure Place where
  bytes : Nat
  counter : UInt64
  cursor : Nat
  accepted : Channel.acceptedSize bytes = true

def Place.capacity (place : Place) : Nat := place.bytes - headerBytes

def Place.slot (place : Place) (index : Nat) : Nat := headerBytes + (place.cursor + index) % place.capacity

/-- The counters count the history and the ring holds what is between them. -/
structure Sound (place : Place) (ring : Ring) : Prop where
  format : ring.half 0 = magic ∧ ring.half 4 = versionHeader ∧ ring.half 0x2c = 0
  sizes : ring.word 8 = .ofNat place.bytes ∧ ring.word 0x10 = .ofNat place.capacity
  head : ring.word headOffset = place.counter + .ofNat ring.published.length
  tail : ring.word tailOffset = place.counter + .ofNat ring.consumed.length
  taken : ring.consumed <+: ring.published
  room : ring.published.length ≤ ring.consumed.length + place.capacity
  stored : ∀ index, ring.consumed.length ≤ index → index < ring.published.length →
    ring.published[index]? = some (ring.byte (place.slot index))
  eof : ring.half eofOffset = 0 ∨ ring.half eofOffset = 1

theorem Sound.flag {place : Place} {ring : Ring} (sound : Sound place ring) : ¬1 < ring.half eofOffset := by
  obtain open' | ended := sound.eof
  · rw [open']
    decide
  · rw [ended]
    decide

/-- What a producer may do: publish more, until it has ended the stream. -/
structure Produces (s t : Ring) : Prop where
  half : ∀ offset, offset ≠ eofOffset → t.half offset = s.half offset
  word : ∀ offset, offset ≠ headOffset → t.word offset = s.word offset
  consumed : t.consumed = s.consumed
  published : s.published <+: t.published
  ended : s.half eofOffset = 1 → t.half eofOffset = 1 ∧ t.published = s.published

structure Consumes (s t : Ring) : Prop where
  half : t.half = s.half
  word : ∀ offset, offset ≠ tailOffset → t.word offset = s.word offset
  byte : t.byte = s.byte
  published : t.published = s.published
  consumed : s.consumed <+: t.consumed

theorem Produces.refl (s : Ring) : Produces s s :=
  ⟨fun _ _ => rfl, fun _ _ => rfl, rfl, List.prefix_rfl, fun ended => ⟨ended, rfl⟩⟩

theorem Produces.trans (s t u : Ring) (first : Produces s t) (second : Produces t u) : Produces s u := by
  refine ⟨fun offset other => (second.half offset other).trans (first.half offset other),
    fun offset other => (second.word offset other).trans (first.word offset other), second.consumed.trans first.consumed,
    first.published.trans second.published, fun ended => ?_⟩
  obtain ⟨ended, same⟩ := first.ended ended
  obtain ⟨ended, same'⟩ := second.ended ended
  exact ⟨ended, same'.trans same⟩

theorem Consumes.refl (s : Ring) : Consumes s s := ⟨rfl, fun _ _ => rfl, rfl, rfl, List.prefix_rfl⟩

theorem Consumes.trans (s t u : Ring) (first : Consumes s t) (second : Consumes t u) : Consumes s u :=
  ⟨second.half.trans first.half, fun offset other => (second.word offset other).trans (first.word offset other),
    second.byte.trans first.byte, second.published.trans first.published, first.consumed.trans second.consumed⟩

def Drained (ring : Ring) : Prop := ring.half eofOffset = 1 ∧ ring.consumed = ring.published

theorem Drained.produces {s t : Ring} (h : Drained s) (others : Produces s t) : Drained t := by
  obtain ⟨ended, all⟩ := h
  obtain ⟨ended', same⟩ := others.ended ended
  exact ⟨ended', by rw [others.consumed, all, same]⟩

/-- One end on the ring, with what the other end may do and what this one may do. -/
abbrev sharing (place : Place) (rely guarantee : Ring → Ring → Prop) (refl : ∀ s, rely s s)
    (trans : ∀ s t u, rely s t → rely t u → rely s u) : Setting Transport Ring where
  inv := Sound place
  rely := rely
  guarantee := guarantee
  duty _ _ := True
  may op s answer t := ∃ replies, Ring.perform replies op s = (answer, t)
  rely_refl := refl
  rely_trans := trans

/-- What a call of a producer does: it ends the stream only if it is one that may, and publishes nothing but
the bytes it was given. -/
structure Works (ends : Prop) (limit : Bytes) (s t : Ring) : Prop where
  produces : Produces s t
  eof : t.half eofOffset = s.half eofOffset ∨ ends
  limited : t.published = s.published ∨ t.published <+: limit

theorem Works.refl {ends : Prop} {limit : Bytes} (s : Ring) : Works ends limit s s := ⟨Produces.refl s, .inl rfl, .inl rfl⟩

abbrev producing (place : Place) (ends : Prop) (limit : Bytes) : Setting Transport Ring :=
  sharing place Consumes (Works ends limit) Consumes.refl Consumes.trans

abbrev consuming (place : Place) : Setting Transport Ring := sharing place Produces Consumes Produces.refl Produces.trans

section Accesses

variable {place : Place} {rely guarantee : Ring → Ring → Prop} {refl : ∀ s, rely s s}
  {trans : ∀ s t u, rely s t → rely t u → rely s u} {α ε S β : Type} {core : S} {s : Ring}

theorem sharing_quiet {op : Op} (kept : ∀ s, guarantee s s) (still : ∀ replies s, (Ring.perform replies op s).2 = s) :
    Quiet (sharing place rely guarantee refl trans) op := by
  refine ⟨fun _ _ => trivial, ?_, kept⟩
  rintro t answer u ⟨replies, does⟩
  rw [← still replies t, does]

variable {Q : Outcome ε β × S → Ring → Prop}

theorem sharing_load32 {offset : Nat} {f : UInt32 → Routine Transport ε S β} (kept : ∀ s, guarantee s s)
    (later : ∀ t, rely s t → Sound place t → Safe (sharing place rely guarantee refl trans) Q (f (t.half offset) core) t) :
    Safe (sharing place rely guarantee refl trans) Q ((load32 offset >>= f) core) s := by
  refine safe_quiet (sharing_quiet kept fun _ _ => rfl) fun t answer others sound does => ?_
  obtain ⟨replies, same⟩ := does
  cases same
  exact later t others sound

theorem sharing_load64 {offset : Nat} {f : UInt64 → Routine Transport ε S β} (kept : ∀ s, guarantee s s)
    (later : ∀ t, rely s t → Sound place t → Safe (sharing place rely guarantee refl trans) Q (f (t.word offset) core) t) :
    Safe (sharing place rely guarantee refl trans) Q ((load64 offset >>= f) core) s := by
  refine safe_quiet (sharing_quiet kept fun _ _ => rfl) fun t answer others sound does => ?_
  obtain ⟨replies, same⟩ := does
  cases same
  exact later t others sound

end Accesses

namespace Place

variable (place : Place)

theorem capacity_pos : 0 < place.capacity :=
  Nat.sub_pos_of_lt (Nat.lt_of_lt_of_le (by decide) (acceptedSize_bounds place.accepted).1)

theorem capacity_small : place.capacity + headerBytes ≤ 2 ^ 21 := by
  have bounds := acceptedSize_bounds place.accepted
  rw [tunnelMaxPages] at bounds
  rw [capacity, headerBytes]
  omega

theorem slot_at {cursor moved : Nat} (here : cursor = (place.cursor + moved) % place.capacity) (k : Nat) :
    headerBytes + (cursor + k) % place.capacity = place.slot (moved + k) := by
  rw [here, Nat.mod_add_mod, Nat.add_assoc, slot]

section

variable {moved bytes : Bytes} {count : Nat} (all : bytes.length = count)
include all

/-- The cursor of an end that has moved bytes goes on over the next ones. -/
theorem turned {ε : Type} {cursor capacity : Nat} (full : capacity = place.capacity)
    (here : cursor = (place.cursor + moved.length) % place.capacity) (few : count ≤ place.capacity) :
    (do remainder (← add cursor count) capacity : Outcome ε Nat) =
      .ok ((place.cursor + (moved ++ bytes).length) % place.capacity) := by
  have small := place.capacity_small
  have inside := Nat.mod_lt (place.cursor + moved.length) place.capacity_pos
  rw [here, full, add_returns (by rw [usizeMax]; omega), ok_bind, remainder_returns place.capacity_pos.ne', Nat.mod_add_mod,
    List.length_append, all, Nat.add_assoc]

theorem counted {word : UInt64} (here : word = place.counter + .ofNat moved.length) :
    word + .ofNat count = place.counter + .ofNat (moved ++ bytes).length := by
  rw [here, List.length_append, all, UInt64.ofNat_add, UInt64.add_assoc]

end

theorem slot_ne {place : Place} {low high : Nat} (below : low < high) (near : high < low + place.capacity) :
    place.slot low ≠ place.slot high := by
  intro same
  have even := (Nat.add_left_cancel same).symm
  have divides := Nat.dvd_of_mod_eq_zero (Nat.sub_mod_eq_zero_of_mod_eq even)
  have small := Nat.eq_zero_of_dvd_of_lt divides (by omega)
  omega

end Place

theorem counter_sub (counter : UInt64) {low high : Nat} (ordered : low ≤ high) (near : high - low < 2 ^ 64) :
    (counter + .ofNat high - (counter + .ofNat low)).toNat = high - low := by
  have bound := counter.toNat_lt
  rw [UInt64.toNat_sub, UInt64.toNat_add, UInt64.toNat_add, UInt64.toNat_ofNat', UInt64.toNat_ofNat']
  omega

end Halcyon.Runnel
