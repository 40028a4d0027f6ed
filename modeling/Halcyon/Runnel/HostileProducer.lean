import Halcyon.Runnel.ProducerCalls
import Halcyon.Runnel.Ring

/-!
A producer whose peer may put anything anywhere at any time: every load answers an arbitrary value. What counts is the
producer's own counter, as it last published it, and the bytes it has moved.
-/

namespace Halcyon.Runnel

open ProducerCore Channel Routine List

def Allowed (bytes ownOffset : Nat) : Op → Prop
  | .readByte offset => headerBytes ≤ offset ∧ offset < bytes
  | .writeByte offset _ => headerBytes ≤ offset ∧ offset < bytes
  | .publish offset _ _ => offset = ownOffset
  | .store32 offset _ => offset = eofOffset
  | .store64 _ _ => False
  | _ => True

def ownAfter (own : UInt64) : Op → UInt64
  | .publish _ value _ => value
  | _ => own

abbrev hostile (bytes ownOffset : Nat) : Setting Transport UInt64 where
  inv _ := True
  rely s t := s = t
  guarantee _ _ := True
  duty op _ := Allowed bytes ownOffset op
  may op s _ t := t = ownAfter s op
  rely_refl _ := rfl
  rely_trans _ _ _ first second := first.trans second

/-- The own counter, as it was last published, and the bytes that were put into the ring or taken out of it. -/
structure Own where
  counter : UInt64
  moved : Bytes

def Own.after (own : Own) : (op : Op) → Op.Answer op → Own
  | .publish _ value _, _ => { own with counter := value }
  | .writeByte _ byte, _ => { own with moved := own.moved ++ [byte] }
  | .readByte _, byte => { own with moved := own.moved ++ [byte] }
  | .load32 _, _ | .load64 _, _ | .store32 _ _, _ | .store64 _ _, _ | .notify, _ | .acknowledge, _ | .wait _, _ => own

/-- Every byte is moved where the ring goes on, into it by a producer and out of it by a consumer. -/
def Orderly (place : Place) (ownOffset : Nat) (own : Own) : Op → Prop
  | .readByte offset => offset = place.slot own.moved.length ∧ ownOffset = tailOffset
  | .writeByte offset _ => offset = place.slot own.moved.length ∧ ownOffset = headOffset
  | op => Allowed place.bytes ownOffset op

/-- The hostile peer again, with all that the end has moved so far. -/
abbrev tracking (place : Place) (ownOffset : Nat) : Setting Transport Own where
  inv _ := True
  rely s t := s = t
  guarantee _ _ := True
  duty op s := Orderly place ownOffset s op
  may op s answer t := t = s.after op answer
  rely_refl _ := rfl
  rely_trans _ _ _ first second := first.trans second

theorem Place.slot_inside (place : Place) (index : Nat) :
    headerBytes ≤ place.slot index ∧ place.slot index < place.bytes := by
  have inside := Nat.mod_lt (place.cursor + index) place.capacity_pos
  have size := (acceptedSize_bounds place.accepted).1
  unfold Place.capacity at inside
  unfold Place.slot Place.capacity
  rw [headerBytes] at *
  omega

theorem Orderly.allowed {place : Place} {ownOffset : Nat} {own : Own} {op : Op} (h : Orderly place ownOffset own op) :
    Allowed place.bytes ownOffset op := by
  cases op with
  | readByte offset | writeByte offset value => exact h.1.symm ▸ place.slot_inside _
  | _ => exact h

section Accesses

variable {place : Place} {ownOffset : Nat} {α : Type} {Q : α → Own → Prop} {own : Own}

theorem tracking_ask {op : Op} {rest : Op.Answer op → Program Transport α} (orderly : Orderly place ownOffset own op)
    (later : ∀ answer, Safe (tracking place ownOffset) Q (rest answer) (own.after op answer)) :
    Safe (tracking place ownOffset) Q (.ask op rest) own := by
  rintro t rfl -
  refine ⟨orderly, fun answer u does => ?_⟩
  obtain rfl : u = _ := does
  exact ⟨trivial, trivial, later answer⟩

theorem tracking_ret {value : α} (holds : Q value own) : Safe (tracking place ownOffset) Q (.ret value) own := by
  rintro t rfl -
  exact holds

theorem tracking_quiet {op : Op} (allowed : ∀ own, Orderly place ownOffset own op)
    (same : ∀ own answer, Own.after own op answer = own) : Quiet (tracking place ownOffset) op :=
  ⟨fun t _ => allowed t, fun t answer _ does => does.trans (same t answer), fun _ => trivial⟩

end Accesses

theorem advance_sub {head tail : UInt64} {count : Nat} (near : (head - tail).toNat + count < 2 ^ 64) :
    (head + .ofNat count - tail).toNat = (head - tail).toNat + count := by
  have left := head.toNat_lt
  have right := tail.toNat_lt
  rw [UInt64.toNat_sub] at near ⊢
  rw [UInt64.toNat_sub, UInt64.toNat_add, UInt64.toNat_ofNat']
  omega

/-- What the private state of a producer meets after it has moved some bytes. -/
structure ProducerFit (place : Place) (core : ProducerCore) (own : Own) : Prop where
  capacity : core.channel.capacity = place.capacity
  cursor : core.cursor = (place.cursor + own.moved.length) % place.capacity
  window : (core.head - core.tailShadow).toNat ≤ place.capacity
  head : core.head = own.counter
  counter : own.counter = place.counter + .ofNat own.moved.length

abbrev hostileProducer (place : Place) : ProducerView Own where
  At := ProducerFit place
  Room core room _ := room + (core.head - core.tailShadow).toNat ≤ place.capacity
  sent := Own.moved
  capacity := place.capacity
  excuse := True
  ends := True
  allowed _ := True

variable {place : Place} {core : ProducerCore} {own : Own} {base input : Bytes} {count room : Nat}

theorem hostileProducer_stands : (hostileProducer place).Stands (tracking place headOffset) where
  stable := by
    rintro _ _ _ rfl fit
    exact fit
  roomStable _ h := h
  kept := by
    rintro _ _ rfl
    rfl
  broken _ _ := trivial
  rechannel fit same _ := ⟨same.trans fit.capacity, fit.cursor, fit.window, fit.head, fit.counter⟩
  established fit := ⟨fit.capacity, fit.cursor, fit.window, fit.head, fit.counter⟩
  full fit := fit.capacity
  few _ _ room := Nat.le_trans (Nat.le_add_right _ _) room
  notify := tracking_quiet (fun _ => trivial) fun _ _ => rfl
  acknowledge := tracking_quiet (fun _ => trivial) fun _ _ => rfl
  wait _ := tracking_quiet (fun _ => trivial) fun _ _ => rfl

section Rules

variable (wrote : Wrote (hostileProducer place) base input 0 core own)
include wrote

theorem hostile_writable : Calls (tracking place headOffset) (Stuck (hostileProducer place) base input)
      (HasRoom (hostileProducer place) base input core) (writable core) own := by
  unfold writable
  refine safe_then trivial (hostileProducer_stands.inChannel trivial wrote (check_safe _ _)) ?_
  rintro _ core own - ⟨rfl, wrote⟩
  rw [get_bind]
  have fails {Q : Nat → ProducerCore → Own → Prop} := hostileProducer_stands.fails (Q := Q) .broken wrote fun _ => trivial
  refine tracking_ask trivial fun head => safe_ite (fun _ => fails) fun _ => ?_
  refine tracking_ask trivial fun eof => safe_ite (fun _ => fails) fun _ => ?_
  refine tracking_ask trivial fun tail => safe_ite (fun _ => fails) fun near => ?_
  obtain ⟨capacity, cursor, window, head, counter⟩ := wrote.at'
  have close : (core.head - tail).toNat ≤ core.channel.capacity := by
    have small := place.capacity_small
    have apart : ¬UInt64.ofNat core.channel.capacity < core.head - tail := by
      intro wide
      exact near (by rw [decide_eq_true wide, Bool.or_true])
    exact toNat_le_of_not_lt (by omega) apart
  rw [modify_bind, lift, subtract_returns close]
  exact tracking_ret ⟨⟨⟨capacity, cursor, capacity ▸ close, head, counter⟩, wrote.bounded, wrote.sent⟩, rfl,
    Nat.le_of_eq ((Nat.sub_add_cancel close).trans capacity)⟩

theorem hostile_store (fits : count + (core.head - core.tailShadow).toNat ≤ place.capacity) (bounded : count ≤ input.length) :
    Calls (tracking place headOffset) (Stuck (hostileProducer place) base input)
      (fun _ core' t => core'.eof = core.eof ∧ Wrote (hostileProducer place) base input count core' t)
      (store (input.take count) core) own := by
  obtain ⟨⟨capacity, cursor, window, head, counter⟩, -, sent⟩ := wrote
  have small := place.capacity_small
  have positive := place.capacity_pos
  have length := length_take_of_le bounded
  have inside := cursor ▸ Nat.mod_lt _ positive
  unfold store
  rw [get_bind]
  refine safe_bind (Q := fun _ core' t => core' = core ∧ t = { own with moved := own.moved ++ input.take count })
    (E := fun _ _ _ => False) trivial ?_ ?_ fun _ _ _ _ => False.elim
  · refine safe_zoom trivial (safe_mono (copyIn_safe
      (J := fun k t => t = { own with moved := own.moved ++ (input.take count).take k }) ?_ (capacity ▸ inside) ?_ trivial ?_
      ⟨?_, ?_⟩) ?_ fun _ _ _ _ => id)
    · rw [capacity, usizeMax]
      omega
    · rw [length, capacity]
      omega
    · rw [take_zero, append_nil]
    · rintro k t _ rfl same
      exact same
    · rintro k byte t here - rfl
      have short := (List.getElem?_eq_some_iff.mp here).1
      refine ⟨⟨?_, rfl⟩, fun u does => ⟨trivial, trivial, ?_⟩⟩
      · rw [length_append, length_take_of_le (Nat.le_of_lt short), capacity, place.slot_at cursor]
      · rw [show u = _ from does, Own.after, take_add_one, here, append_assoc]
        rfl
    · rintro _ channel t - ⟨rfl, same⟩
      exact ⟨rfl, same.trans (by rw [take_length])⟩
  · rintro _ core own - ⟨rfl, rfl⟩
    rw [length, lift_bind (place.turned length capacity cursor (by omega)), modify_bind]
    refine tracking_ask rfl fun _ => safe_returns (hostileProducer_stands.notifies trivial ⟨⟨capacity, rfl, ?_, rfl, ?_⟩,
      bounded, ?_⟩) ?_
    · have moved : (core.head + .ofNat count - core.tailShadow).toNat = _ := advance_sub (by omega)
      have within : (core.head - core.tailShadow).toNat + count ≤ place.capacity := by omega
      exact Nat.le_trans (Nat.le_of_eq moved) within
    · exact place.counted length (head.trans counter)
    · show own.moved ++ input.take count = _
      rw [show own.moved = _ from sent, take_zero, append_nil]
    · rintro _ _ t - ⟨rfl, wrote⟩
      exact ⟨rfl, wrote⟩

end Rules

theorem hostileProducer_rules : (hostileProducer place).Rules (tracking place headOffset) where
  toStands := hostileProducer_stands
  writable _ := hostile_writable
  store _ wrote open' free less bounded _ := by
    have fits := Nat.le_trans (Nat.add_le_add_right less _) free
    exact safe_returns (hostile_store wrote fits bounded) fun _ _ _ _ stored => ⟨stored.1.trans open', stored.2⟩
  finish wrote _ := by
    obtain ⟨⟨capacity, cursor, window, head, counter⟩, bounded, sent⟩ := wrote
    refine tracking_ask rfl fun _ => safe_returns (hostileProducer_stands.notifies trivial
      ⟨⟨capacity, cursor, window, head, counter⟩, bounded, sent⟩) ?_
    rintro _ _ t - ⟨rfl, wrote⟩
    exact ⟨rfl, wrote⟩

end Halcyon.Runnel
