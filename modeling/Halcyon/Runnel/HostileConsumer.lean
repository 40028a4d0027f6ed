import Halcyon.Runnel.ConsumerCalls
import Halcyon.Runnel.HostileProducer

/-! A consumer whose peer may put anything anywhere at any time. -/

namespace Halcyon.Runnel

open Channel Routine List

theorem sub_advance {head tail : UInt64} {count : Nat} (within : count ≤ (head - tail).toNat) :
    (head - (tail + .ofNat count)).toNat = (head - tail).toNat - count := by
  have left := head.toNat_lt
  have right := tail.toNat_lt
  rw [UInt64.toNat_sub] at within ⊢
  rw [UInt64.toNat_sub, UInt64.toNat_add, UInt64.toNat_ofNat']
  omega

/-- What the private state of a consumer meets after it has moved some bytes. An end that it has seen stays. -/
structure ConsumerFit (place : Place) (seen : Option UInt64) (core : ConsumerCore) (own : Own) : Prop where
  capacity : core.channel.capacity = place.capacity
  cursor : core.cursor = (place.cursor + own.moved.length) % place.capacity
  window : (core.headShadow - core.tail).toNat ≤ place.capacity
  tail : core.tail = own.counter
  counter : own.counter = place.counter + .ofNat own.moved.length
  final : ∀ head, core.eofHead = some head → core.headShadow = head
  kept : ∀ head, seen = some head → core.eofHead = some head

abbrev hostileConsumer (place : Place) (seen : Option UInt64) : ConsumerView Own where
  At := ConsumerFit place seen
  Offered core bytes _ := bytes ≤ (core.headShadow - core.tail).toNat ∧ (core.headShadow - core.tail).toNat ≤ place.capacity
  Ended _ := True
  taken := Own.moved
  capacity := place.capacity
  excuse := True

variable {place : Place} {seen : Option UInt64} {core : ConsumerCore} {reader : Reader} {own : Own} {base : Bytes}
  {length start count : Nat}

theorem hostileConsumer_stands : (hostileConsumer place seen).Stands (tracking place tailOffset) where
  stable := by
    rintro _ _ _ rfl fit
    exact fit
  offeredStable _ h := h
  endedStable _ h := h
  kept := by
    rintro _ _ rfl
    rfl
  broken _ _ := trivial
  rechannel fit same _ := ⟨same.trans fit.capacity, fit.cursor, fit.window, fit.tail, fit.counter, fit.final, fit.kept⟩
  flags fit _ _ := ⟨fit.capacity, fit.cursor, fit.window, fit.tail, fit.counter, fit.final, fit.kept⟩
  few _ h := Nat.le_trans h.1 h.2
  fewer h less := ⟨Nat.le_trans less h.1, h.2⟩
  offered _ fit := ⟨Nat.le_refl _, fit.window⟩
  ended _ _ _ := trivial
  notify := tracking_quiet (fun _ => trivial) fun _ _ => rfl
  acknowledge := tracking_quiet (fun _ => trivial) fun _ _ => rfl
  wait _ := tracking_quiet (fun _ => trivial) fun _ _ => rfl

theorem hostile_accept {eof : UInt32} {head : UInt64} (resting : Resting (hostileConsumer place seen) base core own)
    (ended : core.eofHead.isSome = true → eof = 1) :
    Calls (tracking place tailOffset) (Balked (hostileConsumer place seen) base)
      (fun head core' t => Resting (hostileConsumer place seen) base core' t ∧ head = core'.headShadow)
      (ConsumerCore.accept eof head core) own := by
  obtain ⟨capacity, cursor, window, tail, counter, final, kept⟩ := resting.at'
  unfold ConsumerCore.accept
  rw [get_bind, lift_bind (subtract_returns (capacity.symm ▸ window))]
  refine safe_ite (fun _ => hostileConsumer_stands.fails _ resting fun _ => trivial) fun near => ?_
  rw [modify_bind]
  have small := place.capacity_small
  have apart : ¬UInt64.ofNat core.channel.capacity < head - core.tail := by
    intro wide
    exact near (by rw [decide_eq_true wide, Bool.or_true, Bool.true_or])
  have same : ∀ final, core.eofHead = some final → head = final := by
    intro final isFinal
    by_contra other
    exact near (by rw [isFinal]; simp [other])
  have close := capacity ▸ toNat_le_of_not_lt (by omega) apart
  refine tracking_ret ⟨⟨⟨capacity, cursor, close, tail, counter, fun last isLast => ?_, fun last isSeen => ?_⟩, resting.taken⟩, rfl⟩
  · simp only at isLast
    split at isLast
    · exact Option.some.inj isLast
    · exact same last isLast
  · have isLast := kept last isSeen
    have one : eof = 1 := ended (by rw [isLast]; rfl)
    simp only [one, if_pos, same last isLast]

theorem hostile_refresh (resting : Resting (hostileConsumer place seen) base core own) :
    Calls (tracking place tailOffset) (Balked (hostileConsumer place seen) base)
      (fun head core' t => Resting (hostileConsumer place seen) base core' t ∧ head = core'.headShadow)
      (ConsumerCore.refresh core) own := by
  unfold ConsumerCore.refresh
  refine safe_then trivial (hostileConsumer_stands.inChannel trivial resting (check_safe _ _)) ?_
  rintro _ core own - ⟨rfl, resting⟩
  have fails {Q : UInt64 → ConsumerCore → Own → Prop} := hostileConsumer_stands.fails (Q := Q) .broken resting fun _ => trivial
  rw [get_bind]
  refine tracking_ask trivial fun eof => tracking_ask trivial fun head => safe_ite (fun _ => fails) fun flagged => ?_
  refine tracking_ask trivial fun tail => safe_ite (fun _ => fails) fun _ => hostile_accept resting ?_
  intro some
  by_contra other
  exact flagged (by rw [some]; simp [other])

theorem hostile_take (took : Took (hostileConsumer place seen) base length start reader own)
    (offered : (hostileConsumer place seen).Offered reader.core count own) (fits : start + count ≤ length) :
    Calls (tracking place tailOffset) (Halted (hostileConsumer place seen) base length start)
      (fun _ => Took (hostileConsumer place seen) base length (start + count)) (Reader.take start count reader) own := by
  obtain ⟨capacity, cursor, window, tail, counter, final, kept⟩ := took.at'
  have few := Nat.le_trans offered.1 offered.2
  have small := place.capacity_small
  have inside := cursor ▸ Nat.mod_lt _ place.capacity_pos
  unfold Reader.take
  rw [get_bind]
  refine safe_bind (Q := fun bytes reader' t => reader' = reader ∧ bytes.length = count ∧
    t = { own with moved := own.moved ++ bytes }) (E := fun _ _ _ => False) trivial ?_ ?_ fun _ _ _ _ => False.elim
  · refine safe_zoom trivial (safe_zoom trivial (safe_mono (copyOut_safe
      (J := fun bytes t => t = { own with moved := own.moved ++ bytes }) ?_ (capacity ▸ inside) (by rwa [capacity]) trivial ?_
      ⟨?_, ?_⟩) ?_ fun _ _ _ _ => id))
    · rw [capacity, usizeMax]
      omega
    · rw [append_nil]
    · rintro bytes t _ rfl same
      exact same
    · rintro bytes t - - rfl
      refine ⟨⟨?_, rfl⟩, fun byte u does => ⟨trivial, trivial, ?_⟩⟩
      · rw [length_append, capacity, place.slot_at cursor]
      · rw [show u = _ from does, Own.after, append_assoc]
    · rintro bytes channel t - ⟨rfl, all, same⟩
      exact ⟨rfl, all, same⟩
  · rintro bytes reader own' - ⟨rfl, all, rfl⟩
    rw [lift_bind (place.turned all capacity cursor few), modify_bind]
    refine tracking_ask rfl fun _ => hostileConsumer_stands.notifies trivial (took.filled fits all
      ⟨capacity, rfl, ?_, rfl, ?_, final, kept⟩ rfl)
    · exact Nat.le_trans (Nat.le_of_eq (sub_advance offered.1)) (Nat.le_trans (Nat.sub_le _ _) window)
    · exact place.counted all (tail.trans counter)

theorem hostileConsumer_rules : (hostileConsumer place seen).Rules (tracking place tailOffset) where
  toStands := hostileConsumer_stands
  refresh _ := hostile_refresh
  take _ := hostile_take

end Halcyon.Runnel
