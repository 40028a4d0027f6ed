import Halcyon.Runnel.ConsumerCalls
import Halcyon.Runnel.Ring

/-! A consumer among the accesses of an honest producer. -/

namespace Halcyon.Runnel

open Routine List

/-- The consumer has seen so many bytes behind what it has consumed. -/
def Within (place : Place) (core : ConsumerCore) (bytes : Nat) (ring : Ring) : Prop :=
  ∃ seen, ring.consumed.length + bytes ≤ seen ∧ seen ≤ ring.published.length ∧ core.headShadow = place.counter + .ofNat seen

structure ConsumerAt (place : Place) (core : ConsumerCore) (ring : Ring) : Prop where
  capacity : core.channel.capacity = place.capacity
  unbroken : core.channel.terminal ≠ some .broken
  tail : core.tail = ring.word tailOffset
  cursor : core.cursor = (place.cursor + ring.consumed.length) % place.capacity
  shadow : Within place core 0 ring
  ended : ∀ head, core.eofHead = some head → ring.half eofOffset = 1 ∧ head = place.counter + .ofNat ring.published.length

abbrev reading (place : Place) : ConsumerView Ring where
  At := ConsumerAt place
  Offered := Within place
  Ended := Drained
  taken := Ring.consumed
  capacity := place.capacity
  excuse := False

variable {place : Place} {core : ConsumerCore} {reader : Reader} {s t : Ring} {base : Bytes} {length start count : Nat}

theorem Within.stable {bytes : Nat} (h : Within place core bytes s) (others : Produces s t) : Within place core bytes t := by
  obtain ⟨seen, least, most, isSeen⟩ := h
  exact ⟨seen, others.consumed ▸ least, Nat.le_trans most others.published.length_le, isSeen⟩

theorem Within.published {bytes : Nat} (h : Within place core bytes s) : s.consumed.length + bytes ≤ s.published.length := by
  obtain ⟨seen, least, most, -⟩ := h
  exact Nat.le_trans least most

section

variable (h : ConsumerAt place core s)
include h

theorem ConsumerAt.stable (others : Produces s t) : ConsumerAt place core t := by
  obtain ⟨capacity, unbroken, tail, cursor, shadow, ended⟩ := h
  refine ⟨capacity, unbroken, ?_, ?_, shadow.stable others, fun head known => ?_⟩
  · rw [tail, others.word tailOffset (by decide)]
  · rw [others.consumed, cursor]
  · obtain ⟨eof, isHead⟩ := ended head known
    obtain ⟨eof, same⟩ := others.ended eof
    exact ⟨eof, by rw [same, isHead]⟩

theorem ConsumerAt.rechannel {channel : Channel}
    (same : channel.capacity = core.channel.capacity) (unbroken : channel.terminal ≠ some .broken) :
    ConsumerAt place { core with channel } s :=
  ⟨same.trans h.capacity, unbroken, h.tail, h.cursor, h.shadow, h.ended⟩

theorem ConsumerAt.drained (sound : Sound place s) (known : core.eofHead = some core.tail) : Drained s := by
  obtain ⟨ended, isHead⟩ := h.ended core.tail known
  have small := place.capacity_small
  have taken := sound.taken.length_le
  have room := sound.room
  have apart := counter_sub place.counter taken (by omega)
  rw [← isHead, ← sound.tail, ← h.tail, UInt64.sub_self, UInt64.toNat_zero] at apart
  exact ⟨ended, sound.taken.eq_of_length_le (by omega)⟩

end

theorem reading_stands : (reading place).Stands (consuming place) where
  stable others h := h.stable others
  offeredStable others h := h.stable others
  endedStable others h := h.produces others
  kept others := others.consumed
  broken h := h.unbroken
  rechannel h := h.rechannel
  flags h _ _ := ⟨h.capacity, h.unbroken, h.tail, h.cursor, h.shadow, h.ended⟩
  few sound h := by
    have published := h.published
    have room := sound.room
    show _ ≤ place.capacity
    omega
  fewer h less := by
    obtain ⟨seen, least, most, isSeen⟩ := h
    exact ⟨seen, by omega, most, isSeen⟩
  offered sound h := by
    obtain ⟨seen, least, most, isSeen⟩ := h.shadow
    have small := place.capacity_small
    have room := sound.room
    refine ⟨seen, ?_, most, isSeen⟩
    rw [Nat.add_zero] at least
    rw [isSeen, h.tail, sound.tail, counter_sub place.counter least (by omega)]
    omega
  ended sound h := h.drained sound
  notify := sharing_quiet Consumes.refl fun _ _ => rfl
  acknowledge := sharing_quiet Consumes.refl fun _ _ => rfl
  wait _ := sharing_quiet Consumes.refl fun _ _ => rfl

theorem reading_accept {eof : UInt32} {before seen : Nat} (resting : Resting (reading place) base core s) (sound : Sound place s)
    (least : s.consumed.length ≤ before) (isBefore : core.headShadow = place.counter + .ofNat before)
    (later : before ≤ seen) (most : seen ≤ s.published.length)
    (ended : eof = 1 → s.half eofOffset = 1 ∧ seen = s.published.length)
    (known : ∀ head, core.eofHead = some head → head = place.counter + .ofNat seen) :
    Calls (consuming place) (Balked (reading place) base) (fun head core' t => Resting (reading place) base core' t ∧ head = core'.headShadow)
      (ConsumerCore.accept eof (place.counter + .ofNat seen) core) s := by
  have small := place.capacity_small
  have room := sound.room
  have capacity := resting.at'.capacity
  have tail := resting.at'.tail.trans sound.tail
  have used := counter_sub place.counter least (by omega)
  have arrived := counter_sub place.counter later (by omega)
  have offered := counter_sub place.counter (Nat.le_trans least later) (by omega)
  unfold ConsumerCore.accept
  rw [get_bind, isBefore, tail, used, capacity, lift_bind (subtract_returns (by omega))]
  refine safe_ite (fun differs => absurd differs ?_) fun _ => ?_
  · have free : (UInt64.ofNat (place.capacity - (before - s.consumed.length))).toNat =
        place.capacity - (before - s.consumed.length) := by
      rw [UInt64.toNat_ofNat', Nat.mod_eq_of_lt (by omega)]
    have whole : (UInt64.ofNat place.capacity).toNat = place.capacity := by
      rw [UInt64.toNat_ofNat', Nat.mod_eq_of_lt (by omega)]
    have moved : core.eofHead.any (place.counter + .ofNat seen != ·) = false := by
      cases isKnown : core.eofHead with
      | none => rfl
      | some head =>
        rw [known head isKnown]
        exact bne_self_eq_false _
    rw [moved, Bool.or_false, Bool.or_eq_true, decide_eq_true_eq, decide_eq_true_eq, UInt64.lt_iff_toNat_lt,
      UInt64.lt_iff_toNat_lt, arrived, offered, free, whole]
    omega
  · rw [modify_bind]
    intro t others _
    refine ⟨reading_stands.resting ⟨⟨capacity, resting.at'.unbroken, resting.at'.tail, resting.at'.cursor,
      ⟨seen, Nat.le_trans least later, most, rfl⟩, ?_⟩, resting.taken⟩ others, rfl⟩
    intro head isKnown
    by_cases beyond : eof = 1
    · obtain ⟨stored, all⟩ := ended beyond
      rw [if_pos beyond] at isKnown
      exact ⟨stored, all ▸ (Option.some.inj isKnown).symm⟩
    · rw [if_neg beyond] at isKnown
      exact resting.at'.ended head isKnown

theorem reading_refresh (sound : Sound place s) (resting : Resting (reading place) base core s) :
    Calls (consuming place) (Balked (reading place) base)
      (fun head core' t => Resting (reading place) base core' t ∧ head = core'.headShadow) (ConsumerCore.refresh core) s := by
  unfold ConsumerCore.refresh
  refine safe_then sound (reading_stands.inChannel sound resting (Channel.check_safe _ _)) ?_
  rintro _ core s sound ⟨rfl, resting⟩
  rw [get_bind]
  refine sharing_load32 Consumes.refl fun s1 others1 sound1 => ?_
  refine sharing_load64 Consumes.refl fun s2 others2 sound2 => ?_
  have resting1 := reading_stands.resting resting others1
  have resting2 := reading_stands.resting resting1 others2
  refine safe_ite (fun differs => absurd differs ?_) fun _ => ?_
  · have stays : (core.eofHead.isSome && s1.half eofOffset != 1) = false := by
      cases known : core.eofHead with
      | none => rfl
      | some head => rw [(resting1.at'.ended head known).1, Option.isSome_some, bne_self_eq_false, Bool.and_false]
    rw [stays, Bool.or_false, decide_eq_true_eq]
    exact sound1.flag
  refine sharing_load64 Consumes.refl fun s3 others3 sound3 => ?_
  have resting3 := reading_stands.resting resting2 others3
  refine safe_ite (fun differs => absurd resting3.at'.tail.symm differs) fun _ => ?_
  obtain ⟨before, least, most, isBefore⟩ := resting2.at'.shadow
  -- The flag was loaded before the counter, so a counter that comes with it is the last one.
  have ended : s1.half eofOffset = 1 → s3.half eofOffset = 1 ∧ s2.published.length = s3.published.length := by
    intro beyond
    obtain ⟨beyond, -⟩ := others2.ended beyond
    obtain ⟨beyond, same⟩ := others3.ended beyond
    exact ⟨beyond, by rw [same]⟩
  rw [sound2.head]
  refine reading_accept resting3 sound3 (others3.consumed ▸ least) isBefore most others3.published.length_le ended ?_
  intro head known
  exact (resting2.at'.ended head known).2

def Fetched (bytes : Bytes) (ring : Ring) : Prop := bytes = (ring.published.drop ring.consumed.length).take bytes.length

variable {bytes : Bytes}

theorem Fetched.stable (h : Fetched bytes s) (others : Produces s t)
    (offered : s.consumed.length + bytes.length ≤ s.published.length) : Fetched bytes t := by
  obtain ⟨more, isMore⟩ := others.published
  rw [Fetched, others.consumed, ← isMore, drop_append_of_le_length (by omega),
    take_append_of_le_length (by rw [length_drop]; omega)]
  exact h

theorem fetched_next (sound : Sound place s) (h : Fetched bytes s)
    (offered : s.consumed.length + bytes.length < s.published.length) :
    Fetched (bytes ++ [s.byte (place.slot (s.consumed.length + bytes.length))]) s := by
  have stored := sound.stored _ (Nat.le_add_right _ _) offered
  rw [Fetched, length_append, length_singleton, take_add_one, ← h, getElem?_drop, stored]
  rfl

theorem consume_sound (sound : Sound place s) (copied : Fetched bytes s) :
    let t := { s with
      word := Function.update s.word tailOffset (place.counter + .ofNat (s.consumed ++ bytes).length)
      consumed := s.consumed ++ bytes }
    Consumes s t ∧ Sound place t := by
  have others : ∀ offset, offset ≠ tailOffset →
      Function.update s.word tailOffset (place.counter + .ofNat (s.consumed ++ bytes).length) offset = s.word offset :=
    fun offset other => Function.update_of_ne other _ _
  have length : (s.consumed ++ bytes).length = s.consumed.length + bytes.length := length_append
  have room := sound.room
  refine ⟨⟨rfl, others, rfl, rfl, prefix_append _ _⟩, sound.format, ?_, ?_, Function.update_self tailOffset _ s.word,
    ?_, ?_, ?_, sound.eof⟩
  · exact ⟨(others 8 (by decide)).trans sound.sizes.1, (others 0x10 (by decide)).trans sound.sizes.2⟩
  · exact (others headOffset (by decide)).trans sound.head
  · obtain ⟨rest, isRest⟩ := sound.taken
    rw [Fetched, ← isRest, drop_left] at copied
    rw [← isRest, copied, prefix_append_right_inj]
    exact take_prefix _ _
  · have fewer : s.published.length ≤ (s.consumed ++ bytes).length + place.capacity := by omega
    exact fewer
  · intro index least
    exact sound.stored index (by rw [length] at least; omega)

section Parts

variable (sound : Sound place s) (took : Took (reading place) base length start reader s)
include sound took

theorem reading_copyOut (offered : Within place reader.core count s) : Safe (consuming place)
      (Post (fun bytes reader' t => reader' = reader ∧ bytes.length = count ∧ Fetched bytes t ∧
        Took (reading place) base length start reader t ∧ Within place reader.core count t) fun _ _ _ => False)
      (Reader.inCore (ConsumerCore.inChannel (Channel.copyOut reader.core.cursor count)) reader) s := by
  have capacity := took.at'.capacity
  have positive := place.capacity_pos
  have small := place.capacity_small
  refine safe_zoom sound (safe_zoom sound (safe_mono (Channel.copyOut_safe
    (J := fun bytes ring => bytes.length ≤ count ∧ Fetched bytes ring ∧ Took (reading place) base length start reader ring ∧
      Within place reader.core count ring) ?_ ?_ ?_ sound ?_ ⟨?_, ?_⟩) ?_ fun _ _ _ _ => id))
  · rw [capacity, usizeMax]
    omega
  · rw [took.at'.cursor, capacity]
    exact Nat.mod_lt _ positive
  · obtain ⟨seen, least, most, -⟩ := offered
    have room := sound.room
    rw [capacity]
    omega
  · exact ⟨Nat.zero_le _, rfl, took, offered⟩
  · rintro bytes t u others ⟨few, fetched, took, offered⟩
    refine ⟨few, fetched.stable others ?_, reading_stands.took took others, offered.stable others⟩
    exact Nat.le_trans (Nat.add_le_add_left few _) offered.published
  · rintro bytes t short sound ⟨-, fetched, took, offered⟩
    rw [capacity, place.slot_at took.at'.cursor]
    refine ⟨trivial, ?_⟩
    rintro byte u ⟨replies, same⟩
    cases same
    have next := fetched_next sound fetched (Nat.lt_of_lt_of_le (Nat.add_lt_add_left short _) offered.published)
    refine ⟨Consumes.refl t, sound, ?_, next, took, offered⟩
    rw [length_append]
    exact short
  · rintro bytes channel t - ⟨rfl, length, -, fetched, took, offered⟩
    exact ⟨rfl, length, fetched, took, offered⟩

theorem reading_take (offered : Within place reader.core count s) (fits : start + count ≤ length) :
    Calls (consuming place) (Halted (reading place) base length start)
      (fun _ => Took (reading place) base length (start + count)) (Reader.take start count reader) s := by
  unfold Reader.take
  rw [get_bind]
  refine safe_bind sound (reading_copyOut sound took offered) ?_ fun _ _ _ _ => False.elim
  rintro bytes reader s sound ⟨rfl, all, fetched, took, offered⟩
  have capacity := took.at'.capacity
  rw [lift_bind (place.turned all capacity took.at'.cursor (reading_stands.few sound offered)), modify_bind]
  intro t others sound
  refine ⟨trivial, ?_⟩
  rintro answer u ⟨replies, same⟩
  have took := reading_stands.took took others
  have tail := place.counted all (took.at'.tail.trans sound.tail)
  rw [Ring.perform_tail, tail] at same
  cases same
  obtain ⟨seen, least, most, isSeen⟩ := offered.stable others
  obtain ⟨kept, sound⟩ := consume_sound sound (fetched.stable others (all ▸ offered.published))
  refine ⟨kept, sound, reading_stands.notifies sound (took.filled fits all ⟨capacity, took.at'.unbroken, ?_, ?_,
    ⟨seen, ?_, most, isSeen⟩, took.at'.ended⟩ rfl)⟩
  · exact tail.trans (Function.update_self tailOffset _ t.word).symm
  · rw [others.consumed]
  · rwa [length_append, all]

end Parts

theorem reading_rules : (reading place).Rules (consuming place) where
  toStands := reading_stands
  refresh := reading_refresh
  take := reading_take

end Halcyon.Runnel
