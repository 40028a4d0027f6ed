import Halcyon.Runnel.ProducerCalls
import Halcyon.Runnel.Ring

/-! A producer among the accesses of an honest consumer. -/

namespace Halcyon.Runnel

open ProducerCore Channel Routine List

/-- What a producer knows of the ring between two accesses. It has reason to be broken only with an `excuse`. -/
structure ProducerAt (place : Place) (excuse : Prop) (core : ProducerCore) (ring : Ring) : Prop where
  capacity : core.channel.capacity = place.capacity
  broken : core.channel.terminal = some .broken → excuse
  head : core.head = ring.word headOffset
  eof : ring.half eofOffset = ProducerCore.flag core.eof
  cursor : core.cursor = (place.cursor + ring.published.length) % place.capacity
  shadow : ∃ seen, seen ≤ ring.consumed.length ∧ core.tailShadow = place.counter + .ofNat seen ∧
    ring.published.length ≤ seen + place.capacity

/-- There is this much room behind what the producer has published. -/
def Fits (place : Place) (core : ProducerCore) (count : Nat) (ring : Ring) : Prop :=
  ∃ seen, seen ≤ ring.consumed.length ∧ core.tailShadow = place.counter + .ofNat seen ∧
    ring.published.length + count ≤ seen + place.capacity

/-- A producer that publishes nothing beyond `limit`. -/
abbrev publishing (place : Place) (excuse ends : Prop) (limit : Bytes) : ProducerView Ring where
  At := ProducerAt place excuse
  Room := Fits place
  sent := Ring.published
  capacity := place.capacity
  excuse := excuse
  ends := ends
  allowed := (· <+: limit)

variable {place : Place} {ends excuse : Prop} {core : ProducerCore} {s t : Ring} {limit base input chunk : Bytes} {count : Nat}

section

variable (h : ProducerAt place excuse core s)
include h

theorem ProducerAt.stable (others : Consumes s t) : ProducerAt place excuse core t := by
  obtain ⟨capacity, broken, head, eof, cursor, seen, less, isSeen, room⟩ := h
  refine ⟨capacity, broken, ?_, ?_, ?_, seen, Nat.le_trans less others.consumed.length_le, isSeen, ?_⟩
  · rw [head, others.word headOffset (by decide)]
  · rw [others.half, eof]
  · rw [others.published, cursor]
  · rwa [others.published]

theorem ProducerAt.rechannel {channel : Channel}
    (same : channel.capacity = core.channel.capacity) (broken : channel.terminal = some .broken → excuse) :
    ProducerAt place excuse { core with channel } s :=
  ⟨same.trans h.capacity, broken, h.head, h.eof, h.cursor, h.shadow⟩

theorem ProducerAt.excused {excuse' : Prop} (more : excuse → excuse') : ProducerAt place excuse' core s :=
  ⟨h.capacity, fun said => more (h.broken said), h.head, h.eof, h.cursor, h.shadow⟩

theorem ProducerAt.outstanding {seen : Nat} (sound : Sound place s)
    (ordered : seen ≤ s.published.length) (near : s.published.length ≤ seen + place.capacity) :
    (core.head - (place.counter + .ofNat seen)).toNat = s.published.length - seen := by
  have small := place.capacity_small
  rw [h.head, sound.head]
  exact counter_sub _ ordered (by omega)

theorem ProducerAt.believed (sound : Sound place s) :
    ¬(decide (core.head - core.tailShadow < s.word tailOffset - core.tailShadow) ||
      decide (.ofNat core.channel.capacity < core.head - s.word tailOffset)) = true := by
  obtain ⟨seen, less, isSeen, near⟩ := h.shadow
  have small := place.capacity_small
  have taken := sound.taken.length_le
  have room := sound.room
  have outstanding := h.outstanding sound taken room
  have before := h.outstanding sound (Nat.le_trans less taken) near
  have moved := counter_sub place.counter less (by omega)
  have whole : (UInt64.ofNat place.capacity).toNat = place.capacity := by
    rw [UInt64.toNat_ofNat', Nat.mod_eq_of_lt (by omega)]
  rw [isSeen, sound.tail, h.capacity, Bool.or_eq_true, decide_eq_true_eq, decide_eq_true_eq, UInt64.lt_iff_toNat_lt,
    UInt64.lt_iff_toNat_lt, before, moved, outstanding, whole]
  omega

end

theorem Fits.stable (h : Fits place core count s) (others : Consumes s t) : Fits place core count t := by
  obtain ⟨seen, less, isSeen, room⟩ := h
  exact ⟨seen, Nat.le_trans less others.consumed.length_le, isSeen, others.published ▸ room⟩

/-- The bytes of a chunk that were copied so far lie behind what is published. -/
def Copied (place : Place) (chunk : Bytes) (done : Nat) (ring : Ring) : Prop :=
  ∀ k, k < done → chunk[k]? = some (ring.byte (place.slot (ring.published.length + k)))

theorem Copied.stable {done : Nat} (h : Copied place chunk done s) (others : Consumes s t) : Copied place chunk done t := by
  intro k before
  rw [others.byte, others.published]
  exact h k before

theorem copied_next {done : Nat} {byte : UInt8} (sound : Sound place s) (h : Copied place chunk done s)
    (here : chunk[done]? = some byte) (near : s.published.length + done < s.consumed.length + place.capacity) :
    let t := { s with byte := Function.update s.byte (place.slot (s.published.length + done)) byte }
    Works ends limit s t ∧ Sound place t ∧ Copied place chunk (done + 1) t := by
  refine ⟨⟨⟨fun _ _ => rfl, fun _ _ => rfl, rfl, prefix_rfl, fun ended => ⟨ended, rfl⟩⟩, .inl rfl, .inl rfl⟩, ?_, ?_⟩
  · refine ⟨sound.format, sound.sizes, sound.head, sound.tail, sound.taken, sound.room, ?_, sound.eof⟩
    intro index (least : s.consumed.length ≤ index) (most : index < s.published.length)
    rw [sound.stored index least most]
    exact congrArg some (Function.update_of_ne (Place.slot_ne (by omega) (by omega)) _ _).symm
  · intro k before
    have taken := sound.taken.length_le
    obtain earlier | rfl := Nat.lt_succ_iff_lt_or_eq.mp before
    · rw [h k earlier]
      exact congrArg some (Function.update_of_ne (Place.slot_ne (by omega) (by omega)) _ _).symm
    · rw [here]
      exact congrArg some (Function.update_self (place.slot (s.published.length + k)) byte s.byte).symm

theorem publish_sound (sound : Sound place s) (copied : Copied place chunk chunk.length s)
    (open' : s.half eofOffset = 0) (fits : s.published.length + chunk.length ≤ s.consumed.length + place.capacity)
    (within : s.published ++ chunk <+: limit) :
    let t := { s with
      word := Function.update s.word headOffset (place.counter + .ofNat (s.published ++ chunk).length)
      published := s.published ++ chunk }
    Works ends limit s t ∧ Sound place t := by
  have others : ∀ offset, offset ≠ headOffset →
      Function.update s.word headOffset (place.counter + .ofNat (s.published ++ chunk).length) offset = s.word offset :=
    fun offset other => Function.update_of_ne other _ _
  refine ⟨⟨⟨fun _ _ => rfl, others, rfl, prefix_append _ _, fun ended => ?_⟩, .inl rfl, .inr within⟩, ?_⟩
  · rw [open'] at ended
    exact absurd ended (by decide)
  · refine ⟨sound.format, ?_, Function.update_self headOffset _ s.word, ?_, sound.taken.trans (prefix_append _ _),
      ?_, ?_, sound.eof⟩
    · exact ⟨(others 8 (by decide)).trans sound.sizes.1, (others 0x10 (by decide)).trans sound.sizes.2⟩
    · exact (others tailOffset (by decide)).trans sound.tail
    · rw [← length_append] at fits
      exact fits
    · intro index (least : s.consumed.length ≤ index) (most : index < (s.published ++ chunk).length)
      obtain before | behind := Nat.lt_or_ge index s.published.length
      · exact (getElem?_append_left before).trans (sound.stored index least before)
      · obtain ⟨k, rfl⟩ := Nat.exists_eq_add_of_le behind
        rw [length_append] at most
        refine (getElem?_append_right behind).trans ?_
        rw [Nat.add_sub_cancel_left]
        exact copied k (by omega)

theorem end_sound (sound : Sound place s) (may : ends) :
    let t := { s with half := Function.update s.half eofOffset 1 }
    Works ends limit s t ∧ Sound place t := by
  have others : ∀ offset, offset ≠ eofOffset → Function.update s.half eofOffset 1 offset = s.half offset :=
    fun offset other => Function.update_of_ne other _ _
  have ended : Function.update s.half eofOffset 1 eofOffset = 1 := Function.update_self _ _ _
  refine ⟨⟨⟨others, fun _ _ => rfl, rfl, prefix_rfl, fun _ => ⟨ended, rfl⟩⟩, .inr may, .inl rfl⟩, ?_⟩
  refine ⟨⟨?_, ?_, ?_⟩, sound.sizes, sound.head, sound.tail, sound.taken, sound.room, sound.stored, .inr ended⟩
  · exact (others 0 (by decide)).trans sound.format.1
  · exact (others 4 (by decide)).trans sound.format.2.1
  · exact (others 0x2c (by decide)).trans sound.format.2.2

theorem publishing_stands : (publishing place excuse ends limit).Stands (producing place ends limit) where
  stable others h := h.stable others
  roomStable others h := h.stable others
  kept others := others.published
  broken h := h.broken
  rechannel h := h.rechannel
  established h := ⟨h.capacity, h.broken, h.head, h.eof, h.cursor, h.shadow⟩
  full h := h.capacity
  few sound _ h := by
    obtain ⟨seen, less, -, room⟩ := h
    have taken := sound.taken.length_le
    show _ ≤ place.capacity
    omega
  notify := sharing_quiet Works.refl fun _ _ => rfl
  acknowledge := sharing_quiet Works.refl fun _ _ => rfl
  wait _ := sharing_quiet Works.refl fun _ _ => rfl

section Rules

variable (sound : Sound place s) (wrote : Wrote (publishing place excuse ends limit) base input 0 core s)
include sound wrote

theorem publishing_writable : Calls (producing place ends limit) (Stuck (publishing place excuse ends limit) base input)
      (HasRoom (publishing place excuse ends limit) base input core) (writable core) s := by
  unfold writable
  refine safe_then sound (publishing_stands.inChannel sound wrote (check_safe _ _)) ?_
  rintro _ core s sound ⟨rfl, wrote⟩
  rw [get_bind]
  refine sharing_load64 Works.refl fun s1 others1 sound1 => ?_
  have at1 := wrote.at'.stable others1
  refine safe_ite (fun differs => absurd at1.head.symm differs) fun _ => ?_
  refine sharing_load32 Works.refl fun s2 others2 sound2 => ?_
  have at2 := at1.stable others2
  refine safe_ite (fun differs => absurd at2.eof differs) fun _ => ?_
  refine sharing_load64 Works.refl fun s3 others3 sound3 => ?_
  have at3 := at2.stable others3
  have outstanding := at3.outstanding sound3 sound3.taken.length_le sound3.room
  refine safe_ite (fun differs => absurd differs (at3.believed sound3)) fun _ => ?_
  have taken := sound3.taken.length_le
  have room := sound3.room
  have fits : (core.head - s3.word tailOffset).toNat ≤ core.channel.capacity := by
    rw [sound3.tail, outstanding, at3.capacity]
    omega
  rw [modify_bind, subtract_returns fits]
  intro t others _
  have later := at3.stable others
  have same : t.published = s.published := by
    rw [others.published, others3.published, others2.published, others1.published]
  refine ⟨⟨⟨later.capacity, later.broken, later.head, later.eof, later.cursor, s3.consumed.length,
    others.consumed.length_le, sound3.tail, ?_⟩, wrote.bounded, same.trans wrote.sent⟩, rfl, s3.consumed.length,
    others.consumed.length_le, sound3.tail, ?_⟩
  · rw [others.published]
    exact room
  · rw [sound3.tail, outstanding, others.published, at3.capacity]
    omega

theorem publishing_copyIn (fits : Fits place core count s) (bounded : count ≤ input.length) :
    Safe (producing place ends limit)
      (Post (fun _ core' t => core' = core ∧ Copied place (input.take count) count t ∧
        Wrote (publishing place excuse ends limit) base input 0 core t ∧ Fits place core count t) fun _ _ _ => False)
      (inChannel (Channel.copyIn core.cursor (input.take count)) core) s := by
  have capacity := wrote.at'.capacity
  have positive := place.capacity_pos
  have small := place.capacity_small
  have length := length_take_of_le bounded
  refine safe_zoom sound (safe_mono (copyIn_safe (J := fun k ring => Copied place (input.take count) k ring ∧
      Wrote (publishing place excuse ends limit) base input 0 core ring ∧ Fits place core count ring)
    ?_ ?_ ?_ sound ?_ ⟨?_, ?_⟩) ?_ fun _ _ _ _ => id)
  · rw [capacity, usizeMax]
    omega
  · rw [wrote.at'.cursor, capacity]
    exact Nat.mod_lt _ positive
  · obtain ⟨seen, less, -, room⟩ := fits
    have taken := sound.taken.length_le
    rw [length, capacity]
    omega
  · exact ⟨fun k before => absurd before (Nat.not_lt_zero k), wrote, fits⟩
  · rintro k t u others ⟨copied, wrote, fits⟩
    exact ⟨copied.stable others, publishing_stands.wrote wrote others, fits.stable others⟩
  · rintro k byte t here sound ⟨copied, wrote, fits⟩
    have short : k < count := length ▸ (List.getElem?_eq_some_iff.mp here).1
    have near : t.published.length + k < t.consumed.length + place.capacity := by
      obtain ⟨seen, less, -, room⟩ := fits
      omega
    rw [capacity, place.slot_at wrote.at'.cursor]
    refine ⟨trivial, ?_⟩
    rintro u ⟨replies, same⟩
    cases same
    obtain ⟨kept, sound, copied⟩ := copied_next sound copied here near
    exact ⟨kept, sound, copied, ⟨⟨capacity, wrote.at'.broken, wrote.at'.head, wrote.at'.eof, wrote.at'.cursor,
      wrote.at'.shadow⟩, wrote.bounded, wrote.sent⟩, fits⟩
  · rintro _ channel t - ⟨rfl, copied, wrote, fits⟩
    rw [length] at copied
    exact ⟨rfl, copied, wrote, fits⟩

theorem publishing_store (open' : core.eof = false) (fits : Fits place core count s) (bounded : count ≤ input.length)
    (limited : base ++ input.take count <+: limit) :
    Calls (producing place ends limit) (Stuck (publishing place excuse ends limit) base input)
      (fun _ core' t => core'.eof = false ∧ Wrote (publishing place excuse ends limit) base input count core' t)
      (store (input.take count) core) s := by
  have length : (input.take count).length = count := length_take_of_le bounded
  unfold store
  rw [get_bind]
  refine safe_bind sound (publishing_copyIn sound wrote fits bounded) ?_ fun _ _ _ _ => False.elim
  rintro _ core s sound ⟨rfl, copied, wrote, fits⟩
  have capacity := wrote.at'.capacity
  rw [length, lift_bind (place.turned length capacity wrote.at'.cursor (publishing_stands.few sound wrote.at' fits)), modify_bind]
  intro t others sound
  refine ⟨trivial, ?_⟩
  rintro answer u ⟨replies, same⟩
  rw [← others.published]
  have wrote := publishing_stands.wrote wrote others
  have all : t.published = base := wrote.sent.trans (append_nil base)
  have head := place.counted length (wrote.at'.head.trans sound.head)
  have still : t.half eofOffset = 0 := by rw [wrote.at'.eof, open', flag, if_neg Bool.false_ne_true]
  obtain ⟨seen, less, isSeen, room⟩ := fits.stable others
  rw [Ring.perform_head, head] at same
  cases same
  have whole : Copied place (input.take count) (input.take count).length t := length.symm ▸ copied.stable others
  obtain ⟨kept, sound⟩ := publish_sound sound whole still (by omega) (all.symm ▸ limited)
  refine ⟨kept, sound, ?_⟩
  refine safe_returns (publishing_stands.notifies sound ⟨⟨capacity, wrote.at'.broken, ?_, wrote.at'.eof, rfl, seen, less,
    isSeen, ?_⟩, bounded, congrArg (· ++ input.take count) all⟩) ?_
  · exact head.trans (Function.update_self headOffset _ t.word).symm
  · rwa [length_append, length]
  · rintro _ core u - ⟨rfl, wrote⟩
    exact ⟨open', wrote⟩

omit sound in
theorem publishing_finish (may : ends) :
    Calls (producing place ends limit) (Stuck (publishing place excuse ends limit) base input)
      (fun _ core' t => core'.eof = true ∧ Wrote (publishing place excuse ends limit) base input 0 core' t)
      ((do store32 eofOffset 1; inChannel (Channel.notify 0) : Io _ _) { core with eof := true }) s := by
  intro t others sound
  refine ⟨trivial, ?_⟩
  rintro answer u ⟨replies, same⟩
  have wrote := publishing_stands.wrote wrote others
  cases same
  obtain ⟨kept, sound⟩ := end_sound sound may
  refine ⟨kept, sound, safe_returns (publishing_stands.notifies sound ⟨⟨wrote.at'.capacity, wrote.at'.broken,
    wrote.at'.head, Function.update_self eofOffset _ t.half, wrote.at'.cursor, wrote.at'.shadow⟩, wrote.bounded,
    wrote.sent⟩) ?_⟩
  rintro _ core u - ⟨rfl, wrote⟩
  exact ⟨rfl, wrote⟩

end Rules

theorem publishing_rules : (publishing place excuse ends limit).Rules (producing place ends limit) where
  toStands := publishing_stands
  writable := publishing_writable
  store sound wrote open' fits less bounded limited := by
    obtain ⟨seen, few, isSeen, room⟩ := fits
    exact publishing_store sound wrote open' ⟨seen, few, isSeen, by omega⟩ bounded limited
  finish := publishing_finish

theorem Answered.drained {call : ProducerCall} (h : Answered (publishing place excuse ends limit) base call
    (.ok (.ready (some .eofConsumed)), core) s) (sound : Sound place s) : Drained s := by
  obtain ⟨ended, seen, less, -, room⟩ := h.backed _ rfl
  dsimp only at room
  have taken := sound.taken.length_le
  exact ⟨by rw [h.wrote.at'.eof, ended, flag, if_pos rfl], sound.taken.eq_of_length_le (by omega)⟩

end Halcyon.Runnel
