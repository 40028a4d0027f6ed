import Halcyon.Runnel.Consuming
import Halcyon.Runnel.Producing

/-! How the two ends come to the ring: one of them creates it while it is alone, the other one attaches. -/

namespace Halcyon.Runnel

open Routine

def Place.fresh (bytes : Nat) (accepted : Channel.acceptedSize bytes = true) : Place := ⟨bytes, 0, 0, accepted⟩

structure Fresh (place : Place) (ring : Ring) : Prop where
  sound : Sound place ring
  published : ring.published = []
  eof : ring.half eofOffset = 0

def Ring.created (bytes : Nat) (byte : Nat → UInt8) (ring : Ring) : Ring where
  half := Function.update (Function.update (Function.update (Function.update (Function.update ring.half 0 0) 4 versionHeader)
    eofOffset 0) 0x2c 0) 0 magic
  word := Function.update (Function.update (Function.update (Function.update ring.word 8 (.ofNat bytes))
    0x10 (.ofNat (bytes - headerBytes))) headOffset 0) tailOffset 0
  byte := byte
  published := ring.published
  consumed := ring.consumed

variable {bytes : Nat} {ring : Ring} {β ε S : Type}

theorem writeBytes_alone (replies : Replies) (offset : Nat) (input : Bytes) (core : S) (f : Unit → Routine Transport ε S β)
    (ring : Ring) :
    ∃ byte, Program.alone (Ring.perform replies) ((writeBytes offset input >>= f) core) ring =
      Program.alone (Ring.perform replies) (f () core) { ring with byte } := by
  induction input generalizing offset ring with
  | nil => exact ⟨ring.byte, rfl⟩
  | cons byte rest ih =>
    obtain ⟨written, later⟩ := ih (offset + 1) { ring with byte := Function.update ring.byte offset byte }
    exact ⟨written, later⟩

theorem channel_created (replies : Replies) (accepted : Channel.acceptedSize bytes = true) (ring : Ring) :
    ∃ byte, Program.alone (Ring.perform replies) (Channel.new bytes true ()) ring =
      some ((.ok ⟨bytes - headerBytes, none⟩, ()), ring.created bytes byte) := by
  obtain ⟨byte, later⟩ := writeBytes_alone replies 0x30 (List.replicate 80 0) ()
    (fun _ => do
      store32 0 magic
      pure (⟨bytes - headerBytes, none⟩ : Channel) : Unit → Routine Transport RunnelError Unit Channel)
    { ring.created bytes ring.byte with
      half := Function.update (Function.update (Function.update (Function.update ring.half 0 0) 4 versionHeader)
        eofOffset 0) 0x2c 0 }
  refine ⟨byte, Eq.trans ?_ later⟩
  unfold Channel.new
  rw [accepted]
  rfl

theorem created_fresh (accepted : Channel.acceptedSize bytes = true) (byte : Nat → UInt8) (published : ring.published = [])
    (consumed : ring.consumed = []) : Fresh (.fresh bytes accepted) (ring.created bytes byte) := by
  refine ⟨⟨⟨rfl, rfl, rfl⟩, ⟨rfl, rfl⟩, ?_, ?_, ?_, ?_, ?_, .inl rfl⟩, published, rfl⟩
  · rw [Ring.created, published]
    rfl
  · rw [Ring.created, consumed]
    rfl
  · have none : ring.consumed <+: ring.published := consumed ▸ List.nil_prefix
    exact none
  · rw [Ring.created, published]
    exact Nat.zero_le _
  · rw [Ring.created, published]
    exact fun index _ none => absurd none (Nat.not_lt_zero index)

section Fresh

variable {place : Place} (counter : place.counter = 0) (cursor : place.cursor = 0)

theorem Fresh.consumed (fresh : Fresh place ring) : ring.consumed = [] :=
  List.prefix_nil.mp (fresh.published ▸ fresh.sound.taken)

include counter

theorem Fresh.head (fresh : Fresh place ring) : ring.word headOffset = 0 := by
  rw [fresh.sound.head, fresh.published, counter]
  rfl

theorem Sound.tail_zero (sound : Sound place ring) (none : ring.consumed = []) : ring.word tailOffset = 0 := by
  rw [sound.tail, none, counter]
  rfl

include cursor

theorem Fresh.producerAt (fresh : Fresh place ring) (excuse : Prop) (established : Bool) :
    ProducerAt place excuse ⟨⟨place.capacity, none⟩, 0, 0, 0, false, established⟩ ring := by
  refine ⟨rfl, nofun, (fresh.head counter).symm, fresh.eof, ?_, 0, Nat.zero_le _, ?_, ?_⟩
  · rw [cursor, fresh.published]
    exact (Nat.zero_mod _).symm
  · rw [counter]
    rfl
  · rw [fresh.published]
    exact Nat.zero_le _

theorem Sound.consumerAt {seen : Nat} (sound : Sound place ring) (none : ring.consumed = [])
    (most : seen ≤ ring.published.length) (eofHead : Option UInt64) (established attached : Bool)
    (ended : ∀ head, eofHead = some head → ring.half eofOffset = 1 ∧ head = place.counter + .ofNat ring.published.length) :
    ConsumerAt place ⟨⟨place.capacity, .none⟩, 0, .ofNat seen, 0, eofHead, established, attached⟩ ring := by
  refine ⟨rfl, nofun, (sound.tail_zero counter none).symm, ?_, ⟨seen, ?_, most, ?_⟩, ended⟩
  · rw [cursor, none]
    exact (Nat.zero_mod _).symm
  · rw [none]
    exact Nat.zero_le _
  · rw [counter, UInt64.zero_add]

end Fresh

theorem producer_created (replies : Replies) (accepted : Channel.acceptedSize bytes = true) (published : ring.published = [])
    (consumed : ring.consumed = []) :
    ∃ core created, Program.alone (Ring.perform replies) (ProducerCore.new bytes true ()) ring = some ((.ok core, ()), created) ∧
      Fresh (.fresh bytes accepted) created ∧ ∀ excuse, ProducerAt (.fresh bytes accepted) excuse core created := by
  obtain ⟨byte, creates⟩ := channel_created replies accepted ring
  have fresh := created_fresh accepted byte published consumed
  refine ⟨_, _, ?_, fresh, fun excuse => fresh.producerAt rfl rfl excuse false⟩
  refine (Program.alone_bind (x := Channel.new bytes true ())).trans ?_
  rw [creates]
  rfl

theorem consumer_created (replies : Replies) (accepted : Channel.acceptedSize bytes = true) (published : ring.published = [])
    (consumed : ring.consumed = []) :
    ∃ core created, Program.alone (Ring.perform replies) (ConsumerCore.new bytes true ()) ring = some ((.ok core, ()), created) ∧
      Fresh (.fresh bytes accepted) created ∧ ConsumerAt (.fresh bytes accepted) core created := by
  obtain ⟨byte, creates⟩ := channel_created replies accepted ring
  have fresh := created_fresh accepted byte published consumed
  refine ⟨_, _, ?_, fresh, fresh.sound.consumerAt rfl rfl fresh.consumed (Nat.zero_le _) none false false nofun⟩
  refine (Program.alone_bind (x := Channel.new bytes true ())).trans ?_
  rw [creates]
  rfl

section Attaching

variable {place : Place} {rely guarantee : Ring → Ring → Prop} {refl : ∀ s, rely s s}
  {trans : ∀ s t u, rely s t → rely t u → rely s u} {s : Ring}

theorem channel_attaches (kept : ∀ s, guarantee s s) : Safe (sharing place rely guarantee refl trans)
      (Post (fun channel _ t => channel = ⟨place.capacity, none⟩ ∧ rely s t) fun _ _ _ => False)
      (Channel.new place.bytes false ()) s := by
  unfold Channel.new
  rw [place.accepted]
  refine safe_ite (fun refused => absurd refused (by decide)) fun _ => ?_
  refine safe_ite (fun creator => absurd creator (by decide)) fun _ => ?_
  refine sharing_load32 kept fun s1 others1 sound1 => ?_
  refine safe_ite (fun differs => absurd sound1.format.1 differs) fun _ => ?_
  refine sharing_load32 kept fun s2 others2 sound2 => ?_
  refine safe_ite (fun differs => absurd sound2.format.2.1 differs) fun _ => ?_
  refine sharing_load64 kept fun s3 others3 sound3 => ?_
  refine safe_ite (fun differs => absurd sound3.sizes.1 differs) fun _ => ?_
  refine sharing_load64 kept fun s4 others4 sound4 => ?_
  refine safe_ite (fun differs => absurd sound4.sizes.2 differs) fun _ => ?_
  refine sharing_load32 kept fun s5 others5 sound5 => ?_
  refine safe_ite (fun differs => absurd sound5.format.2.2 differs) fun _ t others _ => ⟨rfl, ?_⟩
  exact trans _ _ _ (trans _ _ _ (trans _ _ _ (trans _ _ _ (trans _ _ _ others1 others2) others3) others4) others5) others

end Attaching

section Attached

variable {place : Place} {ends : Prop} {limit : Bytes} {s t : Ring} (counter : place.counter = 0) (cursor : place.cursor = 0)

theorem Fresh.stable (h : Fresh place s) (sound : Sound place t) (others : Consumes s t) : Fresh place t :=
  ⟨sound, others.published.trans h.published, by rw [others.half, h.eof]⟩

include counter cursor

theorem producer_attaches (fresh : Fresh place s) : Safe (producing place ends limit)
      (Post (fun core _ t => Fresh place t ∧ ∀ excuse, ProducerAt place excuse core t) fun _ _ _ => False)
      (ProducerCore.new place.bytes false ()) s := by
  refine safe_bind fresh.sound (channel_attaches Works.refl) ?_ fun _ _ _ _ => False.elim
  rintro _ _ s1 sound1 ⟨rfl, others1⟩
  have fresh1 := fresh.stable sound1 others1
  refine sharing_load64 Works.refl fun s2 others2 sound2 => ?_
  have fresh2 := fresh1.stable sound2 others2
  refine safe_ite (fun differs => absurd (fresh2.head counter) differs) fun _ => ?_
  refine sharing_load64 Works.refl fun s3 others3 sound3 => ?_
  have fresh3 := fresh2.stable sound3 others3
  refine safe_ite (fun differs => absurd (sound3.tail_zero counter fresh3.consumed) differs) fun _ => ?_
  refine sharing_load32 Works.refl fun s4 others4 sound4 => ?_
  have fresh4 := fresh3.stable sound4 others4
  refine safe_ite (fun differs => absurd fresh4.eof differs) fun _ t others sound => ?_
  have fresh := fresh4.stable sound others
  exact ⟨fresh, fun excuse => fresh.producerAt counter cursor excuse true⟩

theorem consumer_attaches (sound : Sound place s) (empty : s.consumed = []) :
    Safe (consuming place) (Post (fun core _ t => t.consumed = [] ∧ ConsumerAt place core t) fun _ _ _ => False)
      (ConsumerCore.new place.bytes false ()) s := by
  refine safe_bind sound (channel_attaches Consumes.refl) ?_ fun _ _ _ _ => False.elim
  rintro _ _ s1 sound1 ⟨rfl, others1⟩
  refine sharing_load32 Consumes.refl fun s2 others2 sound2 => ?_
  refine sharing_load64 Consumes.refl fun s3 others3 sound3 => ?_
  have empty3 : s3.consumed = [] := by rw [others3.consumed, others2.consumed, others1.consumed, empty]
  refine sharing_load64 Consumes.refl fun s4 others4 sound4 => ?_
  have empty4 : s4.consumed = [] := others4.consumed.trans empty3
  refine safe_ite (fun differs => absurd (sound4.tail_zero counter empty4) differs) fun _ => ?_
  have head : s3.word headOffset = .ofNat s3.published.length := by rw [sound3.head, counter, UInt64.zero_add]
  refine safe_ite (fun differs => absurd differs ?_) fun _ t others sound => ?_
  · have small := place.capacity_small
    have room := sound3.room
    rw [empty3, List.length_nil, Nat.zero_add] at room
    have fits : ¬UInt64.ofNat place.capacity < UInt64.ofNat s3.published.length := by
      rw [UInt64.lt_iff_toNat_lt, UInt64.toNat_ofNat', UInt64.toNat_ofNat', Nat.mod_eq_of_lt (by omega),
        Nat.mod_eq_of_lt (by omega)]
      exact Nat.not_lt.mpr room
    rw [Bool.or_eq_true, decide_eq_true_eq, decide_eq_true_eq, head]
    exact not_or.mpr ⟨sound2.flag, fits⟩
  · have empty : t.consumed = [] := others.consumed.trans empty4
    rw [head]
    refine ⟨empty, sound.consumerAt counter cursor empty ?_ _ _ _ ?_⟩
    · exact Nat.le_trans others4.published.length_le others.published.length_le
    · intro last known
      split at known
      · next beyond =>
        obtain ⟨beyond, -⟩ := others3.ended beyond
        obtain ⟨beyond, same⟩ := others4.ended beyond
        obtain ⟨beyond, same'⟩ := others.ended beyond
        rw [same', same, counter, UInt64.zero_add]
        exact ⟨beyond, (Option.some.inj known).symm⟩
      · exact nomatch known

end Attached

end Halcyon.Runnel
