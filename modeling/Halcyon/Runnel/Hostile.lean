import Halcyon.Runnel.HostileConsumer

/-! Both ends with a hostile peer, over any sequence of calls. -/

namespace Halcyon.Runnel

open ProducerCore Routine

def ProducerCore.readyBytes : Option ProducerReady → Nat
  | some (.writable bytes) => bytes
  | _ => 0

def ProducerCore.replyBytes : ProducerReply → Nat
  | .count bytes => bytes
  | .done => 0
  | .ready ready => readyBytes ready

def ConsumerCore.readyBytes : Option ConsumerReady → Nat
  | some (.readable bytes _) => bytes
  | _ => 0

def Reader.replyBytes : ConsumerReply → Nat
  | .count bytes => bytes
  | .reached _ => 0
  | .ready ready => ConsumerCore.readyBytes ready

/-- What the private state of a producer always meets, with the counter it last published. -/
structure ProducerCore.Fit (bytes : Nat) (core : ProducerCore) (own : UInt64) : Prop where
  accepted : Channel.acceptedSize bytes = true
  capacity : core.channel.capacity = bytes - headerBytes
  cursor : core.cursor < core.channel.capacity
  window : (core.head - core.tailShadow).toNat ≤ core.channel.capacity
  own : core.head = own

structure ConsumerCore.Fit (bytes : Nat) (core : ConsumerCore) (own : UInt64) : Prop where
  accepted : Channel.acceptedSize bytes = true
  capacity : core.channel.capacity = bytes - headerBytes
  cursor : core.cursor < core.channel.capacity
  window : (core.headShadow - core.tail).toNat ≤ core.channel.capacity
  own : core.tail = own
  final : ∀ head, core.eofHead = some head → core.headShadow = head

abbrev anyone : Setting Transport Unit where
  inv _ := True
  rely _ _ := True
  guarantee _ _ := True
  duty _ _ := True
  may _ _ _ _ := True
  rely_refl _ := trivial
  rely_trans _ _ _ _ _ := trivial

section Setup

variable {α : Type} {Q : α → Unit → Prop}

theorem anyone_ask {op : Op} {rest : Op.Answer op → Program Transport α} (later : ∀ answer, Safe anyone Q (rest answer) ()) :
    Safe anyone Q (.ask op rest) () :=
  fun _ _ _ => ⟨trivial, fun answer _ _ => ⟨trivial, trivial, later answer⟩⟩

theorem anyone_ret {value : α} (holds : Q value ()) : Safe anyone Q (.ret value) () := fun _ _ _ => holds

theorem anyone_writeBytes {offset : Nat} {bytes : Bytes} {S : Type} {core : S} :
    Safe anyone (Post (fun _ _ _ => True) fun _ _ _ => True)
      ((writeBytes offset bytes : Routine Transport RunnelError S Unit) core) () :=
  safe_mono (writeBytes_safe (J := fun _ _ => True) trivial trivial ⟨fun _ _ _ _ _ => trivial,
    fun _ _ _ _ _ _ => ⟨trivial, fun _ _ => ⟨trivial, trivial, trivial⟩⟩⟩) (fun _ _ _ _ _ => trivial) fun _ _ _ _ => False.elim

end Setup

theorem Channel.new_capacity (bytes : Nat) (creator : Bool) :
    Safe anyone (Post (fun channel _ _ => acceptedSize bytes = true ∧ channel = ⟨bytes - headerBytes, none⟩)
      fun _ _ _ => True) (new bytes creator ()) () := by
  unfold new
  refine safe_ite (fun _ => anyone_ret trivial) fun accepted => ?_
  have accepted : acceptedSize bytes = true := by simpa using accepted
  refine safe_ite (fun _ => ?_) fun _ => ?_
  · refine anyone_ask fun _ => anyone_ask fun _ => anyone_ask fun _ => anyone_ask fun _ => anyone_ask fun _ => ?_
    refine anyone_ask fun _ => anyone_ask fun _ => anyone_ask fun _ => ?_
    refine safe_bind trivial anyone_writeBytes ?_ fun _ _ _ _ _ => trivial
    intro _ _ _ _ _
    exact anyone_ask fun _ => anyone_ret ⟨accepted, rfl⟩
  · iterate 5
      refine anyone_ask fun _ => safe_ite (fun _ => anyone_ret trivial) fun _ => ?_
    exact anyone_ret ⟨accepted, rfl⟩

theorem ProducerCore.new_fit (bytes : Nat) (creator : Bool) :
    Safe anyone (Post (fun core _ _ => Fit bytes core 0) fun _ _ _ => True) (new bytes creator ()) () := by
  unfold new
  refine safe_bind trivial (Channel.new_capacity bytes creator) ?_ fun _ _ _ _ _ => trivial
  rintro _ _ _ - ⟨accepted, rfl⟩
  obtain ⟨least, _⟩ := acceptedSize_bounds accepted
  iterate 3
    refine anyone_ask fun _ => safe_ite (fun _ => anyone_ret trivial) fun _ => ?_
  refine anyone_ret ⟨accepted, rfl, ?_, by simp, rfl⟩
  · exact Nat.sub_pos_of_lt (Nat.lt_of_lt_of_le (by decide) least)

theorem ConsumerCore.new_fit (bytes : Nat) (creator : Bool) :
    Safe anyone (Post (fun core _ _ => Fit bytes core 0) fun _ _ _ => True) (new bytes creator ()) () := by
  unfold new
  refine safe_bind trivial (Channel.new_capacity bytes creator) ?_ fun _ _ _ _ _ => trivial
  rintro _ _ _ - ⟨accepted, rfl⟩
  obtain ⟨least, most⟩ := acceptedSize_bounds accepted
  refine anyone_ask fun eof => anyone_ask fun head => ?_
  refine anyone_ask fun _ => safe_ite (fun _ => anyone_ret trivial) fun _ => ?_
  refine safe_ite (fun _ => anyone_ret trivial) fun near => ?_
  have apart : ¬UInt64.ofNat (bytes - headerBytes) < head := by
    intro wide
    exact near (by rw [decide_eq_true wide, Bool.or_true])
  have small : bytes - headerBytes < 2 ^ 64 := by
    rw [tunnelMaxPages] at most
    omega
  refine anyone_ret ⟨accepted, rfl, ?_, ?_, rfl, ?_⟩
  · exact Nat.sub_pos_of_lt (Nat.lt_of_lt_of_le (by decide) least)
  · have window := toNat_le_of_not_lt small apart
    rwa [← UInt64.sub_zero head] at window
  · intro final isFinal
    simp only at isFinal
    split at isFinal
    · exact Option.some.inj isFinal
    · cases isFinal

/-- A producer after any calls, whatever was answered, and the counter it last published. -/
inductive ProducerReached (bytes : Nat) : ProducerCore → UInt64 → Prop where
  | new {creator : Bool} {trace : List ((op : Op) × Op.Answer op)} {core : ProducerCore}
    (ran : Runs anyone (ProducerCore.new bytes creator ()) () trace (.ret (.ok core, ())) ()) : ProducerReached bytes core 0
  | call {call : ProducerCall} {trace : List ((op : Op) × Op.Answer op)} {core core' : ProducerCore} {own own' : UInt64}
    {result : Outcome IoError ProducerReply} (before : ProducerReached bytes core own)
    (small : call.input.length ≤ isizeMax)
    (ran : Runs (hostile bytes headOffset) (call.routine core) own trace (.ret (result, core')) own') :
    ProducerReached bytes core' own'

/-- A consumer after any calls, whatever was answered, and the counter it last published. -/
inductive ConsumerReached (bytes : Nat) : ConsumerCore → UInt64 → Prop where
  | new {creator : Bool} {trace : List ((op : Op) × Op.Answer op)} {core : ConsumerCore}
    (ran : Runs anyone (ConsumerCore.new bytes creator ()) () trace (.ret (.ok core, ())) ()) : ConsumerReached bytes core 0
  | call {call : ConsumerCall} {trace : List ((op : Op) × Op.Answer op)} {core : ConsumerCore} {reader : Reader}
    {own own' : UInt64} {result : Outcome IoError ConsumerReply} (before : ConsumerReached bytes core own)
    (small : call.output.length ≤ isizeMax)
    (ran : Runs (hostile bytes tailOffset) (call.routine ⟨core, call.output⟩) own trace (.ret (result, reader)) own') :
    ConsumerReached bytes reader.core own'

/-- A byte that goes through the ring, with its place. -/
inductive Move where
  | put (offset : Nat) (byte : UInt8)
  | take (offset : Nat) (byte : UInt8)

def moves : List ((op : Op) × Op.Answer op) → List Move
  | [] => []
  | ⟨.writeByte offset byte, _⟩ :: trace => .put offset byte :: moves trace
  | ⟨.readByte offset, byte⟩ :: trace => .take offset byte :: moves trace
  | _ :: trace => moves trace

def Move.own (ownOffset : Nat) : Nat → UInt8 → Move := if ownOffset = headOffset then .put else .take

section Runs

variable {place : Place} {ownOffset : Nat} {α : Type} {Q : α → Own → Prop} {x y : Program Transport α} {own own' : UInt64}
  {trace : List ((op : Op) × Op.Answer op)}

theorem runs_tracked {moved : Bytes} (safe : Safe (tracking place ownOffset) Q x ⟨own, moved⟩)
    (ran : Runs (hostile place.bytes ownOffset) x own trace y own') :
    ∃ more : Bytes, Safe (tracking place ownOffset) Q y ⟨own', moved ++ more⟩ ∧
      moves trace = more.mapIdx fun k => Move.own ownOffset (place.slot (moved.length + k)) := by
  induction ran generalizing moved with
  | none => exact ⟨[], by rwa [List.append_nil], rfl⟩
  | @step op rest answer y s t u trace does later ih =>
    obtain rfl : t = _ := does
    obtain ⟨orderly, -, -, next⟩ := safe.step trivial (rfl : (tracking place ownOffset).may op ⟨s, moved⟩ answer _)
    have longer : ∀ {byte}, Safe (tracking place ownOffset) Q (rest answer) ⟨s, moved ++ [byte]⟩ → ownAfter s op = s →
        ∃ more : Bytes, Safe (tracking place ownOffset) Q y ⟨u, moved ++ more⟩ ∧
          Move.own ownOffset (place.slot moved.length) byte :: moves trace =
            more.mapIdx fun k => Move.own ownOffset (place.slot (moved.length + k)) := by
      intro byte next same
      obtain ⟨more, safe, rest⟩ := ih (same.symm ▸ next)
      refine ⟨byte :: more, by rwa [← List.append_cons] at safe, ?_⟩
      rw [rest, List.mapIdx_cons, List.length_append, List.length_singleton]
      simp only [Nat.add_zero, Nat.add_assoc, Nat.add_comm 1]
    cases op with
    | readByte | writeByte =>
      obtain ⟨rfl, rfl⟩ := orderly
      exact longer next rfl
    | _ => exact ih next

end Runs

theorem ProducerView.Backed.few {σ : Type} {view : ProducerView σ} {core : ProducerCore} {s : σ} {reply : ProducerReply}
    (backed : view.Backed core s reply) : ProducerCore.replyBytes reply ≤ view.capacity := by
  match reply with
  | .count _ | .ready (some (.writable _)) => exact backed
  | .done | .ready none | .ready (some .peerAttached) | .ready (some .eofConsumed) => exact Nat.zero_le _

theorem ConsumerView.Backed.few {σ : Type} {view : ConsumerView σ} {call : ConsumerCall} {s : σ} {reply : ConsumerReply}
    (backed : view.Backed call s reply) (other : ∀ turns output deadline, call ≠ .readExactOrEof turns output deadline) :
    Reader.replyBytes reply ≤ view.capacity := by
  match reply with
  | .count _ => exact backed other
  | .ready (some (.readable _ _)) => exact backed
  | .reached _ | .ready none | .ready (some .peerAttached) | .ready (some .eofDrained) => exact Nat.zero_le _

section Producers

variable {bytes : Nat} {core core' : ProducerCore} {own own' : UInt64} {call : ProducerCall}
  {trace : List ((op : Op) × Op.Answer op)} {result : Outcome IoError ProducerReply}

abbrev ProducerCore.Fit.place (fit : Fit bytes core own) : Place := ⟨bytes, own, core.cursor, fit.accepted⟩

theorem ProducerCore.Fit.routine (fit : Fit bytes core own) (call : ProducerCall) (small : call.input.length ≤ isizeMax) :
    Safe (tracking fit.place headOffset) (Answered (hostileProducer fit.place) [] call) (call.routine core) ⟨own, []⟩ := by
  have at' : ProducerFit fit.place core ⟨own, []⟩ := by
    refine ⟨fit.capacity, ?_, Nat.le_trans fit.window (Nat.le_of_eq fit.capacity), fit.own, (UInt64.add_zero own).symm⟩
    exact (Nat.mod_eq_of_lt (Nat.lt_of_lt_of_eq fit.cursor fit.capacity)).symm
  exact hostileProducer_rules.routine call (Nat.le_trans small isizeMax_le_usizeMax) trivial at' rfl
    (fun _ _ => trivial) (fun _ => trivial) fun _ => trivial

theorem ProducerCore.Fit.answered (fit : Fit bytes core own) (small : call.input.length ≤ isizeMax)
    (ran : Runs (hostile bytes headOffset) (call.routine core) own trace (.ret (result, core')) own') :
    Answered (hostileProducer fit.place) [] call (result, core') ⟨own', call.input.take (call.reported result)⟩ ∧
      own' = own + .ofNat (call.reported result) ∧
      moves trace = (call.input.take (call.reported result)).mapIdx fun k => .put (fit.place.slot k) := by
  obtain ⟨moved, safe, places⟩ := runs_tracked (fit.routine call small) ran
  have answered := safe.returned trivial
  rw [List.nil_append] at answered
  obtain rfl : moved = call.input.take (call.reported result) := answered.wrote.sent
  refine ⟨answered, ?_, ?_⟩
  · have counter : own' = own + _ := answered.wrote.at'.counter
    rw [counter, List.length_take_of_le answered.wrote.bounded]
  · simp only [List.length_nil, Nat.zero_add] at places
    exact places

theorem ProducerReached.fit (reached : ProducerReached bytes core own) : ProducerCore.Fit bytes core own := by
  induction reached with
  | new ran =>
    obtain ⟨sound, ended⟩ := (new_fit bytes _).runs trivial ran
    exact ended.returned sound
  | call _ small ran ih =>
    obtain ⟨answered, -, -⟩ := ih.answered small ran
    obtain ⟨capacity, cursor, window, head, -⟩ := answered.wrote.at'
    exact ⟨ih.accepted, capacity, by rw [cursor, capacity]; exact Nat.mod_lt _ ih.place.capacity_pos, capacity ▸ window, head⟩

end Producers

section Consumers

variable {bytes : Nat} {core : ConsumerCore} {reader : Reader} {own own' : UInt64} {call : ConsumerCall}
  {trace : List ((op : Op) × Op.Answer op)} {result : Outcome IoError ConsumerReply}

abbrev ConsumerCore.Fit.place (fit : Fit bytes core own) : Place := ⟨bytes, own, core.cursor, fit.accepted⟩

theorem ConsumerCore.Fit.routine (fit : Fit bytes core own) (call : ConsumerCall) (small : call.output.length ≤ isizeMax) :
    Safe (tracking fit.place tailOffset) (Delivered (hostileConsumer fit.place core.eofHead) [] call)
      (call.routine ⟨core, call.output⟩) ⟨own, []⟩ := by
  have at' : ConsumerFit fit.place core.eofHead core ⟨own, []⟩ := by
    refine ⟨fit.capacity, ?_, Nat.le_trans fit.window (Nat.le_of_eq fit.capacity), fit.own, (UInt64.add_zero own).symm,
      fit.final, fun _ => id⟩
    exact (Nat.mod_eq_of_lt (Nat.lt_of_lt_of_eq fit.cursor fit.capacity)).symm
  exact hostileConsumer_rules.routine call (Nat.le_trans small isizeMax_le_usizeMax) trivial at' rfl

theorem ConsumerCore.Fit.delivered (fit : Fit bytes core own) (small : call.output.length ≤ isizeMax)
    (ran : Runs (hostile bytes tailOffset) (call.routine ⟨core, call.output⟩) own trace (.ret (result, reader)) own') :
    Delivered (hostileConsumer fit.place core.eofHead) [] call (result, reader)
      ⟨own', reader.output.take (call.reported result)⟩ ∧ own' = own + .ofNat (call.reported result) ∧
      moves trace = (reader.output.take (call.reported result)).mapIdx fun k => .take (fit.place.slot k) := by
  obtain ⟨moved, safe, places⟩ := runs_tracked (fit.routine call small) ran
  have delivered := safe.returned trivial
  rw [List.nil_append] at delivered
  obtain rfl : moved = reader.output.take (call.reported result) := delivered.took.taken
  refine ⟨delivered, ?_, ?_⟩
  · have counter : own' = own + _ := delivered.took.at'.counter
    have whole : reader.output.length = _ := delivered.took.whole
    rw [counter, List.length_take_of_le (whole ▸ delivered.took.bounded)]
  · simp only [List.length_nil, Nat.zero_add] at places
    exact places

theorem ConsumerReached.fit (reached : ConsumerReached bytes core own) : ConsumerCore.Fit bytes core own := by
  induction reached with
  | new ran =>
    obtain ⟨sound, ended⟩ := (ConsumerCore.new_fit bytes _).runs trivial ran
    exact ended.returned sound
  | call _ small ran ih =>
    obtain ⟨delivered, -, -⟩ := ih.delivered small ran
    obtain ⟨capacity, cursor, window, tail, -, final, -⟩ := delivered.took.at'
    exact ⟨ih.accepted, capacity, by rw [cursor, capacity]; exact Nat.mod_lt _ ih.place.capacity_pos, capacity ▸ window, tail,
      final⟩

end Consumers

/-- A hostile peer can neither make an end panic nor lead it out of the ring. The private state stays consistent,
the own counter moves by exactly what is reported, no call reports more than it was given, and only
`read_exact_or_eof` may report more than the ring holds. Once the end was seen, no other head is accepted. -/
theorem hostile_peer_tolerated : (∀ bytes core own, ProducerReached bytes core own →
      (core.cursor < core.channel.capacity ∧ (core.head - core.tailShadow).toNat ≤ core.channel.capacity) ∧
      ∀ call : ProducerCall, call.input.length ≤ isizeMax →
        (∀ trace op rest own', Runs (hostile bytes headOffset) (call.routine core) own trace (.ask op rest) own' →
          Allowed bytes headOffset op) ∧
        ∀ trace result core' own', Runs (hostile bytes headOffset) (call.routine core) own trace (.ret (result, core')) own' →
          ¬Panics result ∧ own' = own + .ofNat (call.reported result) ∧ call.reported result ≤ call.input.length ∧
          ∀ reply, result = .ok reply → ProducerCore.replyBytes reply ≤ core.channel.capacity) ∧
    ∀ bytes core own, ConsumerReached bytes core own →
      (core.cursor < core.channel.capacity ∧ (core.headShadow - core.tail).toNat ≤ core.channel.capacity) ∧
      ∀ call : ConsumerCall, call.output.length ≤ isizeMax → (∀ trace op rest own',
          Runs (hostile bytes tailOffset) (call.routine ⟨core, call.output⟩) own trace (.ask op rest) own' →
          Allowed bytes tailOffset op) ∧ ∀ trace result reader own',
          Runs (hostile bytes tailOffset) (call.routine ⟨core, call.output⟩) own trace (.ret (result, reader)) own' →
          ¬Panics result ∧ own' = own + .ofNat (call.reported result) ∧ call.reported result ≤ call.output.length ∧
          (∀ reply, result = .ok reply → (∀ turns output deadline, call ≠ .readExactOrEof turns output deadline) →
            Reader.replyBytes reply ≤ core.channel.capacity) ∧
          ∀ head, core.eofHead = some head → reader.core.eofHead = some head ∧ reader.core.headShadow = head := by
  constructor
  · intro bytes core own reached
    have fit := reached.fit
    refine ⟨⟨fit.cursor, fit.window⟩, fun call small => ⟨?_, ?_⟩⟩
    · intro trace op rest own' ran
      obtain ⟨moved, safe, -⟩ := runs_tracked (fit.routine call small) ran
      exact (safe _ rfl trivial).1.allowed
    · intro trace result core' own' ran
      obtain ⟨answered, moved, -⟩ := fit.answered small ran
      refine ⟨answered.calm, moved, answered.wrote.bounded, ?_⟩
      rintro reply rfl
      rw [fit.capacity]
      exact (answered.backed reply rfl).few
  · intro bytes core own reached
    have fit := reached.fit
    refine ⟨⟨fit.cursor, fit.window⟩, fun call small => ⟨?_, ?_⟩⟩
    · intro trace op rest own' ran
      obtain ⟨moved, safe, -⟩ := runs_tracked (fit.routine call small) ran
      exact (safe _ rfl trivial).1.allowed
    · intro trace result reader own' ran
      obtain ⟨delivered, moved, -⟩ := fit.delivered small ran
      refine ⟨delivered.calm, moved, delivered.took.bounded, ?_, fun head isSeen => ?_⟩
      · rintro reply rfl other
        rw [fit.capacity]
        exact (delivered.backed reply rfl).few other
      · have kept := delivered.took.at'.kept head isSeen
        exact ⟨kept, delivered.took.at'.final head kept⟩

/-- What a call reports is what it has done, in every run and wherever it fails: the own counter has moved by just that
much, and the bytes that went through the ring are the first ones of the buffer, in order and in consecutive places. -/
theorem partial_progress_exact : (∀ bytes core own, ProducerReached bytes core own →
      ∀ call : ProducerCall, call.input.length ≤ isizeMax → ∀ trace result core' own',
        Runs (hostile bytes headOffset) (call.routine core) own trace (.ret (result, core')) own' →
          call.reported result ≤ call.input.length ∧ own' = own + .ofNat (call.reported result) ∧
          moves trace = (call.input.take (call.reported result)).mapIdx fun k =>
            .put (headerBytes + (core.cursor + k) % core.channel.capacity)) ∧
    ∀ bytes core own, ConsumerReached bytes core own →
      ∀ call : ConsumerCall, call.output.length ≤ isizeMax → ∀ trace result reader own',
        Runs (hostile bytes tailOffset) (call.routine ⟨core, call.output⟩) own trace (.ret (result, reader)) own' →
          reader.output.length = call.output.length ∧ call.reported result ≤ call.output.length ∧
          own' = own + .ofNat (call.reported result) ∧
          moves trace = (reader.output.take (call.reported result)).mapIdx fun k =>
            .take (headerBytes + (core.cursor + k) % core.channel.capacity) := by
  constructor
  · intro bytes core own reached call small trace result core' own' ran
    have fit := reached.fit
    obtain ⟨answered, moved, places⟩ := fit.answered small ran
    rw [fit.capacity]
    exact ⟨answered.wrote.bounded, moved, places⟩
  · intro bytes core own reached call small trace result reader own' ran
    have fit := reached.fit
    obtain ⟨delivered, moved, places⟩ := fit.delivered small ran
    rw [fit.capacity]
    exact ⟨delivered.took.whole, delivered.took.bounded, moved, places⟩

def generousPeer : (op : Op) → UInt64 → Op.Answer op × UInt64
  | .load32 _, tail => (0, tail)
  | .load64 offset, tail => (if offset = headOffset then tail + 3968 else tail, tail)
  | .store32 _ _, tail => ((), tail)
  | .store64 _ _, tail => ((), tail)
  | .publish _ value _, _ => ((), value)
  | .readByte _, tail => (0, tail)
  | .writeByte _ _, tail => ((), tail)
  | .notify, tail => (.ok (), tail)
  | .acknowledge, tail => (.ok (), tail)
  | .wait _, tail => (.ok (some false), tail)

theorem runs_of_alone {α σ : Type} {perform : (op : Op) → σ → Op.Answer op × σ} {x : Program Transport α} {s t : σ}
    {value : α}
    (h : x.alone (I := Transport) perform s = some (value, t)) (bytes ownOffset : Nat) (own : UInt64) :
    ∃ trace own', Runs (hostile bytes ownOffset) x own trace (.ret value) own' := by
  induction x generalizing s own with
  | ret =>
    cases h
    exact ⟨[], own, .none⟩
  | ask op _ ih =>
    obtain ⟨_, own', runs⟩ := ih (perform op s).1 h (ownAfter own op)
    exact ⟨_, own', .step rfl runs⟩
  | cut => cases h

theorem runs_new_of_alone {α σ : Type} {perform : (op : Op) → σ → Op.Answer op × σ} {x : Program Transport α} {s t : σ} {value : α}
    (h : x.alone (I := Transport) perform s = some (value, t)) : ∃ trace, Runs anyone x () trace (.ret value) () := by
  induction x generalizing s with
  | ret =>
    cases h
    exact ⟨[], .none⟩
  | ask op _ ih =>
    obtain ⟨_, runs⟩ := ih (perform op s).1 h
    exact ⟨_, .step trivial runs⟩
  | cut => cases h

/-- A consumer that was set up in the smallest mapping, with a full ring before it. -/
def freshConsumer : ConsumerCore := ⟨⟨3968, none⟩, 0, 3968, 0, none, true, false⟩

theorem freshConsumer_reached : ConsumerReached 4096 freshConsumer 0 := by
  have done : (ConsumerCore.new 4096 true ()).alone (I := Transport) generousPeer 0 = some ((.ok freshConsumer, ()), 0) := by
    decide +kernel
  obtain ⟨_, ran⟩ := runs_new_of_alone done
  exact .new ran

theorem freshConsumer_runs (call : ConsumerCall) (result : Outcome IoError ConsumerReply)
    (done : ((call.routine ⟨freshConsumer, call.output⟩).alone (I := Transport) generousPeer 0).map
      (fun ended => ended.1.1) = some result) :
    ∃ trace reader own', Runs (hostile 4096 tailOffset) (call.routine ⟨freshConsumer, call.output⟩) 0 trace
      (.ret (result, reader)) own' := by
  obtain ⟨⟨⟨_, reader⟩, _⟩, ended, rfl⟩ := Option.map_eq_some_iff.mp done
  obtain ⟨trace, own', ran⟩ := runs_of_alone ended 4096 tailOffset 0
  exact ⟨trace, reader, own', ran⟩

theorem hostile_peer_tolerated_read : ∃ trace reader own', Runs (hostile 4096 tailOffset)
    ((ConsumerCall.read [0, 0]).routine ⟨freshConsumer, [0, 0]⟩) 0 trace (.ret (.ok (.count 2), reader)) own' ∧
      own' = 0 + 2 := by
  obtain ⟨trace, reader, own', ran⟩ := freshConsumer_runs (.read [0, 0]) (.ok (.count 2)) (by decide +kernel)
  obtain ⟨_, calls⟩ := hostile_peer_tolerated.2 4096 _ 0 freshConsumer_reached
  exact ⟨trace, reader, own', ran, ((calls (.read [0, 0]) (by decide)).2 _ _ _ _ ran).2.1⟩

theorem partial_progress_exact_read : ∃ trace reader own', Runs (hostile 4096 tailOffset)
    ((ConsumerCall.read [0, 0]).routine ⟨freshConsumer, [0, 0]⟩) 0 trace (.ret (.ok (.count 2), reader)) own' ∧
      moves trace = (reader.output.take 2).mapIdx fun k => .take (headerBytes + (0 + k) % 3968) := by
  obtain ⟨trace, reader, own', ran⟩ := freshConsumer_runs (.read [0, 0]) (.ok (.count 2)) (by decide +kernel)
  obtain ⟨_, _, _, places⟩ :=
    partial_progress_exact.2 4096 _ 0 freshConsumer_reached (.read [0, 0]) (by decide) _ _ _ _ ran
  exact ⟨trace, reader, own', ran, places⟩

/-- `read_exact_or_eof` reads a longer output in several parts and reports their sum. -/
theorem readExactOrEof_exceeds_capacity : ConsumerReached 4096 freshConsumer 0 ∧ ∃ trace reader own',
      Runs (hostile 4096 tailOffset)
        ((ConsumerCall.readExactOrEof 2 (List.replicate 3969 0) 0).routine ⟨freshConsumer, List.replicate 3969 0⟩) 0 trace
        (.ret (.ok (.count 3969), reader)) own' ∧ freshConsumer.channel.capacity < 3969 := by
  obtain ⟨trace, reader, own', ran⟩ := freshConsumer_runs
    (.readExactOrEof 2 (List.replicate 3969 0) 0) (.ok (.count 3969)) (by decide +kernel)
  exact ⟨freshConsumer_reached, trace, reader, own', ran, by decide⟩

end Halcyon.Runnel
