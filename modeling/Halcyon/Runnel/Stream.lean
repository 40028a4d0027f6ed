import Halcyon.Runnel.Opening

/-!
The two ends on one region. A world is the region with both ends on it, each of them between two calls or
somewhere inside of one; an event is a call that begins, a single access, or a call that returns.
-/

namespace Halcyon.Runnel

open List

inductive Producer where
  | attaching (left : Program Transport (Outcome RunnelError ProducerCore × Unit))
  | refused (stop : Stop RunnelError)
  | idle (core : ProducerCore)
  | busy (call : ProducerCall) (left : Program Transport (Outcome IoError ProducerReply × ProducerCore))

inductive Consumer where
  | attaching (left : Program Transport (Outcome RunnelError ConsumerCore × Unit))
  | refused (stop : Stop RunnelError)
  | idle (core : ConsumerCore)
  | busy (call : ConsumerCall) (left : Program Transport (Outcome IoError ConsumerReply × Reader))

def Producer.opened : Outcome RunnelError ProducerCore → Producer
  | .ok core => .idle core
  | .error stop => .refused stop

def Consumer.opened : Outcome RunnelError ConsumerCore → Consumer
  | .ok core => .idle core
  | .error stop => .refused stop

def Producer.input : Producer → Bytes
  | .busy call _ => call.input
  | _ => []

structure World where
  ring : Ring
  producer : Producer
  consumer : Consumer
  /-- What calls of the producer that returned have reported as written. -/
  accepted : Bytes
  /-- What calls of the consumer that returned have put into their outputs. -/
  returned : Bytes
  /-- `finish` was called. -/
  finished : Bool
  /-- The producer was asked to write bytes after the end of the stream. -/
  misused : Bool

inductive Event where
  | produce (call : ProducerCall)
  | consume (call : ConsumerCall)
  | producerAccess (replies : Replies)
  | consumerAccess (replies : Replies)
  | producerReturn
  | consumerReturn

namespace World

variable (world : World)

def produce (call : ProducerCall) (core : ProducerCore) : World :=
  { world with
    producer := .busy call (call.routine core)
    finished := world.finished || call == .finish
    misused := world.misused || (core.eof && !call.input.isEmpty) }

def consume (call : ConsumerCall) (core : ConsumerCore) : World :=
  { world with consumer := .busy call (call.routine ⟨core, call.output⟩) }

/-- An event that the world is not ready for changes nothing. A slice has at most `isize::MAX` bytes. -/
def step : Event → World
  | .produce call =>
    match world.producer with
    | .idle core => if call.input.length ≤ isizeMax then world.produce call core else world
    | _ => world
  | .consume call =>
    match world.consumer with
    | .idle core => if call.output.length ≤ isizeMax then world.consume call core else world
    | _ => world
  | .producerAccess replies =>
    match world.producer with
    | .attaching (.ask op rest) =>
      let (answer, ring) := Ring.perform replies op world.ring
      { world with ring, producer := .attaching (rest answer) }
    | .busy call (.ask op rest) =>
      let (answer, ring) := Ring.perform replies op world.ring
      { world with ring, producer := .busy call (rest answer) }
    | _ => world
  | .consumerAccess replies =>
    match world.consumer with
    | .attaching (.ask op rest) =>
      let (answer, ring) := Ring.perform replies op world.ring
      { world with ring, consumer := .attaching (rest answer) }
    | .busy call (.ask op rest) =>
      let (answer, ring) := Ring.perform replies op world.ring
      { world with ring, consumer := .busy call (rest answer) }
    | _ => world
  | .producerReturn =>
    match world.producer with
    | .attaching (.ret (result, ())) => { world with producer := .opened result }
    | .busy call (.ret (result, core)) =>
      { world with producer := .idle core, accepted := world.accepted ++ call.input.take (call.reported result) }
    | _ => world
  | .consumerReturn =>
    match world.consumer with
    | .attaching (.ret (result, ())) => { world with consumer := .opened result }
    | .busy call (.ret (result, reader)) =>
      { world with
        consumer := .idle reader.core
        returned := world.returned ++ reader.output.take (call.reported result) }
    | _ => world

end World

/-- The ways a world begins: with both ends set up and consistent, wherever the counters are, or with one
end that has just created the ring in whatever memory there was, and the other one about to attach. -/
inductive Starts : Place → World → Prop where
  | running {place : Place} {ring : Ring} {producer : ProducerCore} {consumer : ConsumerCore} (sound : Sound place ring)
    (atProducer : ProducerAt place False producer ring) (atConsumer : ConsumerAt place consumer ring) :
    Starts place ⟨ring, .idle producer, .idle consumer, ring.published, ring.consumed, producer.eof, false⟩
  | producerCreates {bytes : Nat} (accepted : Channel.acceptedSize bytes = true) (replies : Replies) {memory ring : Ring}
    {result : Outcome RunnelError ProducerCore} (unpublished : memory.published = []) (unconsumed : memory.consumed = [])
    (creates : Program.alone (Ring.perform replies) (ProducerCore.new bytes true ()) memory = some ((result, ()), ring)) :
    Starts (.fresh bytes accepted)
      ⟨ring, .opened result, .attaching (ConsumerCore.new bytes false ()), [], [], false, false⟩
  | consumerCreates {bytes : Nat} (accepted : Channel.acceptedSize bytes = true) (replies : Replies) {memory ring : Ring}
    {result : Outcome RunnelError ConsumerCore} (unpublished : memory.published = []) (unconsumed : memory.consumed = [])
    (creates : Program.alone (Ring.perform replies) (ConsumerCore.new bytes true ()) memory = some ((result, ()), ring)) :
    Starts (.fresh bytes accepted)
      ⟨ring, .attaching (ProducerCore.new bytes false ()), .opened result, [], [], false, false⟩

def World.ProducerReports (world : World) (result : Outcome IoError ProducerReply) : Prop :=
  ∃ call core, world.producer = .busy call (.ret (result, core))

def World.ConsumerReports (world : World) (result : Outcome IoError ConsumerReply) : Prop :=
  ∃ call reader, world.consumer = .busy call (.ret (result, reader))

def ProducerHolds (place : Place) (ring : Ring) (accepted : Bytes) (finished misused : Bool) : Producer → Prop
  | .attaching left =>
    ring.published = accepted ∧
    Safe (producing place (finished = true) accepted)
      (Post (fun core _ t => t.published = accepted ∧ ∀ excuse, ProducerAt place excuse core t) fun _ _ _ => False) left ring
  | .refused _ => False
  | .idle core => ring.published = accepted ∧ ProducerAt place (misused = true) core ring
  | .busy call left =>
    (∃ moving, moving <+: call.input ∧ ring.published = accepted ++ moving) ∧
    Safe (producing place (finished = true) (accepted ++ call.input)) (Answered (publishing place (misused = true) (finished = true) (accepted ++ call.input)) accepted call) left ring

def ConsumerHolds (place : Place) (ring : Ring) (returned : Bytes) : Consumer → Prop
  | .attaching left =>
    returned <+: ring.consumed ∧
    Safe (consuming place) (Post (fun core _ t => t.consumed = returned ∧ ConsumerAt place core t) fun _ _ _ => False) left ring
  | .refused _ => False
  | .idle core => ring.consumed = returned ∧ ConsumerAt place core ring
  | .busy call left => returned <+: ring.consumed ∧ Safe (consuming place) (Delivered (reading place) returned call) left ring

structure Holds (place : Place) (world : World) : Prop where
  sound : Sound place world.ring
  producer : ProducerHolds place world.ring world.accepted world.finished world.misused world.producer
  consumer : ConsumerHolds place world.ring world.returned world.consumer
  ended : world.ring.half eofOffset = 1 → world.finished = true

section Interference

variable {place : Place} {s t : Ring} {accepted returned : Bytes} {finished misused : Bool}

theorem ProducerHolds.stable {producer : Producer} (h : ProducerHolds place s accepted finished misused producer)
    (others : Consumes s t) : ProducerHolds place t accepted finished misused producer := by
  cases producer with
  | attaching left => exact ⟨others.published.trans h.1, h.2.relied others⟩
  | refused stop => exact h
  | idle core => exact ⟨others.published.trans h.1, h.2.stable others⟩
  | busy call left =>
    obtain ⟨⟨moving, given, all⟩, safe⟩ := h
    exact ⟨⟨moving, given, others.published.trans all⟩, safe.relied others⟩

theorem ConsumerHolds.stable {consumer : Consumer} (h : ConsumerHolds place s returned consumer) (others : Produces s t) :
    ConsumerHolds place t returned consumer := by
  cases consumer with
  | attaching left | busy call left => exact ⟨others.consumed ▸ h.1, h.2.relied others⟩
  | refused stop => exact h
  | idle core => exact ⟨others.consumed.trans h.1, h.2.stable others⟩

theorem Works.moving {ends : Prop} {limit input moving : Bytes} (works : Works ends limit s t) (given : moving <+: input)
    (all : s.published = accepted ++ moving) (isLimit : limit = accepted ++ input) :
    ∃ moving, moving <+: input ∧ t.published = accepted ++ moving := by
  obtain same | within := works.limited
  · exact ⟨moving, given, same.trans all⟩
  · obtain ⟨more, isMore⟩ := works.produces.published
    rw [all, append_assoc] at isMore
    refine ⟨moving ++ more, ?_, isMore.symm⟩
    rwa [isLimit, ← isMore, prefix_append_right_inj] at within

end Interference

namespace Holds

variable {place : Place} {world : World}

section

variable (h : Holds place world)
include h

theorem works {ends : Prop} {limit : Bytes} {ring : Ring} {producer : Producer}
    (ends_finished : ends → world.finished = true) (works : Works ends limit world.ring ring) (sound : Sound place ring)
    (next : ProducerHolds place ring world.accepted world.finished world.misused producer) :
    Holds place { world with ring, producer } := by
  refine ⟨sound, next, h.consumer.stable works.produces, fun ended => ?_⟩
  obtain same | may := works.eof
  · exact h.ended (same ▸ ended)
  · exact ends_finished may

theorem consumes {ring : Ring} {consumer : Consumer} (others : Consumes world.ring ring)
    (sound : Sound place ring) (next : ConsumerHolds place ring world.returned consumer) :
    Holds place { world with ring, consumer } :=
  ⟨sound, h.producer.stable others, next, fun ended => h.ended (by rwa [others.half] at ended)⟩

theorem produce (call : ProducerCall) : Holds place (world.step (.produce call)) := by
  obtain ⟨ring, producer, consumer, accepted, returned, finished, misused⟩ := world
  cases producer with
  | attaching left | refused stop | busy call left => exact h
  | idle core =>
    show Holds place (if _ then _ else _)
    by_cases small : call.input.length ≤ isizeMax
    · rw [if_pos small]
      obtain ⟨sound, ⟨all, at'⟩, consumer, ended⟩ := h
      have asked : core.eof = true → call.input ≠ [] → (misused || (core.eof && !call.input.isEmpty)) = true := by
        intro beyond filled
        rw [beyond, Bool.true_and, Bool.or_eq_true, Bool.not_eq_true', isEmpty_eq_false_iff]
        exact .inr filled
      have may : call = .finish → (finished || call == .finish) = true := by
        rintro rfl
        exact Bool.or_true _
      have safe := publishing_rules.routine call (Nat.le_trans small isizeMax_le_usizeMax) sound
        (at'.excused fun before => Bool.or_eq_true_iff.mpr (.inl before)) all asked may
        fun count => (prefix_append_right_inj accepted).mpr ( take_prefix count call.input)
      exact ⟨sound, ⟨⟨[], nil_prefix, all.trans (append_nil _).symm⟩, safe⟩, consumer,
        fun stored => Bool.or_eq_true_iff.mpr (.inl (ended stored))⟩
    · rw [if_neg small]
      exact h

theorem consume (call : ConsumerCall) : Holds place (world.step (.consume call)) := by
  obtain ⟨_, _, consumer⟩ := world
  cases consumer with
  | attaching left | refused stop | busy call left => exact h
  | idle core =>
    show Holds place (if _ then _ else _)
    by_cases small : call.output.length ≤ isizeMax
    · rw [if_pos small]
      obtain ⟨sound, producer, ⟨all, at'⟩, ended⟩ := h
      have safe := reading_rules.routine call (Nat.le_trans small isizeMax_le_usizeMax) sound at' all
      exact ⟨sound, producer, ⟨all ▸ prefix_rfl, safe⟩, ended⟩
    · rw [if_neg small]
      exact h

theorem producerAccess (replies : Replies) : Holds place (world.step (.producerAccess replies)) := by
  obtain ⟨_, producer⟩ := world
  cases producer with
  | refused stop | idle core => exact h
  | attaching left =>
    cases left with
    | ret result | cut => exact h
    | ask op rest =>
      obtain ⟨all, safe⟩ := h.producer
      obtain ⟨-, kept, sound, safe⟩ := safe.step h.sound ⟨replies, rfl⟩
      obtain ⟨moving, given, all⟩ := kept.moving nil_prefix (all.trans (append_nil _).symm) (append_nil _).symm
      rw [prefix_nil.mp given, append_nil] at all
      exact h.works id kept sound ⟨all, safe⟩
  | busy call left =>
    cases left with
    | ret result | cut => exact h
    | ask op rest =>
      obtain ⟨⟨moving, given, all⟩, safe⟩ := h.producer
      obtain ⟨-, kept, sound, safe⟩ := safe.step h.sound ⟨replies, rfl⟩
      exact h.works id kept sound ⟨kept.moving given all rfl, safe⟩

theorem consumerAccess (replies : Replies) : Holds place (world.step (.consumerAccess replies)) := by
  obtain ⟨_, _, consumer⟩ := world
  cases consumer with
  | refused stop | idle core => exact h
  | attaching left | busy call left =>
    cases left with
    | ret result | cut => exact h
    | ask op rest =>
      obtain ⟨before, safe⟩ := h.consumer
      obtain ⟨-, kept, sound, safe⟩ := safe.step h.sound ⟨replies, rfl⟩
      exact h.consumes kept sound ⟨before.trans kept.consumed, safe⟩

theorem producerReturn : Holds place (world.step .producerReturn) := by
  obtain ⟨_, producer⟩ := world
  cases producer with
  | refused stop | idle core => exact h
  | attaching left =>
    match left with
    | .ask op rest => exact h
    | .cut => exact h
    | .ret (result, ()) =>
      have returned := h.producer.2.returned h.sound
      cases result with
      | error stop => exact returned.elim
      | ok core => exact ⟨h.sound, ⟨returned.1, returned.2 _⟩, h.consumer, h.ended⟩
  | busy call left =>
    match left with
    | .ask op rest => exact h
    | .cut => exact h
    | .ret (result, core) =>
      have answered := h.producer.2.returned h.sound
      exact ⟨h.sound, ⟨answered.wrote.sent, answered.wrote.at'⟩, h.consumer, h.ended⟩

theorem consumerReturn : Holds place (world.step .consumerReturn) := by
  obtain ⟨_, _, consumer⟩ := world
  cases consumer with
  | refused stop | idle core => exact h
  | attaching left =>
    match left with
    | .ask op rest => exact h
    | .cut => exact h
    | .ret (result, ()) =>
      have attached := h.consumer.2.returned h.sound
      cases result with
      | error stop => exact attached.elim
      | ok core => exact ⟨h.sound, h.producer, attached, h.ended⟩
  | busy call left =>
    match left with
    | .ask op rest => exact h
    | .cut => exact h
    | .ret (result, reader) =>
      have delivered := h.consumer.2.returned h.sound
      exact ⟨h.sound, h.producer, ⟨delivered.took.taken, delivered.took.at'⟩, h.ended⟩

theorem step (event : Event) : Holds place (world.step event) := by
  cases event with
  | produce call => exact h.produce call
  | consume call => exact h.consume call
  | producerAccess replies => exact h.producerAccess replies
  | consumerAccess replies => exact h.consumerAccess replies
  | producerReturn => exact h.producerReturn
  | consumerReturn => exact h.consumerReturn

theorem run (events : List Event) : Holds place (events.foldl World.step world) := by
  induction events generalizing world with
  | nil => exact h
  | cons event rest ih => exact ih (h.step event)

end

end Holds

theorem Fresh.unended {place : Place} {ring : Ring} (fresh : Fresh place ring) : ring.half eofOffset ≠ 1 := by
  rw [fresh.eof]
  decide

theorem Starts.holds {place : Place} {world : World} (starts : Starts place world) : Holds place world := by
  cases starts with
  | @running _ ring producer consumer sound atProducer atConsumer =>
    refine ⟨sound, ⟨rfl, atProducer.excused False.elim⟩, ⟨rfl, atConsumer⟩, fun ended => ?_⟩
    have stored := atProducer.eof.symm.trans ended
    cases known : producer.eof with
    | true => rfl
    | false =>
      rw [known] at stored
      exact absurd stored (by decide)
  | @producerCreates bytes accepted replies memory ring result unpublished unconsumed creates =>
    obtain ⟨core, created, alone, fresh, at'⟩ := producer_created replies accepted unpublished unconsumed
    cases alone.symm.trans creates
    have attaches := consumer_attaches rfl rfl fresh.sound fresh.consumed
    exact ⟨fresh.sound, ⟨fresh.published, at' _⟩, ⟨ nil_prefix, attaches⟩, fun ended => absurd ended fresh.unended⟩
  | @consumerCreates bytes accepted replies memory ring result unpublished unconsumed creates =>
    obtain ⟨core, created, alone, fresh, at'⟩ := consumer_created replies accepted unpublished unconsumed
    cases alone.symm.trans creates
    have attaches := @producer_attaches (.fresh bytes accepted) (false = true) [] _ rfl rfl fresh
    refine ⟨fresh.sound, ⟨fresh.published, ?_⟩, ⟨fresh.consumed, at'⟩, fun ended => absurd ended fresh.unended⟩
    exact Routine.safe_mono attaches (fun core _ t _ attached => ⟨attached.1.published, attached.2⟩) fun _ _ _ _ => id

/-- What holds in the middle of any run, where the call in progress has published `moving`. -/
structure World.Streams (place : Place) (moving : Bytes) (world : World) : Prop where
  given : moving <+: world.producer.input
  ordered : world.returned <+: world.accepted ++ moving
  unread : (world.ring.word headOffset - world.ring.word tailOffset).toNat =
    (world.accepted ++ moving).length - world.ring.consumed.length
  bounded : (world.ring.word headOffset - world.ring.word tailOffset).toNat ≤ place.capacity
  producerUnbroken : ∀ io, world.ProducerReports (.error (.error io)) → io.error = .broken → world.misused = true
  consumerUnbroken : ∀ io, world.ConsumerReports (.error (.error io)) → io.error ≠ .broken
  attached : (∀ stop, world.producer ≠ .refused stop) ∧ ∀ stop, world.consumer ≠ .refused stop
  drained : world.ConsumerReports (.ok (.reached true)) ∨ world.ConsumerReports (.ok (.ready (some .eofDrained))) →
    world.finished = true ∧ world.returned = world.accepted ++ moving
  consumed : world.ProducerReports (.ok (.ready (some .eofConsumed))) →
    world.finished = true ∧ world.ring.consumed = world.accepted ++ moving

section Streams

variable {place : Place} {world : World}

section

variable (h : Holds place world)
include h

theorem Holds.moving : ∃ moving, moving <+: world.producer.input ∧ world.ring.published = world.accepted ++ moving := by
  obtain ⟨_, producer⟩ := world
  cases producer with
  | attaching left | idle core => exact ⟨[], prefix_rfl, h.producer.1.trans (append_nil _).symm⟩
  | refused stop => exact h.producer.elim
  | busy call left => exact h.producer.1

theorem Holds.returned : world.returned <+: world.ring.consumed := by
  obtain ⟨_, _, consumer⟩ := world
  cases consumer with
  | attaching left => exact h.consumer.1
  | refused stop => exact h.consumer.elim
  | idle core => exact h.consumer.1 ▸ prefix_rfl
  | busy call left => exact h.consumer.1

theorem Holds.answered {call : ProducerCall} {result : Outcome IoError ProducerReply} {core : ProducerCore}
    (reports : world.producer = .busy call (.ret (result, core))) :
    Answered (publishing place (world.misused = true) (world.finished = true) (world.accepted ++ call.input))
      world.accepted call (result, core) world.ring := by
  have producer := h.producer
  rw [reports] at producer
  exact producer.2.returned h.sound

theorem Holds.delivered {call : ConsumerCall} {result : Outcome IoError ConsumerReply} {reader : Reader}
    (reports : world.consumer = .busy call (.ret (result, reader))) :
    Delivered (reading place) world.returned call (result, reader) world.ring := by
  have consumer := h.consumer
  rw [reports] at consumer
  exact consumer.2.returned h.sound

theorem Holds.drained {call : ConsumerCall} {result : Outcome IoError ConsumerReply} {reader : Reader} {published : Bytes}
    (reports : world.consumer = .busy call (.ret (result, reader))) (told : Drained world.ring)
    (none : call.reported result = 0) (all : world.ring.published = published) :
    world.finished = true ∧ world.returned = published := by
  have consumed : world.ring.consumed = _ := (h.delivered reports).took.taken
  rw [none, take_zero, append_nil] at consumed
  exact ⟨h.ended told.1, by rw [← consumed, told.2, all]⟩

theorem Holds.streams : ∃ moving, world.Streams place moving := by
  obtain ⟨moving, given, all⟩ := h.moving
  have small := place.capacity_small
  have taken := h.sound.taken.length_le
  have room := h.sound.room
  have unread : (world.ring.word headOffset - world.ring.word tailOffset).toNat =
      world.ring.published.length - world.ring.consumed.length := by
    rw [h.sound.head, h.sound.tail]
    exact counter_sub _ taken (by omega)
  refine ⟨moving, given, all ▸ h.returned.trans h.sound.taken, all ▸ unread, by omega, ?_, ?_, ⟨?_, ?_⟩, ?_, ?_⟩
  · rintro io ⟨call, core, reports⟩
    have answered := h.answered reports
    exact fun said => publishing_stands.broken answered.wrote.at' ((answered.recorded io rfl).broken said)
  · rintro io ⟨call, reader, reports⟩
    have delivered := h.delivered reports
    exact fun said => reading_stands.broken delivered.took.at' ((delivered.recorded io rfl).broken said)
  · intro stop refused
    have producer := h.producer
    rw [refused] at producer
    exact producer
  · intro stop refused
    have consumer := h.consumer
    rw [refused] at consumer
    exact consumer
  · rintro (⟨call, reader, reports⟩ | ⟨call, reader, reports⟩)
    · have none : call.reported (.ok (.reached true)) = 0 := by cases call <;> rfl
      exact h.drained reports ((h.delivered reports).backed _ rfl rfl) none all
    · have none : call.reported (.ok (.ready (some .eofDrained))) = 0 := by cases call <;> rfl
      exact h.drained reports ((h.delivered reports).backed _ rfl) none all
  · rintro ⟨call, core, reports⟩
    obtain ⟨ended, same⟩ := (h.answered reports).drained h.sound
    exact ⟨h.ended ended, same.trans all⟩

end

/-- Bytes come out in the order they went in, whatever the accesses of the two ends are interleaved with:
the counters may start anywhere, and either end may create the ring. Only a producer that is asked to write
after the end of the stream is told that the ring is broken. -/
theorem byte_stream (starts : Starts place world) (events : List Event) :
    ∃ moving, (events.foldl World.step world).Streams place moving :=
  (starts.holds.run events).streams

end Streams

def Ring.wrapping : Ring where
  half offset := if offset = 0 then magic else if offset = 4 then versionHeader else 0
  word offset := if offset = 8 then 4096 else if offset = 0x10 then 3968 else 0xffffffffffffffff
  byte _ := 0
  published := []
  consumed := []

def Place.wrapping : Place := ⟨4096, 0xffffffffffffffff, 3967, by decide⟩

def World.wrapping : World := ⟨.wrapping, .idle ⟨⟨3968, none⟩, 0xffffffffffffffff, 0xffffffffffffffff, 3967, false, true⟩,
    .idle ⟨⟨3968, none⟩, 0xffffffffffffffff, 0xffffffffffffffff, 3967, none, true, true⟩, [], [], false, false⟩

theorem wrapping_starts : Starts .wrapping .wrapping := by
  refine @Starts.running .wrapping .wrapping _ _
    ⟨⟨rfl, rfl, rfl⟩, ⟨rfl, rfl⟩, rfl, rfl, prefix_rfl, Nat.zero_le _, nofun, .inl rfl⟩
    ⟨rfl, nofun, rfl, rfl, rfl, 0, Nat.zero_le _, rfl, Nat.zero_le _⟩
    ⟨rfl, nofun, rfl, rfl, ⟨0, Nat.zero_le _, Nat.zero_le _, rfl⟩, nofun⟩

def Replies.fine : Replies := ⟨.ok (), .ok (), .ok (some false)⟩

/-- A call of the producer with so many accesses, and its return. -/
def Event.producing (call : ProducerCall) (accesses : Nat) : List Event :=
  .produce call :: List.replicate accesses (.producerAccess .fine) ++ [.producerReturn]

def Event.consuming (call : ConsumerCall) (accesses : Nat) : List Event :=
  .consume call :: List.replicate accesses (.consumerAccess .fine) ++ [.consumerReturn]

theorem byte_stream_wraps :
    let events := Event.producing (.write [1, 2]) 7 ++ Event.consuming (.read [0, 0, 0]) 7
    (events.foldl World.step .wrapping).returned = [1, 2] ∧
    ∃ moving, (events.foldl World.step .wrapping).Streams .wrapping moving :=
  ⟨rfl, byte_stream wrapping_starts _⟩

/-- A write of one byte after `finish` is reported as a broken ring. -/
theorem write_after_finish_broken : Starts .wrapping .wrapping ∧
    ((Event.producing .finish 5 ++ [Event.produce (.write [1])]).foldl World.step .wrapping).ProducerReports
      (.error (.error ⟨.broken, 0⟩)) :=
  ⟨wrapping_starts, .write [1], _, rfl⟩

end Halcyon.Runnel
