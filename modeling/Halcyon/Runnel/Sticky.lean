import Halcyon.Runnel.Hostile

/-! The terminal error: a failed call leaves it behind, and the later calls fail with it at once. -/

namespace Halcyon.Runnel

/-- The call is over before its first access, and reports the error and no progress. -/
def FailsAtOnce {S α : Type} (error : RunnelError) (x : Program Transport (Outcome IoError α × S)) : Prop :=
  ∃ core, x = .ret (.error (.error ⟨error, 0⟩), core)

/-- A producer after a call that failed, not for want of time, and any calls after that. -/
inductive ProducerFailed (bytes : Nat) (error : RunnelError) : ProducerCore → UInt64 → Prop where
  | first {call : ProducerCall} {trace : List ((op : Op) × Op.Answer op)} {core core' : ProducerCore} {own own' : UInt64}
    {completed : Nat} (before : ProducerReached bytes core own) (small : call.input.length ≤ isizeMax)
    (ran : Runs (hostile bytes headOffset) (call.routine core) own trace
      (.ret (.error (.error ⟨error, completed⟩), core')) own') (terminal : error ≠ .timedOut) :
    ProducerFailed bytes error core' own'
  | later {call : ProducerCall} {trace : List ((op : Op) × Op.Answer op)} {core core' : ProducerCore} {own own' : UInt64}
    {result : Outcome IoError ProducerReply} (before : ProducerFailed bytes error core own)
    (ran : Runs (hostile bytes headOffset) (call.routine core) own trace (.ret (result, core')) own') :
    ProducerFailed bytes error core' own'

/-- A consumer after a call that failed, not for want of time, and any calls after that. -/
inductive ConsumerFailed (bytes : Nat) (error : RunnelError) : ConsumerCore → UInt64 → Prop where
  | first {call : ConsumerCall} {trace : List ((op : Op) × Op.Answer op)} {core : ConsumerCore} {reader : Reader}
    {own own' : UInt64} {completed : Nat} (before : ConsumerReached bytes core own) (small : call.output.length ≤ isizeMax)
    (ran : Runs (hostile bytes tailOffset) (call.routine ⟨core, call.output⟩) own trace
      (.ret (.error (.error ⟨error, completed⟩), reader)) own') (terminal : error ≠ .timedOut) :
    ConsumerFailed bytes error reader.core own'
  | later {call : ConsumerCall} {trace : List ((op : Op) × Op.Answer op)} {core : ConsumerCore} {reader : Reader}
    {own own' : UInt64} {result : Outcome IoError ConsumerReply} (before : ConsumerFailed bytes error core own)
    (ran : Runs (hostile bytes tailOffset) (call.routine ⟨core, call.output⟩) own trace (.ret (result, reader)) own') :
    ConsumerFailed bytes error reader.core own'

section Later

variable {bytes : Nat} {error : RunnelError} {own : UInt64}

theorem ProducerCall.ends_at_once {core : ProducerCore} (known : core.channel.terminal = some error) (call : ProducerCall) :
    ∃ result core', call.routine core = .ret (result, core') ∧ core'.channel.terminal = some error := by
  obtain ⟨⟨_, _⟩, _, _, _, _, established⟩ := core
  obtain rfl : _ = some error := known
  cases call with
  | poll terminal attached => cases terminal <;> cases attached <;> cases established <;> exact ⟨_, _, rfl, rfl⟩
  | _ => exact ⟨_, _, rfl, rfl⟩

theorem ConsumerCall.fails_at_once {core : ConsumerCore} (known : core.channel.terminal = some error) (call : ConsumerCall) :
    ∃ reader, call.routine ⟨core, call.output⟩ = .ret (.error (.error ⟨error, 0⟩), reader) ∧ reader.core.channel.terminal = some error := by
  obtain ⟨⟨_, _⟩, _, _, _, _, _, attached⟩ := core
  obtain rfl : _ = some error := known
  cases call with
  | poll terminal => cases terminal <;> exact ⟨_, rfl, rfl⟩
  | _ => exact ⟨_, rfl, rfl⟩

theorem ProducerFailed.terminal {core : ProducerCore} (failed : ProducerFailed bytes error core own) :
    core.channel.terminal = some error := by
  induction failed with
  | first before small ran lasting =>
    obtain ⟨answered, -⟩ := before.fit.answered small ran
    exact (answered.recorded _ rfl).resolve_left lasting
  | @later call _ _ _ _ _ _ _ ran ih =>
    obtain ⟨_, _, ended, known⟩ := call.ends_at_once ih
    rw [ended] at ran
    cases ran
    exact known

theorem ConsumerFailed.terminal {core : ConsumerCore} (failed : ConsumerFailed bytes error core own) :
    core.channel.terminal = some error := by
  induction failed with
  | first before small ran lasting =>
    obtain ⟨delivered, -⟩ := before.fit.delivered small ran
    exact (delivered.recorded _ rfl).resolve_left lasting
  | @later call _ _ _ _ _ _ _ ran ih =>
    obtain ⟨_, ended, known⟩ := call.fails_at_once ih
    rw [ended] at ran
    cases ran
    exact known

end Later

/-- Once a call has failed, not for want of time, every later call fails with the same error, without progress and
without an access. The exception is a poll that tells a producer of its peer for the first time. -/
theorem terminal_errors_stick_iff (bytes : Nat) (error : RunnelError) : (∀ core own, ProducerFailed bytes error core own →
      ∀ call : ProducerCall, FailsAtOnce error (call.routine core) ↔
        ¬(call = .poll false true ∧ core.peerEstablished = false)) ∧
    ∀ core own, ConsumerFailed bytes error core own →
      ∀ call : ConsumerCall, FailsAtOnce error (call.routine ⟨core, call.output⟩) := by
  constructor
  · intro core own failed call
    have known := failed.terminal
    obtain ⟨⟨capacity, _⟩, head, tailShadow, cursor, eof, established⟩ := core
    obtain rfl : _ = some error := known
    cases call with
    | poll terminal attached =>
      cases terminal with
      | true => exact ⟨by rintro _ ⟨⟨⟩, -⟩, fun _ => ⟨_, rfl⟩⟩
      | false =>
        cases attached with
        | false => exact ⟨by rintro _ ⟨⟨⟩, -⟩, fun _ => ⟨_, rfl⟩⟩
        | true =>
          cases established with
          | true => exact ⟨by rintro _ ⟨-, ⟨⟩⟩, fun _ => ⟨_, rfl⟩⟩
          | false =>
            refine ⟨?_, fun other => absurd ⟨rfl, rfl⟩ other⟩
            rintro ⟨_, ended⟩
            cases ended
    | _ => exact ⟨by rintro _ ⟨⟨⟩, -⟩, fun _ => ⟨_, rfl⟩⟩
  · intro core own failed call
    obtain ⟨reader, ended, -⟩ := call.fails_at_once failed.terminal
    exact ⟨reader, ended⟩

/-- A peer that leaves the ring alone until the producer is set up, and then moves the head. -/
def movingPeer (head : UInt64) : (op : Op) → Unit → Op.Answer op × Unit
  | .load32 _, s => (0, s)
  | .load64 _, s => (head, s)
  | .store32 _ _, s | .store64 _ _, s | .publish _ _ _, s | .writeByte _ _, s => ((), s)
  | .readByte _, s => (0, s)
  | .notify, s | .acknowledge, s => (.ok (), s)
  | .wait _, s => (.ok (some false), s)

theorem brokenProducer_failed : ∃ own, ProducerFailed 4096 .broken ⟨⟨3968, some .broken⟩, 0, 0, 0, false, false⟩ own := by
  have created : (ProducerCore.new 4096 true ()).alone (I := Transport) (movingPeer 0) () =
      some ((.ok ⟨⟨3968, none⟩, 0, 0, 0, false, false⟩, ()), ()) := by decide +kernel
  have failed : (ProducerCall.writable.routine ⟨⟨3968, none⟩, 0, 0, 0, false, false⟩).alone (I := Transport)
      (movingPeer 1) () = some ((.error (.error ⟨.broken, 0⟩), ⟨⟨3968, some .broken⟩, 0, 0, 0, false, false⟩), ()) := by
    decide +kernel
  obtain ⟨_, ran⟩ := runs_new_of_alone created
  obtain ⟨_, own, ran'⟩ := runs_of_alone failed 4096 headOffset 0
  exact ⟨own, .first (.new ran) (by decide) ran' (by decide)⟩

theorem terminal_errors_stick_iff_write : ∃ core own, ProducerFailed 4096 .broken core own ∧
    FailsAtOnce .broken ((ProducerCall.write [1]).routine core) := by
  obtain ⟨own, failed⟩ := brokenProducer_failed
  exact ⟨_, own, failed, ((terminal_errors_stick_iff 4096 .broken).1 _ own failed _).mpr (by decide)⟩

theorem poll_after_failure : ∃ core own, ProducerFailed 4096 .broken core own ∧ ∃ core',
    (ProducerCall.poll false true).routine core = .ret (.ok (.ready (some .peerAttached)), core') := by
  obtain ⟨own, failed⟩ := brokenProducer_failed
  exact ⟨_, own, failed, _, rfl⟩

end Halcyon.Runnel
