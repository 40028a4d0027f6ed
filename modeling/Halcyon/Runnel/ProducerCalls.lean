import Halcyon.Runnel.Rules

/-!
The calls of a producer, whatever its peer may do. What a peer means for `writable`, for the copy of a chunk and for the
end of the stream is stated as rules; the calls and their loops follow from the rules.
-/

namespace Halcyon.Runnel

open ProducerCore Channel Routine List

/-- How a producer stands on the shared state: what it knows between two accesses, the room it has seen, and what it has
sent. It may say that the ring is broken only with an excuse, and end the stream or send bytes only as it is allowed. -/
structure ProducerView (σ : Type) where
  At : ProducerCore → σ → Prop
  Room : ProducerCore → Nat → σ → Prop
  sent : σ → Bytes
  capacity : Nat
  excuse : Prop
  ends : Prop
  allowed : Bytes → Prop

variable {σ : Type}

/-- A call has sent the first `count` bytes of its input behind what was there. -/
structure Wrote (view : ProducerView σ) (base input : Bytes) (count : Nat) (core : ProducerCore) (s : σ) : Prop where
  at' : view.At core s
  bounded : count ≤ input.length
  sent : view.sent s = base ++ input.take count

structure Stuck (view : ProducerView σ) (base input : Bytes) (io : IoError) (core : ProducerCore) (s : σ) : Prop where
  wrote : Wrote view base input io.completed core s
  recorded : core.channel.Recorded io

structure HasRoom (view : ProducerView σ) (base input : Bytes) (core : ProducerCore) (room : Nat) (core' : ProducerCore)
    (s : σ) : Prop where
  wrote : Wrote view base input 0 core' s
  eof : core'.eof = core.eof
  room : view.Room core' room s

namespace ProducerView

/-- What the producer knows stays true among the accesses of its peer. -/
structure Stands (setting : Setting Transport σ) (view : ProducerView σ) : Prop where
  stable : ∀ {core s t}, setting.rely s t → view.At core s → view.At core t
  roomStable : ∀ {core room s t}, setting.rely s t → view.Room core room s → view.Room core room t
  kept : ∀ {s t}, setting.rely s t → view.sent t = view.sent s
  broken : ∀ {core s}, view.At core s → core.channel.terminal = some .broken → view.excuse
  rechannel : ∀ {core channel s}, view.At core s → channel.capacity = core.channel.capacity →
    (channel.terminal = some .broken → view.excuse) → view.At { core with channel } s
  established : ∀ {core s}, view.At core s → view.At { core with peerEstablished := true } s
  full : ∀ {core s}, view.At core s → core.channel.capacity = view.capacity
  few : ∀ {core room s}, setting.inv s → view.At core s → view.Room core room s → room ≤ view.capacity
  notify : Quiet setting .notify
  acknowledge : Quiet setting .acknowledge
  wait : ∀ deadline, Quiet setting (.wait deadline)

structure Rules (setting : Setting Transport σ) (view : ProducerView σ) : Prop extends Stands setting view where
  writable : ∀ {base input core s}, setting.inv s → Wrote view base input 0 core s →
    Calls setting (Stuck view base input) (HasRoom view base input core) (writable core) s
  store : ∀ {base input count room core s}, setting.inv s → Wrote view base input 0 core s → core.eof = false →
    view.Room core room s → count ≤ room → count ≤ input.length → view.allowed (base ++ input.take count) →
    Calls setting (Stuck view base input) (fun _ core' t => core'.eof = false ∧ Wrote view base input count core' t)
      (store (input.take count) core) s
  finish : ∀ {base input core s}, Wrote view base input 0 core s → view.ends →
    Calls setting (Stuck view base input) (fun _ core' t => core'.eof = true ∧ Wrote view base input 0 core' t)
      ((do store32 eofOffset 1; inChannel (Channel.notify 0) : Io _ _) { core with eof := true }) s

variable {setting : Setting Transport σ} {view : ProducerView σ} {α : Type} {core : ProducerCore} {s t : σ}
  {base input : Bytes} {count deadline : Nat}

namespace Stands

variable (stands : Stands setting view)
include stands

theorem wrote (wrote : Wrote view base input count core s) (others : setting.rely s t) :
    Wrote view base input count core t :=
  ⟨stands.stable others wrote.at', wrote.bounded, (stands.kept others).trans wrote.sent⟩

theorem inChannel {x : Io Channel Unit} (sound : setting.inv s) (wrote : Wrote view base input count core s)
    (safe : Calls setting (Blamed setting count core.channel s) (Kept setting core.channel s) (x core.channel) s) :
    Calls setting (Stuck view base input) (fun _ core' t => core' = core ∧ Wrote view base input count core t)
      (ProducerCore.inChannel x core) s := by
  refine calls_zoom sound safe ?_ ?_
  · rintro _ channel t ⟨rfl, others⟩
    exact ⟨rfl, stands.wrote wrote others⟩
  · rintro io channel t ⟨rfl, same, recorded, terminal, relied⟩
    have now := stands.wrote wrote relied
    have broken := stands.broken wrote.at'
    exact ⟨⟨stands.rechannel now.at' same fun said => broken (terminal said), now.bounded, now.sent⟩, recorded⟩

theorem fails {Q : α → ProducerCore → σ → Prop} (error : RunnelError) (wrote : Wrote view base input 0 core s)
    (excused : error = .broken → view.excuse) :
    Calls setting (Stuck view base input) Q (ProducerCore.inChannel (Channel.fail error 0) core) s := by
  intro t others sound
  have now := stands.wrote wrote others
  exact ⟨⟨stands.rechannel now.at' rfl (getD_broken (stands.broken wrote.at') excused), now.bounded, now.sent⟩, .inr rfl⟩

theorem notifies (sound : setting.inv s) (wrote : Wrote view base input count core s) :
    Calls setting (Stuck view base input) (fun _ core' t => core' = core ∧ Wrote view base input count core t)
      (ProducerCore.inChannel (Channel.notify count) core) s :=
  stands.inChannel sound wrote (notify_safe stands.notify _ _ _)

end Stands

def Backed (view : ProducerView σ) (core : ProducerCore) (s : σ) : ProducerReply → Prop
  | .count bytes => bytes ≤ view.capacity
  | .ready (some (.writable bytes)) => bytes ≤ view.capacity
  | .ready (some .eofConsumed) => core.eof = true ∧ view.Room core view.capacity s
  | _ => True

namespace Rules

variable (rules : Rules setting view)
include rules

theorem backed {reply : ProducerReply} (backed : view.Backed core s reply) (others : setting.rely s t) :
    view.Backed core t reply := by
  match reply with
  | .ready (some .eofConsumed) => exact ⟨backed.1, rules.roomStable others backed.2⟩
  | .count _ | .done | .ready none | .ready (some .peerAttached) | .ready (some (.writable _)) => exact backed

section Calls

variable (sound : setting.inv s) (wrote : Wrote view base input 0 core s)
include sound wrote

theorem writes (allowed : ∀ count, view.allowed (base ++ input.take count))
    (asked : core.eof = true → input ≠ [] → view.excuse) : Calls setting (Stuck view base input)
      (fun count core' t => core'.eof = core.eof ∧ count ≤ view.capacity ∧ Wrote view base input count core' t)
      (write input core) s := by
  unfold write
  refine safe_then sound (rules.inChannel sound wrote (check_safe _ _)) ?_
  rintro _ core s sound ⟨rfl, wrote⟩
  refine safe_ite (fun _ t others _ => ⟨rfl, Nat.zero_le _, rules.wrote wrote others⟩) fun filled => ?_
  rw [get_bind]
  have some : input ≠ [] := fun none => filled (isEmpty_iff.mpr none)
  refine safe_ite (fun ended => rules.fails _ wrote fun _ => asked ended some) fun ended => ?_
  refine safe_then sound (rules.writable sound wrote) ?_
  rintro room fresh s sound ⟨wrote, same, free⟩
  have bounded : min room input.length ≤ input.length := Nat.min_le_right _ _
  refine safe_ite (fun none t others _ => ⟨same, ?_, none ▸ rules.wrote wrote others⟩) fun _ => ?_
  · rw [none]
    exact Nat.zero_le _
  rw [lift_bind (slice_returns (Nat.zero_le _) bounded), drop_zero]
  have few := Nat.le_trans (Nat.min_le_left room input.length) (rules.few sound wrote.at' free)
  have open' : fresh.eof = false := same.trans (Bool.not_eq_true _ ▸ ended)
  refine safe_then sound (rules.store sound wrote open' free (Nat.min_le_left _ _) bounded (allowed _)) ?_
  rintro _ last t - ⟨still, wrote⟩ u others -
  exact ⟨still.trans (open'.symm.trans same), few, rules.wrote wrote others⟩

theorem finishes (may : view.ends) : Calls setting (Stuck view base input)
      (fun _ core' t => core'.eof = true ∧ Wrote view base input 0 core' t) (ProducerCore.finish core) s := by
  unfold ProducerCore.finish
  refine safe_then sound (rules.inChannel sound wrote (check_safe _ _)) ?_
  rintro _ core s sound ⟨rfl, wrote⟩
  rw [get_bind]
  refine safe_ite (fun ended t others _ => ⟨ended, rules.wrote wrote others⟩) fun _ => ?_
  refine safe_then sound (rules.writable sound wrote) ?_
  rintro _ core s sound ⟨wrote, -, -⟩
  rw [modify_bind]
  exact rules.finish wrote may

theorem awaitsRoom : Calls setting (Stuck view base input)
      (fun _ core' t => core'.eof = core.eof ∧ Wrote view base input 0 core' t) (awaitRoom deadline core) s := by
  unfold awaitRoom
  refine safe_then sound (rules.inChannel sound wrote (acknowledge_safe rules.acknowledge _ sound)) ?_
  rintro _ core s sound ⟨rfl, wrote⟩
  refine safe_then sound (rules.writable sound wrote) ?_
  rintro room fresh s sound ⟨wrote, same, -⟩
  refine safe_ite (fun _ => ?_) fun _ t others _ => ⟨same, rules.wrote wrote others⟩
  refine safe_returns (rules.inChannel sound wrote (wait_safe (rules.wait deadline) _ sound)) ?_
  rintro _ last t - ⟨rfl, wrote⟩
  exact ⟨same, wrote⟩

theorem probes : Calls setting (Stuck view base input)
      (fun ready core' t => view.Backed core' t (.ready ready) ∧ Wrote view base input 0 core' t) (probeReady core) s := by
  unfold probeReady
  refine safe_then sound (rules.writable sound wrote) ?_
  rintro room core s sound ⟨wrote, -, free⟩
  have few := rules.few sound wrote.at' free
  rw [get_bind]
  refine safe_ite (fun ended t others _ => ⟨?_, rules.wrote wrote others⟩) fun _ => ?_
  · split
    · next whole => exact ⟨ended, rules.roomStable others (rules.full wrote.at' ▸ whole ▸ free)⟩
    · trivial
  · refine safe_ite (fun _ t others _ => ⟨few, rules.wrote wrote others⟩) fun _ t others _ => ?_
    exact ⟨trivial, rules.wrote wrote others⟩

theorem polls {terminal attached : Bool} : Calls setting (Stuck view base input)
      (fun ready core' t => view.Backed core' t (.ready ready) ∧ Wrote view base input 0 core' t)
      (poll terminal attached core) s := by
  unfold poll
  refine safe_ite (fun _ => rules.fails _ wrote nofun) fun _ => ?_
  rw [get_bind]
  refine safe_ite (fun _ t others _ => ?_) fun _ => ?_
  · have now := rules.wrote wrote others
    exact ⟨trivial, rules.established now.at', now.bounded, now.sent⟩
  refine safe_then sound (rules.probes sound wrote) ?_
  rintro ready core s sound ⟨told, wrote⟩
  cases ready with
  | some ready => exact fun t others _ => ⟨rules.backed told others, rules.wrote wrote others⟩
  | none =>
    refine safe_then sound (rules.inChannel sound wrote (acknowledge_safe rules.acknowledge _ sound)) ?_
    rintro _ core s sound ⟨rfl, wrote⟩
    exact rules.probes sound wrote

end Calls

omit rules in
theorem resume {more : Nat} (bounded : count ≤ input.length)
    (later : Wrote view (base ++ input.take count) (input.drop count) more core s) :
    Wrote view base input (count + more) core s := by
  obtain ⟨at', fewer, sent⟩ := later
  rw [length_drop] at fewer
  exact ⟨at', by omega, by rw [sent, take_add, append_assoc]⟩

omit rules in
theorem pause (wrote : Wrote view base input count core s) :
    Wrote view (base ++ input.take count) (input.drop count) 0 core s :=
  ⟨wrote.at', Nat.zero_le _, by rw [wrote.sent, take_zero, append_nil]⟩

omit rules in
theorem resumes {Q : α → ProducerCore → σ → Prop} {x : Io ProducerCore α} (sound : setting.inv s)
    (few : input.length ≤ usizeMax) (bounded : count ≤ input.length)
    (safe : Calls setting (Stuck view (base ++ input.take count) (input.drop count)) Q (x core) s) :
    Calls setting (Stuck view base input) Q (addCompleted count x core) s := by
  refine safe_mapErr sound safe (fun io core t _ stuck => ?_) fun message core t _ stuck => stuck
  have wrote := resume bounded stuck.wrote
  have total := wrote.bounded
  rw [add_returns (by omega), ok_bind]
  exact ⟨Nat.add_comm _ _ ▸ wrote, stuck.recorded⟩

theorem writesAllFrom {turns : Nat} (sound : setting.inv s) (few : input.length ≤ usizeMax)
    (wrote : Wrote view base input count core s) (allowed : ∀ count, view.allowed (base ++ input.take count))
    (asked : core.eof = true → input ≠ [] → view.excuse) :
    Calls setting (Stuck view base input) (fun _ => Wrote view base input input.length)
      (writeAllFrom input deadline turns count core) s := by
  induction turns generalizing core s count with
  | zero => trivial
  | succ turns ih =>
    unfold writeAllFrom
    have bounded := wrote.bounded
    refine safe_ite (fun all t others _ => ?_) fun more => ?_
    · exact Nat.le_antisymm bounded all ▸ rules.wrote wrote others
    · have filled : input ≠ [] := by
        rintro rfl
        exact more (Nat.zero_le _)
      rw [lift_bind (slice_returns bounded (Nat.le_refl _)), take_length]
      refine safe_then sound (resumes sound few bounded (rules.writes sound (pause wrote) (fun more => ?_)
        fun ended _ => asked ended filled)) ?_
      · rw [append_assoc, ← take_add]
        exact allowed _
      rintro written core s sound ⟨same, -, wrote⟩
      have total := resume bounded wrote
      have fewer := total.bounded
      rw [lift_bind (add_returns (by omega))]
      refine safe_then (Q := fun _ core' t => core'.eof = core.eof ∧ Wrote view base input (count + written) core' t)
        sound (resumes sound few fewer (safe_ite (fun none => ?_) fun _ t others _ => ⟨rfl, rules.wrote total others⟩)) ?_
      · refine safe_returns (rules.awaitsRoom sound (pause total)) ?_
        rintro _ core t - ⟨same, wrote⟩
        have resumed := resume fewer wrote
        exact ⟨same, resumed⟩
      · rintro _ core s sound ⟨same', wrote⟩
        exact ih sound wrote fun ended => asked (same ▸ same' ▸ ended)

end Rules

end ProducerView

/-- What a call of the producer returns, after it began with `base` sent. -/
structure Answered (view : ProducerView σ) (base : Bytes) (call : ProducerCall)
    (result : Outcome IoError ProducerReply × ProducerCore) (s : σ) : Prop where
  wrote : Wrote view base call.input (call.reported result.1) result.2 s
  calm : ¬Panics result.1
  recorded : ∀ io, result.1 = .error (.error io) → result.2.channel.Recorded io
  backed : ∀ reply, result.1 = .ok reply → view.Backed result.2 s reply

namespace ProducerView.Rules

variable {setting : Setting Transport σ} {view : ProducerView σ} {core : ProducerCore} {s t : σ} {base : Bytes}
  {call : ProducerCall} (rules : Rules setting view)
include rules

theorem replies {α : Type} {Q : α → ProducerCore → σ → Prop} {x : Io ProducerCore α} {reply : α → ProducerReply}
    (sound : setting.inv s) (safe : Calls setting (Stuck view base call.input) Q (x core) s)
    (returns : ∀ value core t, setting.inv t → Q value core t →
      Wrote view base call.input (call.reported (.ok (reply value))) core t ∧ view.Backed core t (reply value)) :
    Safe setting (Answered view base call) ((do pure (reply (← x)) : Io _ _) core) s := by
  refine calls_reply sound safe ?_ ?_
  · intro value core t u sound others holds
    obtain ⟨wrote, backed⟩ := returns value core t sound holds
    refine ⟨rules.wrote wrote others, by rintro ⟨message, ⟨⟩⟩, nofun, ?_⟩
    rintro _ ⟨⟩
    exact rules.backed backed others
  · intro io core t u others stuck
    have reported : call.reported (.error (.error io)) = io.completed := by cases call <;> rfl
    refine ⟨reported ▸ rules.wrote stuck.wrote others, by rintro ⟨message, ⟨⟩⟩, ?_, nofun⟩
    rintro _ ⟨⟩
    exact stuck.recorded

theorem routine (call : ProducerCall) (few : call.input.length ≤ usizeMax) (sound : setting.inv s) (at' : view.At core s)
    (began : view.sent s = base) (asked : core.eof = true → call.input ≠ [] → view.excuse)
    (may : call = .finish → view.ends) (allowed : ∀ count, view.allowed (base ++ call.input.take count)) :
    Safe setting (Answered view base call) (call.routine core) s := by
  have wrote : Wrote view base call.input 0 core s := ⟨at', Nat.zero_le _, by rw [take_zero, append_nil, began]⟩
  cases call with
  | writable =>
    exact rules.replies sound (rules.writable sound wrote) fun room core t sound roomy =>
      ⟨roomy.wrote, rules.few sound roomy.wrote.at' roomy.room⟩
  | write input =>
    exact rules.replies sound (rules.writes sound wrote allowed asked) fun count core t _ wrote => ⟨wrote.2.2, wrote.2.1⟩
  | finish => exact rules.replies sound (rules.finishes sound wrote (may rfl)) fun _ core t _ wrote => ⟨wrote.2, trivial⟩
  | writeAll turns input deadline =>
    refine rules.replies sound (safe_then sound (rules.inChannel sound wrote (check_safe _ _)) ?_) fun _ core t _ wrote => ⟨wrote, trivial⟩
    rintro _ core s sound ⟨rfl, wrote⟩
    exact rules.writesAllFrom sound few wrote allowed asked
  | poll terminal attached =>
    exact rules.replies sound (rules.polls sound wrote) fun ready core t _ polled => ⟨polled.2, polled.1⟩

end ProducerView.Rules

end Halcyon.Runnel
