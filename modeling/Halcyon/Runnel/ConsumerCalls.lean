import Halcyon.Runnel.Rules

/-!
The calls of a consumer, whatever its peer may do. What a peer means for `refresh` and for the bytes that are copied out is
stated as rules; the calls and their loops follow from the rules.
-/

namespace Halcyon.Runnel

open Channel Routine List

/-- How a consumer stands on the shared state: what it knows between two accesses, the bytes it has seen, what it takes as
the end, and what it has taken. It may say that the ring is broken only with an excuse. -/
structure ConsumerView (σ : Type) where
  At : ConsumerCore → σ → Prop
  Offered : ConsumerCore → Nat → σ → Prop
  Ended : σ → Prop
  taken : σ → Bytes
  capacity : Nat
  excuse : Prop

variable {σ : Type}

structure Resting (view : ConsumerView σ) (base : Bytes) (core : ConsumerCore) (s : σ) : Prop where
  at' : view.At core s
  taken : view.taken s = base

structure Balked (view : ConsumerView σ) (base : Bytes) (io : IoError) (core : ConsumerCore) (s : σ) : Prop where
  resting : Resting view base core s
  completed : io.completed = 0
  recorded : core.channel.Recorded io

/-- A call has taken the first `count` bytes of its output behind what was taken before. -/
structure Took (view : ConsumerView σ) (base : Bytes) (length count : Nat) (reader : Reader) (s : σ) : Prop where
  at' : view.At reader.core s
  whole : reader.output.length = length
  bounded : count ≤ length
  taken : view.taken s = base ++ reader.output.take count

/-- A call that fails has taken what it says, behind the first `start` bytes. -/
structure Halted (view : ConsumerView σ) (base : Bytes) (length start : Nat) (io : IoError) (reader : Reader) (s : σ) :
    Prop where
  took : Took view base length (start + io.completed) reader s
  recorded : reader.core.channel.Recorded io

theorem Took.filled {view : ConsumerView σ} {base bytes : Bytes} {length start count : Nat} {reader : Reader}
    {core : ConsumerCore} {s t : σ} (took : Took view base length start reader s) (fits : start + count ≤ length)
    (all : bytes.length = count) (at' : view.At core t) (taken : view.taken t = view.taken s ++ bytes) :
    Took view base length (start + count)
      ⟨core, reader.output.take start ++ bytes ++ reader.output.drop (start + count)⟩ t := by
  have whole := took.whole
  have front : (reader.output.take start ++ bytes).length = start + count := by
    rw [length_append, length_take, all]
    omega
  refine ⟨at', ?_, fits, ?_⟩
  · rw [length_append, front, length_drop]
    omega
  · rw [taken, took.taken, ← front, take_left', append_assoc]
    rfl

namespace ConsumerView

/-- What the consumer knows stays true among the accesses of its peer. -/
structure Stands (setting : Setting Transport σ) (view : ConsumerView σ) : Prop where
  stable : ∀ {core s t}, setting.rely s t → view.At core s → view.At core t
  offeredStable : ∀ {core bytes s t}, setting.rely s t → view.Offered core bytes s → view.Offered core bytes t
  endedStable : ∀ {s t}, setting.rely s t → view.Ended s → view.Ended t
  kept : ∀ {s t}, setting.rely s t → view.taken t = view.taken s
  broken : ∀ {core s}, view.At core s → core.channel.terminal = some .broken → view.excuse
  rechannel : ∀ {core channel s}, view.At core s → channel.capacity = core.channel.capacity →
    (channel.terminal = some .broken → view.excuse) → view.At { core with channel } s
  flags : ∀ {core s}, view.At core s → ∀ peerEstablished kernelAttached,
    view.At { core with peerEstablished, kernelAttached } s
  few : ∀ {core bytes s}, setting.inv s → view.Offered core bytes s → bytes ≤ view.capacity
  fewer : ∀ {core bytes more s}, view.Offered core more s → bytes ≤ more → view.Offered core bytes s
  offered : ∀ {core s}, setting.inv s → view.At core s → view.Offered core (core.headShadow - core.tail).toNat s
  ended : ∀ {core s}, setting.inv s → view.At core s → core.eofHead = some core.tail → view.Ended s
  notify : Quiet setting .notify
  acknowledge : Quiet setting .acknowledge
  wait : ∀ deadline, Quiet setting (.wait deadline)

structure Rules (setting : Setting Transport σ) (view : ConsumerView σ) : Prop extends Stands setting view where
  refresh : ∀ {base core s}, setting.inv s → Resting view base core s → Calls setting (Balked view base)
    (fun head core' t => Resting view base core' t ∧ head = core'.headShadow) (ConsumerCore.refresh core) s
  take : ∀ {base length start count reader s}, setting.inv s → Took view base length start reader s →
    view.Offered reader.core count s → start + count ≤ length →
    Calls setting (Halted view base length start) (fun _ => Took view base length (start + count))
      (Reader.take start count reader) s

variable {setting : Setting Transport σ} {view : ConsumerView σ} {α : Type} {core : ConsumerCore} {reader : Reader} {s t : σ}
  {base : Bytes} {length start count deadline : Nat}

namespace Stands

variable (stands : Stands setting view)
include stands

theorem resting (h : Resting view base core s) (others : setting.rely s t) : Resting view base core t :=
  ⟨stands.stable others h.at', (stands.kept others).trans h.taken⟩

theorem took (h : Took view base length count reader s) (others : setting.rely s t) : Took view base length count reader t :=
  ⟨stands.stable others h.at', h.whole, h.bounded, (stands.kept others).trans h.taken⟩

theorem inChannel {x : Io Channel Unit} (sound : setting.inv s) (resting : Resting view base core s)
    (safe : Calls setting (Blamed setting 0 core.channel s) (Kept setting core.channel s) (x core.channel) s) :
    Calls setting (Balked view base) (fun _ core' t => core' = core ∧ Resting view base core t)
      (ConsumerCore.inChannel x core) s := by
  refine calls_zoom sound safe ?_ ?_
  · rintro _ channel t ⟨rfl, others⟩
    exact ⟨rfl, stands.resting resting others⟩
  · rintro io channel t ⟨none, same, recorded, terminal, relied⟩
    have now := stands.resting resting relied
    have broken := stands.broken resting.at'
    exact ⟨⟨stands.rechannel now.at' same fun said => broken (terminal said), now.taken⟩, none, recorded⟩

theorem fails {Q : α → ConsumerCore → σ → Prop} (error : RunnelError) (resting : Resting view base core s)
    (excused : error = .broken → view.excuse) :
    Calls setting (Balked view base) Q (ConsumerCore.inChannel (Channel.fail error 0) core) s := by
  intro t others sound
  have now := stands.resting resting others
  exact ⟨⟨stands.rechannel now.at' rfl (getD_broken (stands.broken resting.at') excused), now.taken⟩, rfl, .inr rfl⟩

theorem notifies (sound : setting.inv s) (took : Took view base length (start + count) reader s) :
    Calls setting (Halted view base length start) (fun _ => Took view base length (start + count))
      (Reader.inCore (ConsumerCore.inChannel (Channel.notify count)) reader) s := by
  refine safe_zoom sound (safe_zoom sound (safe_mono (notify_safe stands.notify _ _ _) ?_ ?_))
  · rintro _ channel t - ⟨rfl, others⟩
    exact stands.took took others
  · intro stop channel t _ blamed
    cases stop with
    | panic message => exact blamed
    | error io =>
      obtain ⟨rfl, same, recorded, terminal, relied⟩ := blamed
      have now := stands.took took relied
      have broken := stands.broken took.at'
      exact ⟨⟨stands.rechannel now.at' same fun said => broken (terminal said), now.whole, now.bounded, now.taken⟩, recorded⟩

end Stands

/-- What a reply says of the ring. Only `read_exact_or_eof` may count more than the ring holds. -/
def Backed (view : ConsumerView σ) (call : ConsumerCall) (s : σ) : ConsumerReply → Prop
  | .count bytes => (∀ turns output deadline, call ≠ .readExactOrEof turns output deadline) → bytes ≤ view.capacity
  | .reached eof => eof = true → view.Ended s
  | .ready (some (.readable bytes _)) => bytes ≤ view.capacity
  | .ready (some .eofDrained) => view.Ended s
  | .ready _ => True

namespace Rules

variable (rules : Rules setting view)
include rules

theorem backed {call : ConsumerCall} {reply : ConsumerReply} (backed : view.Backed call s reply)
    (others : setting.rely s t) : view.Backed call t reply := by
  match reply with
  | .reached eof => exact fun yes => rules.endedStable others (backed yes)
  | .ready (some .eofDrained) => exact rules.endedStable others backed
  | .count _ | .ready none | .ready (some .peerAttached) | .ready (some (.readable _ _)) => exact backed

section Core

variable (sound : setting.inv s) (resting : Resting view base core s)
include sound resting

theorem reads : Calls setting (Balked view base)
      (fun bytes core' t => Resting view base core' t ∧ view.Offered core' bytes t ∧ bytes ≤ view.capacity)
      (ConsumerCore.readable core) s := by
  refine safe_then sound (rules.refresh sound resting) ?_
  rintro head core s sound ⟨resting, rfl⟩ t others _
  have offered := rules.offered sound resting.at'
  exact ⟨rules.resting resting others, rules.offeredStable others offered, rules.few sound offered⟩

theorem reaches : Calls setting (Balked view base)
      (fun reached core' t => Resting view base core' t ∧ (reached = true → view.Ended t)) (ConsumerCore.eofReached core) s := by
  refine safe_then sound (rules.refresh sound resting) ?_
  rintro head core s - ⟨resting, -⟩ t others sound
  have now := rules.resting resting others
  exact ⟨now, fun reached => rules.ended sound now.at' (eq_of_beq reached)⟩

theorem probes {newlyAttached : Bool} (call : ConsumerCall) : Calls setting (Balked view base)
      (fun ready core' t => Resting view base core' t ∧ view.Backed call t (.ready ready))
      (ConsumerCore.probeReady newlyAttached core) s := by
  unfold ConsumerCore.probeReady
  refine safe_then sound (rules.reads sound resting) ?_
  rintro bytes core s sound ⟨resting, -, few⟩
  refine safe_ite (fun _ t others _ => ?_) fun _ => ?_
  · have now := rules.resting resting others
    exact ⟨⟨rules.flags now.at' _ _, now.taken⟩, few⟩
  refine safe_then sound (rules.reaches sound resting) ?_
  rintro reached core s sound ⟨resting, ended⟩
  refine safe_ite (fun yes t others _ => ?_) fun _ => ?_
  · exact ⟨rules.resting resting others, rules.endedStable others (ended yes)⟩
  refine safe_ite (fun _ t others _ => ?_) fun _ t others _ => ⟨rules.resting resting others, trivial⟩
  have now := rules.resting resting others
  exact ⟨⟨rules.flags now.at' _ _, now.taken⟩, trivial⟩

theorem polls {terminal attached : Bool} (call : ConsumerCall) : Calls setting (Balked view base)
      (fun ready core' t => Resting view base core' t ∧ view.Backed call t (.ready ready))
      (ConsumerCore.poll terminal attached core) s := by
  unfold ConsumerCore.poll
  refine safe_ite (fun _ => rules.fails _ resting nofun) fun _ => ?_
  rw [get_bind, modify_bind]
  refine safe_then sound (rules.probes sound ⟨rules.flags resting.at' _ _, resting.taken⟩ call) ?_
  rintro ready core s sound ⟨resting, told⟩
  cases ready with
  | some ready => exact fun t others _ => ⟨rules.resting resting others, rules.backed told others⟩
  | none =>
    refine safe_then sound (rules.inChannel sound resting (acknowledge_safe rules.acknowledge _ sound)) ?_
    rintro _ core s sound ⟨rfl, resting⟩
    exact rules.probes sound resting call

end Core

section Parts

variable (sound : setting.inv s) (took : Took view base length start reader s)
include sound took

omit rules in
theorem inCore {Q : α → ConsumerCore → σ → Prop} {x : Io ConsumerCore α}
    (safe : Calls setting (Balked view (base ++ reader.output.take start))
      (fun value core t => Resting view (base ++ reader.output.take start) core t ∧ Q value core t) (x reader.core) s) :
    Calls setting (Halted view base length start)
      (fun value reader' t => Took view base length start reader' t ∧ Q value reader'.core t) (Reader.inCore x reader) s := by
  refine calls_zoom sound safe ?_ ?_
  · rintro value core t ⟨resting, holds⟩
    exact ⟨⟨resting.at', took.whole, took.bounded, resting.taken⟩, holds⟩
  · rintro io core t ⟨resting, none, recorded⟩
    exact ⟨by rw [none]; exact ⟨resting.at', took.whole, took.bounded, resting.taken⟩, recorded⟩

theorem inChannels {x : Io Channel Unit} (safe : ∀ channel, Calls setting (Blamed setting 0 channel s)
      (Kept setting channel s) (x channel) s) : Calls setting (Halted view base length start)
      (fun _ => Took view base length start) (Reader.inCore (ConsumerCore.inChannel x) reader) s := by
  refine safe_returns (inCore (Q := fun _ _ _ => True) sound took (safe_returns
    (rules.inChannel sound ⟨took.at', took.taken⟩ (safe _)) ?_)) fun _ _ _ _ => And.left
  rintro _ _ t - ⟨rfl, resting⟩
  exact ⟨resting, trivial⟩

theorem readsInto : Calls setting (Halted view base length start)
      (fun count reader' t => Took view base length (start + count) reader' t ∧ count ≤ view.capacity)
      (Reader.read start reader) s := by
  unfold Reader.read
  rw [get_bind, took.whole, lift_bind (subtract_returns took.bounded)]
  refine safe_then sound (rules.inChannels sound took fun _ => check_safe _ _) ?_
  intro _ reader s sound took
  refine safe_ite (fun _ t others _ => ⟨rules.took took others, Nat.zero_le _⟩) fun _ => ?_
  refine safe_then sound (inCore sound took (rules.reads sound ⟨took.at', took.taken⟩)) ?_
  rintro bytes reader s sound ⟨took, offered, few⟩
  refine safe_ite (fun none t others _ => ?_) fun _ => ?_
  · rw [none]
    exact ⟨rules.took took others, Nat.zero_le _⟩
  · have bounded := took.bounded
    have less := Nat.min_le_left bytes (length - start)
    refine safe_then sound (rules.take sound took (rules.fewer offered less) (by omega)) ?_
    exact fun _ reader t _ took u others _ => ⟨rules.took took others, Nat.le_trans less few⟩

theorem awaitsMore : Calls setting (Halted view base length start) (fun _ => Took view base length start)
      (Reader.awaitMore deadline start reader) s := by
  have reaches : ∀ {reader s}, setting.inv s → Took view base length start reader s → _ := fun {reader s} sound took =>
    inCore sound took (rules.reaches sound ⟨took.at', took.taken⟩)
  have reads : ∀ {reader s}, setting.inv s → Took view base length start reader s → _ := fun {reader s} sound took =>
    inCore sound took (rules.reads sound ⟨took.at', took.taken⟩)
  unfold Reader.awaitMore
  rw [get_bind]
  refine safe_ite (fun _ t others _ => rules.took took others) fun _ => ?_
  refine safe_then sound (reaches sound took) ?_
  rintro reached reader s sound ⟨took, -⟩
  refine safe_ite (fun _ t others _ => rules.took took others) fun _ => ?_
  refine safe_then sound (reads sound took) ?_
  rintro bytes reader s sound ⟨took, -⟩
  refine safe_ite (fun _ t others _ => rules.took took others) fun _ => ?_
  refine safe_then sound (rules.inChannels sound took fun _ => acknowledge_safe rules.acknowledge _ sound) ?_
  intro _ reader s sound took
  refine safe_then sound (reads sound took) ?_
  rintro bytes reader s sound ⟨took, -⟩
  refine safe_ite (fun _ t others _ => rules.took took others) fun _ => ?_
  refine safe_then sound (reaches sound took) ?_
  rintro reached reader s sound ⟨took, -⟩
  refine safe_ite (fun _ t others _ => rules.took took others) fun _ => ?_
  refine safe_then sound (rules.inChannels sound took fun _ => wait_safe (rules.wait deadline) _ sound) ?_
  exact fun _ reader t _ took u others _ => rules.took took others

end Parts

omit rules in
theorem resumes {Q : α → Reader → σ → Prop} {x : Io Reader α} (sound : setting.inv s) (few : length ≤ usizeMax)
    (safe : Calls setting (Halted view base length start) Q (x reader) s) :
    Calls setting (Halted view base length 0) Q (addCompleted start x reader) s := by
  refine safe_mapErr sound safe (fun io reader t _ halted => ?_) fun message reader t _ halted => halted
  have total := halted.took.bounded
  have sum : 0 + (io.completed + start) = start + io.completed := by omega
  rw [add_returns (by omega), ok_bind]
  exact ⟨sum ▸ halted.took, halted.recorded⟩

theorem readsExactFrom {turns : Nat} (sound : setting.inv s) (few : length ≤ usizeMax)
    (took : Took view base length start reader s) : Calls setting (Halted view base length 0)
      (fun count => Took view base length count) (Reader.readExactFrom deadline turns start reader) s := by
  induction turns generalizing reader s start with
  | zero => trivial
  | succ turns ih =>
    unfold Reader.readExactFrom
    rw [get_bind]
    refine safe_ite (fun _ t others _ => rules.took took others) fun _ => ?_
    refine safe_then sound (resumes sound few (rules.readsInto sound took)) ?_
    rintro count reader s sound ⟨took, -⟩
    have total := took.bounded
    rw [lift_bind (add_returns (by omega))]
    refine safe_then sound (resumes sound few (rules.awaitsMore sound took)) ?_
    intro more reader s sound took
    exact safe_ite (fun _ => ih sound took) fun _ t others _ => rules.took took others

end Rules

end ConsumerView

/-- What a call of the consumer returns, after it began with `base` taken. -/
structure Delivered (view : ConsumerView σ) (base : Bytes) (call : ConsumerCall)
    (result : Outcome IoError ConsumerReply × Reader) (s : σ) : Prop where
  took : Took view base call.output.length (call.reported result.1) result.2 s
  calm : ¬Panics result.1
  recorded : ∀ io, result.1 = .error (.error io) → result.2.core.channel.Recorded io
  backed : ∀ reply, result.1 = .ok reply → view.Backed call s reply

namespace ConsumerView.Rules

variable {setting : Setting Transport σ} {view : ConsumerView σ} {core : ConsumerCore} {reader : Reader} {s : σ} {base : Bytes}
  {call : ConsumerCall} (rules : Rules setting view)
include rules

theorem replies {α : Type} {Q : α → Reader → σ → Prop} {x : Io Reader α} {reply : α → ConsumerReply}
    (sound : setting.inv s) (safe : Calls setting (Halted view base call.output.length 0) Q (x reader) s)
    (returns : ∀ value reader t, Q value reader t →
      Took view base call.output.length (call.reported (.ok (reply value))) reader t ∧ view.Backed call t (reply value)) :
    Safe setting (Delivered view base call) ((do pure (reply (← x)) : Io _ _) reader) s := by
  refine calls_reply sound safe ?_ ?_
  · intro value reader t u _ others holds
    obtain ⟨took, backed⟩ := returns value reader t holds
    refine ⟨rules.took took others, by rintro ⟨message, ⟨⟩⟩, nofun, ?_⟩
    rintro _ ⟨⟩
    exact rules.backed backed others
  · intro io reader t u others halted
    have reported : call.reported (.error (.error io)) = 0 + io.completed := by
      rw [Nat.zero_add]
      cases call <;> rfl
    refine ⟨reported ▸ rules.took halted.took others, by rintro ⟨message, ⟨⟩⟩, ?_, nofun⟩
    rintro _ ⟨⟩
    exact halted.recorded

theorem routine (call : ConsumerCall) (few : call.output.length ≤ usizeMax) (sound : setting.inv s) (at' : view.At core s)
    (began : view.taken s = base) : Safe setting (Delivered view base call) (call.routine ⟨core, call.output⟩) s := by
  have took : Took view base call.output.length 0 ⟨core, call.output⟩ s :=
    ⟨at', rfl, Nat.zero_le _, by rw [take_zero, append_nil, began]⟩
  have resting : Resting view (base ++ call.output.take 0) core s := ⟨took.at', took.taken⟩
  cases call with
  | readable =>
    exact rules.replies sound (inCore sound took (rules.reads sound resting)) fun bytes reader t offered =>
      ⟨offered.1, fun _ => offered.2.2⟩
  | eofReached =>
    exact rules.replies sound (inCore sound took (rules.reaches sound resting)) fun reached reader t answer => answer
  | read output =>
    refine rules.replies sound (rules.readsInto sound took) fun count reader t read => ⟨?_, fun _ => read.2⟩
    have took := read.1
    rwa [Nat.zero_add] at took
  | readExactOrEof turns output deadline =>
    refine rules.replies sound (safe_then sound (rules.inChannels sound took fun _ => check_safe _ _) ?_)
      fun count reader t read => ⟨read, fun other => absurd rfl (other turns output deadline)⟩
    intro _ reader s sound took
    exact rules.readsExactFrom sound few took
  | poll terminal attached =>
    exact rules.replies sound (inCore sound took (rules.polls sound resting _)) fun ready reader t polled => polled

end ConsumerView.Rules

end Halcyon.Runnel
