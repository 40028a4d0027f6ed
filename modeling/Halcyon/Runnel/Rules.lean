import Halcyon.Runnel.Model

/-! Specifications of the parts both ends share: the terminal error and the system calls. -/

namespace Halcyon.Runnel

open Routine List

variable {σ α : Type} {setting : Setting Transport σ} {s : σ}

/-- An access that does not touch the shared state and is always allowed. -/
structure Quiet (setting : Setting Transport σ) (op : Op) : Prop where
  duty : ∀ t, setting.inv t → setting.duty op t
  still : ∀ t answer u, setting.may op t answer u → u = t
  kept : ∀ t, setting.guarantee t t

theorem safe_quiet {op : Op} {rest : Op.Answer op → Program Transport α} {Q : α → σ → Prop} (quiet : Quiet setting op)
    (later : ∀ t answer, setting.rely s t → setting.inv t → setting.may op t answer t → Safe setting Q (rest answer) t) :
    Safe setting Q (.ask op rest) s := by
  intro t others sound
  refine ⟨quiet.duty t sound, fun answer u does => ?_⟩
  obtain rfl := quiet.still t answer u does
  exact ⟨quiet.kept u, sound, later u answer others sound does⟩

section Payload

variable {ε S : Type} {core : S}

/-- Writing the bytes one after another, each to its place, takes `J` from the number 0 to their number. -/
structure Writes (setting : Setting Transport σ) (J : Nat → σ → Prop) (bytes : Bytes) (place : Nat → Nat) : Prop where
  stable : ∀ k t u, setting.rely t u → J k t → J k u
  turn : ∀ k byte t, bytes[k]? = some byte → setting.inv t → J k t → setting.duty (.writeByte (place k) byte) t ∧
    ∀ u, setting.may (.writeByte (place k) byte) t () u → setting.guarantee t u ∧ setting.inv u ∧ J (k + 1) u

theorem writeBytes_safe {J : Nat → σ → Prop} {offset : Nat} {bytes : Bytes} (sound : setting.inv s) (start : J 0 s)
    (writes : Writes setting J bytes (offset + ·)) :
    Safe setting (Post (fun _ core' t => core' = core ∧ J bytes.length t) fun _ _ _ => False)
      ((writeBytes offset bytes : Routine Transport ε S Unit) core) s := by
  induction bytes generalizing offset s J with
  | nil => exact fun t others _ => ⟨rfl, writes.stable 0 s t others start⟩
  | cons byte rest ih =>
    intro t others sound
    obtain ⟨duty, wrote⟩ := writes.turn 0 byte t rfl sound (writes.stable 0 s t others start)
    refine ⟨duty, fun answer u does => ?_⟩
    obtain ⟨kept, sound, first⟩ := wrote u does
    refine ⟨kept, sound, ih (J := fun k => J (k + 1)) sound first ⟨fun k => writes.stable (k + 1), fun k byte t here => ?_⟩⟩
    have there := writes.turn (k + 1) byte t here
    rwa [← Nat.add_assoc, Nat.add_right_comm] at there

/-- Reading `count` bytes one after another, each from its place, takes `J` from no bytes to those that were read. -/
structure Reads (setting : Setting Transport σ) (J : Bytes → σ → Prop) (count : Nat) (place : Nat → Nat) : Prop where
  stable : ∀ bytes t u, setting.rely t u → J bytes t → J bytes u
  turn : ∀ bytes t, bytes.length < count → setting.inv t → J bytes t → setting.duty (.readByte (place bytes.length)) t ∧
    ∀ byte u, setting.may (.readByte (place bytes.length)) t byte u →
      setting.guarantee t u ∧ setting.inv u ∧ J (bytes ++ [byte]) u

theorem readFrom_safe {J : Bytes → σ → Prop} {offset count total : Nat} {taken : Bytes} (all : taken.length + count = total)
    (start : J taken.reverse s) (reads : Reads setting J total (offset + ·)) :
    Safe setting (Post (fun bytes core' t => core' = core ∧ bytes.length = total ∧ J bytes t) fun _ _ _ => False)
      ((readFrom (offset + taken.length) count taken : Routine Transport ε S Bytes) core) s := by
  induction count generalizing s taken with
  | zero => exact fun t others _ => ⟨rfl, (length_reverse).trans all, reads.stable _ s t others start⟩
  | succ count ih =>
    intro t others sound
    obtain ⟨duty, answers⟩ :=
      reads.turn taken.reverse t (by rw [length_reverse]; omega) sound (reads.stable _ s t others start)
    rw [length_reverse] at duty answers
    refine ⟨duty, fun byte u does => ?_⟩
    obtain ⟨kept, sound, next⟩ := answers byte u does
    refine ⟨kept, sound, @ih u (byte :: taken) (by rw [length_cons]; omega) ?_⟩
    rwa [reverse_cons]

theorem readBytes_safe {J : Bytes → σ → Prop} {offset count : Nat} (start : J [] s)
    (reads : Reads setting J count (offset + ·)) :
    Safe setting (Post (fun bytes core' t => core' = core ∧ bytes.length = count ∧ J bytes t) fun _ _ _ => False)
      ((readBytes offset count : Routine Transport ε S Bytes) core) s :=
  @readFrom_safe σ setting s ε S core J offset count count [] (Nat.zero_add count) start reads

end Payload

def Channel.Erring {S : Type} (E : IoError → S → σ → Prop) : Stop IoError → S → σ → Prop
  | .error io, core, t => E io core t
  | .panic _, _, _ => False

/-- A call returns with `Q`, or fails with an error and `E`. -/
abbrev Calls {S : Type} (setting : Setting Transport σ) (E : IoError → S → σ → Prop) (Q : α → S → σ → Prop)
    (x : Program Transport (Outcome IoError α × S)) (s : σ) : Prop := Safe setting (Post Q (Channel.Erring E)) x s

section Calls

variable {S C : Type} {core : S} {E F : IoError → S → σ → Prop}

theorem calls_zoom {part : S → C} {put : S → C → S} {D : IoError → C → σ → Prop} {Q : α → C → σ → Prop}
    {R : α → S → σ → Prop} {x : Io C α} (sound : setting.inv s) (safe : Calls setting D Q (x (part core)) s)
    (returns : ∀ value c t, Q value c t → R value (put core c) t) (fails : ∀ io c t, D io c t → E io (put core c) t) :
    Calls setting E R (zoom part put x core) s := by
  refine safe_zoom sound (safe_mono safe (fun value c t _ => returns value c t) fun stop c t _ failed => ?_)
  cases stop with
  | panic message => exact failed
  | error io => exact fails io c t failed

theorem calls_reply {β : Type} {P : Outcome IoError β × S → σ → Prop} {Q : α → S → σ → Prop} {x : Io S α} {reply : α → β}
    (sound : setting.inv s) (safe : Calls setting E Q (x core) s)
    (returns : ∀ value core t u, setting.inv t → setting.rely t u → Q value core t → P (.ok (reply value), core) u)
    (fails : ∀ io core t u, setting.rely t u → E io core t → P (.error (.error io), core) u) :
    Safe setting P ((do pure (reply (← x)) : Io S β) core) s := by
  refine Safe.fold (fun result t sound held => ?_) sound safe
  obtain ⟨result, core⟩ := result
  have holds := held.returned sound
  match result with
  | .ok value => exact fun u others _ => returns value core t u sound others holds
  | .error (.error io) => exact fun u others _ => fails io core t u others holds
  | .error (.panic message) => exact holds.elim

end Calls

namespace Channel

variable {channel : Channel} {completed : Nat}

/-- The channel is as before, and so is all that only this end changes. -/
def Kept (setting : Setting Transport σ) (channel : Channel) (s : σ) (_ : Unit) (channel' : Channel) (t : σ) : Prop :=
  channel' = channel ∧ setting.rely s t

/-- The channel keeps what a call failed with, unless the call only ran out of time. -/
def Recorded (channel : Channel) (io : IoError) : Prop := io.error = .timedOut ∨ channel.terminal = some io.error

theorem Recorded.broken {io : IoError} (recorded : Recorded channel io) (said : io.error = .broken) :
    channel.terminal = some .broken := by
  rw [Recorded, said] at recorded
  exact recorded.resolve_left (by decide)

/-- A call failed after `completed` bytes, and only a channel that was broken before says that it is broken. -/
structure Blamed (setting : Setting Transport σ) (completed : Nat) (channel : Channel) (s : σ) (io : IoError)
    (channel' : Channel) (t : σ) : Prop where
  completed : io.completed = completed
  capacity : channel'.capacity = channel.capacity
  recorded : Recorded channel' io
  terminal : channel'.terminal = some .broken → channel.terminal = some .broken
  relied : setting.rely s t

variable {t : σ}

theorem getD_broken {P : Prop} {error : RunnelError} (before : channel.terminal = some .broken → P)
    (now : error = .broken → P) : some (channel.terminal.getD error) = some .broken → P := by
  cases known : channel.terminal with
  | none => exact fun said => now (Option.some.inj said)
  | some kept => exact fun said => before (known.trans said)

theorem fail_blamed {Q : α → Channel → σ → Prop} {error : RunnelError} (harmless : error ≠ .broken) (relied : setting.rely s t) :
    Calls setting (Blamed setting completed channel s) Q (fail error completed channel) t := by
  intro u others sound
  exact ⟨rfl, rfl, .inr rfl, getD_broken id fun same => absurd same harmless, setting.rely_trans s t u relied others⟩

theorem check_safe (channel : Channel) (s : σ) :
    Calls setting (Blamed setting 0 channel s) (Kept setting channel s) (check channel) s := by
  unfold check
  rw [get_bind]
  cases known : channel.terminal with
  | none => exact fun t others _ => ⟨rfl, others⟩
  | some error => exact fun t others _ => ⟨rfl, rfl, .inr known, id, others⟩

theorem notify_safe (quiet : Quiet setting .notify) (completed : Nat) (channel : Channel) (s : σ) :
    Calls setting (Blamed setting completed channel s) (Kept setting channel s) (notify completed channel) s := by
  refine safe_quiet quiet fun t answer others sound _ => ?_
  have passed : Calls setting (Blamed setting completed channel s) (Kept setting channel s) (.ret (.ok (), channel))
      t := fun u later _ => ⟨rfl, setting.rely_trans s t u others later⟩
  match answer with
  | .ok () => exact passed
  | .error .objectNotAvailable => exact passed
  | .error .objectClosed => exact fail_blamed (by decide) others
  | .error (.other code) => exact fail_blamed (by simp) others

theorem acknowledge_safe (quiet : Quiet setting .acknowledge) (channel : Channel) (sound : setting.inv s) :
    Calls setting (Blamed setting 0 channel s) (Kept setting channel s) (acknowledge channel) s := by
  refine safe_then sound (check_safe channel s) (fun _ channel' t _ passed => ?_)
  obtain ⟨rfl, others⟩ := passed
  refine safe_quiet quiet fun u answer later _ _ => ?_
  have reached := setting.rely_trans s t u others later
  match answer with
  | .ok () => exact fun v last _ => ⟨rfl, setting.rely_trans s u v reached last⟩
  | .error error => exact fail_blamed (by simp) reached

theorem wait_safe {deadline : Nat} (quiet : Quiet setting (.wait deadline)) (channel : Channel) (sound : setting.inv s) :
    Calls setting (Blamed setting 0 channel s) (Kept setting channel s) (wait deadline channel) s := by
  refine safe_then sound (check_safe channel s) (fun _ channel' t _ passed => ?_)
  obtain ⟨rfl, others⟩ := passed
  refine safe_quiet quiet fun u answer later _ _ => ?_
  have reached := setting.rely_trans s t u others later
  match answer with
  | .ok (some false) => exact fun v last _ => ⟨rfl, setting.rely_trans s u v reached last⟩
  | .ok none => exact fun v last _ => ⟨rfl, rfl, .inl rfl, id, setting.rely_trans s u v reached last⟩
  | .ok (some true) => exact fail_blamed (by decide) reached
  | .error .objectClosed => exact fail_blamed (by decide) reached
  | .error .objectNotAvailable => exact fail_blamed (by decide) reached
  | .error (.other code) => exact fail_blamed (by simp) reached

section Moves

variable {cursor : Nat}

theorem place_left {k : Nat} (left : cursor + k < channel.capacity) :
    headerBytes + cursor + k = headerBytes + (cursor + k) % channel.capacity := by
  rw [Nat.mod_eq_of_lt left, Nat.add_assoc]

theorem place_right {k : Nat} (inside : cursor < channel.capacity) (short : k < channel.capacity) :
    headerBytes + k = headerBytes + (cursor + (channel.capacity - cursor + k)) % channel.capacity := by
  have around : cursor + (channel.capacity - cursor + k) = k + channel.capacity := by omega
  rw [around, Nat.add_mod_right, Nat.mod_eq_of_lt short]

variable (few : channel.capacity + headerBytes ≤ usizeMax) (inside : cursor < channel.capacity)
include few inside

theorem copyIn_safe {J : Nat → σ → Prop} {input : Bytes} (fits : input.length ≤ channel.capacity) (sound : setting.inv s)
    (start : J 0 s) (writes : Writes setting J input fun k => headerBytes + (cursor + k) % channel.capacity) :
    Safe setting (Post (fun _ channel' t => channel' = channel ∧ J input.length t) fun _ _ _ => False)
      (copyIn cursor input channel) s := by
  have first : min input.length (channel.capacity - cursor) ≤ input.length := Nat.min_le_left _ _
  unfold copyIn
  rw [get_bind, lift_bind (subtract_returns (Nat.le_of_lt inside)),
    lift_bind (add_returns (by omega)), lift_bind (slice_returns (Nat.zero_le _) first), drop_zero]
  refine safe_bind sound (writeBytes_safe (J := J) sound start ⟨writes.stable, ?_⟩) ?_ fun _ _ _ _ => False.elim
  · intro k byte t here
    have short : k < min input.length (channel.capacity - cursor) :=
      Nat.lt_of_lt_of_le (List.getElem?_eq_some_iff.mp here).1 (length_take_le _ _)
    rw [getElem?_take_of_lt short] at here
    have left : cursor + k < channel.capacity := by omega
    rw [place_left left]
    exact writes.turn k byte t here
  · rintro _ channel' t sound ⟨rfl, left⟩
    rw [lift_bind (slice_returns first (Nat.le_refl _)), take_length]
    rw [length_take, Nat.min_eq_left first] at left
    refine safe_mono (writeBytes_safe (J := fun k => J (min input.length (channel'.capacity - cursor) + k)) sound
      left ⟨fun k => writes.stable _, ?_⟩) ?_ fun _ _ _ _ => id
    · intro k byte t here
      rw [getElem?_drop] at here
      have short := (List.getElem?_eq_some_iff.mp here).1
      have whole : min input.length (channel'.capacity - cursor) = channel'.capacity - cursor := by omega
      have next := writes.turn _ byte t here
      rw [whole] at next ⊢
      rwa [← place_right inside (by omega)] at next
    · rintro _ core t - ⟨rfl, all⟩
      rw [length_drop, Nat.add_sub_cancel' first] at all
      exact ⟨rfl, all⟩

theorem copyOut_safe {J : Bytes → σ → Prop} {count : Nat} (fits : count ≤ channel.capacity) (sound : setting.inv s)
    (start : J [] s) (reads : Reads setting J count fun k => headerBytes + (cursor + k) % channel.capacity) :
    Safe setting (Post (fun bytes channel' t => channel' = channel ∧ bytes.length = count ∧ J bytes t) fun _ _ _ => False)
      (copyOut cursor count channel) s := by
  have first : min count (channel.capacity - cursor) ≤ count := Nat.min_le_left _ _
  unfold copyOut
  rw [get_bind, lift_bind (subtract_returns (Nat.le_of_lt inside)), lift_bind (add_returns (by omega))]
  refine safe_bind sound (readBytes_safe (J := J) start ⟨reads.stable, ?_⟩) ?_ fun _ _ _ _ => False.elim
  · intro bytes t short
    have left : cursor + bytes.length < channel.capacity := by omega
    rw [place_left left]
    exact reads.turn bytes t (by omega)
  · rintro left channel' t sound ⟨rfl, length, holds⟩
    refine safe_bind sound (readBytes_safe (J := fun right => J (left ++ right)) ?_ ⟨fun right => reads.stable _, ?_⟩) ?_
      fun _ _ _ _ => False.elim
    · rwa [append_nil]
    · intro right t short sound holds
      have whole : left.length = channel'.capacity - cursor := by omega
      have next := reads.turn (left ++ right) t (by rw [length_append]; omega) sound holds
      rw [length_append, whole, ← place_right inside (by omega)] at next
      refine ⟨next.1, fun byte u does => ?_⟩
      rw [← append_assoc]
      exact next.2 byte u does
    · rintro right channel'' t - ⟨rfl, length', holds⟩ u others -
      refine ⟨rfl, ?_, reads.stable _ t u others holds⟩
      rw [length_append]
      omega

end Moves

end Channel

theorem isizeMax_le_usizeMax : isizeMax ≤ usizeMax := by decide

theorem toNat_le_of_not_lt {word : UInt64} {bound : Nat} (small : bound < 2 ^ 64) (h : ¬UInt64.ofNat bound < word) :
    word.toNat ≤ bound := by
  have le := UInt64.le_iff_toNat_le.mp (UInt64.not_lt.mp h)
  rwa [UInt64.toNat_ofNat', Nat.mod_eq_of_lt small] at le

theorem acceptedSize_bounds {bytes : Nat} (accepted : Channel.acceptedSize bytes = true) :
    4096 ≤ bytes ∧ bytes ≤ tunnelMaxPages * 4096 := by
  simp only [Channel.acceptedSize, Bool.and_eq_true, decide_eq_true_eq] at accepted
  exact ⟨accepted.1.1, accepted.2⟩

end Halcyon.Runnel
