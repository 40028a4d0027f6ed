import Halcyon.Base.Runs
import Halcyon.Space.Object

/-!
`MemoryObjectCore` (`task/memory_object.rs`): the state machine of an object and its level behind one lock. A call that
publishes takes the lock again to set the level, and other threads may take it in between.
-/

namespace Halcyon.Space

abbrev ObjectSignals := BitVec 64

namespace ObjectSignals

def none : ObjectSignals := 0

def executable : ObjectSignals := 1 <<< 5

def closed : ObjectSignals := 1 <<< 63

/-- `SIGNAL_BITS`. -/
def bits : List ObjectSignals := [0, 1, 2, 3, 4, 5, 6, 62, 63].map fun place : Nat => 1 <<< place

end ObjectSignals

structure SignalEpoch where
  generation : Nat
  serial : Nat
  deriving DecidableEq

/-- The level of an object with its history; the subscriptions, which never decide about the level, are left out. -/
structure ObjectWaitState where
  signals : ObjectSignals
  serial : Nat
  epochs : List SignalEpoch
  dirty : Bool
  scheduled : Bool
  deriving DecidableEq

namespace ObjectWaitState

def new (initial : ObjectSignals) : ObjectWaitState := ⟨initial, 0, .replicate 9 ⟨0, 0⟩, false, false⟩

/-- `record_activated`, from the bit with the number `index` on. -/
def recordActivated (activated : ObjectSignals) (serial index : Nat) (self : ObjectWaitState) :
    List ObjectSignals → ObjectWaitState
  | [] => self
  | bit :: rest =>
    if activated &&& bit = 0 then recordActivated activated serial (index + 1) self rest else
      match self.epochs[index]?.bind fun epoch => checkedAdd epoch.generation 1 with
      | some generation =>
        recordActivated activated serial (index + 1)
          { self with epochs := self.epochs.set index ⟨generation, serial⟩ } rest
      | none =>
        { self with
          signals := .closed
          epochs := self.epochs.modify 8 fun epoch => ⟨min (epoch.generation + 1) u64Max, serial⟩ }

def update (self : ObjectWaitState) (clear set : ObjectSignals) : ObjectWaitState :=
  if self.signals &&& .closed = .closed then self else
    let signals := self.signals &&& ~~~clear ||| set
    let activated := signals &&& ~~~self.signals
    if activated = .none then
      { self with signals, dirty := self.dirty || self.scheduled && signals != self.signals }
    else
      match checkedAdd self.serial 1 with
      | some serial => { recordActivated activated serial 0 { self with signals, serial } ObjectSignals.bits with dirty := true }
      | none =>
        { recordActivated .closed u64Max 0 { self with signals := .closed, serial := u64Max } ObjectSignals.bits with
          dirty := true }

/-- Nothing was ever activated, or the object is executable. -/
def Level (self : ObjectWaitState) : Prop :=
  (self.signals = .none ∧ self.serial = 0 ∧ self.epochs = (new .none).epochs) ∨ self.signals = .executable

theorem Level.update {self : ObjectWaitState} (level : self.Level) : (self.update .none .executable).signals = .executable := by
  obtain ⟨_, _, _, dirty, scheduled⟩ := self
  obtain ⟨rfl, rfl, rfl⟩ | rfl := level
  · cases dirty <;> cases scheduled <;> decide
  · have open_ : ¬ObjectSignals.executable &&& .closed = .closed := by decide
    have same : ObjectSignals.executable &&& ~~~.none ||| .executable = .executable := by decide
    rw [ObjectWaitState.update, if_neg open_]
    dsimp only
    rw [same, if_pos (by decide)]

end ObjectWaitState

structure CoreState where
  machine : MemoryObjectState
  wait : ObjectWaitState

/-- What a thread does while it holds the lock. `read` is `snapshot` or `signals`, and `observe` one of the calls that
work on the subscriptions, such as `subscribe` and `rearm_observer`. -/
inductive Section where
  | authorizeView (maximum : Protection)
  | authorizeWriteView (memory : Nat → Bool) (maximum : Protection)
  | reserveReplacementWrites (memory : Nat → Bool) (requirement : PermitRequirement)
  | cancelWrite (permit : WritePermit)
  | retireWrite (permit : WritePermit)
  | seal_
  | finishSeal
  | read
  | observe (dirty scheduled : Bool)

def Section.finishes : Section → Bool
  | .finishSeal => true
  | _ => false

namespace CoreState

/-- A refused reservation leaves the machine as it is. -/
def reserve (self : CoreState) : Outcome ObjectError (MemoryObjectState × List WritePermit) → CoreState
  | .ok (machine, _) => { self with machine }
  | .error _ => self

/-- The flag says that the call has to set the level in a section of its own. -/
def act (self : CoreState) : Section → Outcome Empty (CoreState × Bool)
  | .authorizeView _ | .read => pure (self, false)
  | .authorizeWriteView memory maximum => pure (self.reserve do
      let _ ← self.machine.authorizeView maximum
      self.machine.reserveWrites memory 1, false)
  | .reserveReplacementWrites memory requirement =>
    pure (self.reserve (self.machine.reserveReplacementWrites memory requirement), false)
  | .cancelWrite permit => do
    let (machine, published) ← self.machine.cancelWrite permit
    return ({ self with machine }, published)
  | .retireWrite permit => do
    let (machine, published) ← self.machine.retireWrite permit
    return ({ self with machine }, published)
  | .seal_ => pure ({ self with machine := self.machine.seal_.1 }, self.machine.seal_.2 == .published)
  | .finishSeal => pure ({ self with wait := self.wait.update .none .executable }, false)
  | .observe dirty scheduled => pure ({ self with wait := { self.wait with dirty, scheduled } }, false)

end CoreState

/-- The object, and the number of calls that have published and are between their two sections. -/
structure CoreWorld where
  core : CoreState
  publishing : Nat

variable {self next : CoreState} {published : Bool} {s t : MemoryObjectState}

/-- A section that leaves the level to another one. -/
structure Acts (self next : CoreState) (published : Bool) : Prop where
  wait : ∃ dirty scheduled, next.wait = { self.wait with dirty, scheduled }
  publishes : next.machine.state = .executable ↔ self.machine.state = .executable ∨ published = true

theorem reserveWriteCount_state {memory : Nat → Bool} {count newWrites : Nat} {permits : List WritePermit}
    (h : s.reserveWriteCount memory count newWrites = .ok (t, permits)) : t.state = s.state := by
  unfold MemoryObjectState.reserveWriteCount at h
  split at h
  · cases pure_ok h
    rfl
  · iterate 5 obtain ⟨_, _, h⟩ := bind_ok h
    cases pure_ok h
    rfl

theorem reserve_acts {answer : Outcome ObjectError (MemoryObjectState × List WritePermit)}
    (same : ∀ machine permits, answer = .ok (machine, permits) → machine.state = self.machine.state) :
    Acts self (self.reserve answer) false := by
  obtain _ | ⟨machine, permits⟩ := answer
  · exact ⟨⟨_, _, rfl⟩, by simp [CoreState.reserve]⟩
  · exact ⟨⟨_, _, rfl⟩, by simp [CoreState.reserve, same machine permits rfl]⟩

theorem releaseOne_publishes {permit : WritePermit} (h : s.releaseOne permit = .ok (t, published)) :
    t.state = .executable ↔ s.state = .executable ∨ published = true := by
  obtain ⟨_, _, h⟩ := bind_ok h
  obtain ⟨_, _, h⟩ := bind_ok h
  have same := pure_ok h
  unfold MemoryObjectState.publishIfQuiescent at same
  split at same <;> cases same <;> simp

theorem act_acts {section_ : Section} (open_ : section_.finishes = false) (h : self.act section_ = .ok (next, published)) :
    Acts self next published := by
  cases section_ with
  | authorizeView | read | observe =>
    cases pure_ok h
    exact ⟨⟨_, _, rfl⟩, by simp⟩
  | authorizeWriteView | reserveReplacementWrites =>
    cases pure_ok h
    refine reserve_acts fun machine permits done => ?_
    obtain ⟨_, _, done⟩ := bind_ok done
    exact reserveWriteCount_state done
  | cancelWrite | retireWrite =>
    obtain ⟨⟨machine, _⟩, released, h⟩ := bind_ok h
    cases pure_ok h
    exact ⟨⟨_, _, rfl⟩, releaseOne_publishes released⟩
  | seal_ =>
    cases pure_ok h
    refine ⟨⟨_, _, rfl⟩, ?_⟩
    unfold MemoryObjectState.seal_
    cases state : self.machine.state with
    | mutable => by_cases none : self.machine.permits = 0 <;> simp [none]
    | sealing | executable => simp [state]
  | finishSeal => cases open_

namespace CoreWorld

def new (object : ObjectId) (objectBytes permitLimit : Nat) : CoreWorld :=
  ⟨⟨.new object objectBytes permitLimit, .new .none⟩, 0⟩

/-- A section of some thread; only one that has published has a level to set. -/
def step (w : CoreWorld) (section_ : Section) : Outcome Empty CoreWorld :=
  if section_.finishes && w.publishing == 0 then pure w else do
    let (core, published) ← w.core.act section_
    return ⟨core, w.publishing - section_.finishes.toNat + published.toNat⟩

structure Sound (w : CoreWorld) : Prop where
  level : w.core.wait.Level
  published : w.core.machine.state = .executable ↔ w.core.wait.signals = .executable ∨ 0 < w.publishing

variable {w next : CoreWorld} {section_ : Section}

theorem step_sound (sound : w.Sound) (h : w.step section_ = .ok next) :
    next.Sound ∧ (w.core.wait.signals = .executable → next.core.wait.signals = .executable) := by
  unfold step at h
  split at h
  · cases pure_ok h
    exact ⟨sound, id⟩
  rename_i turn
  obtain ⟨⟨core, published⟩, acted, h⟩ := bind_ok h
  cases pure_ok h
  cases finishes : section_.finishes with
  | true =>
    cases section_ <;> cases finishes
    cases pure_ok acted
    have before : w.publishing ≠ 0 := by simpa [Section.finishes] using turn
    have set := sound.level.update
    exact ⟨⟨.inr set, iff_of_true (sound.published.mpr (.inr (Nat.pos_of_ne_zero before))) (.inl set)⟩, fun _ => set⟩
  | false =>
    obtain ⟨⟨dirty, scheduled, same⟩, publishes⟩ := act_acts finishes acted
    refine ⟨⟨by rw [same]; exact sound.level, ?_⟩, fun set => by rw [same]; exact set⟩
    have counted : 0 < w.publishing - false.toNat + published.toNat ↔ 0 < w.publishing ∨ published = true := by
      cases published <;> simp
    rw [counted, publishes, same, sound.published, or_assoc]

/-- The level is set only in state Executable and stays set. It is missing there only while a call that has published is
between its two sections. -/
theorem level_follows_publication (object : ObjectId) (objectBytes permitLimit : Nat) (sections later : List Section)
    {last : CoreWorld} (run : runEvents step (new object objectBytes permitLimit) sections = .ok w)
    (onward : runEvents step w later = .ok last) :
    (w.core.wait.signals = .executable → w.core.machine.state = .executable ∧ last.core.wait.signals = .executable) ∧
    (w.core.machine.state = .executable ↔ w.core.wait.signals = .executable ∨ 0 < w.publishing) ∧
    (w.publishing = 0 → (w.core.machine.state = .executable ↔ w.core.wait.signals = .executable)) := by
  have clear : ObjectSignals.none ≠ .executable := by decide
  have start : (new object objectBytes permitLimit).Sound :=
    ⟨.inl ⟨rfl, rfl, rfl⟩, iff_of_false (by intro h; cases h) (not_or.mpr ⟨clear, Nat.lt_irrefl 0⟩)⟩
  have sound : w.Sound := run_invariant (fun _ _ _ sound h => (step_sound sound h).1) start run
  have stays : last.Sound ∧ (w.core.wait.signals = .executable → last.core.wait.signals = .executable) :=
    run_invariant (I := fun next => next.Sound ∧ (_ → next.core.wait.signals = .executable))
      (fun _ _ _ held h => ⟨(step_sound held.1 h).1, (step_sound held.1 h).2 ∘ held.2⟩) ⟨sound, id⟩ onward
  refine ⟨fun set => ⟨sound.published.mpr (.inl set), stays.2 set⟩, sound.published, fun none => ?_⟩
  exact sound.published.trans (or_iff_left (by omega))

theorem level_follows_publication_sealed : ∃ w, runEvents step (new ⟨1, by decide⟩ 4096 64) [.seal_, .finishSeal] = .ok w ∧
    w.core.wait.signals = .executable ∧ w.core.machine.state = .executable :=
  ⟨_, rfl, rfl, ((level_follows_publication ⟨1, by decide⟩ 4096 64 [.seal_, .finishSeal] [] rfl rfl).1 rfl).1⟩

/-- A thread seals a mutable object without write views. Another one reads both before the level is set. -/
theorem executable_without_level : ∃ w, runEvents step (new ⟨1, by decide⟩ 4096 64) [.seal_, .read, .read] = .ok w ∧
    w.core.machine.state = .executable ∧ w.core.wait.signals = .none := ⟨_, rfl, rfl, rfl⟩

end CoreWorld

end Halcyon.Space
