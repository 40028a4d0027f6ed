import Halcyon.Clock.Geometry
import Mathlib.Logic.Function.Basic

/-!
The platform clock that all harts read (`clock.rs`). Reads run at the same time; each of them is a row of atomic
accesses to two high marks and a flag, with a sample of the timer of its own hart in between.
-/

namespace Halcyon.Clock

open ClockGeometry (last)

structure ClockSnapshot where
  nowNs : UInt64
  maxDeadlineNs : UInt64
  resolutionNs : UInt64
  reserved : UInt64
  deriving DecidableEq

inductive SystemCallError where
  | illegalArgument | clockRange
  deriving DecidableEq

def mapError : TimeError → SystemCallError
  | .invalidDeadline | .invalidFrequency => .illegalArgument
  | .outOfRange => .clockRange

namespace ClockGeometry

def resolutionNs (clock : ClockGeometry) : UInt64 :=
  narrow (max ((nanosPerSecond + clock.frequencyHz.toNat - 1) / clock.frequencyHz.toNat) 1)

def snapshot (clock : ClockGeometry) (ticks : UInt64) : Outcome TimeError ClockSnapshot := do
  return ⟨← clock.elapsedNs ticks, clock.maxDeadlineNs, clock.resolutionNs, 0⟩

end ClockGeometry

structure ClockState where
  highTicks : UInt64
  highNs : UInt64
  failed : Bool
  deriving DecidableEq

/-- The next action of a call of `now_ticks`; what `now` returns is known when it is `returned`. -/
inductive Place where
  | loadFailed
  | loadTicks
  | sample (prior : UInt64)
  | storeFailed (error : SystemCallError)
  | raiseTicks (raw : UInt64) (snapshot : ClockSnapshot)
  | raiseNs (snapshot : ClockSnapshot)
  | recheck (snapshot : ClockSnapshot)
  | returned (snapshot : ClockSnapshot)
  | ticks (snapshot : ClockSnapshot) (value : UInt64)
  | failed (error : SystemCallError)
  | panicked (message : String)
  deriving DecidableEq

/-- One action of `read`, or of `now_ticks` after it; `raw` is what the timer of the hart shows. -/
def ClockState.read (clock : ClockGeometry) (self : ClockState) (raw : UInt64) : Place → ClockState × Place
  | .loadFailed => (self, if self.failed then .failed .clockRange else .loadTicks)
  | .loadTicks => (self, .sample self.highTicks)
  | .sample prior =>
    (self, if raw < prior ∧ 1 < prior - raw then .storeFailed .clockRange else
      match clock.snapshot (max raw clock.originTicks) with
      | .ok snapshot => .raiseTicks (max raw clock.originTicks) snapshot
      | .error (.error error) => .storeFailed (mapError error)
      | .error (.panic message) => .panicked message)
  | .storeFailed error => ({ self with failed := true }, .failed error)
  | .raiseTicks raw snapshot => ({ self with highTicks := max self.highTicks raw }, .raiseNs snapshot)
  | .raiseNs snapshot =>
    let nowNs := max self.highNs snapshot.nowNs
    ({ self with highNs := nowNs }, .recheck { snapshot with nowNs })
  | .recheck snapshot => (self, if self.failed then .failed .clockRange else .returned snapshot)
  | .returned snapshot => (self, .ticks snapshot self.highTicks)
  | place => (self, place)

structure World where
  state : ClockState
  calls : Nat → Place

/-- A call, and the sample for it, should it be about to take one. -/
abbrev Event := Nat × UInt64

def World.step (clock : ClockGeometry) (world : World) (event : Event) : World :=
  let next := world.state.read clock event.2 (world.calls event.1)
  ⟨next.1, Function.update world.calls event.1 next.2⟩

/-- After `init`, which has published the origin. -/
def World.new (clock : ClockGeometry) : World := ⟨⟨clock.originTicks, 0, false⟩, fun _ => .loadFailed⟩

def run (clock : ClockGeometry) (events : List Event) : World := events.foldl (World.step clock) (World.new clock)

namespace Place

def now : Place → Option ClockSnapshot
  | .returned snapshot | .ticks snapshot _ => some snapshot
  | _ => none

def nowTicks : Place → Option UInt64
  | .ticks _ value => some value
  | _ => none

/-- What a call that had not begun in the state `floor` has published or read lies between the marks of `floor` and
those of now; if the clock had failed by then, the call fails. -/
def Bounded (floor state : ClockState) : Place → Prop
  | .loadFailed => True
  | .failed error => floor.failed = true → error = .clockRange
  | .recheck snapshot | .returned snapshot =>
    floor.failed = false ∧ floor.highNs ≤ snapshot.nowNs ∧ snapshot.nowNs ≤ state.highNs
  | .ticks snapshot value => floor.failed = false ∧ (floor.highNs ≤ snapshot.nowNs ∧ snapshot.nowNs ≤ state.highNs) ∧
    floor.highTicks ≤ value ∧ value ≤ state.highTicks
  | _ => floor.failed = false

/-- The number of actions behind a call that has met no error. -/
def passed : Place → Option Nat
  | .loadFailed => some 0
  | .loadTicks => some 1
  | .sample _ => some 2
  | .raiseTicks _ _ => some 3
  | .raiseNs _ => some 4
  | .recheck _ => some 5
  | .returned _ | .ticks _ _ => some 6
  | _ => none

end Place

structure Grows (before after : ClockState) : Prop where
  ticks : before.highTicks ≤ after.highTicks
  ns : before.highNs ≤ after.highNs
  failed : before.failed = true → after.failed = true

variable {clock : ClockGeometry} {floor state : ClockState} {place : Place} {world : World}

theorem le_raised (mark value : UInt64) : mark ≤ max mark value := by
  rw [UInt64.le_iff_toNat_le, UInt64.toNat_max]
  exact Nat.le_max_left _ _

theorem read_grows (raw : UInt64) : Grows state (state.read clock raw place).1 := by
  cases place with
  | raiseTicks => exact ⟨le_raised _ _, UInt64.le_refl _, id⟩
  | raiseNs => exact ⟨UInt64.le_refl _, le_raised _ _, id⟩
  | storeFailed => exact ⟨UInt64.le_refl _, UInt64.le_refl _, fun _ => rfl⟩
  | _ => exact ⟨UInt64.le_refl _, UInt64.le_refl _, id⟩

theorem Place.Bounded.grow {after : ClockState} (bounded : place.Bounded floor state) (grows : Grows state after) :
    place.Bounded floor after := by
  cases place with
  | recheck | returned => exact ⟨bounded.1, bounded.2.1, UInt64.le_trans bounded.2.2 grows.ns⟩
  | ticks =>
    obtain ⟨running, ⟨low, high⟩, above, below⟩ := bounded
    exact ⟨running, ⟨low, UInt64.le_trans high grows.ns⟩, above, UInt64.le_trans below grows.ticks⟩
  | _ => exact bounded

theorem read_bounded (raw : UInt64) (grows : Grows floor state) (bounded : place.Bounded floor state) :
    (state.read clock raw place).2.Bounded floor (state.read clock raw place).1 := by
  cases place with
  | loadFailed =>
    rw [ClockState.read]
    split
    · exact fun _ => rfl
    · next running => exact Bool.eq_false_iff.mpr fun failed => running (grows.failed failed)
  | sample =>
    rw [ClockState.read]
    split
    · exact bounded
    · split <;> exact bounded
  | storeFailed => exact fun failed => absurd (failed.symm.trans bounded) nofun
  | raiseNs => exact ⟨bounded, UInt64.le_trans grows.ns (le_raised _ _), UInt64.le_refl _⟩
  | recheck =>
    rw [ClockState.read]
    split
    · exact fun _ => rfl
    · exact bounded
  | returned => exact ⟨bounded.1, bounded.2, grows.ticks, UInt64.le_refl _⟩
  | _ => exact bounded

theorem World.step_call (clock : ClockGeometry) (event : Event) (call : Nat) :
    (call = event.1 ∧ (world.step clock event).calls call = (world.state.read clock event.2 (world.calls call)).2) ∨
      call ≠ event.1 ∧ (world.step clock event).calls call = world.calls call := by
  by_cases same : call = event.1
  · exact .inl ⟨same, by rw [same]; exact Function.update_self ..⟩
  · exact .inr ⟨same, Function.update_of_ne same ..⟩

theorem run_bounded (clock : ClockGeometry) (events : List Event) {call : Nat} (unbegun : world.calls call = .loadFailed) :
    ((events.foldl (World.step clock) world).calls call).Bounded world.state
      (events.foldl (World.step clock) world).state := by
  refine (List.foldlRecOn (motive := fun after : World => Grows world.state after.state ∧
    (after.calls call).Bounded world.state after.state) events _
    ⟨⟨UInt64.le_refl _, UInt64.le_refl _, id⟩, by rw [unbegun]; trivial⟩ ?_).2
  rintro after ⟨grows, bounded⟩ event -
  have onward : Grows after.state (after.step clock event).state := read_grows event.2
  refine ⟨⟨UInt64.le_trans grows.ticks onward.ticks, UInt64.le_trans grows.ns onward.ns, onward.failed ∘ grows.failed⟩, ?_⟩
  obtain ⟨rfl, moved⟩ | ⟨-, kept⟩ := after.step_call clock event call
  · rw [moved]
    exact read_bounded event.2 grows bounded
  · rw [kept]
    exact bounded.grow onward

namespace Place.Bounded

variable (bounded : place.Bounded floor state)
include bounded

theorem now {snapshot : ClockSnapshot} (returned : snapshot ∈ place.now) :
    floor.highNs ≤ snapshot.nowNs ∧ snapshot.nowNs ≤ state.highNs := by
  cases place <;> cases returned
  · exact bounded.2
  · exact bounded.2.1

theorem nowTicks {value : UInt64} (returned : value ∈ place.nowTicks) :
    floor.highTicks ≤ value ∧ value ≤ state.highTicks := by
  cases place <;> cases returned
  exact bounded.2.2

theorem fails (failed : floor.failed = true) : place = .loadFailed ∨ place = .failed .clockRange := by
  cases place with
  | loadFailed => exact .inl rfl
  | failed => exact .inr (congrArg _ (bounded failed))
  | recheck | returned | ticks => exact absurd (failed.symm.trans bounded.1) nofun
  | _ => exact absurd (failed.symm.trans bounded) nofun

end Place.Bounded

/-- A sample of the timer that `read` is to accept: the clock can read it, and it is at most one tick behind the
highest one that was published when the call looked. -/
def Steady (clock : ClockGeometry) (raw prior : UInt64) : Prop :=
  raw.toNat ≤ clock.originTicks.toNat + last clock.frequencyHz clock.originTicks ∧ prior.toNat ≤ raw.toNat + 1

theorem sample_steady (made : clock.Made) {raw prior : UInt64} (steady : Steady clock raw prior) :
    (state.read clock raw (.sample prior)).2.passed = some 3 := by
  have near : ¬(raw < prior ∧ 1 < prior - raw) := by
    rintro ⟨behind, far⟩
    have apart := UInt64.lt_iff_toNat_lt.mp far
    rw [UInt64.toNat_sub_of_le _ _ (UInt64.le_of_lt behind)] at apart
    have := steady.2
    change 1 < _ at apart
    omega
  have raised := UInt64.toNat_max raw clock.originTicks
  have floor := UInt64.le_iff_toNat_le.mpr (raised ▸ Nat.le_max_right _ _)
  obtain ⟨_, read, -⟩ := made.reads floor (by have := steady.1; omega)
  rw [ClockState.read, if_neg near, ClockGeometry.snapshot, read]
  rfl

/-- The clock works, and a call has as many actions behind it as it has taken, up to its return. -/
structure Healthy (events : List Event) (world : World) : Prop where
  running : world.state.failed = false
  passed : ∀ call, ∃ count, (world.calls call).passed = some count ∧ min 6 ((events.map Prod.fst).count call) ≤ count

theorem read_healthy (made : clock.Made) {raw : UInt64} {count : Nat} (running : state.failed = false)
    (passed : place.passed = some count) (steady : ∀ prior, place = .sample prior → Steady clock raw prior) :
    (state.read clock raw place).1.failed = false ∧
      ∃ next, (state.read clock raw place).2.passed = some next ∧ min 6 (count + 1) ≤ next := by
  cases place with
  | sample prior =>
    cases passed
    exact ⟨running, 3, sample_steady made (steady prior rfl), by decide⟩
  | storeFailed | failed | panicked => cases passed
  | loadFailed | recheck =>
    cases passed
    refine ⟨running, ?_⟩
    rw [ClockState.read, running]
    exact ⟨_, rfl, by decide⟩
  | loadTicks | raiseTicks | raiseNs | returned | ticks =>
    cases passed
    exact ⟨running, _, rfl, by decide⟩

theorem run_healthy (made : clock.Made) {events : List Event}
    (steady : ∀ early call raw rest, events = early ++ (call, raw) :: rest →
      ∀ prior, (run clock early).calls call = .sample prior → Steady clock raw prior) :
    Healthy events (run clock events) := by
  induction events using List.reverseRecOn with
  | nil => exact ⟨rfl, fun _ => ⟨0, rfl, Nat.le_refl 0⟩⟩
  | append_singleton events event ih =>
    obtain ⟨running, passed⟩ := ih fun early call raw rest split =>
      steady early call raw (rest ++ [event]) (by rw [split, List.append_assoc, List.cons_append])
    obtain ⟨_, behind, _⟩ := passed event.1
    obtain ⟨running, next, moved, _⟩ := read_healthy made running behind (steady events _ _ [] rfl)
    have whole : run clock (events ++ [event]) = (run clock events).step clock event := List.foldl_append
    rw [whole]
    refine ⟨running, fun call => ?_⟩
    rw [List.map_append, List.count_append, List.map_singleton]
    obtain ⟨rfl, step⟩ | ⟨other, kept⟩ := (run clock events).step_call clock event call
    · rw [step, moved, List.count_singleton_self]
      exact ⟨next, rfl, by omega⟩
    · rw [kept, List.count_singleton, if_neg (by simpa using Ne.symm other)]
      exact passed call

theorem Place.now_of_passed {count : Nat} (passed : place.passed = some count) (enough : 6 ≤ count) :
    ∃ snapshot, place.now = some snapshot := by
  cases place <;> cases passed
  case returned snapshot | ticks snapshot _ => exact ⟨snapshot, rfl⟩
  all_goals exact absurd enough (by decide)

/-- Whatever the accesses of the reads are interleaved with, a later read is not behind an earlier one, a failure stays,
and there is none while the samples are steady. -/
theorem clock_monotonic {frequencyHz originTicks : UInt64}
    (isNew : ClockGeometry.new frequencyHz originTicks = .ok clock) (events later : List Event) :
    let before := run clock events
    let after := run clock (events ++ later)
    (∀ first second, before.calls second = .loadFailed →
      (∀ early ∈ (before.calls first).now, ∀ late ∈ (after.calls second).now, early.nowNs ≤ late.nowNs) ∧
      ∀ early ∈ (before.calls first).nowTicks, ∀ late ∈ (after.calls second).nowTicks, early ≤ late) ∧
    (∀ call, before.state.failed = true → before.calls call = .loadFailed →
      after.calls call = .loadFailed ∨ after.calls call = .failed .clockRange) ∧
    ((∀ early call raw rest, events = early ++ (call, raw) :: rest →
      ∀ prior, (run clock early).calls call = .sample prior → Steady clock raw prior) →
        before.state.failed = false ∧ ∀ call, (∀ error, before.calls call ≠ .failed error) ∧
          (6 ≤ (events.map Prod.fst).count call → ∃ snapshot, (before.calls call).now = some snapshot)) := by
  intro before after
  have same : after = later.foldl (World.step clock) before := List.foldl_append
  refine ⟨fun first second unbegun => ?_, fun call failed unbegun => ?_, fun steady => ?_⟩
  · have below : (before.calls first).Bounded _ before.state := run_bounded clock events rfl
    have above := same ▸ run_bounded clock later unbegun
    exact ⟨fun early isEarly late isLate => UInt64.le_trans (below.now isEarly).2 (above.now isLate).1,
      fun early isEarly late isLate => UInt64.le_trans (below.nowTicks isEarly).2 (above.nowTicks isLate).1⟩
  · exact (same ▸ run_bounded clock later unbegun).fails failed
  · obtain ⟨running, passed⟩ := run_healthy (ClockGeometry.new_made isNew).1 steady
    refine ⟨running, fun call => ?_⟩
    obtain ⟨count, behind, taken⟩ := passed call
    refine ⟨fun error failed => ?_, fun enough => Place.now_of_passed behind (by omega)⟩
    cases (congrArg Place.passed failed).symm.trans behind

/-- One hart reads at 20 and another one at 22 after it. -/
theorem clock_monotonic_two_harts : ∃ clock early late, ClockGeometry.new 10000000 5 = .ok clock ∧
    ((run clock (.replicate 7 (0, 20))).calls 0).nowTicks = some early ∧
    ((run clock (.replicate 7 (0, 20) ++ .replicate 7 (1, 22))).calls 1).nowTicks = some late ∧ late = 22 ∧
    early ≤ late := by
  have isNew : ClockGeometry.new 10000000 5 = .ok ⟨10000000, 5, 18446744073709551600⟩ := by decide +kernel
  have first : ((run ⟨10000000, 5, 18446744073709551600⟩ (.replicate 7 (0, 20))).calls 0).nowTicks = some 20 := by
    decide +kernel
  have second : ((run ⟨10000000, 5, 18446744073709551600⟩
      (.replicate 7 (0, 20) ++ .replicate 7 (1, 22))).calls 1).nowTicks = some 22 := by
    decide +kernel
  exact ⟨_, 20, 22, isNew, first, second, rfl, ((clock_monotonic isNew _ _).1 0 1 (by decide +kernel)).2 _ first _ second⟩

end Halcyon.Clock
