import Mathlib.Algebra.Order.Floor.Semifield
import Mathlib.Data.Rat.Floor
import Halcyon.Base.Outcome

/-!
The conversion between ticks of the platform timer and nanoseconds (`erhino_shared::time`).

Intermediate results are `u128`; an overflow of one of them panics. The casts to `u64` cut off what does not
fit.
-/

namespace Halcyon.Clock

def nanosPerSecond : Nat := 1000000000

inductive TimeError where
  | invalidFrequency
  | invalidDeadline
  | outOfRange
  deriving DecidableEq

structure Deadline where
  kind : UInt32
  reserved : UInt32
  atNs : UInt64
  deriving DecidableEq

namespace Deadline

/-- `Deadline::at`. -/
def finite (atNs : UInt64) : Deadline := ⟨1, 0, atNs⟩

def instant (deadline : Deadline) : Outcome TimeError (Option UInt64) :=
  if deadline.kind = 0 ∧ deadline.reserved = 0 ∧ deadline.atNs = 0 then pure none
  else if deadline.kind = 1 ∧ deadline.reserved = 0 then pure (some deadline.atNs)
  else fail .invalidDeadline

end Deadline

/-- The result of an addition or multiplication of `u128`. -/
def wide (value : Nat) : Outcome TimeError Nat :=
  if value < 2 ^ 128 then .ok value else panicked "arithmetic overflow"

/-- `value as u64`. -/
def narrow (value : Nat) : UInt64 := .ofNat value

structure ClockGeometry where
  frequencyHz : UInt64
  originTicks : UInt64
  maxDeadlineNs : UInt64
  deriving DecidableEq

namespace ClockGeometry

def new (frequencyHz originTicks : UInt64) : Outcome TimeError ClockGeometry := do
  refuseIf (frequencyHz == 0) .invalidFrequency
  refuseIf (2 ^ 64 - 2 < originTicks.toNat) .outOfRange
  let available := 2 ^ 64 - 2 - originTicks.toNat
  let product ← wide ((2 ^ 64 - 1 + 1) * frequencyHz.toNat)
  let readable := (product - 1) / nanosPerSecond
  let last := min readable available
  let scaled ← wide (last * nanosPerSecond)
  pure ⟨frequencyHz, originTicks, narrow (scaled / frequencyHz.toNat)⟩

variable (clock : ClockGeometry)

def elapsedNs (ticks : UInt64) : Outcome TimeError UInt64 := do
  refuseIf (ticks.toNat == 2 ^ 64 - 1) .outOfRange
  refuseIf (ticks < clock.originTicks) .outOfRange
  let scaled ← wide ((ticks.toNat - clock.originTicks.toNat) * nanosPerSecond)
  refuseIf (2 ^ 64 - 1 < scaled / clock.frequencyHz.toNat) .outOfRange
  pure (narrow (scaled / clock.frequencyHz.toNat))

def deadlineTicks (deadline : Deadline) : Outcome TimeError (Option UInt64) := do
  match ← deadline.instant with
  | none => pure none
  | some ns =>
    refuseIf (clock.maxDeadlineNs < ns) .outOfRange
    let product ← wide (ns.toNat * clock.frequencyHz.toNat)
    let ticks ← wide (clock.originTicks.toNat + (product + nanosPerSecond - 1) / nanosPerSecond)
    refuseIf (2 ^ 64 - 1 ≤ ticks) .outOfRange
    pure (some (narrow ticks))

end ClockGeometry

theorem wide_returns {value : Nat} (fits : value < 2 ^ 128) : wide value = .ok value := if_pos fits

theorem narrow_toNat {value : Nat} (fits : value < 2 ^ 64) : (narrow value).toNat = value := UInt64.toNat_ofNat_of_lt' fits

theorem product_fits {x y : Nat} (small : x ≤ 2 ^ 64) (word : y < 2 ^ 64) : x * y < 2 ^ 128 := by
  calc x * y ≤ 2 ^ 64 * y := Nat.mul_le_mul_right y small
    _ < 2 ^ 64 * 2 ^ 64 := Nat.mul_lt_mul_of_pos_left word (by decide)
    _ = 2 ^ 128 := by norm_num

theorem ceiling_le_iff {ns ticks frequency : Nat} (positive : 0 < frequency) :
    (ns * frequency + nanosPerSecond - 1) / nanosPerSecond ≤ ticks ↔ ns ≤ ticks * nanosPerSecond / frequency := by
  have grain : 0 < nanosPerSecond := by decide
  rw [Nat.le_div_iff_mul_le positive, ← Nat.lt_succ_iff, Nat.div_lt_iff_lt_mul grain, Nat.succ_mul]
  omega

theorem readable_iff {ticks frequency : Nat} (positive : 0 < frequency) :
    ticks ≤ (2 ^ 64 * frequency - 1) / nanosPerSecond ↔ ticks * nanosPerSecond / frequency < 2 ^ 64 := by
  have grain : 0 < nanosPerSecond := by decide
  have some : 0 < 2 ^ 64 * frequency := Nat.mul_pos (by decide) positive
  rw [Nat.le_div_iff_mul_le grain, Nat.div_lt_iff_lt_mul positive]
  omega

namespace ClockGeometry

def last (frequencyHz originTicks : UInt64) : Nat :=
  min ((2 ^ 64 * frequencyHz.toNat - 1) / nanosPerSecond) (2 ^ 64 - 2 - originTicks.toNat)

variable {frequencyHz originTicks : UInt64}

theorem last_small : last frequencyHz originTicks < 2 ^ 64 := by
  have bound := Nat.min_le_right ((2 ^ 64 * frequencyHz.toNat - 1) / nanosPerSecond) (2 ^ 64 - 2 - originTicks.toNat)
  unfold last
  omega

theorem last_fits (positive : 0 < frequencyHz.toNat) :
    last frequencyHz originTicks * nanosPerSecond / frequencyHz.toNat < 2 ^ 64 :=
  (readable_iff positive).mp (Nat.min_le_left _ _)

theorem new_cases (frequencyHz originTicks : UInt64) :
    (frequencyHz.toNat = 0 ∧ new frequencyHz originTicks = fail .invalidFrequency) ∨
    (2 ^ 64 - 2 < originTicks.toNat ∧ new frequencyHz originTicks = fail .outOfRange) ∨
    (0 < frequencyHz.toNat ∧ originTicks.toNat ≤ 2 ^ 64 - 2 ∧ new frequencyHz originTicks =
      .ok ⟨frequencyHz, originTicks, narrow (last frequencyHz originTicks * nanosPerSecond / frequencyHz.toNat)⟩) := by
  by_cases none : frequencyHz = 0
  · subst none
    exact .inl ⟨rfl, rfl⟩
  have positive : 0 < frequencyHz.toNat := Nat.pos_of_ne_zero fun zero => none (UInt64.toNat_inj.mp zero)
  have word := frequencyHz.toNat_lt
  have product : wide ((2 ^ 64 - 1 + 1) * frequencyHz.toNat) = .ok (2 ^ 64 * frequencyHz.toNat) :=
    wide_returns (product_fits (by decide) word)
  have scaled : wide (last frequencyHz originTicks * nanosPerSecond) = .ok _ :=
    wide_returns (product_fits (Nat.le_of_lt last_small) (by decide))
  unfold new
  rw [refuseIf, if_neg (by simpa using none), ok_bind]
  by_cases late : 2 ^ 64 - 2 < originTicks.toNat
  · refine .inr (.inl ⟨late, ?_⟩)
    rw [refuseIf, if_pos (decide_eq_true late)]
    rfl
  · refine .inr (.inr ⟨positive, Nat.le_of_not_lt late, ?_⟩)
    rw [refuseIf, if_neg (by simpa using late), ok_bind, product, ok_bind]
    simp only [last] at scaled ⊢
    rw [scaled]
    rfl

section Conversions

variable {clock : ClockGeometry}

def elapsed (clock : ClockGeometry) (ticks : UInt64) : Nat :=
  (ticks.toNat - clock.originTicks.toNat) * nanosPerSecond / clock.frequencyHz.toNat

theorem elapsedNs_eq (clock : ClockGeometry) (ticks : UInt64) : clock.elapsedNs ticks =
      if ticks.toNat = 2 ^ 64 - 1 ∨ ticks < clock.originTicks ∨ 2 ^ 64 - 1 < clock.elapsed ticks then fail .outOfRange
      else .ok (narrow (clock.elapsed ticks)) := by
  have word := ticks.toNat_lt
  have scaled : wide ((ticks.toNat - clock.originTicks.toNat) * nanosPerSecond) = .ok _ :=
    wide_returns (product_fits (by omega) (by decide))
  unfold elapsedNs
  by_cases stop : ticks.toNat = 2 ^ 64 - 1
  · rw [if_pos (.inl stop), stop_check (by simpa using stop)]
  by_cases early : ticks < clock.originTicks
  · rw [if_pos (.inr (.inl early)), pass_check (by simpa using stop), stop_check (decide_eq_true early)]
  rw [pass_check (by simpa using stop), pass_check (by simpa using early), scaled, ok_bind, ← elapsed]
  by_cases far : 2 ^ 64 - 1 < clock.elapsed ticks
  · rw [if_pos (.inr (.inr far)), stop_check (decide_eq_true far)]
  · rw [if_neg (by simp only [stop, early, far, or_self, not_false_eq_true]), pass_check (decide_eq_false far)]
    rfl

theorem elapsedNs_ok {ticks value : UInt64} (h : clock.elapsedNs ticks = .ok value) :
    clock.originTicks ≤ ticks ∧ value.toNat = clock.elapsed ticks := by
  rw [elapsedNs_eq] at h
  split at h
  · exact absurd h nofun
  · next reads =>
    rw [not_or, not_or, UInt64.not_lt] at reads
    cases h
    exact ⟨reads.2.1, narrow_toNat (by omega)⟩

theorem elapsedNs_calm (ticks : UInt64) (message : String) : clock.elapsedNs ticks ≠ panicked message := by
  rw [elapsedNs_eq]
  split <;> exact nofun

theorem elapsed_mono {earlier later : UInt64} (h : earlier ≤ later) : clock.elapsed earlier ≤ clock.elapsed later := by
  have ordered := UInt64.le_iff_toNat_le.mp h
  exact Nat.div_le_div_right (Nat.mul_le_mul_right _ (Nat.sub_le_sub_right ordered _))

/-- The number of ticks that `deadline_ticks` adds to the origin. -/
def offset (clock : ClockGeometry) (ns : UInt64) : Nat :=
  (ns.toNat * clock.frequencyHz.toNat + nanosPerSecond - 1) / nanosPerSecond

theorem deadlineTicks_finite (clock : ClockGeometry) (ns : UInt64) : clock.deadlineTicks (.finite ns) =
      if clock.maxDeadlineNs < ns ∨ 2 ^ 64 - 1 ≤ clock.originTicks.toNat + clock.offset ns then fail .outOfRange
      else .ok (some (narrow (clock.originTicks.toNat + clock.offset ns))) := by
  have fits := product_fits (Nat.le_of_lt ns.toNat_lt) clock.frequencyHz.toNat_lt
  have sum : clock.originTicks.toNat + clock.offset ns < 2 ^ 128 := by
    have word := clock.originTicks.toNat_lt
    have whole := Nat.div_mul_le_self (ns.toNat * clock.frequencyHz.toNat + nanosPerSecond - 1) nanosPerSecond
    simp only [nanosPerSecond, offset] at whole ⊢
    omega
  have instant : (Deadline.finite ns).instant = .ok (some ns) := rfl
  unfold deadlineTicks
  rw [instant, ok_bind]
  by_cases late : clock.maxDeadlineNs < ns
  · rw [if_pos (.inl late)]
    exact stop_check (decide_eq_true late)
  · dsimp only
    rw [pass_check (decide_eq_false late), wide_returns fits, ok_bind, ← offset, wide_returns sum, ok_bind]
    by_cases past : 2 ^ 64 - 1 ≤ clock.originTicks.toNat + clock.offset ns
    · rw [if_pos (.inr past)]
      exact stop_check (decide_eq_true past)
    · rw [if_neg (by simp only [late, past, or_self, not_false_eq_true])]
      exact pass_check (decide_eq_false past)

theorem deadlineTicks_calm (deadline : Deadline) (message : String) : clock.deadlineTicks deadline ≠ panicked message := by
  have finite : ∀ ns, clock.deadlineTicks (.finite ns) ≠ panicked message := by
    intro ns
    rw [deadlineTicks_finite]
    split <;> exact nofun
  unfold deadlineTicks Deadline.instant
  split
  · exact nofun
  · split
    · exact finite deadline.atNs
    · exact nofun

end Conversions

/-- A geometry that `new` made: its last tick can be read, and its maximum is what is read there. -/
structure Made (clock : ClockGeometry) : Prop where
  positive : 0 < clock.frequencyHz.toNat
  origin : clock.originTicks.toNat ≤ 2 ^ 64 - 2
  maximum : clock.maxDeadlineNs.toNat = last clock.frequencyHz clock.originTicks * nanosPerSecond / clock.frequencyHz.toNat

theorem new_made {clock : ClockGeometry} (h : new frequencyHz originTicks = .ok clock) :
    Made clock ∧ clock.frequencyHz = frequencyHz ∧ clock.originTicks = originTicks := by
  obtain ⟨-, refused⟩ | ⟨-, refused⟩ | ⟨positive, origin, returned⟩ := new_cases frequencyHz originTicks
  · exact absurd (h.symm.trans refused) nofun
  · exact absurd (h.symm.trans refused) nofun
  · cases h.symm.trans returned
    exact ⟨⟨positive, origin, narrow_toNat (last_fits positive)⟩, rfl, rfl⟩

namespace Made

variable {clock : ClockGeometry} {ns : UInt64}

theorem offset_le_last (made : Made clock) (within : ns ≤ clock.maxDeadlineNs) :
    clock.offset ns ≤ last clock.frequencyHz clock.originTicks := by
  rw [offset, ceiling_le_iff made.positive, ← made.maximum]
  exact UInt64.le_iff_toNat_le.mp within

theorem deadline (made : Made clock) (within : ns ≤ clock.maxDeadlineNs) :
    ∃ ticks : UInt64, clock.deadlineTicks (.finite ns) = .ok (some ticks) ∧
      ticks.toNat = clock.originTicks.toNat + clock.offset ns ∧ ticks.toNat < 2 ^ 64 - 1 := by
  have near := made.offset_le_last within
  have available := Nat.min_le_right ((2 ^ 64 * clock.frequencyHz.toNat - 1) / nanosPerSecond)
    (2 ^ 64 - 2 - clock.originTicks.toNat)
  have origin := made.origin
  have below : clock.originTicks.toNat + clock.offset ns < 2 ^ 64 - 1 := by
    unfold last at near
    omega
  refine ⟨narrow (clock.originTicks.toNat + clock.offset ns), ?_, ?_⟩
  · rw [deadlineTicks_finite, if_neg]
    rw [not_or, UInt64.not_lt, Nat.not_le]
    exact ⟨within, below⟩
  · rw [narrow_toNat (by omega)]
    exact ⟨rfl, below⟩

theorem reads {ticks : UInt64} (made : Made clock) (started : clock.originTicks ≤ ticks)
    (near : ticks.toNat ≤ clock.originTicks.toNat + last clock.frequencyHz clock.originTicks) :
    ∃ value : UInt64, clock.elapsedNs ticks = .ok value ∧ value.toNat = clock.elapsed ticks := by
  have origin := made.origin
  have available := Nat.min_le_right ((2 ^ 64 * clock.frequencyHz.toNat - 1) / nanosPerSecond)
    (2 ^ 64 - 2 - clock.originTicks.toNat)
  have readable : clock.elapsed ticks < 2 ^ 64 := by
    refine (readable_iff made.positive).mp (Nat.le_trans ?_ (Nat.min_le_left _ (2 ^ 64 - 2 - clock.originTicks.toNat)))
    exact Nat.sub_le_of_le_add (Nat.add_comm _ _ ▸ near)
  refine ⟨narrow (clock.elapsed ticks), ?_, narrow_toNat readable⟩
  rw [elapsedNs_eq, if_neg]
  rw [not_or, not_or, UInt64.not_lt]
  unfold last at near
  exact ⟨by omega, started, by omega⟩

theorem first_tick {ticks : UInt64} (made : Made clock) (within : ns ≤ clock.maxDeadlineNs)
    (isTick : ticks.toNat = clock.originTicks.toNat + clock.offset ns) :
    (∃ value, clock.elapsedNs ticks = .ok value ∧ ns ≤ value) ∧
    ∀ other, (∃ value, clock.elapsedNs other = .ok value ∧ ns ≤ value) → ticks ≤ other := by
  have started : clock.originTicks ≤ ticks := UInt64.le_iff_toNat_le.mpr (by omega)
  have near := made.offset_le_last within
  constructor
  · obtain ⟨value, read, isValue⟩ := made.reads started (by omega)
    refine ⟨value, read, UInt64.le_iff_toNat_le.mpr ?_⟩
    rw [isValue, elapsed, isTick, Nat.add_sub_cancel_left]
    exact (ceiling_le_iff made.positive).mp (Nat.le_refl _)
  · rintro _ ⟨_, read, passed⟩
    obtain ⟨after, isValue⟩ := elapsedNs_ok read
    have enough := UInt64.le_iff_toNat_le.mp passed
    have begun := UInt64.le_iff_toNat_le.mp after
    rw [isValue, elapsed, ← ceiling_le_iff made.positive] at enough
    apply UInt64.le_iff_toNat_le.mpr
    rw [isTick, offset]
    omega

end Made

end ClockGeometry

open ClockGeometry

/-- Every deadline up to the maximum becomes the first tick at which it has passed, every later one is refused, and
the ticks in between read as the exact time, rounded down. No multiplication, addition or cast overflows. -/
theorem conversion_exact (frequencyHz originTicks : UInt64) :
    (∀ message, new frequencyHz originTicks ≠ panicked message) ∧ ∀ clock, new frequencyHz originTicks = .ok clock →
      (clock.maxDeadlineNs.toNat = last frequencyHz originTicks * nanosPerSecond / frequencyHz.toNat) ∧
      (∀ ticks message, clock.elapsedNs ticks ≠ panicked message) ∧
      (∀ deadline message, clock.deadlineTicks deadline ≠ panicked message) ∧
      (∀ ns, ns ≤ clock.maxDeadlineNs → ∃ ticks value, clock.deadlineTicks (.finite ns) = .ok (some ticks) ∧
        ticks.toNat = originTicks.toNat + clock.offset ns ∧ ticks.toNat < 2 ^ 64 - 1 ∧
        clock.elapsedNs ticks = .ok value ∧ ns ≤ value ∧ ∀ other, originTicks ≤ other →
          (∃ value, clock.elapsedNs other = .ok value ∧ ns ≤ value) → ticks ≤ other) ∧
      (∀ ns, clock.maxDeadlineNs < ns → clock.deadlineTicks (.finite ns) = fail .outOfRange) ∧
      ∀ top, clock.deadlineTicks (.finite clock.maxDeadlineNs) = .ok (some top) → ∀ ticks, originTicks ≤ ticks → ticks ≤ top →
        ∃ value, clock.elapsedNs ticks = .ok value ∧
          (value.toNat = ⌊((ticks.toNat - originTicks.toNat : ℕ) * 1000000000 : ℚ) / frequencyHz.toNat⌋₊) ∧
          ∀ earlier before, clock.elapsedNs earlier = .ok before → earlier ≤ ticks → before ≤ value := by
  constructor
  · intro message
    obtain ⟨-, same⟩ | ⟨-, same⟩ | ⟨-, -, same⟩ := new_cases frequencyHz originTicks <;> rw [same] <;> exact nofun
  intro clock isNew
  obtain ⟨made, rfl, rfl⟩ := new_made isNew
  refine ⟨made.maximum, elapsedNs_calm, deadlineTicks_calm, ?_, ?_, ?_⟩
  · intro ns within
    obtain ⟨ticks, returned, isTick, below⟩ := made.deadline within
    obtain ⟨⟨value, read, passed⟩, least⟩ := made.first_tick within isTick
    exact ⟨ticks, value, returned, isTick, below, read, passed, fun other _ => least other⟩
  · intro ns late
    rw [deadlineTicks_finite, if_pos (.inl late)]
  · intro top isTop ticks started before
    obtain ⟨ticks', returned, isTick, -⟩ := made.deadline (UInt64.le_refl clock.maxDeadlineNs)
    cases isTop.symm.trans returned
    have near := made.offset_le_last (UInt64.le_refl clock.maxDeadlineNs)
    have ordered := UInt64.le_iff_toNat_le.mp before
    obtain ⟨value, read, isValue⟩ := made.reads started (by omega)
    refine ⟨value, read, ?_, fun earlier time reads' order => ?_⟩
    · rw [isValue, elapsed, ← Nat.floor_div_eq_div (K := ℚ)]
      push_cast
      rfl
    · apply UInt64.le_iff_toNat_le.mpr
      rw [(elapsedNs_ok reads').2, isValue]
      exact elapsed_mono order

/-- At ten megahertz, 250 nanoseconds have passed with the third tick. -/
theorem conversion_exact_third : ∃ clock ticks value, new 10000000 5 = .ok clock ∧
    clock.deadlineTicks (.finite 250) = .ok (some ticks) ∧ ticks.toNat = 8 ∧ clock.elapsedNs ticks = .ok value ∧
      250 ≤ value := by
  have isNew : new 10000000 5 = .ok ⟨10000000, 5, 18446744073709551600⟩ := by decide +kernel
  obtain ⟨-, -, -, deadlines, -⟩ := (conversion_exact 10000000 5).2 _ isNew
  obtain ⟨ticks, value, returned, isTick, -, read, passed, -⟩ := deadlines 250 (by decide)
  exact ⟨_, ticks, value, isNew, returned, isTick, read, passed⟩

end Halcyon.Clock
