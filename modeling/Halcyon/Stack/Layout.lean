import Halcyon.Base.Spans
import Halcyon.Base.Word

/-!
The stack window: one stretch of addresses per hart, with two unmapped guards around the formal stack.
Every query computes on machine words, so an overflow is a panic here.
-/

namespace Halcyon.Stack

open List

def pageSize : Nat := 4096

def vpn2Span : Nat := 2 ^ 30

inductive LayoutError where
  | noSlots | notPageAligned | emptyFormal | wrongWindowSlot | spanExceedsSlot
  deriving DecidableEq

structure StackWindowLayout where
  window : Nat
  slots : Nat
  stackSize : Nat
  guard : Nat
  emergency : Nat
  physBase : Nat
  deriving DecidableEq

namespace StackWindowLayout

def new (window slots stackSize guard emergency physBase topSlot : Nat) : Outcome LayoutError StackWindowLayout := do
  refuseIf (slots == 0) .noSlots
  refuseIf (guard % pageSize != 0 || emergency % pageSize != 0 || stackSize % pageSize != 0 ||
    physBase % pageSize != 0) .notPageAligned
  refuseIf (stackSize ≤ emergency) .emptyFormal
  refuseIf (window % vpn2Span != 0 || (window >>> 30) &&& 0x1FF != topSlot) .wrongWindowSlot
  let guards ← okOr .spanExceedsSlot (checkedMul guard 2)
  let stride ← okOr .spanExceedsSlot (checkedAdd stackSize guards)
  let span ← okOr .spanExceedsSlot (checkedMul stride slots)
  refuseIf (span > vpn2Span) .spanExceedsSlot
  return { window, slots, stackSize, guard, emergency, physBase }

variable (layout : StackWindowLayout)

def stride : Outcome Empty Nat := do add layout.stackSize (← multiply 2 layout.guard)

def span : Outcome Empty Nat := do multiply (← layout.stride) layout.slots

def formalSpan : Outcome Empty Nat := subtract layout.stackSize layout.emergency

def slotBase (slot : Nat) : Outcome Empty Nat := do add layout.window (← multiply slot (← layout.stride))

/-- `start..start + len`. -/
def rangeFrom (start len : Nat) : Outcome Empty Span := do return ⟨start, ← add start len⟩

def bottomGuardRange (slot : Nat) : Outcome Empty Span := do rangeFrom (← layout.slotBase slot) layout.guard

def formalRange (slot : Nat) : Outcome Empty Span := do
  let base ← add (← layout.slotBase slot) layout.guard
  rangeFrom base (← layout.formalSpan)

def emergencyGuardRange (slot : Nat) : Outcome Empty Span := do
  rangeFrom (← layout.formalRange slot).stop layout.guard

def emergencyRange (slot : Nat) : Outcome Empty Span := do
  rangeFrom (← layout.emergencyGuardRange slot).stop layout.emergency

def formalTop (slot : Nat) : Outcome Empty Nat := do return (← layout.formalRange slot).stop

def emergencyTop (slot : Nat) : Outcome Empty Nat := do return (← layout.emergencyRange slot).stop

def slotOffset (va : Nat) : Outcome Empty (Option (Nat × Nat)) := do
  if va < layout.window then return none
  let off ← subtract va layout.window
  let slot ← divide off (← layout.stride)
  if layout.slots ≤ slot then return none
  return some (slot, ← remainder off (← layout.stride))

def inGuard (va : Nat) : Outcome Empty Bool := do
  match ← layout.slotOffset va with
  | none => return false
  | some (_, rem) =>
    if rem < layout.guard then return true
    if rem < (← add layout.guard (← layout.formalSpan)) then return false
    return decide (rem < (← add (← multiply 2 layout.guard) (← layout.formalSpan)))

def translate (va : Nat) : Outcome Empty (Option Nat) := do
  match ← layout.slotOffset va with
  | none => return none
  | some (slot, rem) =>
    let slotPa ← add layout.physBase (← multiply slot layout.stackSize)
    if rem < layout.guard then return none
    let formal ← subtract rem layout.guard
    if formal < (← layout.formalSpan) then return some (← add slotPa formal)
    let emergencyOff ← subtract formal (← layout.formalSpan)
    if emergencyOff < layout.guard then return none
    return some (← add (← add slotPa (← layout.formalSpan)) (← subtract emergencyOff layout.guard))

end StackWindowLayout

structure SlotMappings where
  layout : StackWindowLayout
  slot : Nat
  page : Nat
  pages : Nat

def StackWindowLayout.mappings (layout : StackWindowLayout) (slot : Nat) : SlotMappings :=
  { layout, slot, page := 0, pages := layout.stackSize / pageSize }

namespace SlotMappings

def next (m : SlotMappings) : Outcome Empty (Option ((Nat × Nat) × SlotMappings)) := do
  if m.pages ≤ m.page then return none
  let formalPages := (← m.layout.formalSpan) / pageSize
  let pair ← if m.page < formalPages then do
      let va ← add (← m.layout.formalRange m.slot).start (← multiply m.page pageSize)
      let slotPa ← add m.layout.physBase (← multiply m.slot m.layout.stackSize)
      pure (va, ← add slotPa (← multiply m.page pageSize))
    else do
      let index ← subtract m.page formalPages
      let va ← add (← m.layout.emergencyRange m.slot).start (← multiply index pageSize)
      let slotPa ← add m.layout.physBase (← multiply m.slot m.layout.stackSize)
      pure (va, ← add (← add slotPa (← m.layout.formalSpan)) (← multiply index pageSize))
  return some (pair, { m with page := ← add m.page 1 })

/-- What at most `turns` calls of `next` give, up to the first `None`. -/
def collect : Nat → SlotMappings → Outcome Empty (List (Nat × Nat))
  | 0, _ => .ok []
  | turns + 1, m => do
    match ← m.next with
    | none => return []
    | some (pair, rest) => return pair :: (← collect turns rest)

end SlotMappings

namespace StackWindowLayout

variable (l : StackWindowLayout) (slot va : Nat)

/-- All pairs of one slot: the last of these calls of `next` gives `None`. -/
def slotPages : Outcome Empty (List (Nat × Nat)) := (l.mappings slot).collect (l.stackSize / pageSize + 1)

def allPages : Outcome Empty (List (Nat × Nat)) := do
  return (← (range l.slots).mapM l.slotPages).flatten

def width : Nat := l.stackSize + 2 * l.guard

def formal : Nat := l.stackSize - l.emergency

def base : Nat := l.window + slot * l.width

def low : Nat := l.base slot + l.guard

def hole : Nat := l.low slot + l.formal

def top : Nat := l.hole slot + l.guard

def frames : Nat := l.physBase + slot * l.stackSize

def spread (offset : Nat) : Nat :=
  if offset < l.formal then l.guard + offset else 2 * l.guard + offset

/-- The byte of the slot's frames behind an offset in the slot; a guard has none. -/
def placed (rem : Nat) : Option Nat :=
  if rem < l.guard then none
  else if rem < l.guard + l.formal then some (rem - l.guard)
  else if rem < 2 * l.guard + l.formal then none
  else some (rem - 2 * l.guard)

/-- What `new` checks. -/
structure Accepted : Prop where
  slots : 0 < l.slots
  guard : l.guard % 4096 = 0
  emergency : l.emergency % 4096 = 0
  stackSize : l.stackSize % 4096 = 0
  physBase : l.physBase % 4096 = 0
  formal : l.emergency < l.stackSize
  window : l.window % 2 ^ 30 = 0
  span : l.width * l.slots ≤ 2 ^ 30

/-- The window ends below the last address and the frames end at or below it. -/
structure Fits : Prop where
  window : l.window + l.width * l.slots ≤ usizeMax
  frames : l.physBase + l.stackSize * l.slots ≤ usizeMax + 1

variable {l} {slot va}

theorem new_ok {window slots stackSize guard emergency physBase topSlot : Nat}
    (h : new window slots stackSize guard emergency physBase topSlot = .ok l) : l.Accepted := by
  obtain ⟨_, slots, h⟩ := bind_ok h
  obtain ⟨_, aligned, h⟩ := bind_ok h
  obtain ⟨_, formal, h⟩ := bind_ok h
  obtain ⟨_, window, h⟩ := bind_ok h
  obtain ⟨guards, doubled, h⟩ := bind_ok h
  obtain ⟨stride, summed, h⟩ := bind_ok h
  obtain ⟨span, total, h⟩ := bind_ok h
  obtain ⟨_, bounded, h⟩ := bind_ok h
  cases h
  obtain ⟨rfl, -⟩ := checkedMul_some (okOr_ok doubled)
  obtain ⟨rfl, -⟩ := checkedAdd_some (okOr_ok summed)
  obtain ⟨rfl, -⟩ := checkedMul_some (okOr_ok total)
  have slots := refuseIf_ok slots
  have aligned := refuseIf_ok aligned
  have formal := refuseIf_ok formal
  have window := refuseIf_ok window
  have bounded := Nat.le_of_not_gt (of_decide_eq_false (refuseIf_ok bounded))
  simp only [pageSize, vpn2Span, Bool.or_eq_false_iff, bne_eq_false_iff_eq, beq_eq_false_iff_ne,
    decide_eq_false_iff_not, Nat.not_le] at slots aligned formal window
  obtain ⟨⟨⟨guard, emergency⟩, stackSize⟩, physBase⟩ := aligned
  rw [Nat.mul_comm _ 2] at bounded
  exact ⟨Nat.pos_of_ne_zero slots, guard, emergency, stackSize, physBase, formal, window.1, bounded⟩

theorem slot_below (k : Nat) (h : slot < l.slots) : slot * k + k ≤ k * l.slots := by
  rw [← Nat.succ_mul, Nat.mul_comm k]
  exact Nat.mul_le_mul_right k h

theorem placed_iff {rem offset : Nat} (inside : rem < l.width) :
    l.placed rem = some offset ↔ offset < l.stackSize ∧ rem = l.spread offset := by
  unfold placed spread
  unfold width at inside
  have : l.formal ≤ l.stackSize := Nat.sub_le _ _
  split_ifs <;> simp only [false_iff, Option.some.injEq] <;> omega

theorem address_cases (l : StackWindowLayout) (va : Nat) : (va < l.window ∨ l.window + l.width * l.slots ≤ va) ∨
    ∃ slot rem, slot < l.slots ∧ rem < l.width ∧ va = l.base slot + rem := by
  by_cases outside : va < l.window ∨ l.window + l.width * l.slots ≤ va
  · exact .inl outside
  · have inside : va - l.window < l.width * l.slots := by omega
    refine .inr ⟨(va - l.window) / l.width, (va - l.window) % l.width,
      Nat.div_lt_of_lt_mul inside, Nat.mod_lt _ (Nat.pos_of_ne_zero ?_), ?_⟩
    · rintro none
      rw [none, Nat.zero_mul] at inside
      exact Nat.not_lt_zero _ inside
    have split := Nat.div_add_mod (va - l.window) l.width
    rw [Nat.mul_comm] at split
    unfold base
    omega

theorem Accepted.slot_fits (accepted : l.Accepted) : 2 * l.guard + l.formal ≤ usizeMax := by
  have least := Nat.le_mul_of_pos_right l.width accepted.slots
  have small := accepted.span
  unfold width at least small
  unfold StackWindowLayout.formal usizeMax
  omega

theorem Accepted.frames_fit (accepted : l.Accepted) (inside : slot < l.slots) : slot * l.stackSize ≤ usizeMax := by
  have below := slot_below l.stackSize inside
  have wider : l.stackSize * l.slots ≤ l.width * l.slots := Nat.mul_le_mul_right _ (Nat.le_add_right _ _)
  have small := accepted.span
  unfold usizeMax
  omega

section Accepted
variable (accepted : l.Accepted)
include accepted

theorem stride_returns : l.stride = .ok l.width := by
  have small := accepted.span
  have least := Nat.le_mul_of_pos_right l.width accepted.slots
  unfold width at least small
  rw [stride, multiply_returns (by unfold usizeMax; omega), ok_bind, add_returns (by unfold usizeMax; omega)]
  rfl

theorem formalSpan_returns : l.formalSpan = .ok l.formal := subtract_returns accepted.formal.le

theorem slotOffset_outside (h : va < l.window ∨ l.window + l.width * l.slots ≤ va) : l.slotOffset va = .ok none := by
  unfold slotOffset
  split
  · rfl
  · have positive : l.width ≠ 0 := by have := accepted.formal; unfold width; omega
    have beyond : l.slots ≤ (va - l.window) / l.width := by
      apply (Nat.le_div_iff_mul_le (Nat.pos_of_ne_zero positive)).mpr
      rw [Nat.mul_comm]
      omega
    rw [subtract_returns (by omega), ok_bind, stride_returns accepted, ok_bind, divide_returns positive, ok_bind,
      if_pos beyond]
    rfl

variable (inside : slot < l.slots) {rem : Nat} (within : rem < l.width)
include inside within

theorem slotOffset_inside : l.slotOffset (l.base slot + rem) = .ok (some (slot, rem)) := by
  have off : l.base slot + rem - l.window = rem + l.width * slot := by
    rw [base, Nat.mul_comm]
    omega
  have positive : 0 < l.width := by omega
  have quotient : (rem + l.width * slot) / l.width = slot := by
    rw [Nat.add_mul_div_left _ _ positive, Nat.div_eq_of_lt within, Nat.zero_add]
  have rest : (rem + l.width * slot) % l.width = rem := by
    rw [Nat.add_mul_mod_self_left, Nat.mod_eq_of_lt within]
  have above : l.window ≤ l.base slot + rem := by unfold base; omega
  rw [slotOffset, if_neg (Nat.not_lt.mpr above), subtract_returns above, ok_bind, off, stride_returns accepted, ok_bind,
    divide_returns positive.ne', ok_bind, quotient, if_neg (Nat.not_le.mpr inside), ok_bind,
    remainder_returns positive.ne', rest]
  rfl

theorem inGuard_inside : l.inGuard (l.base slot + rem) = .ok (l.placed rem).isNone := by
  have small := accepted.slot_fits
  rw [inGuard, slotOffset_inside accepted inside within, ok_bind]
  simp only [formalSpan_returns accepted, ok_bind, add_returns (show l.guard + l.formal ≤ usizeMax by omega),
    multiply_returns (show 2 * l.guard ≤ usizeMax by omega), add_returns small]
  unfold placed
  split_ifs with bottom low high
  · rfl
  · rfl
  · exact congrArg _ (decide_eq_true high)
  · exact congrArg _ (decide_eq_false high)

theorem translate_inside : l.translate (l.base slot + rem) =
    add l.physBase (slot * l.stackSize) >>= fun pa => (l.placed rem).mapM (add pa) := by
  have := accepted.slot_fits
  rw [translate, slotOffset_inside accepted inside within, ok_bind]
  simp only [formalSpan_returns accepted, ok_bind, multiply_returns (accepted.frames_fit inside)]
  congr 1
  funext pa
  unfold placed
  split_ifs with bottom low high
  · rfl
  · rw [subtract_returns (by omega), ok_bind, if_pos (by omega)]
    rfl
  · rw [subtract_returns (by omega), ok_bind, if_neg (by omega), subtract_returns (by omega), ok_bind, if_pos (by omega)]
    rfl
  · rw [subtract_returns (by omega), ok_bind, if_neg (by omega), subtract_returns (by omega), ok_bind,
      if_neg (by omega), subtract_returns (by omega)]
    show (add pa l.formal >>= fun sum => add sum _ >>= fun value => pure (some value)) = _
    rw [← bind_assoc, add_add, show l.formal + (rem - l.guard - l.formal - l.guard) = rem - 2 * l.guard by omega]
    rfl

end Accepted

theorem rangeFrom_returns {start len : Nat} (h : start + len ≤ usizeMax) :
    rangeFrom start len = .ok ⟨start, start + len⟩ := by
  rw [rangeFrom, add_returns h]
  rfl

theorem rangeFrom_ok {start len : Nat} {found : Span} (h : rangeFrom start len = .ok found) :
    found = ⟨start, start + len⟩ ∧ start + len ≤ usizeMax := by
  obtain ⟨stop, summed, h⟩ := bind_ok h
  cases h
  rw [add_ok summed]
  exact ⟨rfl, add_fits summed⟩

theorem Accepted.whole (accepted : l.Accepted) : l.formal + l.emergency = l.stackSize :=
  Nat.sub_add_cancel accepted.formal.le

theorem Accepted.top_end (accepted : l.Accepted) : l.top slot + l.emergency = l.base slot + l.width := by
  have := accepted.whole
  unfold top hole low width
  omega

theorem Accepted.formal_aligned (accepted : l.Accepted) : l.formal / 4096 * 4096 = l.formal := by
  have := accepted.stackSize
  have := accepted.emergency
  unfold StackWindowLayout.formal
  omega

/-- The page of a slot with its number, and the frame behind it. -/
def pagePair (l : StackWindowLayout) (slot page : Nat) : Nat × Nat :=
  (l.base slot + l.spread (page * 4096), l.frames slot + page * 4096)

def pages (l : StackWindowLayout) : List (Nat × Nat) :=
  (range l.slots).flatMap fun slot => (range (l.stackSize / 4096)).map (l.pagePair slot)

section Fits
variable (accepted : l.Accepted) (fits : l.Fits) (inside : slot < l.slots)
include accepted fits inside

omit accepted in
theorem base_end : l.base slot + l.width ≤ usizeMax := by
  have below := slot_below l.width inside
  have := fits.window
  unfold base
  omega

omit accepted in
theorem frames_end : l.frames slot + l.stackSize ≤ usizeMax + 1 := by
  have below := slot_below l.stackSize inside
  have := fits.frames
  unfold frames
  omega

theorem slotBase_returns : l.slotBase slot = .ok (l.base slot) := by
  have stop := base_end fits inside
  unfold base at stop
  rw [slotBase, stride_returns accepted, ok_bind, multiply_returns (by omega), ok_bind, add_returns (by omega)]
  rfl

theorem ranges_return : l.bottomGuardRange slot = .ok ⟨l.base slot, l.low slot⟩ ∧
    l.formalRange slot = .ok ⟨l.low slot, l.hole slot⟩ ∧
    l.emergencyGuardRange slot = .ok ⟨l.hole slot, l.top slot⟩ ∧
    l.emergencyRange slot = .ok ⟨l.top slot, l.top slot + l.emergency⟩ := by
  have stop := base_end fits inside
  rw [← accepted.top_end] at stop
  have base := slotBase_returns accepted fits inside
  have formal : l.formalRange slot = .ok ⟨l.low slot, l.hole slot⟩ := by
    rw [formalRange, base, ok_bind, add_returns (by unfold top hole low at stop; omega), ok_bind,
      formalSpan_returns accepted, ok_bind]
    exact rangeFrom_returns (by unfold top hole low at stop; omega)
  have guard : l.emergencyGuardRange slot = .ok ⟨l.hole slot, l.top slot⟩ := by
    rw [emergencyGuardRange, formal, ok_bind]
    exact rangeFrom_returns (by unfold top at stop; dsimp only; omega)
  refine ⟨?_, formal, guard, ?_⟩
  · rw [bottomGuardRange, base, ok_bind]
    exact rangeFrom_returns (by unfold top hole low at stop; omega)
  · rw [emergencyRange, guard, ok_bind]
    exact rangeFrom_returns stop

theorem translate_returns {rem : Nat} (within : rem < l.width) :
    l.translate (l.base slot + rem) = .ok ((l.placed rem).map (l.frames slot + ·)) := by
  have stop := frames_end fits inside
  have positive := accepted.formal
  rw [translate_inside accepted inside within, add_returns (show _ ≤ _ by unfold frames at stop; omega), ok_bind]
  cases found : l.placed rem with
  | none => rfl
  | some offset =>
    have small := ((placed_iff within).mp found).1
    show some <$> add (l.frames slot) offset = _
    rw [add_returns (by omega)]
    rfl

theorem next_returns {page : Nat} (more : page < l.stackSize / 4096) :
    SlotMappings.next ⟨l, slot, page, l.stackSize / 4096⟩ =
      .ok (some (l.pagePair slot page, ⟨l, slot, page + 1, l.stackSize / 4096⟩)) := by
  have stop := base_end fits inside
  rw [← accepted.top_end] at stop
  have ends := frames_end fits inside
  have whole := accepted.whole
  have aligned := accepted.formal_aligned
  have first : l.physBase + slot * l.stackSize ≤ usizeMax := by unfold frames at ends; omega
  obtain ⟨-, formal, -, emergency⟩ := ranges_return accepted fits inside
  rw [SlotMappings.next, if_neg (Nat.not_le.mpr more)]
  simp only [pageSize, formalSpan_returns accepted, formal, emergency, ok_bind, multiply_returns (accepted.frames_fit inside),
    add_returns first]
  change l.frames slot ≤ usizeMax at first
  by_cases low : page < l.formal / 4096
  · have va : l.low slot + page * 4096 ≤ usizeMax := by unfold top hole at stop; omega
    rw [if_pos low, multiply_returns (by omega), ok_bind, add_returns va, ok_bind]
    show (add (l.frames slot) (page * 4096) >>= _) = _
    rw [add_returns (by omega), pagePair, spread, if_pos (by omega), ← Nat.add_assoc]
    show (add page 1 >>= _) = _
    rw [add_returns (by omega)]
    rfl
  · have va : l.top slot + (page - l.formal / 4096) * 4096 =
        l.base slot + (2 * l.guard + page * 4096) := by unfold top hole StackWindowLayout.low; omega
    have pa : l.frames slot + l.formal + (page - l.formal / 4096) * 4096 = l.frames slot + page * 4096 := by omega
    rw [if_neg low, subtract_returns (by omega), ok_bind, multiply_returns (by omega), ok_bind,
      add_returns (by omega), ok_bind]
    show (add (l.frames slot) l.formal >>= _) = _
    rw [add_returns (by omega), ok_bind, ok_bind, add_returns (by omega), va, pa, pagePair, spread, if_neg (by omega)]
    show (add page 1 >>= _) = _
    rw [add_returns (by omega)]
    rfl

theorem collect_returns {turns page : Nat} (h : page + turns = l.stackSize / 4096 + 1) :
    SlotMappings.collect turns ⟨l, slot, page, l.stackSize / 4096⟩ =
      .ok ((range' page (l.stackSize / 4096 - page)).map (l.pagePair slot)) := by
  induction turns generalizing page with
  | zero =>
    rw [show l.stackSize / 4096 - page = 0 by omega]
    rfl
  | succ turns ih =>
    by_cases more : page < l.stackSize / 4096
    · rw [SlotMappings.collect, next_returns accepted fits inside more, ok_bind,
        show l.stackSize / 4096 - page = l.stackSize / 4096 - (page + 1) + 1 by omega, range'_succ, map_cons]
      dsimp only
      rw [ih (by omega)]
      rfl
    · rw [show l.stackSize / 4096 - page = 0 by omega, SlotMappings.collect, SlotMappings.next,
        if_pos (Nat.le_of_not_lt more)]
      rfl

theorem slotPages_returns : l.slotPages slot = .ok ((range (l.stackSize / 4096)).map (l.pagePair slot)) := by
  rw [range_eq_range']
  exact collect_returns accepted fits inside (Nat.zero_add _)

omit inside

theorem allPages_returns : l.allPages = .ok l.pages := by
  rw [allPages, pages, flatMap_def, mapM_returns fun slot member => slotPages_returns accepted fits (mem_range.mp member)]
  rfl

end Fits

section Pages
theorem mem_pages {pair : Nat × Nat} : pair ∈ l.pages ↔
    ∃ slot < l.slots, ∃ page < l.stackSize / 4096, l.pagePair slot page = pair := by
  simp only [pages, mem_flatMap, mem_map, mem_range]

theorem spread_lt {offset other : Nat} (h : offset < other) : l.spread offset < l.spread other := by
  unfold spread
  split_ifs <;> omega

theorem spread_inside {offset : Nat} (h : offset < l.stackSize) : l.spread offset < l.width := by
  unfold spread width
  split_ifs <;> omega

theorem base_below {other : Nat} (h : slot < other) : l.base slot + l.width ≤ l.base other := by
  have := Nat.mul_le_mul_right l.width h
  rw [Nat.succ_mul] at this
  unfold base
  omega

theorem pages_ascend : l.pages.Pairwise fun p q => p.1 < q.1 ∧ p.2 < q.2 := by
  apply pairwise_flatMap.mpr
  constructor
  · intro slot _
    apply pairwise_map.mpr
    apply pairwise_lt_range.imp
    intro page other before
    exact ⟨Nat.add_lt_add_left (spread_lt (by omega)) _, by unfold pagePair; dsimp only; omega⟩
  · apply pairwise_lt_range.imp
    intro slot other before p first q second
    obtain ⟨page, small, rfl⟩ := mem_map.mp first
    obtain ⟨page', small', rfl⟩ := mem_map.mp second
    have small := mem_range.mp small
    have reach : l.spread (page * 4096) < l.width := spread_inside (by omega)
    have below := l.base_below before
    have frame := Nat.mul_le_mul_right l.stackSize before
    rw [Nat.succ_mul] at frame
    unfold pagePair frames
    dsimp only
    omega

variable (accepted : l.Accepted)
include accepted

theorem base_aligned (slot : Nat) : l.base slot % 4096 = 0 := by
  have window : 4096 ∣ l.window := Nat.dvd_of_mod_eq_zero (by have := accepted.window; omega)
  have width : 4096 ∣ l.width := by
    have := accepted.stackSize
    have := accepted.guard
    unfold width
    omega
  exact Nat.mod_eq_zero_of_dvd (Nat.dvd_add window (Nat.dvd_mul_left_of_dvd width slot))

theorem frames_aligned (slot : Nat) : l.frames slot % 4096 = 0 :=
  Nat.mod_eq_zero_of_dvd (Nat.dvd_add (Nat.dvd_of_mod_eq_zero accepted.physBase)
    (Nat.dvd_mul_left_of_dvd (Nat.dvd_of_mod_eq_zero accepted.stackSize) slot))

theorem spread_aligned (page : Nat) : l.spread (page * 4096) % 4096 = 0 := by
  have := accepted.guard
  unfold spread
  split_ifs <;> omega

theorem spread_page {page rest : Nat} (small : rest < 4096) :
    l.spread (page * 4096 + rest) = l.spread (page * 4096) + rest := by
  have := accepted.formal_aligned
  unfold spread
  split_ifs <;> omega

theorem translate_iff_listed (fits : l.Fits) {pa : Nat} : l.translate va = .ok (some pa) ↔
    ∃ page, (va - va % 4096, page) ∈ l.pages ∧ pa = page + va % 4096 := by
  constructor
  · intro translated
    rcases address_cases l va with outside | ⟨slot, rem, inside, within, rfl⟩
    · rw [translate, slotOffset_outside accepted outside] at translated
      cases translated
    · rw [translate_returns accepted fits inside within] at translated
      obtain ⟨offset, found, rfl⟩ := Option.map_eq_some_iff.mp (Except.ok.inj translated)
      obtain ⟨small, rfl⟩ := (placed_iff within).mp found
      have split : l.spread offset = l.spread (offset / 4096 * 4096) + offset % 4096 := by
        rw [← spread_page accepted (Nat.mod_lt offset (by decide)), Nat.mul_comm, Nat.div_add_mod]
      have base := base_aligned accepted slot
      have aligned := spread_aligned accepted (offset / 4096)
      have stackSize := accepted.stackSize
      refine ⟨l.frames slot + offset / 4096 * 4096, mem_pages.mpr ?_, by omega⟩
      refine ⟨slot, inside, offset / 4096, by omega, ?_⟩
      unfold pagePair
      congr 1
      omega
  · rintro ⟨page, listed, rfl⟩
    obtain ⟨slot, inside, number, small, same⟩ := mem_pages.mp listed
    obtain ⟨start, rfl⟩ := Prod.mk.inj same
    have low := Nat.mod_lt va (show 4096 > 0 by decide)
    have whole : number * 4096 + va % 4096 < l.stackSize := by omega
    have within := spread_inside whole
    have place := (placed_iff within).mpr ⟨whole, rfl⟩
    have address : va = l.base slot + l.spread (number * 4096 + va % 4096) := by
      rw [spread_page accepted low]
      omega
    have returned := translate_returns accepted fits inside within
    rw [place, ← address] at returned
    rw [returned, Option.map_some, Nat.add_assoc]

theorem translate_none_iff (fits : l.Fits) : l.translate va = .ok none ↔
    (va < l.window ∨ l.window + l.width * l.slots ≤ va) ∨ l.inGuard va = .ok true := by
  rcases address_cases l va with outside | ⟨slot, rem, inside, within, rfl⟩
  · rw [translate, slotOffset_outside accepted outside]
    exact iff_of_true rfl (.inl outside)
  · have stop := base_end fits inside
    have below := slot_below l.width inside
    have window : ¬(l.base slot + rem < l.window ∨ l.window + l.width * l.slots ≤ l.base slot + rem) := by
      unfold base
      omega
    rw [translate_returns accepted fits inside within, inGuard_inside accepted inside within, or_iff_right window]
    cases l.placed rem with
    | none => exact iff_of_true rfl rfl
    | some offset => exact iff_of_false (by rintro ⟨⟩) (by rintro ⟨⟩)

end Pages

/-- What the listing of the pages, the translation, the guards and the ranges say of one another. -/
structure Agrees (l : StackWindowLayout) (pages : List (Nat × Nat)) : Prop where
  aligned : ∀ pair ∈ pages, pair.1 % pageSize = 0 ∧ pair.2 % pageSize = 0
  vas : (pages.map Prod.fst).Nodup
  pas : (pages.map Prod.snd).Nodup
  translated : ∀ va pa, l.translate va = .ok (some pa) ↔
    ∃ page, (va - va % pageSize, page) ∈ pages ∧ pa = page + va % pageSize
  untranslated : ∃ span, l.span = .ok span ∧ ∀ va, l.translate va = .ok none ↔
    (va < l.window ∨ l.window + span ≤ va) ∨ l.inGuard va = .ok true
  tiled : ∀ slot < l.slots, ∃ base stride bottom formal hole emergency, l.slotBase slot = .ok base ∧
    l.stride = .ok stride ∧ l.bottomGuardRange slot = .ok bottom ∧ l.formalRange slot = .ok formal ∧
    l.emergencyGuardRange slot = .ok hole ∧ l.emergencyRange slot = .ok emergency ∧
    bottom.start = base ∧ bottom.start ≤ bottom.stop ∧ bottom.stop = formal.start ∧ formal.start ≤ formal.stop ∧
    formal.stop = hole.start ∧ hole.start ≤ hole.stop ∧ hole.stop = emergency.start ∧
    emergency.start ≤ emergency.stop ∧ emergency.stop = base + stride

theorem span_returns (accepted : l.Accepted) : l.span = .ok (l.width * l.slots) := by
  have small := accepted.span
  rw [span, stride_returns accepted, ok_bind, multiply_returns (by unfold usizeMax; omega)]

theorem mappings_translate_inverse {window slots stackSize guard emergency physBase topSlot : Nat}
    (accepted : new window slots stackSize guard emergency physBase topSlot = .ok l) (fits : l.Fits) :
    ∃ pages, l.allPages = .ok pages ∧ l.Agrees pages := by
  have accepted := new_ok accepted
  refine ⟨l.pages, allPages_returns accepted fits, ?_, pairwise_map.mpr (pages_ascend.imp fun h => h.1.ne),
    pairwise_map.mpr (pages_ascend.imp fun h => h.2.ne), fun va pa => translate_iff_listed accepted fits,
    ⟨_, span_returns accepted, fun va => translate_none_iff accepted fits⟩, fun slot inside => ?_⟩
  · intro pair listed
    obtain ⟨slot, inside, page, small, rfl⟩ := mem_pages.mp listed
    have base := base_aligned accepted slot
    have reach := spread_aligned accepted page
    have frames := frames_aligned accepted slot
    unfold pagePair pageSize
    omega
  · obtain ⟨bottom, formal, hole, emergency⟩ := ranges_return accepted fits inside
    exact ⟨_, _, _, _, _, _, slotBase_returns accepted fits inside, stride_returns accepted, bottom, formal, hole,
      emergency, rfl, Nat.le_add_right _ _, rfl, Nat.le_add_right _ _, rfl, Nat.le_add_right _ _, rfl,
      Nat.le_add_right _ _, accepted.top_end⟩

theorem mappings_translate_inverse_virt : ∃ pages,
    StackWindowLayout.allPages ⟨0xFFFFFFFFC0000000, 8, 0x40000, 0x3000, 0x1000, 0x80493000⟩ = .ok pages ∧
    StackWindowLayout.Agrees ⟨0xFFFFFFFFC0000000, 8, 0x40000, 0x3000, 0x1000, 0x80493000⟩ pages :=
  mappings_translate_inverse (show new 0xFFFFFFFFC0000000 8 0x40000 0x3000 0x1000 0x80493000 511 = _ from rfl)
    ⟨by decide, by decide⟩

structure Answers (l : StackWindowLayout) (slot va : Nat) : Prop where
  stride : ∃ value, l.stride = .ok value
  span : ∃ value, l.span = .ok value
  slotBase : ∃ value, l.slotBase slot = .ok value
  bottomGuardRange : ∃ value, l.bottomGuardRange slot = .ok value
  formalRange : ∃ value, l.formalRange slot = .ok value
  emergencyGuardRange : ∃ value, l.emergencyGuardRange slot = .ok value
  emergencyRange : ∃ value, l.emergencyRange slot = .ok value
  formalTop : ∃ value, l.formalTop slot = .ok value
  emergencyTop : ∃ value, l.emergencyTop slot = .ok value
  inGuard : ∃ value, l.inGuard va = .ok value
  translate : ∃ value, l.translate va = .ok value
  mappings : ∃ value, l.slotPages slot = .ok value

theorem slotBase_ok (accepted : l.Accepted) {found : Nat} (h : l.slotBase slot = .ok found) : found = l.base slot := by
  obtain ⟨stride, strode, h⟩ := bind_ok h
  obtain ⟨offset, product, h⟩ := bind_ok h
  have same := Except.ok.inj (strode.symm.trans (stride_returns accepted))
  rw [add_ok h, multiply_ok product, same]
  rfl

theorem emergencyRange_fits (accepted : l.Accepted) {found : Span} (h : l.emergencyRange slot = .ok found) :
    l.base slot + l.width ≤ usizeMax := by
  obtain ⟨hole, holed, h⟩ := bind_ok h
  obtain ⟨formal, ranged, holed⟩ := bind_ok holed
  obtain ⟨bottom, based, ranged⟩ := bind_ok ranged
  obtain ⟨low, summed, ranged⟩ := bind_ok ranged
  obtain ⟨span, spanned, ranged⟩ := bind_ok ranged
  rw [formalSpan_returns accepted] at spanned
  cases spanned
  obtain ⟨rfl, -⟩ := rangeFrom_ok ranged
  obtain ⟨rfl, -⟩ := rangeFrom_ok holed
  have fits := (rangeFrom_ok h).2
  rw [add_ok summed, slotBase_ok accepted based] at fits
  rw [← accepted.top_end]
  exact fits

theorem frames_fit (accepted : l.Accepted) (inside : slot < l.slots) (fits : l.base slot + l.width ≤ usizeMax)
    (answers : ∀ va ≤ usizeMax, ∃ value, l.translate va = .ok value) :
    l.frames slot + l.stackSize ≤ usizeMax + 1 := by
  have positive := accepted.formal
  have last : l.stackSize - 1 < l.stackSize := by omega
  have within := spread_inside last
  obtain ⟨value, returned⟩ := answers (l.base slot + l.spread (l.stackSize - 1)) (by omega)
  rw [translate_inside accepted inside within, (placed_iff within).mpr ⟨last, rfl⟩] at returned
  obtain ⟨pa, summed, returned⟩ := bind_ok returned
  obtain ⟨end', top, -⟩ := bind_ok returned
  have bound := add_fits top
  rw [add_ok summed] at bound
  unfold frames
  omega

theorem queries_answer_iff_fits {window slots stackSize guard emergency physBase topSlot : Nat}
    (accepted : new window slots stackSize guard emergency physBase topSlot = .ok l) :
    (∀ slot < l.slots, ∀ va ≤ usizeMax, l.Answers slot va) ↔ l.Fits := by
  have accepted := new_ok accepted
  constructor
  · intro answers
    have positive := accepted.slots
    have last : l.slots - 1 < l.slots := by omega
    obtain ⟨found, ranged⟩ := (answers _ last 0 (Nat.zero_le _)).emergencyRange
    have window := emergencyRange_fits accepted ranged
    have ends := frames_fit accepted last window fun va small => (answers _ last va small).translate
    have whole : ∀ k, (l.slots - 1) * k + k = k * l.slots := by
      intro k
      rw [← Nat.succ_mul, Nat.succ_eq_add_one, Nat.sub_add_cancel positive, Nat.mul_comm]
    have strides := whole l.width
    have sizes := whole l.stackSize
    unfold base at window
    unfold frames at ends
    exact ⟨by omega, by omega⟩
  · intro fits slot inside va small
    obtain ⟨bottom, formal, hole, emergency⟩ := ranges_return accepted fits inside
    refine ⟨⟨_, stride_returns accepted⟩, ⟨_, span_returns accepted⟩,
      ⟨_, slotBase_returns accepted fits inside⟩, ⟨_, bottom⟩, ⟨_, formal⟩, ⟨_, hole⟩, ⟨_, emergency⟩, ?_, ?_, ?_, ?_,
      ⟨_, slotPages_returns accepted fits inside⟩⟩
    · exact bind_returns formal ⟨_, rfl⟩
    · exact bind_returns emergency ⟨_, rfl⟩
    · rcases address_cases l va with outside | ⟨slot, rem, inside, within, rfl⟩
      · exact bind_returns (slotOffset_outside accepted outside) ⟨_, rfl⟩
      · exact ⟨_, inGuard_inside accepted inside within⟩
    · rcases address_cases l va with outside | ⟨slot, rem, inside, within, rfl⟩
      · exact bind_returns (slotOffset_outside accepted outside) ⟨_, rfl⟩
      · exact ⟨_, translate_returns accepted fits inside within⟩

theorem queries_answer_iff_fits_virt :
    StackWindowLayout.Fits ⟨0xFFFFFFFFC0000000, 8, 0x40000, 0x3000, 0x1000, 0x80493000⟩ ∧ ∀ slot < 8, ∀ va ≤ usizeMax,
    StackWindowLayout.Answers ⟨0xFFFFFFFFC0000000, 8, 0x40000, 0x3000, 0x1000, 0x80493000⟩ slot va := by
  have fits : StackWindowLayout.Fits ⟨0xFFFFFFFFC0000000, 8, 0x40000, 0x3000, 0x1000, 0x80493000⟩ := ⟨by decide, by decide⟩
  have accepted : new 0xFFFFFFFFC0000000 8 0x40000 0x3000 0x1000 0x80493000 511 = _ := rfl
  exact ⟨fits, (queries_answer_iff_fits accepted).mpr fits⟩

/-- A window that ends with the address space, and frames that would end beyond it. -/
theorem accepted_layouts_overflow :
    (∃ l, new (2 ^ 64 - 2 ^ 30) 1 (2 ^ 30) 0 4096 0 511 = .ok l ∧ Panics (l.emergencyTop 0)) ∧
    ∃ l, new (2 ^ 30) 1 8192 4096 4096 (2 ^ 64 - 4096) 1 = .ok l ∧ Panics (l.translate (2 ^ 30 + 12288)) :=
  ⟨⟨_, rfl, _, rfl⟩, _, rfl, _, rfl⟩

end StackWindowLayout

end Halcyon.Stack
