import Mathlib.Data.Nat.Bitwise
import Halcyon.Base.Word

/-!
`TimeoutRegistration`: one word that is 0, a token, a token with the closing bit, or the closing bit alone. Every access is one
step of a `World`; its history keeps the calls that have returned. A token is the owner, the slot and the generation of a
registration in the low 63 bits; the highest bit is left to those who store one in a control word.
-/

namespace Halcyon.Timers

open List

def ownerBits : Nat := 8

def slotBits : Nat := 28

def generationBits : Nat := 27

/-- `TimerToken::RAW_MASK`. -/
def rawMask : Nat := 2 ^ (ownerBits + slotBits + generationBits) - 1

/-- A token has no bit outside `rawMask`. -/
@[ext]
structure TimerToken where
  raw : Nat
  fits : raw ≤ rawMask
  deriving DecidableEq

def timeoutUnregistered : Nat := 0

/-- `TIMEOUT_CLOSED`, the complement of `TimerToken::RAW_MASK`. -/
def timeoutClosed : Nat := u64Max - rawMask

inductive Returned
  | publish (token : TimerToken) (result : Bool)
  | close
  | takeCancellation (result : Option TimerToken)
  | retire (token : TimerToken) (result : Bool)
  deriving DecidableEq

/-- `takes` holds the word each `take_cancellation` in progress has read last. -/
structure Registration where
  state : Nat
  takes : List Nat
  history : List Returned

inductive Access
  | publish (token : TimerToken)
  | close
  | retire (token : TimerToken)
  | takeLoad
  /-- The weak exchange of one call in progress. It may fail although the word is the expected one. -/
  | takeExchange (index : Nat) (spurious : Bool)
  deriving DecidableEq

namespace Registration

def new : Registration := ⟨timeoutUnregistered, [], []⟩

variable (r : Registration)

def returns (call : Returned) : Registration := { r with history := r.history ++ [call] }

def publish (token : TimerToken) : Registration :=
  if token.raw = 0 ∨ token.raw &&& timeoutClosed ≠ 0 then r.returns (.publish token false)
  else if r.state = timeoutUnregistered then { r with state := token.raw }.returns (.publish token true)
  else r.returns (.publish token false)

def close : Registration := { r with state := r.state ||| timeoutClosed }.returns .close

def retire (token : TimerToken) : Registration :=
  if r.state = token.raw then { r with state := timeoutClosed }.returns (.retire token true)
  else r.returns (.retire token false)

/-- The test at the head of the loop of `take_cancellation`, on the word just read. -/
def takeTest (current : Nat) : Registration :=
  if current &&& timeoutClosed = 0 ∨ current = timeoutClosed then r.returns (.takeCancellation none)
  else { r with takes := r.takes ++ [current] }

def takeLoad : Registration := r.takeTest r.state

/-- `TimerToken::from_raw(current & !TIMEOUT_CLOSED)`. -/
def tokenOf (current : Nat) : TimerToken := ⟨current &&& (u64Max - timeoutClosed), Nat.and_le_right⟩

def takeExchange (index : Nat) (spurious : Bool) : Registration :=
  match r.takes[index]? with
  | none => r
  | some current =>
    let rest := { r with takes := r.takes.eraseIdx index }
    if r.state = current ∧ spurious = false then
      { rest with state := timeoutClosed }.returns (.takeCancellation (some (tokenOf current)))
    else rest.takeTest r.state

def step : Access → Registration
  | .publish token => r.publish token
  | .close => r.close
  | .retire token => r.retire token
  | .takeLoad => r.takeLoad
  | .takeExchange index spurious => r.takeExchange index spurious

def run (accesses : List Access) : Registration := accesses.foldl step new

def wins (history : List Returned) (token : TimerToken) : Nat :=
  history.count (.retire token true) + history.count (.takeCancellation (some token))

theorem closed_eq : timeoutClosed = 2 ^ 63 := by decide

section

variable (token : TimerToken)
include token

theorem raw_lt : token.raw < 2 ^ 63 := by
  have fits := token.fits
  simp only [rawMask, ownerBits, slotBits, generationBits] at fits
  omega

theorem raw_and_closed : token.raw &&& timeoutClosed = 0 := by
  rw [closed_eq, Nat.and_two_pow, Nat.testBit_lt_two_pow (raw_lt token)]
  rfl

theorem raw_or_closed : token.raw ||| timeoutClosed = timeoutClosed + token.raw := by
  have sum := Nat.two_pow_add_eq_or_of_lt (raw_lt token) 1
  rw [closed_eq, Nat.or_comm]
  rw [Nat.mul_one] at sum
  exact sum.symm

theorem closing_and_closed : (timeoutClosed + token.raw) &&& timeoutClosed ≠ 0 := by
  rw [← raw_or_closed, Nat.and_or_distrib_right, raw_and_closed, Nat.and_self, Nat.zero_or]
  decide

theorem closing_or_closed : (timeoutClosed + token.raw) ||| timeoutClosed = timeoutClosed + token.raw := by
  rw [← raw_or_closed, Nat.or_assoc, Nat.or_self]

theorem tokenOf_closing : tokenOf (timeoutClosed + token.raw) = token := by
  have mask : u64Max - timeoutClosed = 2 ^ 63 - 1 := by decide
  have low : (timeoutClosed + token.raw) &&& (u64Max - timeoutClosed) = token.raw := by
    rw [mask, Nat.and_two_pow_sub_one_eq_mod, closed_eq, Nat.add_mod_left, Nat.mod_eq_of_lt (raw_lt token)]
  exact TimerToken.ext low

end

/-- A completed close stands before a completed `take_cancellation`. -/
def ClosedThenTaken (history : List Returned) : Prop := ∃ result, List.Sublist [.close, .takeCancellation result] history

/-- The four forms of the word, each with the calls that have led to it. -/
inductive Stage : Prop
  | idle (word : r.state = timeoutUnregistered) (open_ : .close ∉ r.history) (idle : r.takes = [])
      (none : ∀ token, .publish token true ∉ r.history) (fresh : ∀ token, wins r.history token = 0)
  | live (token : TimerToken) (word : r.state = token.raw) (real : token.raw ≠ 0) (open_ : .close ∉ r.history)
      (idle : r.takes = []) (one : ∀ other, .publish other true ∈ r.history → other = token)
      (fresh : wins r.history token = 0)
  | closing (token : TimerToken) (word : r.state = timeoutClosed + token.raw) (real : token.raw ≠ 0)
      (untaken : ¬ ClosedThenTaken r.history) (one : ∀ other, .publish other true ∈ r.history → other = token)
      (fresh : wins r.history token = 0) (readers : ∀ current ∈ r.takes, current = r.state)
  | closed (word : r.state = timeoutClosed)
      (settled : ∀ token, .publish token true ∈ r.history → wins r.history token = 1)
      (readers : ∀ current ∈ r.takes, timeoutClosed < current)

/-- The stage, and that no publication has succeeded after a close. -/
structure Sound : Prop where
  stage : r.Stage
  refused : ∀ token, ¬ List.Sublist [.close, .publish token true] r.history

variable {r}

section

variable {history : List Returned}

variable {call : Returned}

theorem wins_returns {token : TimerToken} (retired : call ≠ .retire token true)
    (taken : call ≠ .takeCancellation (some token)) : wins (history ++ [call]) token = wins history token := by
  simp [wins, count_append, retired, taken]

theorem wins_of_returns {token : TimerToken} (won : call = .retire token true ∨ call = .takeCancellation (some token)) :
    wins (history ++ [call]) token = wins history token + 1 := by
  rcases won with rfl | rfl <;> simp [wins, count_append] <;> omega

theorem closedThenTaken_returns : ClosedThenTaken (history ++ [call]) ↔
    ClosedThenTaken history ∨ .close ∈ history ∧ ∃ result, call = .takeCancellation result := by
  simp only [ClosedThenTaken, pair_sublist_concat, exists_or, exists_and_left, eq_comm]

theorem mem_returns {other : Returned} : other ∈ history ++ [call] ↔ other ∈ history ∨ other = call := by
  simp

theorem refused_returns (refused : ∀ token, ¬ List.Sublist [.close, .publish token true] history)
    (fails : .close ∈ history → ∀ token, call ≠ .publish token true) (token : TimerToken) :
    ¬ List.Sublist [.close, .publish token true] (history ++ [call]) := by
  rw [pair_sublist_concat]
  rintro (within | ⟨closed, same⟩)
  · exact refused token within
  · exact fails closed token same.symm

theorem settled_returns {token : TimerToken} (fresh : wins history token = 0)
    (one : ∀ other, .publish other true ∈ history → other = token)
    (won : call = .retire token true ∨ call = .takeCancellation (some token)) (other : TimerToken)
    (member : .publish other true ∈ (history ++ [call])) : wins (history ++ [call]) other = 1 := by
  have before := (mem_returns.mp member).resolve_right (by rcases won with rfl | rfl <;> simp)
  cases one other before
  rw [wins_of_returns won, fresh]

end

theorem Sound.fails {call : Returned} (sound : r.Sound)
    (quiet : (∃ token, call = .publish token false ∨ call = .retire token false) ∨ call = .takeCancellation none ∧
      ∀ token : TimerToken, token.raw ≠ 0 → r.state ≠ timeoutClosed + token.raw) : (r.returns call).Sound := by
  have kept (token : TimerToken) : wins (r.returns call).history token = wins r.history token :=
    wins_returns (by rintro rfl; simp at quiet) (by rintro rfl; simp at quiet)
  have still {other : Returned} (notCall : other ≠ call) (member : other ∈ (r.returns call).history) :
      other ∈ r.history := (mem_returns.mp member).resolve_right notCall
  have unpublished (token : TimerToken) : Returned.publish token true ≠ call := by
    rintro rfl
    simp at quiet
  have notClose : Returned.close ≠ call := by
    rintro rfl
    simp at quiet
  refine ⟨?_, refused_returns sound.refused fun _ token same => unpublished token same.symm⟩
  cases sound.stage with
  | idle word open_ idle none fresh =>
    exact .idle word (fun member => open_ (still notClose member)) idle
      (fun token member => none token (still (unpublished token) member)) fun token => (kept token).trans (fresh token)
  | live token word real open_ idle one fresh =>
    exact .live token word real (fun member => open_ (still notClose member)) idle
      (fun other member => one other (still (unpublished other) member)) ((kept token).trans fresh)
  | closing token word real untaken one fresh readers =>
    refine .closing token word real (fun taken => ?_) (fun other member => one other (still (unpublished other) member))
      ((kept token).trans fresh) readers
    rcases closedThenTaken_returns.mp taken with before | ⟨_, result, rfl⟩
    · exact untaken before
    · rcases quiet with ⟨_, quiet⟩ | ⟨_, other⟩
      · simp at quiet
      · exact other token real word
  | closed word settled readers =>
    refine .closed word (fun token member => ?_) readers
    exact (kept token).trans (settled token (still (unpublished token) member))

theorem publish_sound (token : TimerToken) (sound : r.Sound) : (r.publish token).Sound := by
  unfold publish
  split
  · exact sound.fails (.inl ⟨token, .inl rfl⟩)
  · rename_i genuine
    have real : token.raw ≠ 0 := fun zero => genuine (.inl zero)
    split
    · rename_i unregistered
      cases sound.stage with
      | idle word open_ idle none fresh =>
        refine ⟨.live token rfl real ?_ idle ?_ ?_, ?_⟩
        · simpa [returns] using open_
        · intro other member
          rcases mem_returns.mp member with before | same
          · exact absurd before (none other)
          · cases same
            rfl
        · exact (wins_returns (by simp) (by simp)).trans (fresh token)
        · exact refused_returns sound.refused fun closed => absurd closed open_
      | live other word otherReal => exact absurd (word.symm.trans unregistered) otherReal
      | closing other word | closed word =>
        rw [word, closed_eq, timeoutUnregistered] at unregistered
        omega
    · exact sound.fails (.inl ⟨token, .inl rfl⟩)

theorem close_sound (sound : r.Sound) : r.close.Sound := by
  have quiet (token : TimerToken) : wins r.close.history token = wins r.history token := wins_returns (by simp) (by simp)
  have published {token : TimerToken} (member : .publish token true ∈ r.close.history) :
      .publish token true ∈ r.history := (mem_returns.mp member).resolve_right (by simp)
  have untouched (closed : ClosedThenTaken r.close.history) : ClosedThenTaken r.history :=
    (closedThenTaken_returns.mp closed).resolve_right (by simp)
  refine ⟨?_, refused_returns sound.refused fun _ token => by simp⟩
  cases sound.stage with
  | idle word open_ idle none fresh =>
    refine .closed ?_ (fun token member => absurd (published member) (none token)) ?_
    · exact congrArg (· ||| timeoutClosed) word
    · exact fun current member => absurd (idle ▸ member : current ∈ []) (by simp)
  | live token word real open_ idle one fresh =>
    refine .closing token ?_ real (fun taken => ?_) (fun other member => one other (published member))
      ((quiet token).trans fresh) ?_
    · exact (congrArg (· ||| timeoutClosed) word).trans (raw_or_closed token)
    · obtain ⟨_, within⟩ := untouched taken
      exact open_ (within.subset (by simp))
    · exact fun current member => absurd (idle ▸ member : current ∈ []) (by simp)
  | closing token word real untaken one fresh readers =>
    have same := (congrArg (· ||| timeoutClosed) word).trans ((closing_or_closed token).trans word.symm)
    exact .closing token (same.trans word) real (fun taken => untaken (untouched taken))
      (fun other member => one other (published member)) ((quiet token).trans fresh)
      fun current member => (readers current member).trans same.symm
  | closed word settled readers =>
    refine .closed ?_ (fun token member => (quiet token).trans (settled token (published member))) readers
    exact (congrArg (· ||| timeoutClosed) word).trans (Nat.or_self _)

theorem retire_sound (token : TimerToken) (sound : r.Sound) : (r.retire token).Sound := by
  unfold retire
  split
  · rename_i same
    refine ⟨?_, refused_returns sound.refused fun _ other => by simp⟩
    cases sound.stage with
    | idle word open_ idle none fresh =>
      refine .closed rfl (fun other member => ?_) (by simp [returns, idle])
      exact absurd ((mem_returns.mp member).resolve_right (by simp)) (none other)
    | live held word real open_ idle one fresh =>
      have this : held = token := TimerToken.ext (word.symm.trans same)
      refine .closed rfl ?_ (by simp [returns, idle])
      exact settled_returns fresh one (.inl (by rw [this]))
    | closing held word | closed word =>
      have small := raw_lt token
      rw [← same, word, closed_eq] at small
      omega
  · exact sound.fails (.inl ⟨token, .inr rfl⟩)

theorem takeTest_sound (sound : r.Sound) : (r.takeTest r.state).Sound := by
  unfold takeTest
  split
  · rename_i ends
    refine sound.fails (.inr ⟨rfl, fun token real word => ?_⟩)
    rcases ends with noBit | alone
    · exact closing_and_closed token (word ▸ noBit)
    · exact real (Nat.add_eq_left.mp (word.symm.trans alone))
  · rename_i goesOn
    refine ⟨?_, sound.refused⟩
    cases sound.stage with
    | idle word =>
      rw [word, timeoutUnregistered, Nat.zero_and] at goesOn
      exact absurd (.inl rfl) goesOn
    | live token word =>
      rw [word, raw_and_closed] at goesOn
      exact absurd (.inl rfl) goesOn
    | closing token word real untaken one fresh readers =>
      refine .closing token word real untaken one fresh fun current member => ?_
      rcases mem_append.mp member with old | new
      · exact readers current old
      · exact mem_singleton.mp new
    | closed word => exact absurd (.inr word) goesOn

theorem Sound.drop (sound : r.Sound) (index : Nat) : { r with takes := r.takes.eraseIdx index : Registration }.Sound := by
  refine ⟨?_, sound.refused⟩
  cases sound.stage with
  | idle word open_ idle none fresh => exact .idle word open_ (by simp [idle]) none fresh
  | live token word real open_ idle one fresh => exact .live token word real open_ (by simp [idle]) one fresh
  | closing token word real untaken one fresh readers =>
    exact .closing token word real untaken one fresh
      fun current member => readers current (mem_of_mem_eraseIdx member)
  | closed word settled readers =>
    exact .closed word settled fun current member => readers current (mem_of_mem_eraseIdx member)

theorem takeExchange_sound (index : Nat) (spurious : Bool) (sound : r.Sound) : (r.takeExchange index spurious).Sound := by
  have dropped := sound.drop index
  unfold takeExchange
  split
  · exact sound
  · rename_i current found
    have member : current ∈ r.takes := mem_of_getElem? found
    dsimp only
    split
    · rename_i succeeds
      refine ⟨?_, refused_returns sound.refused fun _ other => by simp⟩
      cases sound.stage with
      | idle word open_ idle | live token word real open_ idle =>
        exact absurd (idle ▸ member : current ∈ []) (by simp)
      | closing token word real untaken one fresh readers =>
        have taken : tokenOf current = token := by rw [← succeeds.1, word, tokenOf_closing]
        refine .closed rfl ?_ fun other inside => ?_
        · exact settled_returns fresh one (.inr (by rw [taken]))
        · rw [readers other (mem_of_mem_eraseIdx inside), word]
          exact Nat.lt_add_of_pos_right (Nat.pos_of_ne_zero real)
      | closed word settled readers =>
        exact absurd (succeeds.1.symm.trans word) (Nat.ne_of_gt (readers current member))
    · exact takeTest_sound dropped

theorem step_sound (access : Access) (sound : r.Sound) : (r.step access).Sound := by
  cases access with
  | publish token => exact publish_sound token sound
  | close => exact close_sound sound
  | retire token => exact retire_sound token sound
  | takeLoad => exact takeTest_sound sound
  | takeExchange index spurious => exact takeExchange_sound index spurious sound

theorem new_sound : new.Sound := ⟨.idle rfl (by simp [new]) rfl (by simp [new]) (by simp [wins, new]), by simp [new]⟩

theorem run_sound (accesses : List Access) : (run accesses).Sound :=
  List.foldlRecOn accesses step new_sound fun _ sound access _ => step_sound access sound

theorem Sound.wins_le_one {token : TimerToken} (sound : r.Sound) (published : .publish token true ∈ r.history) :
    wins r.history token ≤ 1 := by
  cases sound.stage with
  | idle _ _ _ none => exact absurd published (none token)
  | live _ _ _ _ _ one fresh | closing _ _ _ _ one fresh =>
    exact Nat.le_trans (Nat.le_of_eq (one token published ▸ fresh)) (by decide)
  | closed _ settled => exact Nat.le_of_eq (settled token published)

theorem Sound.wins_of_closedThenTaken {token : TimerToken} (sound : r.Sound)
    (published : .publish token true ∈ r.history) (taken : ClosedThenTaken r.history) : wins r.history token = 1 := by
  have closed : .close ∈ r.history := by
    obtain ⟨_, within⟩ := taken
    exact within.subset (by simp)
  cases sound.stage with
  | idle _ open_ | live _ _ _ open_ => exact absurd closed open_
  | closing _ _ _ untaken => exact absurd taken untaken
  | closed _ settled => exact settled token published

/-- A published token is retired or taken for cancellation at most once, and exactly once when a
`take_cancellation` has returned after a close; a publication after a close fails. -/
theorem cancellation_excludes_expiry (accesses : List Access) (token : TimerToken) :
    let r := run accesses
    (.publish token true ∈ r.history →
      r.history.count (.retire token true) + r.history.count (.takeCancellation (some token)) ≤ 1 ∧
      ((∃ result, List.Sublist [.close, .takeCancellation result] r.history) →
        r.history.count (.retire token true) + r.history.count (.takeCancellation (some token)) = 1)) ∧
    ¬ List.Sublist [.close, .publish token true] r.history := by
  have sound := run_sound accesses
  exact ⟨fun published => ⟨sound.wins_le_one published, sound.wins_of_closedThenTaken published⟩, sound.refused token⟩

def closedBeforeExpiry : List Access :=
  [.publish ⟨4096, by decide⟩, .close, .retire ⟨4096, by decide⟩, .takeLoad, .takeExchange 0 true, .takeExchange 0 false]

/-- The expiry comes after the close and loses; the second attempt of the weak exchange takes the token. -/
theorem cancellation_excludes_expiry_closed :
    (run closedBeforeExpiry).history.count (.takeCancellation (some ⟨4096, by decide⟩)) = 1 := by
  have exclusive := cancellation_excludes_expiry closedBeforeExpiry ⟨4096, by decide⟩
  have once := (exclusive.1 (by decide)).2 ⟨some ⟨4096, by decide⟩, by decide⟩
  have lost : (run closedBeforeExpiry).history.count (.retire ⟨4096, by decide⟩ true) = 0 := by decide
  omega

end Registration

end Halcyon.Timers
