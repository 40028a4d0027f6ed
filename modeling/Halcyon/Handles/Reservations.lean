import Halcyon.Handles.Operations

/-! Reservations, their commits, and draining, as moves. -/

namespace Halcyon.Handles

open List

variable {T R : Type} {table middle next : HandleTable T R} {handle : Handle} {entry : Entry T R} {token : Nat}

def HandleTable.Fresh (table : HandleTable T R) (index : Nat) (generation : UInt32) : Prop :=
  ¬table.Dead index generation ∧ ∀ token, ¬table.Claimed index generation token

/-- The handles are claimed for the token, each in a generation that was fresh. -/
structure Reserves (table next : HandleTable T R) (token : Nat) (handles : List Handle) : Prop where
  trace : ∃ moves, Trace table moves next ∧ ∀ move ∈ moves, ∃ handle ∈ handles, move = .claim handle.index handle.generation
  claimed : ∀ handle ∈ handles, handle.isValid = true ∧ next.Claimed handle.index handle.generation token
  fresh : ∀ handle ∈ handles, table.Fresh handle.index handle.generation
  distinct : handles.Nodup

structure Quiet (table next : HandleTable T R) : Prop where
  trace : ∃ moves, Trace table moves next ∧ ∀ move ∈ moves, move.taken = [] ∧ move.installed = []
  keeps : ∀ {index generation token}, table.Claimed index generation token → next.Claimed index generation token

variable {handles : List Handle} {index last : Nat} {heap : Heap}

theorem claims_keep {moves : List (Move T R)} {generation : UInt32} (runs : Trace table moves next)
    (claims : ∀ move ∈ moves, ∃ handle ∈ handles, move = .claim handle.index handle.generation)
    (claimed : table.Claimed index generation token) : next.Claimed index generation token := by
  rcases trace_claimed runs claimed with kept | ⟨_, installed⟩ | withdrawn
  · exact kept
  · obtain ⟨_, _, wrong⟩ := claims _ installed
    cases wrong
  · obtain ⟨_, _, wrong⟩ := claims _ withdrawn
    cases wrong

theorem Reserves.quiet (h : Reserves table next token handles) : Quiet table next := by
  obtain ⟨moves, runs, claims⟩ := h.trace
  refine ⟨⟨moves, runs, fun move member => ?_⟩, claims_keep runs claims⟩
  obtain ⟨_, _, rfl⟩ := claims move member
  exact ⟨rfl, rfl⟩

theorem Quiet.sound (h : Quiet table next) (sound : TableSound table) : TableSound next := by
  obtain ⟨_, runs, _⟩ := h.trace
  exact trace_sound runs sound

theorem Reserves.refl (table : HandleTable T R) (token : Nat) : Reserves table table token [] where
  trace := ⟨[], .nil _, nofun⟩
  claimed := nofun
  fresh := nofun
  distinct := .nil

section

variable (h : Reserves table middle token handles)
include h

theorem Reserves.claim (valid : handle.isValid = true) (claim : Moves middle (.claim handle.index handle.generation) next)
    (claimed : next.Claimed handle.index handle.generation token) :
    Reserves table next token (handles ++ [handle]) := by
  obtain ⟨moves, runs, claims⟩ := h.trace
  obtain ⟨alive, unclaimed⟩ := claim_fresh claim
  have keep : ∀ {index generation}, middle.Claimed index generation token → next.Claimed index generation token := by
    intro index generation before
    rcases claimed_moves claim before with kept | ⟨_, wrong⟩ | wrong
    · exact kept
    · cases wrong
    · cases wrong
  constructor
  · refine ⟨moves ++ [.claim handle.index handle.generation], runs.append claim.trace,
      forall_mem_concat (fun move early => ?_) ⟨handle, mem_append_right _ (mem_singleton_self _), rfl⟩⟩
    obtain ⟨other, inside, same⟩ := claims move early
    exact ⟨other, mem_append_left _ inside, same⟩
  · refine forall_mem_concat (fun other early => ?_) ⟨valid, claimed⟩
    obtain ⟨valid, before⟩ := h.claimed other early
    exact ⟨valid, keep before⟩
  · exact forall_mem_concat h.fresh ⟨fun dead => alive (trace_dead runs dead),
        fun token claimed => unclaimed token (claims_keep runs claims claimed)⟩
  · refine List.Nodup.append h.distinct (nodup_singleton _) ?_
    intro other early last
    cases mem_singleton.mp last
    exact unclaimed token (h.claimed _ early).2

theorem Reserves.undo (ended : Ended middle next handles []) : Quiet table next := by
  obtain ⟨claims, runs, only⟩ := h.trace
  obtain ⟨ends, runs', only', bodies⟩ := ended.trace
  have none_ := map_eq_nil_iff.mp bodies
  refine ⟨⟨claims ++ ends, runs.append runs', fun move member => ?_⟩, fun {index generation other} claimed => ?_⟩
  · rcases mem_append.mp member with early | late
    · obtain ⟨_, _, rfl⟩ := only move early
      exact ⟨rfl, rfl⟩
    · refine ⟨flatMap_eq_nil_iff.mp none_ move late, ?_⟩
      rcases only' move late with rfl | ⟨_, _, rfl | ⟨_, rfl⟩⟩ <;> rfl
  · rcases trace_claimed runs' (claims_keep runs only claimed) with still | ⟨_, installed⟩ | withdrawn
    · exact still
    · rcases only' _ installed with wrong | ⟨_, _, wrong | ⟨_, wrong⟩⟩ <;> cases wrong
    · rcases only' _ withdrawn with wrong | ⟨other, member, same | ⟨_, wrong⟩⟩
      · cases wrong
      · obtain ⟨rfl, rfl⟩ := Move.withdraw.inj same
        exact ((h.fresh other member).2 _ claimed).elim
      · cases wrong

theorem Reserves.rolledBack : Quiet table (middle.rollbackHandles handles token) := by
  refine h.undo (rollbackHandles_ok fun handle member => ?_)
  obtain ⟨valid, claimed⟩ := h.claimed handle member
  exact ⟨valid, .inr claimed⟩

end

/-- `handles` are the first slots, at most `count`, that a reservation gets. -/
def UsedUpTo (heap : Heap) (token count : Nat) (table : HandleTable T R) (prior handles : List Handle)
    (middle : HandleTable T R) : Prop :=
  ∃ used ≤ count, HandleTable.reserveSlots heap token used table prior = .ok (.ok ⟨token, handles⟩, middle)

theorem reserveSlots_ok {count : Nat} {result : Except TableError Reservation} (sound : TableSound table)
    (reserved : Reserves table middle token handles)
    (h : HandleTable.reserveSlots heap token count middle handles = .ok (result, next)) :
    (∃ reservation, result = .ok reservation ∧ reservation.token = token ∧
      Reserves table next token reservation.handles) ∨ ∃ error, result = .error error ∧
      ∃ last own, Reserves table last token own ∧ next = last.rollbackHandles own token ∧
        UsedUpTo heap token count middle handles own last := by
  induction count generalizing middle handles with
  | zero =>
    cases pure_ok h
    exact .inl ⟨_, rfl, rfl, reserved⟩
  | succ count ih =>
    unfold HandleTable.reserveSlots at h
    split at h
    · rename_i handle after taken
      obtain ⟨valid, claim, claimed⟩ := reserveSlot_ok (reserved.quiet.sound sound) taken
      rcases ih (reserved.claim valid claim claimed) h with done | ⟨error, rfl, last, own, reserves, rfl, used, le, gets⟩
      · exact .inl done
      · refine .inr ⟨error, rfl, last, own, reserves, rfl, used + 1, Nat.succ_le_succ le, ?_⟩
        rw [HandleTable.reserveSlots, taken]
        exact gets
    · cases pure_ok h
      exact .inr ⟨_, rfl, _, _, reserved, rfl, 0, Nat.zero_le _, rfl⟩
    · exact (panicked_ne_ok h).elim

theorem reserve_ok {count : Nat} {result : Except TableError Reservation} (sound : TableSound table)
    (h : table.reserve heap count token = .ok (result, next)) :
    (∃ reservation, result = .ok reservation ∧ Reserves table next reservation.token reservation.handles) ∨
      ∃ error, result = .error error ∧
        ∃ last own, Reserves table last token own ∧ next = last.rollbackHandles own token ∧
          UsedUpTo heap token count table [] own last := by
  unfold HandleTable.reserve at h
  split at h
  · cases pure_ok h
    exact .inr ⟨_, rfl, _, [], .refl _ _, rfl, 0, Nat.zero_le _, rfl⟩
  split at h
  · cases pure_ok h
    exact .inr ⟨_, rfl, _, [], .refl _ _, rfl, 0, Nat.zero_le _, rfl⟩
  rcases reserveSlots_ok sound (.refl table token) h with ⟨reservation, same, rfl, reserves⟩ | failed
  · exact .inl ⟨reservation, same, reserves⟩
  · exact .inr failed

structure Installs (table next : HandleTable T R) (items : List (Handle × Entry T R)) : Prop where
  trace : ∃ moves, Trace table moves next ∧ (∀ move ∈ moves, (∃ index generation, move = .claim index generation) ∨
      ∃ item ∈ items, move = .install item.1.index item.1.generation item.2) ∧
    moves.flatMap Move.installed = items.map Prod.snd
  stores : ∀ item ∈ items, item.1.isValid = true ∧ next.Stores item.1.index item.1.generation item.2

theorem Installs.taken {items : List (Handle × Entry T R)} (h : Installs table next items) :
    ∃ moves, Trace table moves next ∧ moves.flatMap Move.taken = [] ∧ moves.flatMap Move.installed = items.map Prod.snd := by
  obtain ⟨moves, runs, only, installed⟩ := h.trace
  refine ⟨moves, runs, flatMap_eq_nil_iff.mpr fun move member => ?_, installed⟩
  rcases only move member with ⟨_, _, rfl⟩ | ⟨_, _, rfl⟩ <;> rfl

theorem insert_installs (sound : TableSound table) (h : table.insert heap entry = .ok (handle, next)) :
    Installs table next [(handle, entry)] ∧ table.Fresh handle.index handle.generation := by
  obtain ⟨valid, _, claim, install⟩ := insert_ok sound h
  refine ⟨⟨⟨_, .cons claim install.trace, ?_, rfl⟩, ?_⟩, claim_fresh claim⟩
  · exact forall_mem_cons.mpr ⟨.inl ⟨_, _, rfl⟩, forall_mem_singleton.mpr (.inr ⟨_, mem_singleton_self _, rfl⟩)⟩
  · exact forall_mem_singleton.mpr ⟨valid, install_stores install⟩

theorem installEntry_moves (entry : Entry T R) (claimed : table.Claimed handle.index handle.generation token) :
    Moves table (.install handle.index handle.generation entry) (table.installEntry handle entry) := by
  obtain ⟨found, _⟩ := claimed
  unfold HandleTable.installEntry
  rw [show handle.slot.toNat = handle.index from rfl, HandleTable.setState_put found]
  exact .slot found (.install entry rfl) rfl

theorem installEntries_ok {items : List (Handle × Entry T R)} (distinct : (items.map Prod.fst).Nodup)
    (claimed : ∀ item ∈ items, item.1.isValid = true ∧ table.Claimed item.1.index item.1.generation token) :
    Installs table (items.foldl (fun table item => table.installEntry item.1 item.2) table) items := by
  induction items generalizing table with
  | nil => exact ⟨⟨[], .nil _, nofun, rfl⟩, nofun⟩
  | cons item rest ih =>
    obtain ⟨apart, distinct⟩ := nodup_cons.mp distinct
    obtain ⟨valid, own⟩ := claimed item mem_cons_self
    have install := installEntry_moves item.2 own
    have others : ∀ other ∈ rest, other.1.isValid = true ∧
        (table.installEntry item.1 item.2).Claimed other.1.index other.1.generation token := by
      intro other member
      obtain ⟨valid, before⟩ := claimed other (mem_cons_of_mem _ member)
      rcases claimed_moves install before with kept | ⟨_, same⟩ | wrong
      · exact ⟨valid, kept⟩
      · obtain ⟨index, generation, _⟩ := Move.install.inj same
        exact (apart (mem_map.mpr ⟨other, member, (Handle.eq_of_parts index generation).symm⟩)).elim
      · cases wrong
    have tail := ih distinct others
    obtain ⟨_, runs, only, installed⟩ := tail.trace
    refine ⟨⟨_, .cons install runs, ?_, ?_⟩, ?_⟩
    · refine forall_mem_cons.mpr ⟨.inr ⟨item, mem_cons_self, rfl⟩, fun move later => (only move later).imp_right ?_⟩
      rintro ⟨other, inside, same⟩
      exact ⟨other, mem_cons_of_mem _ inside, same⟩
    · rw [flatMap_cons, installed]
      rfl
    · refine forall_mem_cons.mpr ⟨⟨valid, ?_⟩, tail.stores⟩
      refine (trace_stores runs (install_stores install)).resolve_right fun taken => ?_
      rcases only _ taken with ⟨_, _, wrong⟩ | ⟨_, _, wrong⟩ <;> cases wrong

theorem commitPrepared_ok {prepared : PreparedCommit T R} (distinct : prepared.reservation.handles.Nodup)
    (same : prepared.reservation.handles.length = prepared.entries.length)
    (h : table.commitPrepared prepared = .ok (handles, next)) :
    handles = prepared.reservation.handles ∧ Installs table next (handles.zip prepared.entries) := by
  obtain ⟨_, reserved, h⟩ := bind_ok h
  cases pure_ok h
  have reserved := assertThat_ok reserved
  have firsts := map_fst_zip (Nat.le_of_eq same)
  have claimed : ∀ item ∈ prepared.reservation.handles.zip prepared.entries, item.1.isValid = true ∧
      table.Claimed item.1.index item.1.generation prepared.reservation.token := by
    intro item member
    have inside : item.1 ∈ prepared.reservation.handles := by
      rw [← firsts]
      exact mem_map_of_mem member
    exact isReserved_iff.mp (all_eq_true.mp reserved item.1 inside)
  exact ⟨rfl, installEntries_ok (by rw [firsts]; exact distinct) claimed⟩

def HandleTable.drainable (table : HandleTable T R) (index : Nat) : Option Handle :=
  match table.slots[index]? with
  | some ⟨generation, .occupied _⟩ => some (.fromParts (.ofNat index) generation)
  | some ⟨generation, .reserved _⟩ => some (.fromParts (.ofNat index) generation)
  | _ => none

/-- The handles a drain ends between two positions of its cursor. -/
def HandleTable.drained (table : HandleTable T R) (first last : Nat) : List Handle :=
  (List.range' first (last - first)).filterMap table.drainable

theorem drainable_handle {slot : Slot T R} (sound : TableSound table) (found : table.slots[index]? = some slot)
    (alive : slot.state ≠ .retired) : (Handle.fromParts (.ofNat index) slot.generation).isValid = true ∧
      (Handle.fromParts (.ofNat index) slot.generation).index = index := by
  have positive : 1 ≤ index := by
    rcases Nat.eq_zero_or_pos index with rfl | positive
    · cases sound.first.symm.trans found
      exact (alive rfl).elim
    · exact positive
  obtain ⟨_, _⟩ := List.getElem?_eq_some_iff.mp found
  have room := sound.room
  exact fresh_handle sound index positive (by omega) slot.generation (sound.started found positive)

/-- A slot the cursor has passed is neither occupied nor reserved; the others are as they were. -/
structure Passes (table next : HandleTable T R) (index : Nat) : Prop where
  others : ∀ {i}, i ≠ index → next.slots[i]? = table.slots[i]?
  length : next.slots.length = table.slots.length
  passed : next.drainable index = none

theorem advance_drainable {occupied : Nat} {slot : Slot T R} (found : table.slots[index]? = some slot) :
    Passes table { table.put index slot.advance with occupied } index where
  others := fun different => (get_put found).trans (if_neg (Ne.symm different))
  length := length_set
  passed := by
    have written : (table.slots.set index slot.advance)[index]? = some slot.advance := (get_put found).trans (if_pos rfl)
    unfold HandleTable.drainable
    dsimp only [HandleTable.put]
    rw [written, Slot.advance]
    by_cases last : (slot.generation == lastGeneration) = true
    · rw [if_pos last]
    · rw [if_neg last]

theorem drainSlot_ok {found : Option (Entry T R)} (sound : TableSound table)
    (h : table.drainSlot index = .ok (found, next)) :
    Ended table next (table.drainable index).toList found.toList ∧ Passes table next index := by
  unfold HandleTable.drainSlot at h
  split at h
  · rename_i generation entry at_
    obtain ⟨occupied, less, h⟩ := bind_ok h
    cases pure_ok h
    obtain ⟨valid, position⟩ := drainable_handle sound at_ nofun
    rw [HandleTable.advance_put at_]
    refine ⟨?_, advance_drainable at_⟩
    simp only [HandleTable.drainable, at_, Option.toList_some]
    refine .take valid ?_
    rw [position, Handle.generation_fromParts]
    exact .slot at_ (.take rfl) (subtract_ok less)
  · rename_i generation token at_
    cases pure_ok h
    obtain ⟨valid, position⟩ := drainable_handle sound at_ nofun
    have written := HandleTable.advance_put at_ .vacant table.occupied
    rw [show (table.setState index .vacant).advanceGeneration index = _ from written]
    refine ⟨?_, advance_drainable at_⟩
    simp only [HandleTable.drainable, at_, Option.toList_some, Option.toList_none]
    refine .withdraw valid ?_
    rw [position, Handle.generation_fromParts]
    exact .slot at_ (.withdraw rfl) rfl
  · rename_i free busy
    cases pure_ok h
    have none_ : table.drainable index = none := by
      unfold HandleTable.drainable
      split
      · rename_i at_
        exact (free _ _ at_).elim
      · rename_i at_
        exact (busy _ _ at_).elim
      · rfl
    refine ⟨?_, fun _ => rfl, rfl, none_⟩
    rw [none_]
    exact .refl _

theorem drained_step {first : Nat} (less : first < last) (others : ∀ {i}, i ≠ first → next.slots[i]? = table.slots[i]?) :
    table.drained first last = (table.drainable first).toList ++ next.drained (first + 1) last := by
  obtain ⟨count, rfl⟩ := Nat.exists_eq_add_of_lt less
  have tail : (List.range' (first + 1) count).filterMap table.drainable =
      (List.range' (first + 1) count).filterMap next.drainable := by
    refine filterMap_congr fun i member => ?_
    have beyond := (mem_range'_1.mp member).1
    unfold HandleTable.drainable
    rw [others (by omega)]
  unfold HandleTable.drained
  rw [show first + count + 1 - first = count + 1 by omega, show first + count + 1 - (first + 1) = count by omega,
    List.range'_succ, filterMap_cons, tail]
  cases table.drainable first <;> rfl

theorem takeNextLoop_ok {left cursor : Nat} {found : Option (Entry T R)} (sound : TableSound table)
    (h : HandleTable.takeNextLoop left table cursor = .ok (found, last, next)) :
    Ended table next (table.drained cursor last) found.toList ∧ cursor ≤ last := by
  induction left generalizing table cursor with
  | zero =>
    cases pure_ok h
    rw [HandleTable.drained, Nat.sub_self]
    exact ⟨.refl _, Nat.le_refl _⟩
  | succ _ ih =>
    obtain ⟨⟨first, _⟩, drained, h⟩ := bind_ok h
    obtain ⟨ended, passes⟩ := drainSlot_ok sound drained
    cases first with
    | some =>
      cases pure_ok h
      rw [drained_step (Nat.lt_succ_self cursor) passes.others, HandleTable.drained, Nat.sub_self]
      refine ⟨?_, Nat.le_succ cursor⟩
      rw [List.range'_zero, filterMap_nil, append_nil]
      exact ended
    | none =>
      obtain ⟨rest, _⟩ := ih (ended.sound sound) h
      rw [drained_step (by omega) passes.others]
      exact ⟨ended.append rest, by omega⟩

/-- What `take_next_bounded` reports of a scan that found nothing depends on where it stopped. -/
def TakeNext.ofFound (length : Nat) (found : Option (Entry T R)) (cursor : Nat) : TakeNext T R :=
  match found with
  | some entry => .entry entry
  | none => if cursor < length then .progress else .exhausted

def TakeNext.entries : TakeNext T R → List (Entry T R)
  | .entry entry => [entry]
  | _ => []

theorem entries_ofFound (length : Nat) (found : Option (Entry T R)) (cursor : Nat) :
    (TakeNext.ofFound length found cursor).entries = found.toList := by
  cases found with
  | some => rfl
  | none =>
    unfold TakeNext.ofFound
    dsimp only
    split <;> rfl

theorem takeNextBounded_loop (budget cursor : Nat) (sound : TableSound table) :
    HandleTable.takeNextBounded budget table cursor =
      (HandleTable.takeNextLoop (min budget (table.slots.length - cursor)) table cursor).map
        fun (found, last, next) => (.ofFound table.slots.length found last, last, next) := by
  induction budget generalizing table cursor with
  | zero =>
    rw [Nat.zero_min]
    rfl
  | succ budget ih =>
    unfold HandleTable.takeNextBounded
    by_cases inside : cursor < table.slots.length
    · have turns : min (budget + 1) (table.slots.length - cursor) =
          min budget (table.slots.length - (cursor + 1)) + 1 := by omega
      rw [if_pos inside, turns, HandleTable.takeNextLoop]
      cases drained : table.drainSlot cursor with
      | error stop => rfl
      | ok answer =>
        obtain ⟨found, _⟩ := answer
        obtain ⟨ended, passes⟩ := drainSlot_ok sound drained
        cases found with
        | some => rfl
        | none =>
          rw [← passes.length]
          exact ih (cursor + 1) (ended.sound sound)
    · have turns : min (budget + 1) (table.slots.length - cursor) = 0 := by omega
      have stop : TakeNext.ofFound table.slots.length (none : Option (Entry T R)) cursor = .exhausted := if_neg inside
      rw [if_neg inside, turns]
      show _ = Except.ok (TakeNext.ofFound table.slots.length none cursor, cursor, table)
      rw [stop]
      rfl

theorem takeNextBounded_ok {budget cursor : Nat} {answer : TakeNext T R} (sound : TableSound table)
    (h : HandleTable.takeNextBounded budget table cursor = .ok (answer, last, next)) :
    ∃ found, HandleTable.takeNextLoop (min budget (table.slots.length - cursor)) table cursor = .ok (found, last, next) ∧
      answer = .ofFound table.slots.length found last := by
  rw [takeNextBounded_loop budget cursor sound] at h
  cases looped : HandleTable.takeNextLoop (min budget (table.slots.length - cursor)) table cursor with
  | error =>
    rw [looped] at h
    cases h
  | ok =>
    rw [looped] at h
    cases h
    exact ⟨_, rfl, rfl⟩

end Halcyon.Handles
