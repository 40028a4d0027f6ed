import Halcyon.Base.Runs
import Halcyon.Handles.Reservations

/-!
A handle table and its callers, who hold reservations and prepared commits. Beside the table the machine keeps what callers
have seen: which handles name which entries, which are over, and which entries went in and came out.
-/

namespace Halcyon.Handles

variable {T R : Type}

structure World (T R : Type) where
  table : HandleTable T R
  reservations : List Reservation
  prepared : List (PreparedCommit T R)
  /-- Handles given out for entries that are still in the table. -/
  installed : List (Handle × Entry T R)
  /-- Handles whose entry has left the table, or whose reservation is gone. -/
  ended : List Handle
  /-- Handles of reservations that were used up without a commit and could not be rolled back as a whole. -/
  abandoned : List Handle
  received : List (Entry T R)
  returned : List (Entry T R)
  /-- Entries that a failing call did not give back. -/
  dropped : List (Entry T R)

inductive Event (T R : Type) where
  | insert (heap : Heap) (entry : Entry T R)
  | duplicate (heap : Heap) (source : Handle) (rights : Rights)
  | remove (handle : Handle)
  | extractMoves (heap : Heap) (moves : List (Handle × Rights))
  | extractGrants (heap : Heap) (grants : List (Handle × Rights))
  | pinConsume (handle : Handle) (required : Rights) (token : Nat)
  | pinTransfer (protect : Handle) (protectRight : Rights) (grants : List (Handle × Rights)) (token : Nat)
  | commitPinnedConsume (token : Nat) (handle : Handle)
  | commitPinnedTransfer (token : Nat) (protect : Handle) (grants : List (Handle × Rights))
  | unpin (token : Nat)
  | reserve (heap : Heap) (count token : Nat)
  | prepareCommit (k : Nat) (entries : List (Entry T R))
  | commitPrepared (k : Nat)
  | rollbackPrepared (k : Nat)
  | commit (k : Nat) (entries : List (Entry T R))
  | rollback (k : Nat)
  | takeNext (cursor : Nat)
  | takeNextBounded (cursor maxSlots : Nat)

namespace World

variable (w : World T R)

def initial (limit : Nat) : World T R := ⟨.withLimit limit, [], [], [], [], [], [], [], []⟩

def holders : List Reservation := w.reservations ++ w.prepared.map PreparedCommit.reservation

def held : List Handle := w.holders.flatMap Reservation.handles

def inFlight : List (Entry T R) := w.prepared.flatMap PreparedCommit.entries

def ends (table : HandleTable T R) (handles : List Handle) (entries : List (Entry T R)) : World T R :=
  { w with
    table
    ended := w.ended ++ handles
    installed := w.installed.filter fun item => !handles.contains item.1
    returned := w.returned ++ entries }

def installs (table : HandleTable T R) (items : List (Handle × Entry T R)) : World T R :=
  { w with table, installed := items ++ w.installed }

def receives (entries : List (Entry T R)) : World T R := { w with received := w.received ++ entries }

def drops (entries : List (Entry T R)) : World T R := { w with dropped := w.dropped ++ entries }

def removeReservation (k : Nat) : World T R := { w with reservations := w.reservations.eraseIdx k }

def removePrepared (k : Nat) : World T R := { w with prepared := w.prepared.eraseIdx k }

def derived (source : Handle) (rights : Rights) : List (Entry T R) :=
  match w.table.derive source rights with
  | .ok entry => [entry]
  | .error _ => []

end World

open World

/-- A call that names no reservation that is held does nothing. -/
def step (w : World T R) : Event T R → Outcome Empty (World T R)
  | .insert heap entry =>
    settle (w.table.insert heap entry)
      (fun (handle, table) => (w.receives [entry]).installs table [(handle, entry)])
      (fun _ => (w.receives [entry]).drops [entry])
  | .duplicate heap source rights =>
    settle (w.table.duplicate heap source rights)
      (fun (handle, table) => (w.receives (w.derived source rights)).installs table
        ((w.derived source rights).map fun entry => (handle, entry)))
      (fun _ => (w.receives (w.derived source rights)).drops (w.derived source rights))
  | .remove handle =>
    settle (w.table.remove handle) (fun (entry, table) => w.ends table [handle] [entry]) (fun _ => w)
  | .extractMoves heap moves =>
    conclude (fun entries table => w.ends table (moves.map Prod.fst) entries) (fun _ table => { w with table })
      (HandleTable.extractMoves heap moves w.table)
  | .extractGrants heap grants =>
    conclude (fun entries table => w.ends table (grants.map Prod.fst) entries) (fun _ table => { w with table })
      (HandleTable.extractGrants heap grants w.table)
  | .pinConsume handle required token =>
    conclude (fun _ table => w.ends table [] []) (fun _ table => { w with table })
      (HandleTable.pinConsume handle required token w.table)
  | .pinTransfer protect protectRight grants token =>
    conclude (fun _ table => w.ends table [] []) (fun _ table => { w with table })
      (HandleTable.pinTransfer protect protectRight grants token w.table)
  | .commitPinnedConsume token handle => do
    let (entry, table) ← w.table.commitPinnedConsume token handle
    pure (w.ends table [handle] [entry])
  | .commitPinnedTransfer token protect grants => do
    let (entries, table) ← w.table.commitPinnedTransfer token protect grants []
    pure (w.ends table (grants.map Prod.fst) entries)
  | .unpin token => pure (w.ends (w.table.unpin token) [] [])
  | .reserve heap count token => do
    let (answer, table) ← w.table.reserve heap count token
    match answer with
    | .ok reservation => pure { w with table, reservations := reservation :: w.reservations }
    | .error _ => pure { w with table }
  | .prepareCommit k entries =>
    match w.reservations[k]? with
    | none => pure w
    | some reservation =>
      match w.table.prepareCommit reservation entries with
      | (.ok prepared, table) =>
        pure { (w.receives entries).removeReservation k with table, prepared := prepared :: w.prepared }
      | (.error failure, table) =>
        pure (((w.receives entries).removeReservation k).ends table reservation.handles failure.entries)
  | .commitPrepared k =>
    match w.prepared[k]? with
    | none => pure w
    | some prepared => do
      let (handles, table) ← w.table.commitPrepared prepared
      pure ((w.removePrepared k).installs table (handles.zip prepared.entries))
  | .rollbackPrepared k =>
    match w.prepared[k]? with
    | none => pure w
    | some prepared => do
      let (entries, table) ← w.table.rollbackPrepared prepared
      pure ((w.removePrepared k).ends table prepared.reservation.handles entries)
  | .commit k entries =>
    match w.reservations[k]? with
    | none => pure w
    | some reservation => do
      let (answer, table) ← w.table.commit reservation entries
      match answer with
      | .ok handles => pure (((w.receives entries).removeReservation k).installs table (handles.zip entries))
      | .error _ =>
        pure ((((w.receives entries).removeReservation k).ends table reservation.handles []).drops entries)
  | .rollback k =>
    match w.reservations[k]? with
    | none => pure w
    | some reservation =>
      settle (w.table.rollback reservation)
        (fun table => (w.removeReservation k).ends table reservation.handles [])
        (fun _ => { w.removeReservation k with abandoned := w.abandoned ++ reservation.handles })
  | .takeNext cursor => do
    let (found, last, table) ← w.table.takeNext cursor
    pure (w.ends table (w.table.drained cursor last) found.toList)
  | .takeNextBounded cursor maxSlots => do
    let (answer, last, table) ← HandleTable.takeNextBounded maxSlots w.table cursor
    pure (w.ends table (w.table.drained cursor last) answer.entries)

section
variable {table next : HandleTable T R} {handle : Handle} {entry : Entry T R}

/-- Entries stay under their handles unless the handle is given up, and claims stand unless installed. -/
structure Carries (table next : HandleTable T R) (ending installing : List Handle) : Prop where
  sound : TableSound table → TableSound next
  dead : ∀ {index generation}, table.Dead index generation → next.Dead index generation
  stores : ∀ {handle entry}, table.Stores handle.index handle.generation entry → handle ∉ ending →
    next.Stores handle.index handle.generation entry
  holds : ∀ {token handle}, table.Holds token handle → handle ∉ installing → next.Holds token handle

theorem Ended.carries {handles : List Handle} {entries : List (Entry T R)} (h : Ended table next handles entries) :
    Carries table next handles [] := by
  obtain ⟨_, runs, only, _⟩ := h.trace
  refine ⟨trace_sound runs, trace_dead runs, fun stores other => ?_, fun holds _ => holds_ended h holds⟩
  refine (trace_stores runs stores).resolve_right fun taken => ?_
  rcases only _ taken with wrong | ⟨named, member, wrong | ⟨_, same⟩⟩
  · cases wrong
  · cases wrong
  · obtain ⟨index, generation, _⟩ := Move.take.inj same
    rw [Handle.eq_of_parts index generation] at other
    exact other member

theorem Quiet.carries (h : Quiet table next) : Carries table next [] [] := by
  obtain ⟨_, runs, silent⟩ := h.trace
  refine ⟨trace_sound runs, trace_dead runs, fun stores _ => ?_, fun holds _ => ?_⟩
  · refine (trace_stores runs stores).resolve_right fun taken => ?_
    cases (silent _ taken).1
  · exact ⟨holds.1, holds.2.imp (trace_dead runs) h.keeps⟩

theorem Installs.carries {items : List (Handle × Entry T R)} (h : Installs table next items) :
    Carries table next [] (items.map Prod.fst) := by
  obtain ⟨_, runs, only, _⟩ := h.trace
  refine ⟨trace_sound runs, trace_dead runs, fun stores _ => ?_, fun holds other => ?_⟩
  · refine (trace_stores runs stores).resolve_right fun taken => ?_
    rcases only _ taken with ⟨_, _, wrong⟩ | ⟨_, _, wrong⟩ <;> cases wrong
  · refine ⟨holds.1, holds.2.imp (trace_dead runs) fun claimed => ?_⟩
    rcases trace_claimed runs claimed with kept | ⟨_, installed⟩ | withdrawn
    · exact kept
    · rcases only _ installed with ⟨_, _, wrong⟩ | ⟨item, member, same⟩
      · cases wrong
      · obtain ⟨index, generation, _⟩ := Move.install.inj same
        exact (other (List.mem_map.mpr ⟨item, member, (Handle.eq_of_parts index generation).symm⟩)).elim
    · rcases only _ withdrawn with ⟨_, _, wrong⟩ | ⟨_, _, wrong⟩ <;> cases wrong

def bodies (entries : List (Entry T R)) : Multiset (T × R) := (entries.map Entry.body : List _)

@[simp] theorem bodies_nil : bodies ([] : List (Entry T R)) = 0 := rfl

@[simp] theorem bodies_append (first second : List (Entry T R)) :
    bodies (first ++ second) = bodies first + bodies second := by
  rw [bodies, List.map_append, ← Multiset.coe_add]
  rfl

theorem bodies_trace {moves : List (Move T R)} (h : Trace table moves next) :
    bodies next.stored + bodies (moves.flatMap Move.taken) =
      bodies table.stored + bodies (moves.flatMap Move.installed) := by
  have all := congrArg (Multiset.map Entry.body) (trace_stored h)
  simp only [Multiset.map_add, Multiset.map_coe] at all
  exact all

theorem Ended.bodies {handles : List Handle} {entries : List (Entry T R)} (h : Ended table next handles entries) :
    Handles.bodies next.stored + Handles.bodies entries = Handles.bodies table.stored := by
  obtain ⟨moves, runs, only, taken⟩ := h.trace
  have all := bodies_trace runs
  have none_ : moves.flatMap Move.installed = [] := by
    refine List.flatMap_eq_nil_iff.mpr fun move member => ?_
    rcases only move member with rfl | ⟨_, _, rfl | ⟨_, rfl⟩⟩ <;> rfl
  rw [none_, bodies_nil, add_zero, Handles.bodies, Handles.bodies, taken] at all
  exact all

theorem Quiet.bodies (h : Quiet table next) : Handles.bodies next.stored = Handles.bodies table.stored := by
  obtain ⟨_, runs, silent⟩ := h.trace
  have all := bodies_trace runs
  have taken := List.flatMap_eq_nil_iff.mpr fun move member => (silent move member).1
  have installed := List.flatMap_eq_nil_iff.mpr fun move member => (silent move member).2
  rwa [taken, installed, bodies_nil, add_zero, add_zero] at all

theorem Installs.bodies {items : List (Handle × Entry T R)} (h : Installs table next items) :
    Handles.bodies next.stored = Handles.bodies table.stored + Handles.bodies (items.map Prod.snd) := by
  obtain ⟨_, runs, taken, installed⟩ := h.taken
  have all := bodies_trace runs
  rwa [taken, installed, bodies_nil, add_zero] at all

end

end Halcyon.Handles
