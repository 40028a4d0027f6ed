import Halcyon.Handles.Machine

/-! The invariant of the machine, and that every step keeps it. -/

namespace Halcyon.Handles

open List

variable {T R : Type} {w : World T R}

open World

/-- Handles name what callers were told, and claims belong to reservations that are held. -/
structure Tracked (w : World T R) : Prop where
  table : TableSound w.table
  ended : ∀ handle ∈ w.ended, handle.isValid = true ∧ w.table.Dead handle.index handle.generation
  abandoned : ∀ handle ∈ w.abandoned, handle ∉ w.held ∧ ∃ token, w.table.Holds token handle
  installed : ∀ item ∈ w.installed, item.1.isValid = true ∧ w.table.Stores item.1.index item.1.generation item.2
  holds : ∀ reservation ∈ w.holders, ∀ handle ∈ reservation.handles, w.table.Holds reservation.token handle
  distinct : w.held.Nodup
  paired : ∀ prepared ∈ w.prepared, prepared.reservation.handles.length = prepared.entries.length

/-- What went in is in the table, waits in a prepared commit, came back, or was dropped. -/
def Conserved (w : World T R) : Prop :=
  bodies w.table.stored + bodies w.inFlight + bodies w.returned + bodies w.dropped = bodies w.received

structure Sound (w : World T R) : Prop where
  tracked : Tracked w
  conserved : Conserved w

theorem initial_sound (limit : Nat) : Sound (initial limit : World T R) where
  tracked := ⟨withLimit_sound limit, nofun, nofun, nofun, nofun, .nil, nofun⟩
  conserved := rfl

theorem Tracked.held (tracked : Tracked w) {handle : Handle} (member : handle ∈ w.held) :
    ∃ token, w.table.Holds token handle := by
  obtain ⟨reservation, holder, inside⟩ := mem_flatMap.mp member
  exact ⟨_, tracked.holds reservation holder handle inside⟩

theorem receives_tracked (tracked : Tracked w) (entries : List (Entry T R)) : Tracked (w.receives entries) :=
  { tracked with }

theorem drops_tracked (tracked : Tracked w) (entries : List (Entry T R)) : Tracked (w.drops entries) := { tracked with }

section
variable {table : HandleTable T R} {handles : List Handle} {entries : List (Entry T R)}

theorem Tracked.carried {ending installing : List Handle} (tracked : Tracked w)
    (carries : Carries w.table table ending installing)
    (free : ∀ handle, handle ∈ w.held ∨ handle ∈ w.abandoned → handle ∉ installing) :
    Tracked { w with table, installed := w.installed.filter fun item => !ending.contains item.1 } where
  table := carries.sound tracked.table
  ended handle member := (tracked.ended handle member).imp_right carries.dead
  abandoned handle member := by
    obtain ⟨unheld, token, holds⟩ := tracked.abandoned handle member
    exact ⟨unheld, token, carries.holds holds (free handle (.inr member))⟩
  installed item member := by
    obtain ⟨old, other⟩ := mem_filter.mp member
    exact (tracked.installed item old).imp_right fun stores => carries.stores stores (by simpa using other)
  holds reservation holder handle member := by
    refine carries.holds (tracked.holds reservation holder handle member) (free handle (.inl ?_))
    exact mem_flatMap.mpr ⟨reservation, holder, member⟩
  distinct := tracked.distinct
  paired := tracked.paired

theorem ends_tracked (tracked : Tracked w) (h : Ended w.table table handles entries) :
    Tracked (w.ends table handles entries) := by
  have carried := tracked.carried h.carries fun _ _ => not_mem_nil
  exact { carried with ended := forall_mem_append.mpr ⟨carried.ended, h.dead⟩ }

theorem ends_sound (sound : Sound w) (h : Ended w.table table handles entries) : Sound (w.ends table handles entries) := by
  refine ⟨ends_tracked sound.tracked h, ?_⟩
  have conserved := sound.conserved
  simp only [Conserved, World.ends, World.inFlight, bodies_append] at conserved ⊢
  rw [← conserved, ← h.bodies]
  abel

theorem installs_tracked {items : List (Handle × Entry T R)} (tracked : Tracked w) (h : Installs w.table table items)
    (free : ∀ handle, handle ∈ w.held ∨ handle ∈ w.abandoned → handle ∉ items.map Prod.fst) :
    Tracked (w.installs table items) := by
  have carried := tracked.carried h.carries free
  exact { carried with
    installed := forall_mem_append.mpr ⟨h.stores, fun item member => carried.installed item (by simpa using member)⟩ }

theorem holds_not_fresh {token : Nat} {handle fresh : Handle} (holds : w.table.Holds token handle)
    (new : w.table.Fresh fresh.index fresh.generation) : handle ≠ fresh := by
  rintro rfl
  rcases holds.2 with dead | claimed
  · exact new.1 dead
  · exact new.2 token claimed

theorem insert_sound {entry : Entry T R} {handle : Handle} (sound : Sound w)
    (installs : Installs w.table table [(handle, entry)]) (fresh : w.table.Fresh handle.index handle.generation) :
    Sound ((w.receives [entry]).installs table [(handle, entry)]) := by
  constructor
  · refine installs_tracked (receives_tracked sound.tracked _) installs fun other member same => ?_
    obtain ⟨token, holds⟩ : ∃ token, w.table.Holds token other := by
      rcases member with held | abandoned
      · exact sound.tracked.held held
      · exact (sound.tracked.abandoned other abandoned).2
    exact holds_not_fresh holds fresh (mem_singleton.mp same)
  · have conserved := sound.conserved
    simp only [Conserved, World.installs, World.receives, World.inFlight, bodies_append] at conserved ⊢
    rw [← conserved, installs.bodies]
    simp only [map_cons, map_nil]
    abel

theorem lost_sound (sound : Sound w) (entries : List (Entry T R)) : Sound ((w.receives entries).drops entries) := by
  refine ⟨drops_tracked (receives_tracked sound.tracked _) _, ?_⟩
  have conserved := sound.conserved
  simp only [Conserved, World.receives, World.drops, World.inFlight, bodies_append] at conserved ⊢
  rw [← conserved]
  abel

end

structure Releases (w next : World T R) (reservation : Reservation) (entries : List (Entry T R)) : Prop where
  holders : w.holders.Perm (reservation :: next.holders)
  table : next.table = w.table
  ended : next.ended = w.ended
  abandoned : next.abandoned = w.abandoned
  installed : next.installed = w.installed
  prepared : next.prepared ⊆ w.prepared
  returned : next.returned = w.returned
  dropped : next.dropped = w.dropped
  loose : bodies next.received + bodies w.inFlight = bodies w.received + bodies next.inFlight + bodies entries

def Accepts (w : World T R) : Event T R → Prop
  | .insert heap entry => ∃ answer, w.table.insert heap entry = .ok answer
  | .duplicate heap source rights => ∃ answer, w.table.duplicate heap source rights = .ok answer
  | .commit k entries => ∀ reservation, w.reservations[k]? = some reservation →
    ∃ handles table, w.table.commit reservation entries = .ok (.ok handles, table)
  | _ => True

inductive Turns (w : World T R) (event : Event T R) : World T R → Prop where
  | stays : Turns w event w
  | ended {table handles entries} (h : Ended w.table table handles entries) : Turns w event (w.ends table handles entries)
  | inserted {table handle entry} (installs : Installs w.table table [(handle, entry)])
      (fresh : w.table.Fresh handle.index handle.generation) :
      Turns w event ((w.receives [entry]).installs table [(handle, entry)])
  | lost (refused : ¬Accepts w event) (entries : List (Entry T R)) : Turns w event ((w.receives entries).drops entries)
  | quiet {table} (quiet : Quiet w.table table) : Turns w event { w with table }
  | reserved {table reservation} (reserves : Reserves w.table table reservation.token reservation.handles) :
      Turns w event { w with table, reservations := reservation :: w.reservations }
  | prepared {other reservation entries} (releases : Releases w other reservation entries)
      (same : reservation.handles.length = entries.length) :
      Turns w event { other with prepared := ⟨reservation, entries⟩ :: other.prepared }
  | returned {other reservation entries} (releases : Releases w other reservation entries) :
      Turns w event
        (other.ends (w.table.rollbackHandles reservation.handles reservation.token) reservation.handles entries)
  | refused {other reservation entries} (refused : ¬Accepts w event) (releases : Releases w other reservation entries) :
      Turns w event ((other.ends (w.table.rollbackHandles reservation.handles reservation.token)
        reservation.handles []).drops entries)
  | committed {other reservation entries table} (releases : Releases w other reservation entries)
      (same : reservation.handles.length = entries.length)
      (installs : Installs w.table table (reservation.handles.zip entries)) :
      Turns w event (other.installs table (reservation.handles.zip entries))
  | abandoned {other reservation} (releases : Releases w other reservation []) :
      Turns w event { other with abandoned := w.abandoned ++ reservation.handles }

section
variable {next other : World T R} {k : Nat} {entries : List (Entry T R)} {reservation : Reservation} {event : Event T R}

section

variable (h : Releases w next reservation entries)
include h

theorem Releases.held : w.held.Perm (reservation.handles ++ next.held) := h.holders.flatMap_right Reservation.handles

theorem Releases.tracked (tracked : Tracked w) :
    Tracked next ∧ (∀ handle ∈ reservation.handles, w.table.Holds reservation.token handle) ∧
      reservation.handles.Nodup ∧ ∀ handle ∈ reservation.handles, handle ∉ next.held ∧ handle ∉ w.abandoned := by
  have distinct := h.held.nodup_iff.mp tracked.distinct
  obtain ⟨own, rest, apart⟩ := nodup_append.mp distinct
  have sub : ∀ {handle}, handle ∈ next.held → handle ∈ w.held := fun member =>
    h.held.mem_iff.mpr (mem_append_right _ member)
  refine ⟨⟨h.table ▸ tracked.table, ?_, ?_, ?_, ?_, rest, fun prepared member => tracked.paired prepared (h.prepared member)⟩,
    ?_, own, ?_⟩
  · rw [h.table, h.ended]
    exact tracked.ended
  · rw [h.table, h.abandoned]
    exact fun handle member => (tracked.abandoned handle member).imp_left fun free member => free (sub member)
  · rw [h.table, h.installed]
    exact tracked.installed
  · intro other holder
    rw [h.table]
    exact tracked.holds other (h.holders.mem_iff.mpr (mem_cons_of_mem _ holder))
  · exact tracked.holds reservation (h.holders.mem_iff.mpr mem_cons_self)
  · intro handle member
    refine ⟨fun other => apart handle member handle other rfl, fun gone => ?_⟩
    exact (tracked.abandoned handle gone).1 (h.held.mem_iff.mpr (mem_append_left _ member))

theorem Releases.conserved (conserved : Conserved w) :
    bodies w.table.stored + bodies next.inFlight + bodies next.returned + bodies next.dropped + bodies entries =
      bodies next.received := by
  refine add_right_cancel (b := bodies w.inFlight) ?_
  rw [h.loose, ← conserved, h.returned, h.dropped]
  abel

end

theorem removeReservation_releases (found : w.reservations[k]? = some reservation) (entries : List (Entry T R)) :
    Releases w ((w.receives entries).removeReservation k) reservation entries := by
  obtain ⟨_, _, split, rfl⟩ := split_at_index found
  refine ⟨?_, rfl, rfl, rfl, rfl, List.Subset.refl _, rfl, rfl, ?_⟩
  · unfold World.holders World.removeReservation
    dsimp only [World.receives]
    rw [split, eraseIdx_split, append_assoc, append_assoc, cons_append]
    exact perm_middle
  · simp only [World.removeReservation, World.receives, World.inFlight, bodies_append]
    abel

theorem removePrepared_releases {prepared : PreparedCommit T R} (found : w.prepared[k]? = some prepared) :
    Releases w (w.removePrepared k) prepared.reservation prepared.entries := by
  obtain ⟨before, after, split, rfl⟩ := split_at_index found
  have less : (w.removePrepared before.length).prepared = before ++ after := by
    rw [World.removePrepared, split, eraseIdx_split]
  refine ⟨?_, rfl, rfl, rfl, rfl, ?_, rfl, rfl, ?_⟩
  · unfold World.holders
    rw [less, split, map_append, map_cons, map_append, ← append_assoc, ← append_assoc]
    exact perm_middle
  · rw [less, split]
    exact (sublist_cons_self prepared after).append_left before |>.subset
  · show bodies w.received + _ = _
    unfold World.inFlight
    rw [less, split]
    simp only [flatMap_append, flatMap_cons, bodies_append]
    abel

theorem prepareCommit_cases (table : HandleTable T R) (reservation : Reservation) (entries : List (Entry T R)) :
    (table.prepareCommit reservation entries = (.ok ⟨reservation, entries⟩, table) ∧
      reservation.handles.length = entries.length) ∨ table.prepareCommit reservation entries =
      (.error ⟨.badReservation, entries⟩, table.rollbackHandles reservation.handles reservation.token) := by
  unfold HandleTable.prepareCommit
  split
  · exact .inr rfl
  · rename_i good
    exact .inl ⟨rfl, by tauto⟩

theorem prepareCommit_turns (h : step w (.prepareCommit k entries) = .ok next) :
    Turns w (.prepareCommit k entries) next := by
  rw [step] at h
  split at h
  · cases pure_ok h
    exact .stays
  rename_i reservation found
  have releases := removeReservation_releases found entries
  rcases prepareCommit_cases w.table reservation entries with ⟨accepted, same⟩ | refused
  · rw [accepted] at h
    cases pure_ok h
    exact .prepared releases same
  · rw [refused] at h
    cases pure_ok h
    exact .returned releases

theorem commitPrepared_turns (tracked : Tracked w) (h : step w (.commitPrepared k) = .ok next) :
    Turns w (.commitPrepared k) next := by
  rw [step] at h
  split at h
  · cases pure_ok h
    exact .stays
  rename_i prepared found
  obtain ⟨⟨handles, table⟩, committed, h⟩ := bind_ok h
  cases pure_ok h
  have releases := removePrepared_releases found
  obtain ⟨_, _, distinct, _⟩ := releases.tracked tracked
  have same := tracked.paired prepared (mem_of_getElem? found)
  obtain ⟨rfl, installs⟩ := commitPrepared_ok distinct same committed
  exact .committed releases same installs

theorem commit_turns (tracked : Tracked w) (h : step w (.commit k entries) = .ok next) :
    Turns w (.commit k entries) next := by
  rw [step] at h
  split at h
  · cases pure_ok h
    exact .stays
  rename_i reservation found
  obtain ⟨⟨answer, table⟩, committed, h⟩ := bind_ok h
  have releases := removeReservation_releases found entries
  have answered := committed
  unfold HandleTable.commit at committed
  rcases prepareCommit_cases w.table reservation entries with ⟨accepted, same⟩ | refused
  · rw [accepted] at committed
    obtain ⟨⟨handles, installed⟩, prepared, committed⟩ := bind_ok committed
    cases pure_ok committed
    cases pure_ok h
    obtain ⟨_, _, distinct, _⟩ := releases.tracked tracked
    obtain ⟨rfl, installs⟩ := commitPrepared_ok distinct same prepared
    exact .committed releases same installs
  · rw [refused] at committed
    cases pure_ok committed
    cases pure_ok h
    refine .refused (fun accepts => ?_) releases
    obtain ⟨_, _, accepted⟩ := accepts reservation found
    cases accepted.symm.trans answered

theorem step_turns (tracked : Tracked w) (h : step w event = .ok next) : Turns w event next := by
  cases event with
  | insert heap entry =>
    rcases settle_ok h with ⟨⟨handle, table⟩, inserted, rfl⟩ | ⟨_, failed, rfl⟩
    · obtain ⟨installs, fresh⟩ := insert_installs tracked.table inserted
      exact .inserted installs fresh
    · refine .lost (fun accepts => ?_) _
      obtain ⟨_, inserted⟩ := accepts
      cases inserted.symm.trans failed
  | duplicate heap source rights =>
    rcases settle_ok h with ⟨⟨handle, table⟩, duplicated, rfl⟩ | ⟨_, failed, rfl⟩
    · obtain ⟨entry, derived, inserted⟩ := bind_ok duplicated
      have same : w.derived source rights = [entry] := by rw [World.derived, derived]
      obtain ⟨installs, fresh⟩ := insert_installs tracked.table inserted
      rw [same]
      exact .inserted installs fresh
    · refine .lost (fun accepts => ?_) _
      obtain ⟨_, duplicated⟩ := accepts
      cases duplicated.symm.trans failed
  | remove handle =>
    rcases settle_ok h with ⟨⟨entry, table⟩, removed, rfl⟩ | ⟨_, _, rfl⟩
    · exact .ended (remove_ok removed).ended
    · exact .stays
  | extractMoves heap moves | extractGrants heap grants =>
    rcases conclude_ok extractWith_refuses h with ⟨entries, table, extracted, rfl⟩ | ⟨_, _, rfl⟩
    · exact .ended (extractWith_ok extracted).2.ended
    · exact .stays
  | pinConsume handle required token | pinTransfer protect protectRight grants token =>
    rcases conclude_ok pinTransaction_refuses h with ⟨_, table, pinned, rfl⟩ | ⟨_, _, rfl⟩
    · exact .ended (pinTransaction_ok pinned).2.2
    · exact .stays
  | commitPinnedConsume token handle =>
    obtain ⟨⟨entry, table⟩, taken, h⟩ := bind_ok h
    cases pure_ok h
    exact .ended (takePinned_ok taken).ended
  | commitPinnedTransfer token protect grants =>
    obtain ⟨⟨entries, table⟩, taken, h⟩ := bind_ok h
    cases pure_ok h
    exact .ended (commitPinnedTransfer_ok taken).ended
  | unpin token =>
    cases pure_ok h
    exact .ended (.hold (.unpin token))
  | reserve heap count token =>
    obtain ⟨⟨answer, table⟩, reserved, h⟩ := bind_ok h
    rcases reserve_ok tracked.table reserved with ⟨reservation, rfl, reserves⟩ | ⟨error, rfl, _, _, reserves, rfl, _⟩
    · cases pure_ok h
      exact .reserved reserves
    · cases pure_ok h
      exact .quiet reserves.rolledBack
  | prepareCommit k entries => exact prepareCommit_turns h
  | commitPrepared k => exact commitPrepared_turns tracked h
  | rollbackPrepared k =>
    rw [step] at h
    split at h
    · cases pure_ok h
      exact .stays
    rename_i prepared found
    obtain ⟨⟨entries, table⟩, rolled, h⟩ := bind_ok h
    cases pure_ok h
    obtain ⟨_, _, rolled⟩ := bind_ok rolled
    cases pure_ok rolled
    exact .returned (removePrepared_releases found)
  | commit k entries => exact commit_turns tracked h
  | rollback k =>
    rw [step] at h
    split at h
    · cases pure_ok h
      exact .stays
    rename_i reservation found
    have releases := removeReservation_releases found []
    rw [World.receives, append_nil] at releases
    rcases settle_ok h with ⟨table, rolled, rfl⟩ | ⟨error, _, rfl⟩
    · obtain ⟨_, _, rolled⟩ := bind_ok rolled
      cases pure_ok rolled
      exact .returned releases
    · exact .abandoned releases
  | takeNext cursor =>
    obtain ⟨⟨found, last, table⟩, taken, h⟩ := bind_ok h
    cases pure_ok h
    exact .ended (takeNextLoop_ok tracked.table taken).1
  | takeNextBounded cursor maxSlots =>
    obtain ⟨⟨answer, last, table⟩, taken, h⟩ := bind_ok h
    cases pure_ok h
    obtain ⟨found, looped, rfl⟩ := takeNextBounded_ok tracked.table taken
    rw [entries_ofFound]
    exact .ended (takeNextLoop_ok tracked.table looped).1

theorem quiet_sound {table : HandleTable T R} (sound : Sound w) (quiet : Quiet w.table table) : Sound { w with table } := by
  have carried := sound.tracked.carried quiet.carries fun _ _ => not_mem_nil
  refine ⟨{ carried with installed := fun item member => carried.installed item (by simpa using member) }, ?_⟩
  have conserved := sound.conserved
  unfold Conserved at conserved ⊢
  rw [← conserved, ← quiet.bodies]
  rfl

theorem reserved_sound {table : HandleTable T R} (sound : Sound w)
    (reserves : Reserves w.table table reservation.token reservation.handles) :
    Sound { w with table, reservations := reservation :: w.reservations } := by
  have base := quiet_sound sound reserves.quiet
  have fresh : ∀ handle ∈ reservation.handles, ∀ other token, w.table.Holds token other → other ≠ handle :=
    fun handle member other token holds => holds_not_fresh holds (reserves.fresh handle member)
  refine ⟨{ base.tracked with abandoned := ?_, holds := ?_, distinct := ?_ }, base.conserved⟩
  · intro handle member
    obtain ⟨_, token, holds⟩ := sound.tracked.abandoned handle member
    obtain ⟨free, still⟩ := base.tracked.abandoned handle member
    refine ⟨fun held => ?_, still⟩
    rcases mem_append.mp held with new | old
    · exact fresh handle new handle token holds rfl
    · exact free old
  · refine forall_mem_cons.mpr ⟨fun handle member => ?_, base.tracked.holds⟩
    obtain ⟨valid, claimed⟩ := reserves.claimed handle member
    exact ⟨valid, .inr claimed⟩
  · refine List.Nodup.append reserves.distinct base.tracked.distinct ?_
    intro handle new old
    obtain ⟨token, holds⟩ := sound.tracked.held old
    exact fresh handle new handle token holds rfl

theorem prepared_sound (sound : Sound w) (releases : Releases w other reservation entries)
    (same : reservation.handles.length = entries.length) :
    Sound { other with prepared := ⟨reservation, entries⟩ :: other.prepared } := by
  obtain ⟨rest, _⟩ := releases.tracked sound.tracked
  have holders := perm_middle.trans releases.holders.symm
  have held := holders.flatMap_right Reservation.handles
  refine ⟨{ rest with
    abandoned := fun handle member => ?_
    holds := fun holder member => ?_
    distinct := held.nodup_iff.mpr sound.tracked.distinct
    paired := forall_mem_cons.mpr ⟨same, rest.paired⟩ }, ?_⟩
  · obtain ⟨free, _⟩ := sound.tracked.abandoned handle (releases.abandoned ▸ member)
    exact ⟨fun inside => free (held.mem_iff.mp inside), (rest.abandoned handle member).2⟩
  · rw [releases.table]
    exact sound.tracked.holds holder (holders.mem_iff.mp member)
  · have conserved := releases.conserved sound.conserved
    simp only [Conserved, World.inFlight, flatMap_cons, bodies_append, releases.table] at conserved ⊢
    rw [← conserved]
    abel

theorem rolledBack_tracked (tracked : Tracked w) (releases : Releases w other reservation entries)
    (returned : List (Entry T R)) :
    Tracked (other.ends (w.table.rollbackHandles reservation.handles reservation.token) reservation.handles returned) ∧
      Handles.bodies (w.table.rollbackHandles reservation.handles reservation.token).stored =
        Handles.bodies w.table.stored := by
  obtain ⟨rest, holds, _, _⟩ := releases.tracked tracked
  have ended := rollbackHandles_ok holds
  have kept := ended.bodies
  rw [bodies_nil, add_zero] at kept
  rw [← releases.table] at ended
  have tracked := ends_tracked rest ended
  rw [releases.table] at tracked
  exact ⟨{ tracked with }, kept⟩

theorem committed_sound {table : HandleTable T R} (sound : Sound w) (releases : Releases w other reservation entries)
    (same : reservation.handles.length = entries.length)
    (installs : Installs w.table table (reservation.handles.zip entries)) :
    Sound (other.installs table (reservation.handles.zip entries)) := by
  obtain ⟨rest, _, _, apart⟩ := releases.tracked sound.tracked
  have firsts := map_fst_zip (Nat.le_of_eq same)
  have bodies := installs.bodies
  rw [map_snd_zip (Nat.le_of_eq same.symm)] at bodies
  rw [← releases.table] at installs
  refine ⟨installs_tracked rest installs ?_, ?_⟩
  · rw [firsts, releases.abandoned]
    rintro handle (held | gone) member
    · exact (apart handle member).1 held
    · exact (apart handle member).2 gone
  · have conserved := releases.conserved sound.conserved
    simp only [Conserved, World.installs, World.inFlight] at conserved ⊢
    rw [← conserved, bodies]
    abel

theorem step_sound (sound : Sound w) (h : step w event = .ok next) : Sound next := by
  cases step_turns sound.tracked h with
  | stays => exact sound
  | ended ended => exact ends_sound sound ended
  | inserted installs fresh => exact insert_sound sound installs fresh
  | lost refused entries => exact lost_sound sound entries
  | quiet quiet => exact quiet_sound sound quiet
  | reserved reserves => exact reserved_sound sound reserves
  | prepared releases same => exact prepared_sound sound releases same
  | @returned other reservation entries releases =>
    obtain ⟨tracked, kept⟩ := rolledBack_tracked sound.tracked releases entries
    refine ⟨tracked, ?_⟩
    have conserved := releases.conserved sound.conserved
    simp only [Conserved, World.ends, World.inFlight, bodies_append] at conserved ⊢
    rw [← conserved, kept]
    abel
  | @refused other reservation entries refused releases =>
    obtain ⟨tracked, kept⟩ := rolledBack_tracked sound.tracked releases []
    refine ⟨drops_tracked tracked _, ?_⟩
    have conserved := releases.conserved sound.conserved
    simp only [Conserved, World.ends, World.drops, World.inFlight, bodies_append, bodies_nil] at conserved ⊢
    rw [← conserved, kept]
    abel
  | committed releases same installs => exact committed_sound sound releases same installs
  | abandoned releases =>
    obtain ⟨rest, holds, _, apart⟩ := releases.tracked sound.tracked
    refine ⟨{ rest with abandoned := forall_mem_append.mpr ⟨releases.abandoned ▸ rest.abandoned, fun handle new => ?_⟩ }, ?_⟩
    · exact ⟨(apart handle new).1, _, releases.table ▸ holds handle new⟩
    · have conserved := releases.conserved sound.conserved
      rw [bodies_nil, add_zero, ← releases.table] at conserved
      exact conserved

end

theorem run_sound {limit : Nat} {events : List (Event T R)} (h : runEvents step (initial limit) events = .ok w) : Sound w :=
  run_invariant (I := Sound) (fun _ _ _ sound h => step_sound sound h) (initial_sound limit) h

end Halcyon.Handles
