import Halcyon.Handles.Invariant
import Halcyon.Handles.Lineages

/-!
Rights only shrink: along every run of calls on any number of tables, an entry is its root entry under rights
that each of its ancestors had.
-/

namespace Halcyon.Handles

open List

namespace Realm

variable {T R : Type} {r : Realm T R} {i : Nat} {table next : HandleTable T R}

variable {last : Realm T R} {kind : Kind} {entries : List (Entry T R)} {lines : List (Lineage T R)}

theorem withTable_sound {f : HandleTable T R → Outcome Empty (Realm T R)} (sound : r.Sound) (h : r.withTable i f = .ok last)
    (each : ∀ table, r.tables[i]? = some table → f table = .ok last → last.Sound) : last.Sound := by
  unfold withTable at h
  split at h
  · rename_i table found
    exact each table found h
  · cases pure_ok h
    exact sound

theorem settled_sound {ε α : Type} {x : HandleTable T R → Outcome ε α} {f : HandleTable T R → α → Realm T R}
    (sound : r.Sound) (h : (r.withTable i fun table => settle (x table) (f table) fun _ => r) = .ok last)
    (done : ∀ table, r.tables[i]? = some table → ∀ a, x table = .ok a → (f table a).Sound) : last.Sound := by
  refine withTable_sound sound h fun table found h => ?_
  rcases settle_ok h with ⟨a, returned, rfl⟩ | ⟨_, _, rfl⟩
  · exact done table found a returned
  · exact sound

theorem concluded_sound {ε α : Type} {x : EStateM (Stop ε) (HandleTable T R) α}
    {f : α → HandleTable T R → Realm T R} (sound : r.Sound) (refuses : Refuses (fun _ => True) x)
    (h : (r.withTable i fun table => conclude f (fun _ next => r.put i next) (x table)) = .ok last)
    (done : ∀ table, r.tables[i]? = some table → ∀ a next, x table = .ok a next → (f a next).Sound) : last.Sound := by
  refine withTable_sound sound h fun table found h => ?_
  rcases conclude_ok refuses h with ⟨a, next, returned, rfl⟩ | ⟨_, _, rfl⟩
  · exact done table found a next returned
  · obtain ⟨inside, same⟩ := List.getElem?_eq_some_iff.mp found
    rw [put, ← same, List.set_getElem_self]
    exact sound

theorem record_nil (r : Realm T R) (i : Nat) : r.record i [] = r := by
  simp only [record, find?_nil, ite_self]

theorem Checked.follows {right : Rights} {item : Handle × Rights} {items : List (Handle × Entry T R)}
    (checked : Checked table right item) (follows : Follows table next items) : Checked next right item := by
  rcases checked with dead | ⟨source, stores, allowed⟩
  · exact .inl (follows.dead dead)
  · exact (follows.kept stores).symm.imp_right fun kept => ⟨source, kept, allowed⟩

theorem Sound.carries (sound : r.Sound) (known : ∀ line ∈ lines, r.Known line) : (r.carry lines).Sound :=
  { sound with transit := forall_mem_append.mpr ⟨sound.transit, known⟩ }

theorem Sound.picks (sound : r.Sound) (ks : List Nat) : ∀ line ∈ r.picked ks, r.Known line := by
  intro line member
  obtain ⟨_, _, at_⟩ := mem_filterMap.mp member
  exact sound.transit line (mem_of_getElem? at_)

section Found

variable (sound : r.Sound) (found : r.tables[i]? = some table)
include sound found

theorem Sound.records {items : List (Handle × Lineage T R)}
    (follows : Follows table next (items.map fun item => (item.1, item.2.current)))
    (known : ∀ item ∈ items, r.Known item.2) : ((r.put i next).record i items).Sound := by
  have inside : i < r.tables.length := (List.getElem?_eq_some_iff.mp found).1
  have read : ∀ {j other}, (r.tables.set i next)[j]? = some other →
      j = i ∧ other = next ∨ j ≠ i ∧ r.tables[j]? = some other := by
    intro j other at_
    rw [getElem?_set, if_pos inside] at at_
    split at at_
    · rename_i same
      exact .inl ⟨same.symm, (Option.some.inj at_).symm⟩
    · rename_i different
      exact .inr ⟨Ne.symm different, at_⟩
  refine { sound with
    tables := fun other member => ?_
    stored := fun j other at_ index generation entry stores => ?_
    pins := fun pin member => ?_ }
  · rcases mem_or_eq_of_mem_set member with old | rfl
    · exact sound.tables other old
    · exact follows.sound (sound.tables table (mem_of_getElem? found))
  · rcases read at_ with ⟨rfl, rfl⟩ | ⟨different, before⟩
    · simp only [record, put, if_true]
      split
      · -- An entry that was just installed.
        rename_i item chosen
        have matches_ := find?_some chosen
        simp only [Bool.and_eq_true, beq_iff_eq] at matches_
        obtain ⟨rfl, rfl⟩ := matches_
        have member := mem_of_find?_eq_some chosen
        have installed := follows.stores _ (mem_map_of_mem member)
        exact ⟨stores_unique stores installed, known item member⟩
      · -- An entry that was there before.
        rename_i missed
        refine sound.stored j table found index generation entry (follows.before stores fun item member => ?_)
        obtain ⟨source, from_, rfl⟩ := mem_map.mp member
        have other := find?_eq_none.mp missed source from_
        simpa using other
    · simp only [record, put, if_neg different]
      exact sound.stored j other before index generation entry stores
  · obtain ⟨before, at_, checked⟩ := sound.pins pin member
    by_cases same : i = pin.1
    · cases found.symm.trans (same ▸ at_)
      exact ⟨next, same ▸ getElem?_set_self inside, fun item inPin => (checked item inPin).follows follows⟩
    · exact ⟨before, (getElem?_set_ne same).trans at_, checked⟩

theorem Sound.changes (follows : Follows table next []) : (r.put i next).Sound := by
  have nothing : Follows table next (([] : List (Handle × Lineage T R)).map fun item => (item.1, item.2.current)) := follows
  have records := sound.records found nothing nofun
  rwa [record_nil] at records

theorem Sound.clip {item : Handle × Rights} {entry : Entry T R} (clips : Clips table item entry)
    (checked : Checked table kind.right item) :
    r.Known ((r.line i item.1.index item.1.generation).extend kind entry) := by
  obtain ⟨source, stores, rfl⟩ := clips
  obtain ⟨_, stores', allowed, less⟩ := checked.resolve_left (stores_alive stores)
  cases stores_unique stores stores'
  obtain ⟨current, root, descends⟩ := sound.stored i table found _ _ source stores
  have reduces : Reduces kind (r.line i item.1.index item.1.generation).current (source.withRights item.2) := by
    rw [current]
    exact ⟨rfl, rfl, less, allowed⟩
  exact ⟨root, reduces, descends⟩

theorem Sound.leaves {items : List (Handle × Rights)}
    (clips : List.Forall₂ (Clips table) items entries) (checked : ∀ item ∈ items, Checked table kind.right item) :
    ∀ line ∈ r.leaving i kind items entries, r.Known line := by
  induction clips with
  | nil => exact nofun
  | cons first _ ih =>
    refine forall_mem_cons.mpr ⟨sound.clip found first (checked _ mem_cons_self), ?_⟩
    exact ih fun item member => checked item (mem_cons_of_mem _ member)

theorem Sound.derives {source : Handle} {rights : Rights} {entry : Entry T R} (h : table.derive source rights = .ok entry) :
    r.Known ((r.line i source.index source.generation).extend .duplicate entry) := by
  obtain ⟨before, stores, allowed, less, rfl⟩ := derive_ok h
  have clips : Clips table (source, rights) (before.withRights rights) := ⟨before, stores, rfl⟩
  have checked : Checked table Kind.duplicate.right (source, rights) := .inr ⟨before, stores, allowed, less⟩
  have known := sound.clip found clips checked
  exact known

theorem Sound.pinned {protect : Handle × Rights} {grants : List (Handle × Rights)} {token : Nat}
    {done : Unit} (h : HandleTable.pinTransaction protect grants token table = .ok done next) :
    Sound { r.put i next with pins := r.pins ++ [(i, grants)] } := by
  have follows := (pinTransaction_ok h).2.2.follows
  have changed := sound.changes found follows
  refine { changed with pins := forall_mem_concat changed.pins ?_ }
  have inside := (List.getElem?_eq_some_iff.mp found).1
  refine ⟨next, List.getElem?_set_self inside, fun item inside => ?_⟩
  exact Checked.follows (.inr (pinTransaction_permits h item inside)) follows

theorem Sound.installs {handles : List Handle} (installs : Installs table next (handles.zip (lines.map Lineage.current)))
    (known : ∀ line ∈ lines, r.Known line) : ((r.put i next).record i (handles.zip lines)).Sound := by
  refine sound.records found ?_ fun item member => known _ (of_mem_zip member).2
  rw [zip_map_right] at installs
  exact installs.follows

theorem Sound.extracts {heap : Heap} {items : List (Handle × Rights)}
    (h : HandleTable.extractWith heap items kind.right table = .ok entries next) :
    ((r.put i next).carry (r.leaving i kind items entries)).Sound := by
  have leaves := (extractWith_ok h).2
  refine (sound.changes found leaves.ended.follows).carries (sound.leaves found leaves.clips fun item member => ?_)
  exact .inr (extractWith_permits h item member)

theorem Sound.transfers {token : Nat} {protect : Handle} {grants : List (Handle × Rights)}
    (pinned : (i, grants) ∈ r.pins) (h : table.commitPinnedTransfer token protect grants [] = .ok (entries, next)) :
    ((r.put i next).carry (r.leaving i .grant grants entries)).Sound := by
  obtain ⟨_, found', checked⟩ := sound.pins _ pinned
  cases found.symm.trans found'
  have leaves := commitPinnedTransfer_ok h
  exact (sound.changes found leaves.ended.follows).carries (sound.leaves found leaves.clips checked)

theorem Sound.prepares {reservation : Reservation} (distinct : reservation.handles.Nodup) (known : ∀ line ∈ lines, r.Known line)
    (h : (match table.prepareCommit reservation (lines.map Lineage.current) with
      | (.ok prepared, next) => pure { r.put i next with prepared := r.prepared ++ [(prepared, lines)] }
      | (.error _, next) => pure (r.put i next) : Outcome Empty (Realm T R)) = .ok last) : last.Sound := by
  rcases prepareCommit_cases table reservation (lines.map Lineage.current) with ⟨accepted, same⟩ | refused
  · rw [accepted] at h
    cases pure_ok h
    have changed := sound.changes found (.refl table)
    exact { changed with
      prepared := forall_mem_concat sound.prepared ⟨distinct, same, rfl, known⟩ }
  · rw [refused] at h
    cases pure_ok h
    exact sound.changes found (rollbackHandles_follows table _ _)

theorem Sound.commits {reservation : Reservation} {answer : Except TableError (List Handle)}
    (distinct : reservation.handles.Nodup) (known : ∀ line ∈ lines, r.Known line)
    (h : table.commit reservation (lines.map Lineage.current) = .ok (answer, next)) :
    (∃ handles, answer = .ok handles ∧ ((r.put i next).record i (handles.zip lines)).Sound) ∨
      ∃ error, answer = .error error ∧ (r.put i next).Sound := by
  unfold HandleTable.commit at h
  rcases prepareCommit_cases table reservation (lines.map Lineage.current) with ⟨accepted, same⟩ | refused
  · rw [accepted] at h
    obtain ⟨⟨handles, _⟩, prepared, h⟩ := bind_ok h
    cases pure_ok h
    obtain ⟨_, installs⟩ := commitPrepared_ok distinct same prepared
    exact .inl ⟨handles, rfl, sound.installs found installs known⟩
  · rw [refused] at h
    cases pure_ok h
    exact .inr ⟨_, rfl, sound.changes found (rollbackHandles_follows table _ _)⟩

end Found

theorem Sound.mints (sound : r.Sound) (entry : Entry T R) :
    Sound { r with roots := entry :: r.roots, transit := r.transit ++ [⟨entry, []⟩] } := by
  have wider : ∀ {line}, r.Known line → line.root ∈ entry :: r.roots ∧ Descends line.root line.steps :=
    fun known => ⟨mem_cons_of_mem _ known.1, known.2⟩
  refine { sound with
    stored := fun i table found index generation stored stores => ?_
    transit := forall_mem_append.mpr ⟨fun line old => wider (sound.transit line old), ?_⟩
    prepared := fun item member => ?_ }
  · obtain ⟨current, known⟩ := sound.stored i table found index generation stored stores
    exact ⟨current, wider known⟩
  · exact forall_mem_singleton.mpr ⟨mem_cons_self, trivial⟩
  · obtain ⟨distinct, same, entries, known⟩ := sound.prepared item member
    exact ⟨distinct, same, entries, fun line inside => wider (known line inside)⟩

theorem withLimit_stores {limit index : Nat} {generation : UInt32} {entry : Entry T R} :
    ¬(HandleTable.withLimit limit : HandleTable T R).Stores index generation entry := by
  rintro ⟨_, ⟨found, _⟩, held⟩
  rw [HandleTable.withLimit, getElem?_singleton] at found
  split at found
  · cases found
    cases held
  · cases found

theorem Sound.opens (sound : r.Sound) (limit : Nat) : Sound { r with tables := r.tables ++ [.withLimit limit] } := by
  refine { sound with
    tables := forall_mem_concat sound.tables (withLimit_sound limit)
    stored := fun i table at_ index generation entry stores => ?_
    pins := fun pin member => ?_ }
  · rcases Nat.lt_or_ge i r.tables.length with old | new
    · exact sound.stored i table ((getElem?_append_left old).symm.trans at_) index generation entry stores
    · have last := (getElem?_append_right new).symm.trans at_
      rw [getElem?_singleton] at last
      split at last
      · cases last
        exact absurd stores withLimit_stores
      · cases last
  · obtain ⟨table, found, checked⟩ := sound.pins pin member
    have inside := (List.getElem?_eq_some_iff.mp found).1
    exact ⟨table, (getElem?_append_left inside).trans found, checked⟩

theorem step_sound {call : Call T R} (sound : r.Sound) (h : r.step call = .ok last) : last.Sound := by
  cases call with
  | mint entry =>
    cases pure_ok h
    exact sound.mints entry
  | openTable limit =>
    cases pure_ok h
    exact sound.opens limit
  | insert i heap k =>
    refine withTable_sound sound h fun table found h => ?_
    split at h
    · cases pure_ok h
      exact sound
    rename_i line at_
    rcases settle_ok h with ⟨⟨handle, next⟩, inserted, rfl⟩ | ⟨_, _, rfl⟩
    · have installs := (insert_installs (sound.tables table (mem_of_getElem? found)) inserted).1
      refine sound.records found installs.follows ?_
      exact forall_mem_singleton.mpr (sound.transit line (mem_of_getElem? at_))
    · exact sound
  | derive i source rights =>
    refine settled_sound sound h fun table found entry derived => ?_
    exact sound.carries (forall_mem_singleton.mpr (sound.derives found derived))
  | duplicate i heap source rights =>
    refine settled_sound sound h fun table found answer duplicated => ?_
    obtain ⟨entry, derived, inserted⟩ := bind_ok duplicated
    have installs := (insert_installs (sound.tables table (mem_of_getElem? found)) inserted).1
    rw [derived]
    exact sound.records found installs.follows (forall_mem_singleton.mpr (sound.derives found derived))
  | remove i handle =>
    exact settled_sound sound h fun table found _ removed => sound.changes found (remove_ok removed).ended.follows
  | extractMoves i heap moves | extractGrants i heap grants =>
    exact concluded_sound sound extractWith_refuses h fun table found _ _ extracted => sound.extracts found extracted
  | pinConsume i handle required token =>
    exact concluded_sound sound pinTransaction_refuses h fun table found _ _ pinned =>
      sound.changes found (pinTransaction_ok pinned).2.2.follows
  | pinTransfer i protect protectRight grants token =>
    exact concluded_sound sound pinTransaction_refuses h fun table found _ _ pinned => sound.pinned found pinned
  | commitPinnedConsume i token handle =>
    refine withTable_sound sound h fun table found h => ?_
    obtain ⟨⟨entry, next⟩, taken, h⟩ := bind_ok h
    cases pure_ok h
    exact sound.changes found (takePinned_ok taken).ended.follows
  | commitPinnedTransfer n token protect =>
    unfold step at h
    dsimp only at h
    split at h
    · cases pure_ok h
      exact sound
    rename_i i grants at_
    refine withTable_sound sound h fun table found h => ?_
    obtain ⟨⟨entries, next⟩, taken, h⟩ := bind_ok h
    cases pure_ok h
    exact sound.transfers found (mem_of_getElem? at_) taken
  | unpin i token =>
    refine withTable_sound sound h fun table found h => ?_
    cases pure_ok h
    exact sound.changes found (unpin_follows table token)
  | reserve i heap count token =>
    refine withTable_sound sound h fun table found h => ?_
    obtain ⟨⟨answer, next⟩, reserved, h⟩ := bind_ok h
    rcases reserve_ok (sound.tables table (mem_of_getElem? found)) reserved with
      ⟨reservation, rfl, reserves⟩ | ⟨error, rfl, _, _, reserves, rfl, _⟩
    · cases pure_ok h
      have changed := sound.changes found reserves.quiet.follows
      exact { changed with
        reservations := forall_mem_concat sound.reservations reserves.distinct }
    · cases pure_ok h
      exact sound.changes found reserves.rolledBack.follows
  | prepareCommit i n ks =>
    refine withTable_sound sound h fun table found h => ?_
    split at h
    · cases pure_ok h
      exact sound
    rename_i reservation at_
    exact sound.prepares found (sound.reservations _ (mem_of_getElem? at_)) (sound.picks ks) h
  | commitPrepared i n =>
    refine withTable_sound sound h fun table found h => ?_
    split at h
    · cases pure_ok h
      exact sound
    rename_i prepared lines at_
    obtain ⟨⟨handles, next⟩, committed, h⟩ := bind_ok h
    cases pure_ok h
    obtain ⟨distinct, same, entries, known⟩ := sound.prepared _ (mem_of_getElem? at_)
    obtain ⟨_, installs⟩ := commitPrepared_ok distinct same committed
    exact sound.installs found (entries ▸ installs) known
  | rollbackPrepared i n =>
    refine withTable_sound sound h fun table found h => ?_
    split at h
    · cases pure_ok h
      exact sound
    obtain ⟨⟨entries, next⟩, rolled, h⟩ := bind_ok h
    cases pure_ok h
    obtain ⟨_, _, rolled⟩ := bind_ok rolled
    cases pure_ok rolled
    exact sound.changes found (rollbackHandles_follows table _ _)
  | commit i n ks =>
    refine withTable_sound sound h fun table found h => ?_
    split at h
    · cases pure_ok h
      exact sound
    rename_i reservation at_
    obtain ⟨⟨answer, next⟩, committed, h⟩ := bind_ok h
    have distinct := sound.reservations _ (mem_of_getElem? at_)
    rcases sound.commits found distinct (sound.picks ks) committed with ⟨handles, rfl, after⟩ | ⟨error, rfl, after⟩
    · cases pure_ok h
      exact after
    · cases pure_ok h
      exact after
  | rollback i n =>
    refine withTable_sound sound h fun table found h => ?_
    split at h
    · cases pure_ok h
      exact sound
    rcases settle_ok h with ⟨next, rolled, rfl⟩ | ⟨_, _, rfl⟩
    · obtain ⟨_, _, rolled⟩ := bind_ok rolled
      cases pure_ok rolled
      exact sound.changes found (rollbackHandles_follows table _ _)
    · exact sound
  | takeNext i cursor =>
    refine withTable_sound sound h fun table found h => ?_
    obtain ⟨⟨answer, last, next⟩, taken, h⟩ := bind_ok h
    cases pure_ok h
    have ended := (takeNextLoop_ok (sound.tables table (mem_of_getElem? found)) taken).1
    exact sound.changes found ended.follows
  | takeNextBounded i cursor maxSlots =>
    refine withTable_sound sound h fun table found h => ?_
    obtain ⟨⟨answer, last, next⟩, taken, h⟩ := bind_ok h
    cases pure_ok h
    have good := sound.tables table (mem_of_getElem? found)
    obtain ⟨_, looped, _⟩ := takeNextBounded_ok good taken
    exact sound.changes found (takeNextLoop_ok good looped).1.follows

theorem initial_sound (nobody : Lineage T R) : (initial nobody).Sound := ⟨nofun, nofun, nofun, nofun, nofun, nofun⟩

/-- The line says what the entry is, and starts at an entry that was put in circulation. -/
def Traced (r : Realm T R) (line : Lineage T R) (entry : Entry T R) : Prop := line.root ∈ r.roots ∧ Attenuated line entry

/-- Rights only shrink: every entry in a table or in transit is its root entry with rights that each of its
ancestors had, and each step of its line was allowed by the entry it started from. -/
theorem rights_only_shrink (nobody : Lineage T R) (calls : List (Call T R)) {r : Realm T R}
    (run : runEvents step (initial nobody) calls = .ok r) :
    (∀ i table, r.tables[i]? = some table → ∀ index generation entry, table.Stores index generation entry →
      r.Traced (r.line i index generation) entry) ∧ (∀ line ∈ r.transit, r.Traced line line.current) ∧
    ∀ item ∈ r.prepared, List.Forall₂ r.Traced item.2 item.1.entries := by
  have sound : r.Sound := run_invariant (I := Sound) (fun _ _ _ sound h => step_sound sound h) (initial_sound nobody) run
  refine ⟨fun i table found index generation entry stores => ?_, fun line member => ?_, fun item member => ?_⟩
  · obtain ⟨rfl, root, descends⟩ := sound.stored i table found index generation entry stores
    exact ⟨root, attenuated descends⟩
  · obtain ⟨root, descends⟩ := sound.transit line member
    exact ⟨root, attenuated descends⟩
  · obtain ⟨_, _, entries, known⟩ := sound.prepared item member
    rw [entries, List.forall₂_map_right_iff, List.forall₂_same]
    exact fun line inside => ⟨(known line inside).1, attenuated (known line inside).2⟩

/-- Two tables, and two entries in the first; the second is transferred with one right left. -/
def transferCalls : List (Call Nat Unit) :=
  [.openTable 4, .openTable 4, .mint ⟨7, (), .known⟩, .mint ⟨8, (), .known⟩, .insert 0 .ample 0, .insert 0 .ample 1,
    .pinTransfer 0 (.fromParts 1 1) .grant [(.fromParts 2 1, ⟨1⟩)] 5, .commitPinnedTransfer 0 5 (.fromParts 1 1),
    .insert 1 .ample 2]

def noLine : Lineage Nat Unit := ⟨⟨0, (), ⟨0⟩⟩, []⟩

theorem rights_only_shrink_transfer : ∃ r : Realm Nat Unit, runEvents step (initial noLine) transferCalls = .ok r ∧
    (r.tables[1]?.map fun table => table.slots) = some [⟨0, .retired⟩, ⟨1, .occupied ⟨8, (), ⟨1⟩⟩⟩] ∧
    r.Traced (r.line 1 1 1) ⟨8, (), ⟨1⟩⟩ := by
  obtain ⟨r, run, held⟩ := returnsWith_ok (runEvents step (initial noLine) transferCalls)
    (fun r => (r.tables[1]?.map fun table => table.slots) = some [⟨0, .retired⟩, ⟨1, .occupied ⟨8, (), ⟨1⟩⟩⟩])
    (by decide +kernel)
  have held := of_decide_eq_true held
  obtain ⟨table, found, slots⟩ := Option.map_eq_some_iff.mp held
  refine ⟨r, run, held, (rights_only_shrink noLine transferCalls run).1 1 table found 1 1 _ ?_⟩
  exact ⟨_, ⟨congrArg (·[1]?) slots, rfl⟩, rfl⟩

end Realm

end Halcyon.Handles
