import Halcyon.Space.Orders

/-!
Translation intents keep page tables and ledger in step. A page table is seen as a partial map from pages to
protections.
-/

namespace Halcyon.Space

open PageRange RegionKind MemorySpace List

abbrev Protections := Nat → Option Protection

abbrev PageRange.HasPage (r : PageRange) (page : Nat) : Prop := r.Has (page * pageSize)

namespace TranslationIntent

def apply (table : Protections) : TranslationIntent → Protections
  | install range _ protection => fun page => if range.HasPage page then some protection else table page
  | remove range => fun page => if range.HasPage page then none else table page
  | protect range _ to_ => fun page => if range.HasPage page then (table page).map (fun _ => to_) else table page

def Fits (table : Protections) : TranslationIntent → Prop
  | install range _ _ => ∀ page, range.HasPage page → table page = none
  | remove _ => True
  | protect range from_ _ => ∀ page, range.HasPage page → table page = some from_

end TranslationIntent

def Protections.applyAll (table : Protections) (intents : List TranslationIntent) : Protections :=
  intents.foldl TranslationIntent.apply table

def Protections.AllFit : Protections → List TranslationIntent → Prop
  | _, [] => True
  | table, intent :: rest => intent.Fits table ∧ AllFit (intent.apply table) rest

/-- The table maps exactly the pages of Mapping regions, with the region's current protection. -/
def Protections.Agrees (table : Protections) (s : MemorySpace) : Prop := ∀ page protection, table page = some protection ↔
    ∃ r ∈ s.regions, r.range.HasPage page ∧ ∃ backing maximum, r.kind = .mapping backing protection maximum

def TakesOut (before after : MemorySpace) (page : Nat) : Prop :=
  (∃ r ∈ before.regions, r.range.HasPage page) ∧ ∀ r ∈ after.regions, ¬r.range.HasPage page

def RegionKind.current? : RegionKind → Option Protection
  | guard => none
  | mapping _ current _ => some current

@[simp] theorem RegionKind.current?_shiftedBy (kind : RegionKind) (n : Nat) :
    (kind.shiftedBy n).current? = kind.current? := by
  cases kind <;> rfl

theorem RegionKind.current?_some {kind : RegionKind} {protection : Protection} :
    kind.current? = some protection ↔ ∃ backing maximum, kind = .mapping backing protection maximum := by
  cases kind <;> simp [current?]

theorem RegionKind.current?_none {kind : RegionKind} : kind.current? = none ↔ kind.isMapping = false := by
  cases kind <;> simp [current?, isMapping]

def MemorySpace.protections (s : MemorySpace) : Protections := fun page => (s.pageMap page).bind (·.kind.current?)

section
variable {s : MemorySpace}

variable {page : Nat}

section

variable (sound : LedgerSound s)
include sound

theorem LedgerSound.pageMap_eq {r : Region} (live : r ∈ s.regions)
    (has : r.range.HasPage page) : s.pageMap page = some (r.tile.value (page * pageSize)) :=
  (lookup_eq_some sound.ascending.apart).mpr ⟨r.tile, mem_map_of_mem live, has, rfl⟩

theorem pageMap_some {m : PageMeaning} (h : s.pageMap page = some m) :
    ∃ r ∈ s.regions, r.range.HasPage page ∧ r.tile.value (page * pageSize) = m := by
  obtain ⟨_, member, has, value⟩ := (lookup_eq_some sound.ascending.apart).mp h
  obtain ⟨r, live, rfl⟩ := mem_map.mp member
  exact ⟨r, live, has, value⟩

theorem LedgerSound.protections_eq {r : Region} (live : r ∈ s.regions)
    (has : r.range.HasPage page) : s.protections page = r.kind.current? := by
  rw [protections, sound.pageMap_eq live has]
  exact current?_shiftedBy _ _

theorem agrees_protections : s.protections.Agrees s := by
  intro page protection
  constructor
  · intro mapped
    obtain ⟨m, found, current⟩ := Option.bind_eq_some_iff.mp mapped
    obtain ⟨r, live, has, rfl⟩ := pageMap_some sound found
    rw [Region.tile, current?_shiftedBy] at current
    exact ⟨r, live, has, current?_some.mp current⟩
  · rintro ⟨r, live, has, kind⟩
    rw [sound.protections_eq live has]
    exact current?_some.mpr kind

end

theorem Protections.Agrees.eq {table : Protections} (agrees : table.Agrees s) (sound : LedgerSound s) :
    table = s.protections := by
  funext page
  refine Option.ext fun protection => ?_
  rw [agrees page protection, agrees_protections sound page protection]

end

theorem PageRange.intersection_has {r other cut : PageRange} (h : r.intersection other = some cut) {a : Nat} :
    cut.Has a ↔ r.Has a ∧ other.Has a := by
  obtain ⟨from_, to_⟩ := intersection_some h
  unfold Has
  omega

theorem PageRange.intersection_none {r other : PageRange} (h : r.intersection other = none) {a : Nat}
    (has : r.Has a) : ¬other.Has a := by
  unfold intersection at h
  split at h
  · cases h
  · unfold Has at has ⊢
    omega

variable {table : Protections}

theorem protectIntents_apply (q : ProtectRequest) {r : Region} (mapped : r.kind.isMapping = true)
    (agree : ∀ page, r.range.HasPage page → table page = r.kind.current?) :
    table.AllFit (protectIntents q r) ∧ ∀ page, table.applyAll (protectIntents q r) page =
      if q.range.HasPage page ∧ r.range.HasPage page then some q.protection else table page := by
  cases kind : r.kind with
  | guard =>
    rw [kind] at mapped
    cases mapped
  | mapping backing current maximum =>
    rw [kind, current?] at agree
    cases meets : r.range.intersection q.range with
    | none =>
      rw [protectIntents, kind, meets]
      refine ⟨trivial, fun page => ?_⟩
      rw [if_neg fun both => intersection_none meets both.2 both.1]
      rfl
    | some cut =>
      rw [protectIntents, kind, meets]
      dsimp only
      by_cases same : current = q.protection
      · -- no intent: the pages of the region have the protection already
        rw [if_neg (by simp [same])]
        refine ⟨trivial, fun page => ?_⟩
        split
        · rename_i both
          rw [← same]
          exact agree page both.2
        · rfl
      · rw [if_pos (by simpa using same)]
        refine ⟨⟨fun page has => agree page (intersection_has meets |>.mp has).1, trivial⟩, fun page => ?_⟩
        simp only [Protections.applyAll, foldl_cons, foldl_nil, TranslationIntent.apply]
        by_cases has : cut.HasPage page
        · have both := intersection_has meets |>.mp has
          rw [if_pos has, if_pos ⟨both.2, both.1⟩, agree page both.1]
          rfl
        · rw [if_neg has, if_neg fun both => has (intersection_has meets |>.mpr ⟨both.2, both.1⟩)]

theorem Protections.allFit_append {xs ys : List TranslationIntent} (first : table.AllFit xs)
    (second : (table.applyAll xs).AllFit ys) : table.AllFit (xs ++ ys) := by
  induction xs generalizing table with
  | nil => exact second
  | cons intent rest ih => exact ⟨first.1, ih first.2 second⟩

theorem protectIntents_applyAll (q : ProtectRequest) {covered : List Region}
    (apart : (covered.map Region.tile).Pairwise Tile.Apart) (mapped : ∀ r ∈ covered, r.kind.isMapping = true)
    (agree : ∀ r ∈ covered, ∀ page, r.range.HasPage page → table page = r.kind.current?) :
    table.AllFit (covered.flatMap (protectIntents q)) ∧ ∀ page, table.applyAll (covered.flatMap (protectIntents q)) page =
        if q.range.HasPage page ∧ ∃ r ∈ covered, r.range.HasPage page then some q.protection else table page := by
  induction covered generalizing table with
  | nil => exact ⟨trivial, fun page => by simp [Protections.applyAll]⟩
  | cons r rest ih =>
    obtain ⟨fromHead, tail⟩ := pairwise_cons.mp apart
    obtain ⟨fits, applied⟩ := protectIntents_apply q (mapped r mem_cons_self) (agree r mem_cons_self)
    -- the intents of one region leave the pages of the others alone
    have agree' : ∀ r' ∈ rest, ∀ page, r'.range.HasPage page →
        table.applyAll (protectIntents q r) page = r'.kind.current? := by
      intro r' member page has
      rw [applied page, if_neg]
      · exact agree r' (mem_cons_of_mem _ member) page has
      · exact fun both => Tile.not_has_of_apart (fromHead _ (mem_map_of_mem member)) both.2 has
    obtain ⟨fits', applied'⟩ := ih tail (fun r' member => mapped r' (mem_cons_of_mem _ member)) agree'
    rw [flatMap_cons]
    refine ⟨Protections.allFit_append fits fits', fun page => ?_⟩
    rw [Protections.applyAll, foldl_append]
    refine (applied' page).trans ?_
    rw [applied page]
    simp only [mem_cons, exists_eq_or_imp]
    by_cases inRange : q.range.HasPage page
    · by_cases here : r.range.HasPage page <;> simp [inRange, here]
    · simp [inRange]

section
variable {w : World} {request : Request} {p : PreparedChange} {space : MemorySpace} {payload : ChangePayload}
  {removed kept : List Region} {pre post : List TransactionRecord} {record : TransactionRecord}
  {fresh : AllocationKey}

section

variable (effect : Commits w.space p space payload removed kept pre post record)
include effect

theorem Commits.intents (sound : w.Sound) (ordered : w.Ordered) (reserved : (request, p) ∈ w.prepared)
    (prepared : PreparedSound w request p record fresh removed) : w.space.protections.AllFit p.plan.translations ∧
      w.space.protections.applyAll p.plan.translations = space.protections := by
  obtain ⟨covered, orders, apart, live⟩ := effect.ordered ordered reserved
  have after : ∀ page, space.protections page = (request.applied p.plan.resultLayout fresh (page * pageSize)
      (w.space.meaning (page * pageSize))).bind (·.kind.current?) := by
    intro page
    rw [← effect.meaning sound prepared]
    rfl
  have edit := prepared.edit
  cases request with
  | map q =>
    obtain ⟨_, l, layout, place, fits, _⟩ := edit
    obtain ⟨_, l', layout', translations⟩ := orders
    cases layout.symm.trans layout'
    have inside : ∀ a, l.usable.Has a → l.reservation.Has a := by
      intro a has
      have := fits.before
      have := fits.after
      unfold PageRange.Has at has ⊢
      omega
    have free : ∀ page, l.reservation.HasPage page → w.space.protections page = none := by
      intro page has
      have none : w.space.pageMap page = none := by
        refine Option.eq_none_iff_forall_ne_some.mpr fun m found => ?_
        obtain ⟨r, here, held, _⟩ := pageMap_some sound.ledger found
        exact prepared.free (by rw [layout]; rfl) r here _ held (place ▸ has)
      rw [protections, none]
      rfl
    rw [translations]
    refine ⟨⟨fun page has => free page (inside _ has), trivial⟩, funext fun page => ?_⟩
    simp only [Protections.applyAll, foldl_cons, foldl_nil, TranslationIntent.apply]
    rw [after page, layout, Request.applied]
    by_cases reserved : l.reservation.Has (page * pageSize)
    · rw [if_pos reserved, MapRequest.mapped, if_pos reserved]
      by_cases mapped : l.usable.HasPage page
      · rw [if_pos mapped, if_pos mapped]
        rfl
      · rw [if_neg mapped, if_neg mapped]
        exact free page reserved
    · rw [if_neg reserved, if_neg fun has => reserved (inside _ has)]
      rfl
  | unmap q =>
    obtain ⟨whole, _, translations⟩ := orders
    have after : ∀ page, space.protections page =
        if q.range.HasPage page then none else w.space.protections page := by
      intro page
      rw [after page, Request.applied]
      by_cases has : q.range.HasPage page
      · rw [if_pos has, if_pos has]
        rfl
      · rw [if_neg has, if_neg has]
        rfl
    rw [translations]
    by_cases some : covered.any (·.kind.isMapping) = true
    · rw [if_pos some]
      exact ⟨⟨trivial, trivial⟩, funext fun page => (after page).symm⟩
    · rw [if_neg some]
      refine ⟨trivial, funext fun page => ?_⟩
      rw [after page]
      split
      · -- only guards were covered
        rename_i has
        obtain ⟨r, member, held⟩ := whole _ has
        have guard : r.kind.isMapping = false := by simpa using fun h => some (any_eq_true.mpr ⟨r, member, h⟩)
        show w.space.protections page = none
        rw [sound.ledger.protections_eq (live r member).2 held]
        exact current?_none.mpr guard
      · rfl
  | protect q =>
    obtain ⟨whole, _, mapped, translations⟩ := orders
    obtain ⟨fits, applied⟩ := protectIntents_applyAll q apart mapped
      (fun r member page has => sound.ledger.protections_eq (live r member).2 has)
    rw [translations]
    refine ⟨fits, funext fun page => ?_⟩
    rw [applied page, after page, Request.applied]
    by_cases has : q.range.HasPage page
    · rw [if_pos has]
      rcases whole with none | whole
      · -- nothing was removed, so every page of the range had the protection already
        have gone : removed = [] := by
          rw [← map_eq_nil_iff (f := Region.key), effect.keys, none]
        obtain ⟨m, covers, same⟩ := prepared.idle q rfl gone _ has
        have before : w.space.pageMap page = some m := (lookup_eq_some sound.ledger.ascending.apart).mpr covers
        have held : w.space.protections page = (m.protect q.protection).kind.current? := by
          rw [protections, before, same]
          rfl
        have here : w.space.meaning (page * pageSize) = some m := before
        rw [here, Option.map_some, Option.bind_some, ← held]
        split
        · obtain ⟨r, member, held'⟩ := (‹_ ∧ _› : _ ∧ _).2
          have named := (live r member).1
          rw [gone] at named
          cases named
        · rfl
      · obtain ⟨r, member, held⟩ := whole _ has
        have before : w.space.meaning (page * pageSize) = _ := sound.ledger.pageMap_eq (live r member).2 held
        rw [if_pos ⟨has, r, member, held⟩, before, Option.map_some, Option.bind_some]
        have mapping := mapped r member
        cases kind : r.kind with
        | guard =>
          rw [kind] at mapping
          cases mapping
        | mapping backing current maximum =>
          rw [Region.tile, kind]
          rfl
    · rw [if_neg has, if_neg fun both => has both.1]
      rfl

theorem Commits.removes (sound : w.Sound)
    (next : LedgerSound space) (ordered : w.Ordered) (reserved : (request, p) ∈ w.prepared)
    (prepared : PreparedSound w request p record fresh removed) (page : Nat) :
    ((∃ range, .remove range ∈ p.plan.translations ∧ range.HasPage page) → TakesOut w.space space page) ∧
      (w.space.protections page ≠ none → TakesOut w.space space page →
        ∃ range, .remove range ∈ p.plan.translations ∧ range.HasPage page) := by
  obtain ⟨covered, orders, apart, live⟩ := effect.ordered ordered reserved
  have after : space.pageMap page = _ := effect.meaning sound prepared (page * pageSize)
  have stays : ∀ m, space.pageMap page = some m → ¬TakesOut w.space space page := by
    intro m found out
    obtain ⟨r, here, has, _⟩ := pageMap_some next found
    exact out.2 r here has
  have present : w.space.protections page ≠ none → ∃ m, w.space.meaning (page * pageSize) = some m := by
    intro mapped
    refine Option.ne_none_iff_exists'.mp fun none => mapped ?_
    have none : w.space.pageMap page = Option.none := none
    rw [protections, none]
    rfl
  cases request with
  | map q =>
    obtain ⟨_, l, layout, translations⟩ := orders
    refine ⟨?_, fun mapped out => ?_⟩
    · rintro ⟨range, member, _⟩
      rw [translations] at member
      simp at member
    · obtain ⟨m, found⟩ := present mapped
      rw [layout, Request.applied, found] at after
      split at after
      · rename_i has
        rw [MapRequest.mapped, if_pos has] at after
        exact (stays _ after out).elim
      · exact (stays _ after out).elim
  | unmap q =>
    obtain ⟨whole, _, translations⟩ := orders
    rw [Request.applied] at after
    constructor
    · rintro ⟨range, member, has⟩
      rw [translations] at member
      split at member
      · cases mem_singleton.mp member
        obtain ⟨r, listed, held⟩ := whole _ has
        refine ⟨⟨r, (live r listed).2, held⟩, fun r' here held' => ?_⟩
        rw [if_pos has, next.pageMap_eq here held'] at after
        cases after
      · cases member
    · intro mapped out
      obtain ⟨m, found⟩ := present mapped
      by_cases has : q.range.HasPage page
      · refine ⟨q.range, ?_, has⟩
        obtain ⟨r, listed, held⟩ := whole _ has
        rw [sound.ledger.protections_eq (live r listed).2 held, ne_eq, current?_none, Bool.not_eq_false] at mapped
        rw [translations, if_pos (any_eq_true.mpr ⟨r, listed, mapped⟩)]
        exact mem_singleton_self _
      · rw [if_neg has, found] at after
        exact (stays _ after out).elim
  | protect q =>
    obtain ⟨_, _, _, translations⟩ := orders
    refine ⟨?_, fun mapped out => ?_⟩
    · rintro ⟨range, member, _⟩
      rw [translations] at member
      obtain ⟨r, _, listed⟩ := mem_flatMap.mp member
      unfold protectIntents at listed
      split at listed
      · split at listed
        · cases mem_singleton.mp listed
        · cases listed
      · cases listed
    · obtain ⟨m, found⟩ := present mapped
      rw [Request.applied, found] at after
      split at after
      · exact (stays _ after out).elim
      · exact (stays _ after out).elim

end

end

/-- A page table that agrees with the ledger before a commit agrees with the ledger after it, once the
intents of the plan are applied in order. Each intent finds what it expects, and the Remove intents cover
the mapped pages the plan takes out, and otherwise only pages (guards) that it takes out too. -/
theorem intents_keep_step {w : World} {request : Request} {p : PreparedChange} {space : MemorySpace}
    {payload : ChangePayload} {table : Protections} (reachable : w.Reachable)
    (reserved : (request, p) ∈ w.prepared) (agrees : table.Agrees w.space)
    (done : w.space.commit p = .ok (space, payload)) :
    (table.applyAll p.plan.translations).Agrees space ∧ table.AllFit p.plan.translations ∧
      ∀ page, ((∃ range, .remove range ∈ p.plan.translations ∧ range.HasPage page) → TakesOut w.space space page) ∧
        ((table page).isSome → TakesOut w.space space page →
          ∃ range, .remove range ∈ p.plan.translations ∧ range.HasPage page) := by
  have sound := reachable_sound reachable
  have ordered := reachable_ordered reachable
  obtain ⟨removed, kept, pre, post, record, effect⟩ := commit_ok done
  obtain ⟨fresh, prepared⟩ := effect.prepared request sound reserved
  have next : LedgerSound space := by
    obtain ⟨before, after, token⟩ := append_of_mem reserved
    exact (sound.committed token effect).ledger
  obtain ⟨fits, applied⟩ := effect.intents sound ordered reserved prepared
  rw [agrees.eq sound.ledger]
  refine ⟨by rw [applied]; exact agrees_protections next, fits, fun page => ?_⟩
  obtain ⟨covers, needed⟩ := effect.removes sound next ordered reserved prepared page
  exact ⟨covers, fun mapped => needed (Option.isSome_iff_ne_none.mp mapped)⟩

theorem intents_keep_step_protectSecond :
    ∃ w p space payload, runEvents World.step (World.start smallSpace) protectSecond = .ok w ∧
      w.space.commit p = .ok (space, payload) ∧
      p.plan.translations = [.protect (pageSpan 17 0) .readWrite .readOnly] ∧
      (w.space.protections.applyAll p.plan.translations).Agrees space ∧
      w.space.protections.AllFit p.plan.translations ∧
      ∀ page, ((∃ range, .remove range ∈ p.plan.translations ∧ range.HasPage page) → TakesOut w.space space page) ∧
        ((w.space.protections page).isSome → TakesOut w.space space page →
          ∃ range, .remove range ∈ p.plan.translations ∧ range.HasPage page) := by
  obtain ⟨w, run, test⟩ := returnsWith_ok (runEvents World.step (World.start smallSpace) protectSecond)
    (fun w => w.prepared.any fun x => returnsWith (w.space.commit x.2) (fun _ => true) &&
      decide (x.2.plan.translations = [.protect (pageSpan 17 0) .readWrite .readOnly])) (by decide +kernel)
  obtain ⟨⟨request, p⟩, reserved, token⟩ := any_eq_true.mp test
  rw [Bool.and_eq_true, decide_eq_true_iff] at token
  obtain ⟨⟨space, payload⟩, done, _⟩ := returnsWith_ok _ _ token.1
  have reachable := reachable_small run
  exact ⟨w, p, space, payload, run, done, token.2,
    intents_keep_step reachable reserved (agrees_protections (reachable_sound reachable).ledger) done⟩

/-- Four pages with a guard page after them, and a reserved unmap of the last one and the guard. -/
def unmapWithGuard : List Event := completeChange (.map (privatePages 16 4 none)) [] ++ [
    .validate plenty (.unmap ⟨pageSpan 19 1, .addressSpace⟩), .reserve 0 plenty []]

/-- The Remove of an unmap covers a guard page as soon as the request covers a mapped one too. -/
theorem remove_covers_guard :
    ∃ w request p range page, runEvents World.step (World.start smallSpace) unmapWithGuard = .ok w ∧
      w.Reachable ∧ (request, p) ∈ w.prepared ∧ .remove range ∈ p.plan.translations ∧ range.HasPage page ∧
      ∃ r ∈ w.space.regions, r.kind = .guard ∧ r.range.HasPage page := by
  obtain ⟨w, run, test⟩ := returnsWith_ok (runEvents World.step (World.start smallSpace) unmapWithGuard)
    (fun w => w.prepared.any (fun x => decide (x.2.plan.translations = [.remove (pageSpan 19 1)])) &&
      w.space.regions.any fun r => decide (r.kind = .guard) && decide (r.range.HasPage 20)) (by decide +kernel)
  rw [Bool.and_eq_true] at test
  obtain ⟨⟨request, p⟩, reserved, token⟩ := any_eq_true.mp test.1
  obtain ⟨r, live, guard⟩ := any_eq_true.mp test.2
  rw [Bool.and_eq_true, decide_eq_true_iff, decide_eq_true_iff] at guard
  refine ⟨w, request, p, pageSpan 19 1, 20, run, reachable_small run, reserved, ?_, by decide, r, live, guard⟩
  rw [decide_eq_true_iff.mp token]
  exact mem_singleton_self _

end Halcyon.Space
