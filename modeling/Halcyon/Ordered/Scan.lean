import Halcyon.Ordered.Table

/-!
The scan of a table behind a cursor gives a first part of the visible run behind it, and a caller that pages through the
table goes along that run.
-/

namespace Halcyon.Ordered

open Entries List

variable {K V : Type}

section
variable [LinearOrder K]

/-- The recursion of `scan_visible`: whether it stops early, and the buffer in its written and its spare part. -/
def scan (visible : V → Bool) (cursor : K) : Link K V → List K × List K → Bool × List K × List K
  | .nil, s => (false, s)
  | .node key value _ left right, s =>
    if key ≤ cursor then scan visible cursor right s
    else match scan visible cursor left s with
      | (true, s) => (true, s)
      | (false, written, []) => (true, written, [])
      | (false, written, old :: spare) =>
        if visible value then scan visible cursor right (written ++ [key], spare) else (true, written, old :: spare)

/-- How many keys are written, whether there are more, and the buffer. -/
def OrderedTable.scanVisible (self : OrderedTable K V) (visible : V → Bool) (cursor : K) (out : List K) :
    Nat × Bool × List K :=
  let (more, written, spare) := scan visible cursor self.root ([], out)
  (written.length, more, written ++ spare)

/-- A caller's loop: each scan starts behind the last key the one before has given, until there are no more. -/
def pages (scan : K → List K → Nat × Bool × List K) : K → List (List K) → List K
  | _, [] => []
  | cursor, out :: buffers =>
    let (actual, more, out) := scan cursor out
    let page := out.take actual
    if more then page ++ pages scan (page.getLast?.getD cursor) buffers else page

def above (cursor : K) (l : List (K × V)) : List (K × V) := l.filter fun e => cursor < e.1

end

/-- The longest run of visible entries at the front, cut to the room there is. -/
def shown (visible : V → Bool) (room : Nat) (l : List (K × V)) : List K :=
  ((l.takeWhile fun e => visible e.2).take room).map Prod.fst

def scanEntries (visible : V → Bool) : List (K × V) → List K × List K → Bool × List K × List K
  | [], s => (false, s)
  | _ :: _, (written, []) => (true, written, [])
  | e :: l, (written, old :: spare) =>
    if visible e.2 then scanEntries visible l (written ++ [e.1], spare) else (true, written, old :: spare)

theorem scanEntries_eq (visible : V → Bool) (l : List (K × V)) (written spare keys : List K)
    (run : keys = shown visible spare.length l) : scanEntries visible l (written, spare) =
      (decide (keys.length < l.length), written ++ keys, spare.drop keys.length) := by
  subst run
  induction l generalizing written spare with
  | nil => simp [scanEntries, shown]
  | cons e l ih =>
    cases spare with
    | nil => simp [scanEntries, shown]
    | cons old spare =>
      cases seen : visible e.2 with
      | false => simp [scanEntries, shown, seen]
      | true => simpa [scanEntries, shown, seen] using ih (written ++ [e.1]) spare

section
variable (visible : V → Bool) (room : Nat) (l : List (K × V))

theorem shown_length : (shown visible room l).length ≤ room := by
  rw [shown, length_map]
  exact length_take_le _ _

theorem shown_front : shown visible room l <+: l.map Prod.fst := (( take_prefix _ _).trans ( takeWhile_prefix _)).map _

theorem shown_append (more : Nat) : shown visible room l ++ shown visible more (l.drop (shown visible room l).length) =
    shown visible ((shown visible room l).length + more) l := by
  induction l generalizing room with
  | nil => simp [shown]
  | cons e l ih =>
    cases seen : visible e.2 with
    | false => simp [shown, seen]
    | true =>
      cases room with
      | zero => simp [shown]
      | succ room => simpa [shown, seen, Nat.add_right_comm] using ih room

variable {visible l}

theorem shown_all (all : ∀ e ∈ l, visible e.2 = true) : shown visible room l = (l.take room).map Prod.fst := by
  have whole : (l ++ []).takeWhile (fun e => visible e.2) = l ++ [] := takeWhile_append_of_pos all
  rw [append_nil] at whole
  rw [shown, whole]

end

variable [LinearOrder K] {visible : V → Bool} {cursor : K} {l : List (K × V)} {limit : Nat} {table : OrderedTable K V}
  {m : SortedMap K V}

theorem scan_continued (visible : V → Bool) (cursor : K) {t : Link K V} (sorted : Sorted (entries t))
    (s : List K × List K) (rest : List (K × V)) : (if (scan visible cursor t s).1 then scan visible cursor t s
      else scanEntries visible rest (scan visible cursor t s).2) =
        scanEntries visible (above cursor (entries t) ++ rest) s := by
  induction t generalizing s rest with
  | nil => rfl
  | node key value h left right ihLeft ihRight =>
    obtain ⟨sortedLeft, sortedRight, below, _⟩ := Sorted.split sorted
    rw [scan, entries, above, filter_append, filter_cons, ← above, ← above]
    split
    · rename_i behind
      have none_ : above cursor (entries left) = [] :=
        filter_eq_nil_iff.mpr fun e inside => by simpa using ((below e inside).trans_le behind).le
      rw [ihRight sortedRight, none_, if_neg (by simpa using behind), nil_append]
    · rename_i ahead
      have here : decide (cursor < (key, value).1) = true := by simpa using ahead
      rw [if_pos here, append_assoc, ← ihLeft sortedLeft, cons_append]
      obtain ⟨stopped, written, spare⟩ := scan visible cursor left s
      cases stopped with
      | true => rfl
      | false =>
        cases spare with
        | nil => rfl
        | cons old spare =>
          cases seen : visible value with
          | false => simp [scanEntries, seen]
          | true => simpa [scanEntries, seen] using ihRight sortedRight (written ++ [key], spare) rest

theorem Represents.scans (represents : Represents limit table m) (visible : V → Bool) (cursor : K) (out keys : List K)
    (run : keys = shown visible out.length (above cursor m.entries)) : table.scanVisible visible cursor out =
      (keys.length, decide (keys.length < (above cursor m.entries).length), keys ++ out.drop keys.length) := by
  have read := scan_continued visible cursor represents.sorted ([], out) []
  rw [represents.entries, append_nil, scanEntries_eq visible _ [] out keys run, nil_append] at read
  have whole : ∀ found : Bool × List K × List K, (if found.1 then found else scanEntries visible [] found.2) = found := by
    rintro ⟨_ | _, _⟩ <;> rfl
  rw [whole] at read
  rw [OrderedTable.scanVisible, read]

theorem above_last (sorted : Sorted l) {keys : List K} {last : K} (given : keys <+: (above cursor l).map Prod.fst)
    (ends : keys.getLast? = some last) : above last l = (above cursor l).drop keys.length := by
  obtain ⟨front, rfl⟩ := getLast?_eq_some_iff.mp ends
  obtain ⟨tail, whole⟩ := given
  rw [append_assoc, singleton_append] at whole
  obtain ⟨first, _, split, rfl, more⟩ := map_eq_append_iff.mp whole.symm
  obtain ⟨e, rest, rfl, rfl, -⟩ := map_eq_cons_iff.mp more
  have apart : Sorted (above cursor l) := sorted.filter _
  have live : e ∈ above cursor l := split ▸ mem_append_right _ mem_cons_self
  have ahead : cursor < e.1 := by simpa using (mem_filter.mp live).2
  rw [split] at apart
  obtain ⟨-, -, below, after⟩ := apart.split
  calc above e.1 l = above e.1 (above cursor l) := by
        rw [above, above, above, filter_filter]
        refine filter_congr fun other _ => ?_
        by_cases more : e.1 < other.1
        · simp [more, ahead.trans more]
        · simp [more]
    _ = rest := by
        rw [split, above, filter_append, filter_eq_nil_iff.mpr fun other inside => by simpa using (below other inside).le,
          filter_cons_of_neg (by simp), nil_append, filter_eq_self.mpr fun other inside => by simpa using after other inside]
    _ = (above cursor l).drop (first.map Prod.fst ++ [e.1]).length := by
        rw [split, length_append, length_map, length_singleton, ← drop_drop, drop_left, drop_one, tail_cons]

/-- The pages together are a first part of the visible run; when all is visible, a page for each key is enough. -/
theorem pages_eq (sorted : Sorted l) {scan : K → List K → Nat × Bool × List K}
    (scans : ∀ cursor out keys, keys = shown visible out.length (above cursor l) → scan cursor out =
      (keys.length, decide (keys.length < (above cursor l).length), keys ++ out.drop keys.length))
    (cursor : K) (buffers : List (List K)) :
    ∃ room, pages scan cursor buffers = shown visible room (above cursor l) ∧
      ((∀ out ∈ buffers, out ≠ []) → (∀ e ∈ above cursor l, visible e.2 = true) →
        min buffers.length (above cursor l).length ≤ room) := by
  induction buffers generalizing cursor with
  | nil => exact ⟨0, rfl, fun _ _ => Nat.min_le_left _ _⟩
  | cons out buffers ih =>
    have short := shown_length visible out.length (above cursor l)
    rw [pages, scans cursor out _ rfl]
    dsimp only
    rw [take_left]
    split
    · cases ends : (shown visible out.length (above cursor l)).getLast? with
      | none =>
        have none_ := getLast?_eq_none_iff.mp ends
        obtain ⟨room, listed, -⟩ := ih cursor
        refine ⟨room, by rw [Option.getD_none, listed, none_, nil_append], fun spacious all => ?_⟩
        rw [shown_all _ all, map_eq_nil_iff, take_eq_nil_iff, length_eq_zero_iff] at none_
        rw [none_.resolve_left (spacious out mem_cons_self), length_nil, Nat.min_zero]
        exact Nat.zero_le _
      | some last =>
        obtain ⟨room, listed, enough⟩ := ih last
        rw [above_last sorted (shown_front _ _ _) ends] at listed enough
        refine ⟨_, by rw [Option.getD_some, listed, shown_append], fun spacious all => ?_⟩
        have enough := enough (fun out inside => spacious out (mem_cons_of_mem _ inside))
          fun e inside => all e (mem_of_mem_drop inside)
        have some_ := length_pos_of_mem (mem_of_getLast? ends)
        rw [length_drop] at enough
        rw [length_cons]
        omega
    · rename_i whole
      rw [decide_eq_true_iff] at whole
      exact ⟨out.length, rfl, fun _ _ => by omega⟩

theorem above_ascending (cursor : K) (sorted : Sorted l) : ((above cursor l).map Prod.fst).Pairwise (· < ·) :=
  pairwise_map.mpr (sorted.filter _)

theorem shown_ascending (sorted : Sorted l) (room : Nat) : (shown visible room (above cursor l)).Pairwise (· < ·) :=
  (above_ascending cursor sorted).sublist (shown_front visible room _).sublist

theorem shown_sound (sorted : Sorted l) {room : Nat} {key : K} (member : key ∈ shown visible room (above cursor l)) :
    cursor < key ∧ (∃ value, (key, value) ∈ l ∧ visible value = true) ∧
      ∀ e ∈ l, cursor < e.1 → visible e.2 = false → key < e.1 := by
  obtain ⟨⟨_, value⟩, inside, rfl⟩ := mem_map.mp member
  have inside := mem_of_mem_take inside
  have seen := all_eq_true.mp (all_takeWhile (p := fun e : K × V => visible e.2) (l := above cursor l))
  have apart : Sorted (above cursor l) := sorted.filter _
  obtain ⟨live, ahead⟩ := mem_filter.mp (( takeWhile_prefix _).subset inside)
  refine ⟨by simpa using ahead, ⟨value, live, seen _ inside⟩, fun e there more hidden => ?_⟩
  have there : e ∈ above cursor l := mem_filter.mpr ⟨there, by simpa using more⟩
  rw [← takeWhile_append_dropWhile (p := fun e : K × V => visible e.2) (l := above cursor l)] at apart there
  rcases mem_append.mp there with there | there
  · rw [seen e there] at hidden
    cases hidden
  · exact (pairwise_append.mp apart).2.2 _ inside _ there

theorem Represents.scan_more (represents : Represents limit table m) (visible : V → Bool) (cursor : K)
    (out keys : List K) (run : keys = shown visible out.length (above cursor m.entries)) :
    ∃ more, table.scanVisible visible cursor out = (keys.length, more, keys ++ out.drop keys.length) ∧
      keys.Pairwise (· < ·) ∧ (more = true ↔ ∃ e ∈ m.entries, cursor < e.1 ∧ e.1 ∉ keys) := by
  refine ⟨_, represents.scans visible cursor out keys run, run ▸ shown_ascending m.sorted _, ?_⟩
  obtain ⟨tail, whole⟩ : keys <+: (above cursor m.entries).map Prod.fst := run ▸ shown_front _ _ _
  have apart := above_ascending cursor m.sorted
  have size := congrArg length whole
  rw [length_append, length_map] at size
  rw [← whole, pairwise_append] at apart
  rw [decide_eq_true_iff]
  constructor
  · intro less
    obtain ⟨key, last⟩ := exists_mem_of_length_pos (l := tail) (by omega)
    obtain ⟨e, inside, rfl⟩ := mem_map.mp (whole ▸ mem_append_right keys last)
    obtain ⟨live, ahead⟩ := mem_filter.mp inside
    exact ⟨e, live, by simpa using ahead, fun given => lt_irrefl _ (apart.2.2 _ given _ last)⟩
  · rintro ⟨e, live, ahead, missing⟩
    have inside : e.1 ∈ keys ++ tail := whole ▸ mem_map_of_mem (mem_filter.mpr ⟨live, by simpa using ahead⟩)
    have := length_pos_of_mem ((mem_append.mp inside).resolve_left missing)
    omega

theorem Represents.lists_all (represents : Represents limit table m)
    (all : ∀ e ∈ m.entries, cursor < e.1 → visible e.2 = true) (buffers : List (List K))
    (spacious : ∀ out ∈ buffers, out ≠ []) (enough : m.size ≤ buffers.length) :
    (pages (table.scanVisible visible) cursor buffers).Nodup ∧ ∀ key,
      key ∈ pages (table.scanVisible visible) cursor buffers ↔ cursor < key ∧ ∃ value, (key, value) ∈ m.entries := by
  obtain ⟨room, listed, complete⟩ := pages_eq m.sorted (represents.scans visible) cursor buffers
  have seen : ∀ e ∈ above cursor m.entries, visible e.2 = true := fun e inside =>
    all e (mem_filter.mp inside).1 (by simpa using (mem_filter.mp inside).2)
  have fewer : (above cursor m.entries).length ≤ m.size := length_filter_le _ _
  have complete := complete spacious seen
  rw [listed]
  refine ⟨(shown_ascending m.sorted _).imp fun less => less.ne, fun key => ?_⟩
  rw [shown_all _ seen, take_of_length_le (by omega)]
  simp [above, and_comm]

end Halcyon.Ordered
