import Halcyon.Base.Lists

/-!
Finite maps as lists of entries in strictly increasing order of their keys. The operations are given on plain lists of
entries; on sorted ones they are those of a map, and they keep the order.
-/

namespace Halcyon

open List

namespace Entries

variable {K V : Type} [LinearOrder K]

def find (key : K) (l : List (K × V)) : Option V := (l.find? fun e => e.1 = key).map Prod.snd

def insert (key : K) (value : V) (l : List (K × V)) : List (K × V) :=
  l.filter (fun e => e.1 < key) ++ (key, value) :: l.filter fun e => key < e.1

def erase (key : K) (l : List (K × V)) : List (K × V) := l.filter fun e => e.1 ≠ key

def write (key : K) (value : V) (l : List (K × V)) : List (K × V) :=
  l.map fun e => if e.1 = key then (e.1, value) else e

/-- The first entry behind a key, or the first of all. -/
def after : Option K → List (K × V) → Option (K × V)
  | none, l => l.head?
  | some cursor, l => l.find? fun e => cursor < e.1

def Sorted (l : List (K × V)) : Prop := l.Pairwise fun a b => a.1 < b.1

variable {key : K} {value : V} {l r : List (K × V)} {entry : K × V}

theorem Sorted.split (sorted : Sorted (l ++ entry :: r)) :
    Sorted l ∧ Sorted r ∧ (∀ e ∈ l, e.1 < entry.1) ∧ (∀ e ∈ r, entry.1 < e.1) := by
  obtain ⟨left, right, apart⟩ := pairwise_append.mp sorted
  obtain ⟨above, right⟩ := pairwise_cons.mp right
  exact ⟨left, right, fun e inside => apart e inside entry mem_cons_self, above⟩

theorem Sorted.join (left : Sorted l) (right : Sorted r) (below : ∀ e ∈ l, e.1 < entry.1)
    (above : ∀ e ∈ r, entry.1 < e.1) : Sorted (l ++ entry :: r) := by
  refine pairwise_append.mpr ⟨left, pairwise_cons.mpr ⟨above, right⟩, ?_⟩
  intro a inside b there
  rcases mem_cons.mp there with rfl | there
  · exact below a inside
  · exact (below a inside).trans (above b there)

theorem find_append_left (absent : ∀ e ∈ r, e.1 ≠ key) : find key (l ++ r) = find key l := by
  have none_ : (r.find? fun e => e.1 = key) = none := find?_eq_none.mpr fun e inside => by simpa using absent e inside
  rw [find, find?_append, none_, Option.or_none, find]

theorem find_append_right (absent : ∀ e ∈ l, e.1 ≠ key) : find key (l ++ r) = find key r := by
  have none_ : (l.find? fun e => e.1 = key) = none := find?_eq_none.mpr fun e inside => by simpa using absent e inside
  rw [find, find?_append, none_, Option.none_or, find]

theorem find_none (absent : ∀ e ∈ l, e.1 ≠ key) : find key l = none := by
  have whole := find_append_left (l := []) absent
  rwa [nil_append] at whole

theorem find_none_iff : find key l = none ↔ ∀ e ∈ l, e.1 ≠ key := by
  refine ⟨fun none_ e inside same => ?_, find_none⟩
  rw [find, Option.map_eq_none_iff, find?_eq_none] at none_
  exact none_ e inside (by simpa using same)

theorem find_cons_self : find key ((key, value) :: r) = some value := by simp [find]

theorem find_filter {p : K × V → Bool} (kept : ∀ e ∈ l, e.1 = key → p e = true) :
    find key (l.filter p) = find key l := by
  induction l with
  | nil => rfl
  | cons e l ih =>
    have rest := ih fun e inside => kept e (mem_cons_of_mem _ inside)
    by_cases same : e.1 = key
    · rw [filter_cons_of_pos (kept e mem_cons_self same)]
      simp [find, same]
    · rw [find, find] at rest
      by_cases here : p e = true
      · simpa [find, filter_cons_of_pos here, same] using rest
      · simpa [find, filter_cons_of_neg here, same] using rest

theorem insert_append_left (above : ∀ e ∈ r, key < e.1) : insert key value (l ++ r) = insert key value l ++ r := by
  have none_ : (r.filter fun e => e.1 < key) = [] :=
    filter_eq_nil_iff.mpr fun e inside => by simpa using (above e inside).le
  have all : (r.filter fun e => key < e.1) = r := filter_eq_self.mpr fun e inside => by simpa using above e inside
  simp only [insert, filter_append, none_, all, append_nil, append_assoc, cons_append]

theorem insert_append_right (below : ∀ e ∈ l, e.1 < key) : insert key value (l ++ r) = l ++ insert key value r := by
  have none_ : (l.filter fun e => key < e.1) = [] :=
    filter_eq_nil_iff.mpr fun e inside => by simpa using (below e inside).le
  have all : (l.filter fun e => e.1 < key) = l := filter_eq_self.mpr fun e inside => by simpa using below e inside
  simp only [insert, filter_append, none_, all, nil_append, append_assoc]

theorem erase_append : erase key (l ++ r) = erase key l ++ erase key r := filter_append _ _

theorem erase_absent (absent : ∀ e ∈ l, e.1 ≠ key) : erase key l = l :=
  filter_eq_self.mpr fun e inside => by simpa using absent e inside

theorem write_append : write key value (l ++ r) = write key value l ++ write key value r := map_append

theorem write_absent (absent : ∀ e ∈ l, e.1 ≠ key) : write key value l = l := by
  refine (map_congr_left fun e inside => ?_).trans (map_id _)
  rw [if_neg (absent e inside)]
  rfl

theorem Sorted.insert (sorted : Sorted l) : Sorted (insert key value l) := by
  refine Sorted.join (sorted.filter _) (sorted.filter _) (fun e inside => ?_) fun e inside => ?_
  · simpa using (mem_filter.mp inside).2
  · simpa using (mem_filter.mp inside).2

theorem Sorted.erase (sorted : Sorted l) : Sorted (erase key l) := sorted.filter _

theorem Sorted.write (sorted : Sorted l) : Sorted (write key value l) := by
  refine pairwise_map.mpr (List.Pairwise.imp (fun {a b} less => ?_) sorted)
  have keys : ∀ e : K × V, (if e.1 = key then (e.1, value) else e).1 = e.1 := by
    intro e
    split <;> rfl
  rw [keys, keys]
  exact less

theorem find_insert_self : find key (insert key value l) = some value := by
  rw [insert, find_append_right, find_cons_self]
  intro e inside same
  have less : e.1 < key := by simpa using (mem_filter.mp inside).2
  exact absurd same less.ne

theorem find_insert_of_ne {other : K} (ne : other ≠ key) : find other (insert key value l) = find other l := by
  rw [insert]
  rcases lt_or_gt_of_ne ne with less | more
  · rw [find_append_left, find_filter]
    · intro e _ same
      simpa [same] using less
    · intro e inside same
      rcases mem_cons.mp inside with rfl | inside
      · exact ne same.symm
      · have above : key < e.1 := by simpa using (mem_filter.mp inside).2
        exact absurd (same ▸ above) less.not_gt
  · rw [find_append_right, ← singleton_append, find_append_right, find_filter]
    · intro e _ same
      simpa [same] using more
    · intro e inside same
      rw [mem_singleton.mp inside] at same
      exact ne same.symm
    · intro e inside same
      have below : e.1 < key := by simpa using (mem_filter.mp inside).2
      exact absurd (same ▸ below) more.not_gt

theorem find_erase_self : find key (erase key l) = none :=
  find_none fun e inside => by simpa using (mem_filter.mp inside).2

theorem find_erase_of_ne {other : K} (ne : other ≠ key) : find other (erase key l) = find other l := by
  refine find_filter fun e _ same => ?_
  simpa [same] using ne

theorem length_insert (absent : ∀ e ∈ l, e.1 ≠ key) : (insert key value l).length = l.length + 1 := by
  have others : (l.filter fun e => key < e.1) = l.filter fun e => !decide (e.1 < key) := by
    refine filter_congr fun e inside => ?_
    have either := lt_or_gt_of_ne (absent e inside)
    by_cases less : e.1 < key
    · simp [less, less.le]
    · simp [less, either.resolve_left less]
  rw [insert, length_append, length_cons, others, ← Nat.add_assoc]
  exact congrArg (· + 1) (length_eq_length_filter_add _).symm

theorem length_erase (sorted : Sorted l) (found : find key l = some value) : (erase key l).length + 1 = l.length := by
  induction l with
  | nil => cases found
  | cons e l ih =>
    obtain ⟨above, rest⟩ := pairwise_cons.mp sorted
    by_cases same : e.1 = key
    · have gone : erase key (e :: l) = erase key l := filter_cons_of_neg (by simpa using same)
      rw [gone, erase_absent fun other inside => same ▸ (above other inside).ne', length_cons]
    · have kept : erase key (e :: l) = e :: erase key l := filter_cons_of_pos (by simpa using same)
      have found' : find key l = some value := by
        rw [← found]
        exact (find_append_right (l := [e]) (forall_mem_singleton.mpr same)).symm
      rw [kept, length_cons, ih rest found', length_cons]

end Entries

/-- A finite map; its entries are always in order. -/
structure SortedMap (K V : Type) [LinearOrder K] where
  entries : List (K × V)
  sorted : Entries.Sorted entries

namespace SortedMap

variable {K V : Type} [LinearOrder K] (m : SortedMap K V)

def empty : SortedMap K V := ⟨[], .nil⟩

def size : Nat := m.entries.length

def find (key : K) : Option V := Entries.find key m.entries

def insert (key : K) (value : V) : SortedMap K V := ⟨Entries.insert key value m.entries, m.sorted.insert⟩

def erase (key : K) : SortedMap K V := ⟨Entries.erase key m.entries, m.sorted.erase⟩

def write (key : K) (value : V) : SortedMap K V := ⟨Entries.write key value m.entries, m.sorted.write⟩

def after (cursor : Option K) : Option (K × V) := Entries.after cursor m.entries

def rest : SortedMap K V := ⟨m.entries.tail, m.sorted.tail⟩

theorem rest_entries : m.rest.entries = m.entries.tail := rfl

variable {m} {key other : K} {value : V}

theorem find_insert : (m.insert key value).find other = if other = key then some value else m.find other := by
  split
  · rename_i same
    rw [same]
    exact Entries.find_insert_self
  · rename_i ne
    exact Entries.find_insert_of_ne ne

theorem find_erase : (m.erase key).find other = if other = key then none else m.find other := by
  split
  · rename_i same
    rw [same]
    exact Entries.find_erase_self
  · rename_i ne
    exact Entries.find_erase_of_ne ne

theorem mem_find_ne_none {entry : K × V} (inside : entry ∈ m.entries) : m.find entry.1 ≠ none :=
  fun none_ => Entries.find_none_iff.mp none_ entry inside rfl

theorem size_eq_zero_iff : m.size = 0 ↔ ∀ key, m.find key = none := by
  rw [size, length_eq_zero_iff]
  constructor
  · intro empty key
    rw [find, empty]
    rfl
  · intro none_
    refine eq_nil_iff_forall_not_mem.mpr fun entry inside => ?_
    exact mem_find_ne_none inside (none_ entry.1)

end SortedMap

end Halcyon
