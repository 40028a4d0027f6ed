import Halcyon.Elf.Admission
import Halcyon.Elf.Sections

/-! Loading an image does not panic: every index, sum and division is behind a check. -/

namespace Halcyon.Elf

open List

section

theorem calm_byteAt {ε : Type} {bytes : Bytes} {index : Nat} (inside : index < bytes.length) :
    Calm (byteAt bytes index : Outcome ε UInt8) := by
  rw [byteAt, getElem?_eq_getElem inside]
  exact avoids_ok _

variable {buf : Bytes} {limits : LoadLimits} {header : Header} {scan : Scan} {p : ProgramHeader}

theorem identify_calm (buf : Bytes) : Ends (fun e => e.length = 64) Stop.IsPanic (identify buf) := by
  refine Ends.bind (calm_refuseIf _ _) fun _ passed => ?_
  have long : 64 ≤ buf.length := by simpa using refuseIf_ok passed
  refine Ends.bind (calm_slice (Nat.zero_le _) long) fun e read => ?_
  have length : e.length = 64 := slice_length read
  refine Ends.bind (calm_slice (Nat.zero_le _) (by omega)) fun _ _ => Ends.bind (calm_refuseIf _ _) fun _ _ => ?_
  refine Ends.bind (calm_byteAt (by omega)) fun _ _ => Ends.bind (calm_refuseIf _ _) fun _ _ => ?_
  refine Ends.bind (calm_byteAt (by omega)) fun _ _ => Ends.bind (calm_refuseIf _ _) fun _ _ => ?_
  refine Ends.bind (calm_byteAt (by omega)) fun _ _ => Ends.bind (calm_littleAt (by omega)) fun _ _ => ?_
  refine Ends.bind (calm_refuseIf _ _) fun _ _ => Ends.bind (calm_byteAt (by omega)) fun _ _ => ?_
  refine Ends.bind (calm_byteAt (by omega)) fun _ _ => Ends.bind (calm_refuseIf _ _) fun _ _ => ?_
  refine Ends.bind (calm_littleAt (by omega)) fun _ _ => Ends.bind (calm_refuseIf _ _) fun _ _ => ?_
  refine Ends.bind (calm_littleAt (by omega)) fun _ _ => Ends.bind (calm_refuseIf _ _) fun _ _ => ?_
  refine Ends.bind (calm_littleAt (by omega)) fun _ _ => Ends.bind (calm_refuseIf _ _) fun _ _ => ?_
  refine ⟨fun a returned => ?_, avoids_ok _⟩
  rw [pure_ok returned]
  exact length

def Header.Inside (buf : Bytes) (header : Header) : Prop :=
  header.phoff + header.phnum * phentsize ≤ buf.length ∧ header.phnum ≤ maxProgramHeaders

theorem readHeader_calm (buf : Bytes) : Ends (Header.Inside buf) Stop.IsPanic (readHeader buf) := by
  refine Ends.bind (identify_calm buf).2 fun e identified => ?_
  have length := (identify_calm buf).1 e identified
  refine Ends.bind (calm_littleAt (by omega)) fun entry _ => Ends.bind (calm_littleAt (by omega)) fun phoff _ => ?_
  refine Ends.bind (calm_littleAt (by omega)) fun entsize _ => Ends.bind (calm_littleAt (by omega)) fun phnum _ => ?_
  refine Ends.bind (calm_refuseIf _ _) fun _ sized => Ends.bind (calm_refuseIf _ _) fun _ few => ?_
  refine Ends.bind (calm_okOr _ _) fun tableBytes product => Ends.bind (calm_okOr _ _) fun tableEnd sum => ?_
  refine Ends.bind (calm_refuseIf _ _) fun _ inside => ⟨fun header returned => ?_, avoids_ok _⟩
  cases pure_ok returned
  obtain ⟨rfl, -⟩ := checkedMul_some (okOr_ok product)
  obtain ⟨rfl, -⟩ := checkedAdd_some (okOr_ok sum)
  have sizes : entsize = phentsize ∧ phnum ≠ 0 := by simpa using refuseIf_ok sized
  have most : phnum ≤ maxProgramHeaders := by simpa using refuseIf_ok few
  have ends : phoff + phnum * entsize ≤ buf.length := by simpa using refuseIf_ok inside
  rw [sizes.1] at ends
  exact ⟨ends, most⟩

theorem readProgramHeader_calm {index : Nat} (small : buf.length ≤ isizeMax) (inside : header.Inside buf)
    (less : index < header.phnum) : Calm (readProgramHeader buf header.phoff index) := by
  have entry : header.phoff + index * phentsize + phentsize ≤ buf.length := by
    have product : (index + 1) * phentsize ≤ header.phnum * phentsize := Nat.mul_le_mul_right _ less
    rw [Nat.add_mul, Nat.one_mul] at product
    have bound := inside.1
    omega
  have word : buf.length ≤ usizeMax := Nat.le_trans small (by decide)
  rw [phentsize] at entry
  refine Avoids.bind (calm_returns (multiply_returns (by rw [phentsize]; omega))) fun offset product => ?_
  rw [multiply_ok product, phentsize]
  refine Avoids.bind (calm_returns (add_returns (by omega))) fun start sum => ?_
  rw [add_ok sum]
  refine (calm_slice (by omega) (Nat.le_refl _)).bind fun table rest => ?_
  have length := slice_length rest
  refine (calm_slice (Nat.zero_le _) (by omega)).bind fun p read => ?_
  have size : p.length = 56 := slice_length read
  refine (calm_littleAt (by omega)).bind fun _ _ => (calm_littleAt (by omega)).bind fun _ _ => ?_
  refine (calm_littleAt (by omega)).bind fun _ _ => (calm_littleAt (by omega)).bind fun _ _ => ?_
  refine (calm_littleAt (by omega)).bind fun _ _ => (calm_littleAt (by omega)).bind fun _ _ => ?_
  exact (calm_littleAt (by omega)).bind fun _ _ => avoids_ok _

/-- The sums that later steps make of what the scan has kept do not overflow. -/
structure Scan.Bounded (buf : Bytes) (scan : Scan) : Prop where
  segments : ∀ segment ∈ scan.segments, segment.vaddr + segment.memsz ≤ usizeMax
  table : ∀ table, scan.phdr = some table → table.2.1 + table.2.2 ≤ buf.length

theorem ends_same {good : Scan → Prop} (holds : good scan) : Ends good Stop.IsPanic (pure scan : Outcome ElfError Scan) := by
  refine ⟨fun a returned => ?_, avoids_ok _⟩
  rw [pure_ok returned]
  exact holds

theorem validateFileSegment_calm (buf : Bytes) (offset filesz : Nat) : Calm (validateFileSegment buf offset filesz) :=
  (calm_okOr _ _).bind fun _ _ => calm_refuseIf _ _

theorem validateFileSegment_ok {offset filesz : Nat} {done : Unit} (h : validateFileSegment buf offset filesz = .ok done) :
    offset + filesz ≤ buf.length := by
  obtain ⟨_, sum, inside⟩ := bind_ok h
  obtain ⟨rfl, -⟩ := checkedAdd_some (okOr_ok sum)
  simpa using refuseIf_ok inside

theorem loadSegment_calm (bounded : scan.Bounded buf) (pages : limits.pageSize ≠ 0) :
    Ends (Scan.Bounded buf) Stop.IsPanic (loadSegment buf limits scan p) := by
  refine Ends.bind (calm_refuseIf _ _) fun _ _ => Ends.bind (calm_refuseIf _ _) fun _ _ => ?_
  refine Ends.bind (calm_okOr _ _) fun _ _ => Ends.bind (calm_refuseIf _ _) fun _ _ => ?_
  refine Ends.bind (calm_okOr _ _) fun stop sum => ?_
  refine Ends.bind (calm_returns (remainder_returns pages)) fun _ _ => ?_
  refine Ends.bind (calm_returns (remainder_returns pages)) fun _ _ => ?_
  refine Ends.bind (calm_refuseIf _ _) fun _ _ => Ends.bind (calm_refuseIf _ _) fun _ _ => ?_
  refine Ends.bind (calm_refuseIf _ _) fun _ _ => ends_same ⟨?_, bounded.table⟩
  exact forall_mem_concat bounded.segments (checkedAdd_some (okOr_ok sum)).2

theorem tableSegment_calm (bounded : scan.Bounded buf) (inside : header.Inside buf) :
    Ends (Scan.Bounded buf) Stop.IsPanic (tableSegment buf header scan p) := by
  have product : header.phnum * phentsize ≤ usizeMax := by
    have most := inside.2
    rw [maxProgramHeaders] at most
    rw [phentsize, usizeMax]
    omega
  refine Ends.bind (calm_returns (multiply_returns product)) fun _ _ => Ends.bind (calm_refuseIf _ _) fun _ _ => ?_
  refine Ends.bind (validateFileSegment_calm _ _ _) fun _ passed => ends_same ⟨bounded.segments, fun table is => ?_⟩
  cases is
  exact validateFileSegment_ok passed

theorem segmentByKind_calm (bounded : scan.Bounded buf) (inside : header.Inside buf) (pages : limits.pageSize ≠ 0) :
    Ends (Scan.Bounded buf) Stop.IsPanic (segmentByKind buf limits header scan p) := by
  unfold segmentByKind
  split
  · exact loadSegment_calm bounded pages
  split
  · exact Ends.bind (validateFileSegment_calm _ _ _) fun _ _ => ends_same bounded
  split
  · exact tableSegment_calm bounded inside
  split
  · exact Ends.bind (calm_refuseIf _ _) fun _ _ => ends_same bounded
  split
  · exact Ends.bind (calm_refuseIf _ _) fun _ _ => Ends.bind (validateFileSegment_calm _ _ _) fun _ _ => ends_same bounded
  · exact ⟨fun _ h => (fail_ne_ok h).elim, calm_fail _⟩

theorem scanHeader_calm {index : Nat} (small : buf.length ≤ isizeMax) (inside : header.Inside buf)
    (pages : limits.pageSize ≠ 0) (less : index < header.phnum) (bounded : scan.Bounded buf) :
    Ends (Scan.Bounded buf) Stop.IsPanic (scanHeader buf limits header index scan) := by
  refine Ends.bind (readProgramHeader_calm small inside less) fun p _ => ?_
  split
  · exact ends_same bounded
  · refine Ends.bind (calm_refuseIf _ _) fun _ _ => Ends.bind (calm_refuseIf _ _) fun _ _ => ?_
    exact segmentByKind_calm bounded inside pages

theorem scan_calm (small : buf.length ≤ isizeMax) (inside : header.Inside buf) (pages : limits.pageSize ≠ 0) :
    Ends (Scan.Bounded buf) Stop.IsPanic (forRange header.phnum (scanHeader buf limits header)
      { segments := [], previousEnd := none, seenLoad := false, phdr := none }) := by
  refine ends_foldlM ⟨fun _ member => absurd member not_mem_nil, nofun⟩ fun index member scan bounded => ?_
  exact scanHeader_calm small inside pages (mem_range.mp member) bounded

theorem coversTable_calm {table : Nat × Nat × Nat} {segment : LoadSegment} (fits : table.2.1 + table.2.2 ≤ usizeMax) :
    Calm (coversTable table segment) := by
  unfold coversTable
  split
  · rename_i before
    split
    · exact avoids_ok _
    · refine Avoids.bind (calm_returns (add_returns fits)) fun stop _ => ?_
      split
      · exact Avoids.bind (calm_returns (subtract_returns before)) fun _ _ => avoids_ok _
      · exact avoids_ok _
  · exact avoids_ok _

theorem anyM_calm {α : Type} {f : α → Outcome ElfError Bool} {xs : List α} (each : ∀ x ∈ xs, Calm (f x)) :
    Calm (xs.anyM f) := by
  induction xs with
  | nil => exact avoids_ok false
  | cons x _ ih =>
    rw [anyM_cons]
    refine (each x mem_cons_self).bind fun found _ => ?_
    cases found with
    | true => exact avoids_ok true
    | false => exact ih fun y member => each y (mem_cons_of_mem _ member)

theorem tableCovered_calm (small : buf.length ≤ isizeMax) (bounded : scan.Bounded buf) : Calm (tableCovered scan) := by
  unfold tableCovered
  split
  · exact avoids_ok true
  · rename_i table is
    have word : buf.length ≤ usizeMax := Nat.le_trans small (by decide)
    exact anyM_calm fun _ _ => coversTable_calm (Nat.le_trans (bounded.table table is) word)

section Runs

variable {segments : List LoadSegment} {segment : LoadSegment} {pageSize : Nat} {runs : List LoadRun} {run : LoadRun}

theorem alignUp_calm {value : Nat} (pages : pageSize ≠ 0) :
    Ends (fun raised => raised ≤ usizeMax) Stop.IsPanic (alignUp value pageSize) := by
  refine Ends.bind (calm_returns (subtract_returns (Nat.pos_of_ne_zero pages))) fun last _ => ?_
  refine Ends.bind (calm_okOr _ _) fun raised sum => ?_
  refine Ends.bind (calm_returns (divide_returns pages)) fun quotient divided => ?_
  have bound : raised / pageSize * pageSize ≤ usizeMax := by
    obtain ⟨rfl, le⟩ := checkedAdd_some (okOr_ok sum)
    exact Nat.le_trans (Nat.div_mul_le_self _ _) le
  rw [divide_ok divided]
  refine ⟨fun product returned => ?_, calm_returns (multiply_returns bound)⟩
  rw [multiply_ok returned]
  exact bound

theorem pageSpan_calm (pages : pageSize ≠ 0) (fits : segment.vaddr + segment.memsz ≤ usizeMax) :
    Ends (fun span => span.1 ≤ usizeMax ∧ span.2 ≤ usizeMax) Stop.IsPanic (pageSpan pageSize segment) := by
  have below : segment.vaddr / pageSize * pageSize ≤ usizeMax :=
    Nat.le_trans (Nat.div_mul_le_self _ _) (Nat.le_trans (Nat.le_add_right _ _) fits)
  refine Ends.bind (calm_returns (divide_returns pages)) fun quotient divided => ?_
  rw [divide_ok divided]
  refine Ends.bind (calm_returns (multiply_returns below)) fun start product => ?_
  refine Ends.bind (calm_okOr _ _) fun stop _ => ?_
  refine Ends.bind (alignUp_calm pages).2 fun raised aligned => ⟨fun span returned => ?_, avoids_ok _⟩
  rw [pure_ok returned, multiply_ok product]
  exact ⟨below, (alignUp_calm pages).1 raised aligned⟩

theorem windowFlags_calm {start stop : Nat} (pages : pageSize ≠ 0)
    (fits : ∀ segment ∈ segments, segment.vaddr + segment.memsz ≤ usizeMax) :
    Calm (windowFlags pageSize start stop segments) := by
  refine (ends_foldlM (I := fun _ => True) trivial fun segment member flags _ => ?_).2
  refine Ends.bind (pageSpan_calm pages (fits segment member)).2 fun span _ => ?_
  exact ⟨fun _ _ => trivial, avoids_ok _⟩

def RunsEnd (runs : List LoadRun) : Prop := ∀ run ∈ runs, run.vaddr + run.memsz ≤ usizeMax

theorem RunsEnd.append (ended : RunsEnd runs) (isNew : run.vaddr + run.memsz ≤ usizeMax) : RunsEnd (runs ++ [run]) := by
  exact forall_mem_concat ended isNew

theorem extendRuns_calm (ended : RunsEnd runs) (isNew : run.vaddr + run.memsz ≤ usizeMax) :
    Ends RunsEnd Stop.IsPanic (extendRuns runs run) := by
  have pushed := ended.append isNew
  unfold extendRuns
  split
  · refine ⟨fun after returned => ?_, avoids_ok _⟩
    cases returned
    exact pushed
  rename_i previous last
  have inside := ended previous (mem_of_getLast? last)
  refine Ends.bind (calm_returns (add_returns inside)) fun stop sum => ?_
  rw [add_ok sum]
  split
  · rename_i same
    have grown : previous.vaddr + (previous.memsz + run.memsz) ≤ usizeMax := by
      rw [← Nat.add_assoc, same.1]
      exact isNew
    refine Ends.bind (calm_returns (add_returns (by omega))) fun memsz total => ⟨fun after returned => ?_, avoids_ok _⟩
    rw [pure_ok returned, add_ok total]
    have kept : RunsEnd runs.dropLast := fun other member => ended other (dropLast_subset runs member)
    exact kept.append grown
  · refine ⟨fun after returned => ?_, avoids_ok _⟩
    rw [pure_ok returned]
    exact pushed

theorem addRun_calm {window : Nat × Nat} (pages : pageSize ≠ 0)
    (fits : ∀ segment ∈ segments, segment.vaddr + segment.memsz ≤ usizeMax) (ordered : window.1 ≤ window.2)
    (inside : window.2 ≤ usizeMax) (ended : RunsEnd runs) :
    Ends RunsEnd Stop.IsPanic (addRun segments pageSize runs window) := by
  refine Ends.bind (windowFlags_calm pages fits) fun flags _ => ?_
  split
  · refine ⟨fun after returned => ?_, avoids_ok _⟩
    cases returned
    exact ended
  refine Ends.bind (calm_refuseIf _ _) fun _ _ => ?_
  refine Ends.bind (calm_returns (subtract_returns ordered)) fun memsz difference => extendRuns_calm ended ?_
  have width := subtract_ok difference
  simp only
  omega

theorem windows_ordered {boundaries : List Nat} (sorted : boundaries.Pairwise (· ≤ ·)) :
    ∀ window ∈ boundaries.zip boundaries.tail, window.1 ≤ window.2 := by
  induction boundaries with
  | nil => nofun
  | cons _ rest ih =>
    cases rest with
    | nil => nofun
    | cons second =>
      rw [pairwise_cons] at sorted
      intro window member
      rw [tail_cons, zip_cons_cons, mem_cons] at member
      rcases member with rfl | later
      · exact sorted.1 second mem_cons_self
      · exact ih sorted.2 window later

theorem buildRuns_calm {grant : Reservation → Bool} (pages : pageSize ≠ 0)
    (fits : ∀ segment ∈ segments, segment.vaddr + segment.memsz ≤ usizeMax) : Calm (buildRuns grant segments pageSize) := by
  have spanned := ends_mapM fun segment member => pageSpan_calm pages (fits segment member)
  refine (calm_refuseIf _ _).bind fun _ _ => spanned.2.bind fun spans returned => ?_
  refine (calm_refuseIf _ _).bind fun _ _ => Avoids.bind ?_ fun _ _ => avoids_ok _
  have bounds : ∀ boundary ∈ sortByKey id (spans.flatMap fun span => [span.1, span.2]), boundary ≤ usizeMax := by
    intro boundary member
    obtain ⟨span, isSpan, isBoundary⟩ := mem_flatMap.mp ((sortByKey_perm _ _).mem_iff.mp member)
    have ends := spanned.1 spans returned span isSpan
    rcases mem_cons.mp isBoundary with rfl | isEnd
    · exact ends.1
    · rw [mem_singleton.mp isEnd]
      exact ends.2
  have sub := destutter_sublist (· ≠ ·) (sortByKey id (spans.flatMap fun span => [span.1, span.2]))
  have ordered := windows_ordered ((sortByKey_sorted id _).sublist sub)
  refine (ends_foldlM (I := RunsEnd) (fun _ member => absurd member not_mem_nil) fun window member runs ended => ?_).2
  refine addRun_calm pages fits (ordered window member) (bounds _ (sub.subset ?_)) ended
  exact mem_of_mem_tail (of_mem_zip member).2

end Runs

theorem loadImage_calm (grant : Reservation → Bool) (small : buf.length ≤ isizeMax) : Calm (loadImage grant buf limits) := by
  refine calm_check fun accepted => ?_
  have pages : limits.pageSize ≠ 0 := by
    intro zero
    rw [zero] at accepted
    simp [isPowerOfTwo] at accepted
  refine (readHeader_calm buf).2.bind fun header read => calm_check fun _ => ?_
  have scanned := @scan_calm buf limits header small ((readHeader_calm buf).1 header read) pages
  refine scanned.2.bind fun scan returned => calm_check fun _ => ?_
  have bounded := scanned.1 scan returned
  refine (tableCovered_calm small bounded).bind fun _ _ => calm_check fun _ => calm_check fun _ => ?_
  exact (buildRuns_calm pages bounded.segments).bind fun _ _ => avoids_ok _

end

/-!
Where the walk over an attributes section ends: at a file subsection, at an error, or at a subsection that
claims to be shorter than its own tag.
-/

section

/-- A subsection: a vendor name, a tag, a size and what follows. -/
def subsectionBytes (vendor tag : Bytes) (size : Nat) (more : Bytes) : Bytes :=
  vendor ++ 0 :: (tag ++ (littleBytes 4 size ++ more))

structure HeaderReads (vendor tag : Bytes) (size : Nat) (more : Bytes) : Prop where
  free : 0 ∉ vendor
  uleb : IsUleb tag
  short : tag.length ≤ 10
  fits : size < 256 ^ 4
  ends : size ≤ tag.length + 4 + more.length

/-- The walk passes subsections that are not file ones until `rest` is left. -/
inductive Reaches : Bytes → Bytes → Prop where
  | refl (rest : Bytes) : Reaches rest rest
  | next {vendor tag more rest : Bytes} {size : Nat} (reads : HeaderReads vendor tag size more) (ahead : tag.length ≤ size)
      (other : ulebNumber tag % 2 ^ 64 ≠ tagFile) (later : Reaches ((littleBytes 4 size ++ more).drop (size - tag.length)) rest) :
      Reaches (subsectionBytes vendor tag size more) rest

/-- The walk comes to a subsection that is shorter than its own tag. -/
def ShortSubsection (rest : Bytes) : Prop :=
  ∃ vendor tag size more, Reaches rest (subsectionBytes vendor tag size more) ∧ HeaderReads vendor tag size more ∧
    size < tag.length

/-- The walk comes to a file subsection whose bytes from the size field on have the architecture string. -/
def HoldsArch (rest : Bytes) (arch : Text) : Prop :=
  ∃ vendor tag size more, Reaches rest (subsectionBytes vendor tag size more) ∧ HeaderReads vendor tag size more ∧
    tag.length ≤ size ∧ ulebNumber tag % 2 ^ 64 = tagFile ∧
    FirstArch ((littleBytes 4 size ++ more).take (size - tag.length)) arch

variable {data vendor tag more : Bytes} {turns pos size : Nat}

theorem subsectionsFrom_reads (small : data.length ≤ isizeMax) (inside : pos < data.length)
    (split : data.drop pos = subsectionBytes vendor tag size more) (reads : HeaderReads vendor tag size more) :
    subsectionsFrom (turns + 1) data pos = if size < tag.length then panicked "slice index out of range"
      else if ulebNumber tag % 2 ^ 64 = tagFile then
        archFromSubsection ((littleBytes 4 size ++ more).take (size - tag.length))
      else subsectionsFrom turns data (pos + (vendor.length + 1) + size) := by
  have length := length_of_drop split (Nat.le_of_lt inside)
  rw [subsectionBytes, length_append, length_cons] at length
  rw [subsectionsFrom_vendor small inside split reads.free,
    subsectionAt_reads small (by omega) (ntbs_at split) reads.uleb reads.short reads.fits reads.ends]

theorem drop_subsection (split : data.drop pos = subsectionBytes vendor tag size more) (ahead : tag.length ≤ size) :
    data.drop (pos + (vendor.length + 1) + size) = (littleBytes 4 size ++ more).drop (size - tag.length) := by
  have named := ntbs_at split
  have sized := drop_add named
  rw [← sized, drop_drop]
  congr 1
  omega

theorem subsectionBytes_ne_nil (vendor tag : Bytes) (size : Nat) (more : Bytes) : subsectionBytes vendor tag size more ≠ [] := by
  simp [subsectionBytes]

theorem lt_of_drop {rest : Bytes} (split : data.drop pos = rest) (some : rest ≠ []) : pos < data.length := by
  by_contra outside
  rw [drop_eq_nil_of_le (Nat.le_of_not_lt outside)] at split
  exact some split.symm

section

variable (small : data.length ≤ isizeMax)
include small

theorem subsectionsFrom_reaches {start rest : Bytes} (reaches : Reaches start rest)
    (split : data.drop pos = start) (enough : data.length < pos + turns) :
    ∃ pos' turns', subsectionsFrom turns data pos = subsectionsFrom turns' data pos' ∧ data.drop pos' = rest ∧
      data.length < pos' + turns' := by
  induction reaches generalizing pos turns with
  | refl => exact ⟨pos, turns, rfl, split, enough⟩
  | next reads ahead other _ ih =>
    have inside := lt_of_drop split (subsectionBytes_ne_nil _ _ _ _)
    cases turns with
    | zero => omega
    | succ turns =>
      obtain ⟨pos', turns', same, after, left⟩ := @ih turns _ (drop_subsection split ahead) (by omega)
      refine ⟨pos', turns', ?_, after, left⟩
      rw [subsectionsFrom_reads small inside split reads, if_neg (Nat.not_lt.mpr ahead), if_neg other, same]

theorem subsectionsFrom_short (short : ShortSubsection (data.drop pos))
    (enough : data.length < pos + turns) : subsectionsFrom turns data pos = panicked "slice index out of range" := by
  obtain ⟨_, _, _, _, reaches, reads, behind⟩ := short
  obtain ⟨_, turns', same, split, _⟩ := subsectionsFrom_reaches small reaches rfl enough
  have inside := lt_of_drop split (subsectionBytes_ne_nil _ _ _ _)
  cases turns' with
  | zero => omega
  | succ => rw [same, subsectionsFrom_reads small inside split reads, if_pos behind]

theorem subsectionsFrom_arch {arch : Text} (holds : HoldsArch (data.drop pos) arch)
    (enough : data.length < pos + turns) : subsectionsFrom turns data pos = .ok arch := by
  obtain ⟨_, tag, size, more, reaches, reads, ahead, isFile, first⟩ := holds
  obtain ⟨_, turns', same, split, _⟩ := subsectionsFrom_reaches small reaches rfl enough
  have inside := lt_of_drop split (subsectionBytes_ne_nil _ _ _ _)
  have length := length_of_drop split (Nat.le_of_lt inside)
  rw [subsectionBytes, length_append, length_cons, length_append] at length
  have body : ((littleBytes 4 size ++ more).take (size - tag.length)).length ≤ isizeMax := by
    rw [length_take]
    omega
  cases turns' with
  | zero => omega
  | succ =>
    rw [same, subsectionsFrom_reads small inside split reads, if_neg (Nat.not_lt.mpr ahead), if_pos isFile]
    exact (archFromSubsection_iff body).mpr first

end

section Ends

variable {later : Nat → Outcome IsaReqError Text} {after : Bytes}

theorem subsectionAt_malformed (small : data.length ≤ isizeMax) (inside : pos ≤ data.length)
    (split : data.drop pos = tag ++ after) (uleb : IsUleb tag) (short : tag.length ≤ 10) (bad : after.length < 4 ∨
      ∃ size more, after = littleBytes 4 size ++ more ∧ size < 256 ^ 4 ∧ tag.length + 4 + more.length < size) :
    subsectionAt later data pos = fail .malformedAttributes := by
  have room := roomy small
  have length := length_of_drop split inside
  rw [length_append] at length
  rw [subsectionAt, ulebValue_eq small, split, takeUleb_append uleb short]
  simp only [ok_bind]
  rw [add_returns (by omega), ok_bind, refuseIf]
  rcases bad with truncated | ⟨size, more, rfl, fits, beyond⟩
  · rw [if_pos (by simpa using (by omega))]
    rfl
  · rw [length_append, length_littleBytes] at length
    rw [if_neg (by simpa using (by omega)), ok_bind, littleAt_drop (drop_add split) fits (by omega), ok_bind]
    cases sum : checkedAdd pos size with
    | none => rfl
    | some =>
      obtain ⟨rfl, -⟩ := checkedAdd_some sum
      rw [okOr, ok_bind, refuseIf, if_pos (by simpa using (by omega))]
      rfl

end Ends

theorem split_size {after : Bytes} (long : 4 ≤ after.length) :
    ∃ size more, after = littleBytes 4 size ++ more ∧ size < 256 ^ 4 := by
  have width : (after.take 4).length = 4 := by
    rw [length_take]
    omega
  have written := littleBytes_littleEndian (after.take 4)
  have bound := littleEndian_lt (after.take 4)
  rw [width] at written bound
  refine ⟨littleEndian (after.take 4), after.drop 4, ?_, bound⟩
  rw [written, take_append_drop]

theorem header_cases (small : data.length ≤ isizeMax) (inside : pos < data.length) :
    (∃ vendor tag size more, data.drop pos = subsectionBytes vendor tag size more ∧ HeaderReads vendor tag size more) ∨
      ∃ reason, subsectionsFrom (turns + 1) data pos = fail reason := by
  obtain ⟨vendor, rest, split, free⟩ | unended := ntbs_answers (data.drop pos)
  · have walked : subsectionsFrom (turns + 1) data pos = _ := subsectionsFrom_vendor small inside split free
    have named := ntbs_at split
    have length := length_of_drop split (Nat.le_of_lt inside)
    rw [length_append, length_cons] at length
    cases taken : takeUleb 10 rest with
    | none =>
      refine .inr ⟨_, walked.trans (subsectionAt_untagged small ?_)⟩
      rw [named]
      exact taken
    | some tag =>
      obtain ⟨uleb, short, after, rfl⟩ := takeUleb_some taken
      have malformed := fun bad => walked.trans (subsectionAt_malformed small (by omega) named uleb short bad)
      by_cases long : 4 ≤ after.length
      · obtain ⟨size, more, rfl, fits⟩ := split_size long
        by_cases ends : size ≤ tag.length + 4 + more.length
        · exact .inl ⟨vendor, tag, size, more, split, free, uleb, short, fits, ends⟩
        · exact .inr ⟨_, malformed (.inr ⟨size, more, rfl, fits, Nat.lt_of_not_le ends⟩)⟩
      · exact .inr ⟨_, malformed (.inl (Nat.lt_of_not_le long))⟩
  · have whole : (slice data pos data.length : Outcome IsaReqError Bytes) = .ok (data.drop pos) := by
      rw [slice_drop rfl (Nat.le_of_lt inside) (Nat.le_refl _), ← length_drop, take_length]
    refine .inr ⟨.malformedAttributes, ?_⟩
    rw [subsectionsFrom, if_neg (Nat.not_le.mpr inside), whole, ok_bind, unended]
    rfl

theorem subsectionsFrom_cases (small : data.length ≤ isizeMax) (within : pos ≤ data.length)
    (enough : data.length < pos + turns) :
    ShortSubsection (data.drop pos) ∨ (∃ arch, HoldsArch (data.drop pos) arch) ∨
      ∃ reason, subsectionsFrom turns data pos = fail reason := by
  induction turns generalizing pos with
  | zero => omega
  | succ turns ih =>
    by_cases outside : data.length ≤ pos
    · exact .inr (.inr ⟨.missingArch, by rw [subsectionsFrom, if_pos outside]⟩)
    have inside := Nat.lt_of_not_le outside
    obtain ⟨vendor, tag, size, more, split, reads⟩ | failed := @header_cases data turns pos small inside
    swap
    · exact .inr (.inr failed)
    have walked := @subsectionsFrom_reads data vendor tag more turns pos size small inside split reads
    have length := length_of_drop split within
    simp only [subsectionBytes, length_append, length_cons, length_littleBytes] at length
    have ends := reads.ends
    rw [split]
    by_cases ahead : tag.length ≤ size
    · rw [if_neg (Nat.not_lt.mpr ahead)] at walked
      by_cases isFile : ulebNumber tag % 2 ^ 64 = tagFile
      · rw [if_pos isFile] at walked
        have body : ((littleBytes 4 size ++ more).take (size - tag.length)).length ≤ isizeMax := by
          simp only [length_take, length_append, length_littleBytes]
          omega
        obtain ⟨arch, -, first⟩ | ⟨reason, failed⟩ := archFromSubsection_answers body
        · exact .inr (.inl ⟨arch, vendor, tag, size, more, .refl _, reads, ahead, isFile, first⟩)
        · exact .inr (.inr ⟨reason, walked.trans failed⟩)
      · rw [if_neg isFile] at walked
        have rest := drop_subsection split ahead
        rw [walked]
        rcases @ih (pos + (vendor.length + 1) + size) (by omega) (by omega) with short | holds | failed
        · rw [rest] at short
          obtain ⟨vendor', tag', size', more', reaches, reads', behind⟩ := short
          exact .inl ⟨vendor', tag', size', more', .next reads ahead isFile reaches, reads', behind⟩
        · rw [rest] at holds
          obtain ⟨arch, vendor', tag', size', more', reaches, found⟩ := holds
          exact .inr (.inl ⟨arch, vendor', tag', size', more', .next reads ahead isFile reaches, found⟩)
        · exact .inr (.inr failed)
    · exact .inl ⟨vendor, tag, size, more, .refl _, reads, Nat.lt_of_not_le ahead⟩

def Begins (data : Bytes) : Prop := data.head? = some 0x41 ∧ 5 ≤ data.length

theorem parseAttributes_begins (begins : Begins data) : parseAttributes data = subsectionsFrom data.length data 5 := by
  rw [parseAttributes, refuseIf, if_neg]
  · rfl
  · simpa [Begins] using begins

theorem parseAttributes_cases (small : data.length ≤ isizeMax) :
    (Begins data ∧ ShortSubsection (data.drop 5) ∧ parseAttributes data = panicked "slice index out of range") ∨
    (∃ arch, Begins data ∧ HoldsArch (data.drop 5) arch ∧ parseAttributes data = .ok arch) ∨
      ∃ reason, parseAttributes data = fail reason := by
  by_cases begins : Begins data
  · have enough : data.length < 5 + data.length := by omega
    rw [parseAttributes_begins begins]
    rcases subsectionsFrom_cases small begins.2 enough with short | ⟨arch, holds⟩ | failed
    · exact .inl ⟨begins, short, subsectionsFrom_short small short enough⟩
    · exact .inr (.inl ⟨arch, begins, holds, subsectionsFrom_arch small holds enough⟩)
    · exact .inr (.inr failed)
  · refine .inr (.inr ⟨.malformedAttributes, ?_⟩)
    have refused : (data.head? != some 0x41 || decide (data.length < 5)) = true := by
      rw [Begins, not_and_or] at begins
      simpa using begins
    rw [parseAttributes, refused]
    rfl

end

end Halcyon.Elf
