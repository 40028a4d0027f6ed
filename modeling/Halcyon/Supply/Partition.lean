import Halcyon.Supply.Passes

/-!
The plan divides managed memory exactly: its parts are apart, and together they are what is managed. So the
cross-check of the sizes never fails.
-/

namespace Halcyon.Supply

open List

variable {n page : Nat}

/-- What is unavailable is made of parts that are apart, in managed memory, and paged. -/
structure Taken (page : Nat) (memories unavailable parts : List Range) : Prop where
  ordered : Ordered unavailable
  cuts : ∀ range ∈ unavailable, Paged page range
  same : ∀ a, Within unavailable a ↔ Within parts a
  paged : ∀ range ∈ parts, Paged page range
  apart : parts.Pairwise Span.Apart
  managed : ∀ a, Within parts a → Within memories a

variable {parts : List Range} {buffer : RangeBuffer n} {heap recovery : Nat} {requirements : Requirements}

theorem apart_append {others : List Range} (first : parts.Pairwise Span.Apart)
    (second : others.Pairwise Span.Apart) (proper : ∀ range ∈ parts, range.Proper)
    (proper' : ∀ range ∈ others, range.Proper) (disjoint : ∀ a, Within parts a → ¬Within others a) :
    (parts ++ others).Pairwise Span.Apart := by
  refine pairwise_append.mpr ⟨first, second, fun range member other member' => ?_⟩
  refine Span.apart_of_no_common (proper range member) (proper' other member') fun a has has' => ?_
  exact disjoint a ⟨range, member, has⟩ ⟨other, member', has'⟩

theorem normalize_paged {unavailable : List Range} (paged : ∀ range ∈ unavailable, Paged page range) :
    Ordered (normalized unavailable) ∧ (∀ a, Within (normalized unavailable) a ↔ Within unavailable a) ∧
      ∀ range ∈ normalized unavailable, Paged page range := by
  obtain ⟨ordered, covers⟩ := normalized_spec fun range member => (paged range member).1
  have ends := normalized_ends (P := (page ∣ ·)) fun range member => (paged range member).2
  exact ⟨ordered, covers, fun range member => ⟨ordered.proper range member, ends range member⟩⟩

theorem Taken.place {memories unavailable : List Range} {range : Range}
    (taken : Taken page memories unavailable parts) (paged : Paged page range)
    (free : ∀ a, range.Has a → Within memories a ∧ ¬Within unavailable a) :
    Taken page memories (normalized (unavailable ++ [range])) (parts ++ [range]) := by
  have one : ∀ {a}, Within [range] a ↔ range.Has a := by simp [within_cons]
  have single := forall_mem_singleton.mpr paged
  obtain ⟨ordered, covers, cuts⟩ := normalize_paged (forall_mem_append.mpr ⟨taken.cuts, single⟩)
  refine ⟨ordered, cuts, fun a => ?_, forall_mem_append.mpr ⟨taken.paged, single⟩, ?_, fun a => ?_⟩
  · rw [covers, within_append, within_append, taken.same]
  · refine apart_append taken.apart (pairwise_singleton _ _) (fun other member => (taken.paged other member).1)
      (fun other member => (single other member).1) fun a inside has => ?_
    exact (free a (one.mp has)).2 ((taken.same a).mpr inside)
  · rw [within_append, one]
    exact fun inside => inside.elim (taken.managed a) fun has => (free a has).1

def Chunks (size alignment : Nat) (ranges : List Range) : Prop :=
  ∀ range ∈ ranges, alignment ∣ range.start ∧ range.stop = range.start + size

theorem take_set {slots : List Range} {index : Nat} (less : index < slots.length) (range : Range) :
    (slots.set index range).take (index + 1) = slots.take index ++ [range] := by
  rw [take_add_one, take_set_of_le (Nat.le_refl _), getElem?_set_self less]
  rfl

theorem writeAt_ok {slots next : List Range} {index : Nat} {range : Range} (h : writeAt slots index range = .ok next) :
    index < slots.length ∧ next = slots.set index range := by
  unfold writeAt at h
  split at h
  · rename_i less
    cases h
    exact ⟨less, rfl⟩
  · cases h

theorem placeRanges_ok {memories unavailable last : RangeBuffer n} {count size alignment : Nat}
    {insufficient : PlanError} {slots filled : List Range} (proper : ∀ memory ∈ memories.ranges, memory.Proper)
    (need : 0 < count → isPowerOfTwo alignment = true ∧ 0 < size ∧ page ∣ alignment ∧ page ∣ size)
    (taken : Taken page memories.ranges unavailable.ranges parts)
    (h : placeRanges memories count size alignment insufficient slots unavailable = .ok (filled, last)) :
    filled.length = slots.length ∧ Taken page memories.ranges last.ranges (parts ++ filled.take count) ∧
      Chunks size alignment (filled.take count) := by
  have invariant := forRange_ok (I := fun index state => state.1.length = slots.length ∧
      Taken page memories.ranges state.2.ranges (parts ++ state.1.take index) ∧
      Chunks size alignment (state.1.take index)) (by simpa using ⟨taken, nofun⟩) ?_ h
  · exact invariant
  · rintro _ ⟨_, _⟩ _ less ⟨length, taken, chunks⟩ turn
    obtain ⟨power, positive, pageAlign, pageSize⟩ := need (Nat.lt_of_le_of_lt (Nat.zero_le _) less)
    obtain ⟨_, tried, turn⟩ := bind_ok turn
    obtain ⟨range, some_, turn⟩ := bind_ok turn
    obtain ⟨_, wrote, turn⟩ := bind_ok turn
    obtain ⟨pushed, added, turn⟩ := bind_ok turn
    cases pure_ok turn
    obtain ⟨inside, rfl⟩ := writeAt_ok wrote
    cases okOr_ok some_
    obtain ⟨free, aligned, sized⟩ := placeOne_free power positive proper taken.ordered tried
    have paged : Paged page range := by
      have start := Nat.dvd_trans pageAlign aligned
      exact ⟨by unfold Span.Proper; omega, start, sized ▸ Nat.dvd_add start pageSize⟩
    have placed := taken.place paged free
    refine ⟨by rw [length_set]; exact length, ?_, ?_⟩
    · rw [take_set inside, ← append_assoc]
      show Taken page memories.ranges (normalized pushed.ranges) _
      rw [push_ok added]
      exact placed
    · rw [take_set inside]
      exact forall_mem_concat chunks ⟨aligned, sized⟩

theorem bytes_ok {total : Nat} (h : buffer.bytes = .ok total) : total = size buffer.ranges := by
  have sums : ∀ {ranges : List Range} {start total : Nat},
      ranges.foldlM (fun total range => okOr PlanError.arithmeticOverflow (checkedAdd total range.len)) start = .ok total →
      total = start + size ranges := by
    intro ranges
    induction ranges with
    | nil =>
      intro start total h
      cases pure_ok h
      rfl
    | cons _ _ ih =>
      intro start total h
      rw [foldlM_cons] at h
      obtain ⟨_, added, h⟩ := bind_ok h
      obtain ⟨rfl, _⟩ := checkedAdd_some (okOr_ok added)
      rw [ih h, size, size, map_cons, sum_cons, Nat.add_assoc]
  simpa using sums h

theorem chunks_size {chunk alignment : Nat} {ranges : List Range} (chunks : Chunks chunk alignment ranges) :
    size ranges = chunk * ranges.length := by
  induction ranges with
  | nil => rfl
  | cons range _ ih =>
    obtain ⟨⟨_, _⟩, rest⟩ := forall_mem_cons.mp chunks
    have tail := ih rest
    have one : range.len = chunk := by
      unfold Span.len
      omega
    rw [size, map_cons, sum_cons, ← size, one, tail, length_cons, Nat.mul_succ, Nat.add_comm]

/-- What is no mismatch of the sizes. -/
abbrev Matches {α : Type} (x : Outcome PlanError α) : Prop := Avoids (· = .error .classificationMismatch) x

section
variable (output : RangeBuffer n)

theorem push_matches (range : Range) : Matches (output.push range) := by
  unfold RangeBuffer.push
  split
  · exact avoids_ok _
  · exact avoids_fail (by simp)

theorem pushProper_matches (start stop : Nat) : Matches (output.pushProper start stop) := by
  unfold RangeBuffer.pushProper
  split
  · exact push_matches output _
  · exact avoids_ok _

theorem checkOverlap_matches (ranges : List Range) : Matches (checkOverlap ranges) := by
  induction ranges with
  | nil => exact avoids_ok ()
  | cons _ rest ih =>
    cases rest with
    | nil => exact avoids_ok ()
    | cons => exact (avoids_refuseIf (by simp)).bind fun _ _ => ih

theorem normalizeMemoriesInto_matches (input : List Range) : Matches (normalizeMemoriesInto input page output) := by
  refine (avoids_foldlM fun output range => ?_).bind fun _ _ => (checkOverlap_matches _).bind fun _ _ => avoids_ok _
  exact (avoids_refuseIf (by simp)).bind fun _ _ => push_matches output range

theorem clipAndNormalizeInto_matches (input : List Range) (memories : RangeBuffer n) :
    Matches (clipAndNormalizeInto input memories page output) := by
  refine (avoids_foldlM fun output range => ?_).bind fun _ _ => avoids_ok _
  apply (avoids_refuseIf (by simp)).bind
  intro _ _
  exact avoids_foldlM fun output memory => pushProper_matches output _ _

theorem append_matches (source : RangeBuffer n) : Matches (append output source) :=
  avoids_foldlM fun output range => push_matches output range

theorem subtractCuts_matches (range : Range) (cursor : Nat) (cuts : List Range) :
    Matches (subtractCuts range cursor cuts output) := by
  induction cuts generalizing cursor output with
  | nil => exact avoids_ok _
  | cons _ _ ih =>
    unfold subtractCuts
    split
    · exact ih output cursor
    · refine (pushProper_matches output _ _).bind fun output _ => ?_
      dsimp only
      split
      · exact avoids_ok _
      · exact ih output _

theorem subtractInto_matches (source reserved : RangeBuffer n) : Matches (subtractInto source reserved output) :=
  avoids_foldlM fun output range =>
    (subtractCuts_matches output range _ _).bind fun _ _ => pushProper_matches _ _ _

theorem bytes_matches : Matches output.bytes := avoids_foldlM fun _ _ => avoids_okOr (by simp)

end

theorem systemBytesOf_matches (metadataLen : Nat) (requirements : Requirements) :
    Matches (systemBytesOf metadataLen requirements) :=
  (avoids_okOr (by simp)).bind fun _ _ => avoids_okOr (by simp)

theorem fit_matches (start stop len alignment : Nat) : Matches (fit start stop len alignment) := by
  unfold fit
  split
  · exact avoids_ok _
  · exact (avoids_okOr (by simp)).bind fun _ _ => (avoids_okOr (by simp)).bind fun _ _ => avoids_ok _

theorem placeBetween_matches (memory : Range) (len alignment cursor : Nat) (cuts : List Range) :
    Matches (placeBetween memory len alignment cursor cuts) := by
  induction cuts generalizing cursor with
  | nil => exact fit_matches _ _ _ _
  | cons _ _ ih =>
    unfold placeBetween
    split
    · exact ih cursor
    · refine (fit_matches _ _ _ _).bind fun found _ => ?_
      cases found with
      | some => exact avoids_ok _
      | none =>
        dsimp only
        split
        · exact fit_matches _ _ _ _
        · exact ih _

theorem placeOne_matches (unavailable : List Range) (len alignment : Nat) (memories : List Range) :
    Matches (placeOne unavailable len alignment memories) := by
  induction memories with
  | nil => exact avoids_ok _
  | cons _ _ ih =>
    refine (placeBetween_matches _ _ _ _ _).bind fun found _ => ?_
    cases found with
    | some => exact avoids_ok _
    | none => exact ih

theorem writeAt_matches (slots : List Range) (at_ : Nat) (range : Range) : Matches (writeAt slots at_ range) := by
  unfold writeAt
  split
  · exact avoids_ok _
  · intro stop h
    cases h
    rintro ⟨⟩

theorem placeRanges_matches (memories : RangeBuffer n) (count size alignment : Nat) {insufficient : PlanError}
    (other : insufficient ≠ .classificationMismatch) (slots : List Range) (unavailable : RangeBuffer n) :
    Matches (placeRanges memories count size alignment insufficient slots unavailable) := by
  refine avoids_foldlM fun state index => ?_
  refine (placeOne_matches _ _ _ _).bind fun found _ => ?_
  refine Avoids.bind (avoids_okOr ?_) fun range _ => ?_
  · exact fun same => other (Stop.error.inj same)
  · refine (writeAt_matches _ _ _).bind fun slots _ => ?_
    exact (push_matches _ _).bind fun _ _ => avoids_ok _

structure Sensible (heap recovery : Nat) (requirements : Requirements) : Prop where
  page : isPowerOfTwo requirements.pageSize = true
  metadata : 0 < requirements.metadataBytes
  heapSlots : requirements.heapChunkCount ≤ heap
  recoverySlots : requirements.recoveryTicketCount ≤ recovery
  heap : 0 < requirements.heapChunkCount →
    isPowerOfTwo requirements.heapChunkSize = true ∧ requirements.pageSize ≤ requirements.heapChunkSize
  recovery : 0 < requirements.recoveryTicketCount →
    0 < requirements.recoveryTicketSize ∧ requirements.pageSize ∣ requirements.recoveryTicketSize

theorem validateRequirements_ok {done : Unit} (h : validateRequirements heap recovery requirements = .ok done) :
    Sensible heap recovery requirements := by
  have good := refuseIf_ok h
  simp only [Bool.or_eq_false_iff, Bool.and_eq_false_iff, Bool.not_eq_eq_eq_not, Bool.not_false,
    decide_eq_false_iff_not, beq_eq_false_iff_ne, bne_eq_false_iff_eq] at good
  obtain ⟨⟨⟨⟨⟨page, metadata⟩, heapSlots⟩, recoverySlots⟩, heap⟩, recovery⟩ := good
  refine ⟨page, Nat.pos_of_ne_zero metadata, Nat.le_of_not_lt heapSlots, Nat.le_of_not_lt recoverySlots, ?_, ?_⟩
  · intro some_
    obtain ⟨power, large⟩ := heap.resolve_left (not_not_intro some_)
    exact ⟨power, Nat.le_of_not_lt large⟩
  · intro some_
    obtain ⟨nonzero, whole⟩ := recovery.resolve_left (not_not_intro some_)
    exact ⟨Nat.pos_of_ne_zero nonzero, Nat.dvd_of_mod_eq_zero whole⟩

theorem power_dvd {small large : Nat} (first : isPowerOfTwo small = true) (second : isPowerOfTwo large = true)
    (le : small ≤ large) : small ∣ large := by
  obtain ⟨_, rfl⟩ := isPowerOfTwo_iff first
  obtain ⟨_, rfl⟩ := isPowerOfTwo_iff second
  exact Nat.pow_dvd_pow 2 ((Nat.pow_le_pow_iff_right (by decide)).mp le)

theorem filterMap_tickets (ranges : List Range) (count : Nat) : (tickets ranges count).filterMap id = ranges.take count := by
  unfold tickets
  induction ranges generalizing count with
  | nil => simp
  | cons _ _ ih =>
    cases count with
    | zero => simp [filterMap_eq_nil_iff]
    | succ count =>
      have rest := ih count
      simp only [mapIdx_cons, Nat.add_lt_add_iff_right]
      simpa using rest

def SystemSupply.heapChunks (system : SystemSupply) : List Range := system.heap.filterMap id

def SystemSupply.recoveryTickets (system : SystemSupply) : List Range := system.recovery.filterMap id

def Plan.ranges (plan : Plan) : List Range :=
  plan.inventory.permanent ++ plan.inventory.bootHeld ++ [plan.system.metadata] ++ plan.system.heapChunks ++
    plan.system.recoveryTickets ++ plan.inventory.userFree

structure Partitions (managed permanent bootHeld : List Range) (requirements : Requirements) (plan : Plan) : Prop where
  paged : ∀ range ∈ plan.ranges, Paged requirements.pageSize range
  apart : plan.ranges.Pairwise Span.Apart
  union : ∀ a, Within plan.ranges a ↔ Within managed a
  exactPermanent : ∀ a, Within plan.inventory.permanent a ↔ Within permanent a ∧ Within managed a
  exactBootHeld : ∀ a, Within plan.inventory.bootHeld a ↔ (Within bootHeld a ∧ Within managed a) ∧ ¬Within permanent a
  heap : plan.system.heapChunks.length = requirements.heapChunkCount ∧
    Chunks requirements.heapChunkSize requirements.heapChunkSize plan.system.heapChunks
  recovery : plan.system.recoveryTickets.length = requirements.recoveryTicketCount ∧
    Chunks requirements.recoveryTicketSize requirements.pageSize plan.system.recoveryTickets

theorem Taken.whole {memories unavailable rest : List Range} (taken : Taken page memories unavailable parts)
    (ordered : Ordered rest) (free : ∀ a, Within rest a ↔ Within memories a ∧ ¬Within unavailable a) :
    (parts ++ rest).Pairwise Span.Apart ∧ ∀ a, Within (parts ++ rest) a ↔ Within memories a := by
  constructor
  · refine apart_append taken.apart ordered.apart (fun range member => (taken.paged range member).1) ordered.proper ?_
    intro a inside has
    exact ((free a).mp has).2 ((taken.same a).mpr inside)
  · intro a
    rw [within_append, free, ← taken.same]
    constructor
    · rintro (inside | ⟨inside, _⟩)
      · exact taken.managed a ((taken.same a).mp inside)
      · exact inside
    · intro inside
      by_cases used : Within unavailable a
      · exact .inl used
      · exact .inr ⟨inside, used⟩

theorem reserved_taken {memories kept rawBoot held copy both : RangeBuffer n} {permanent bootHeld : List Range}
    (managed : ∀ range ∈ memories.ranges, Paged page range)
    (clipped : clipAndNormalizeInto permanent memories page buffer = .ok kept)
    (clippedBoot : clipAndNormalizeInto bootHeld memories page buffer = .ok rawBoot)
    (removed : subtractInto rawBoot kept buffer = .ok held) (copied : copyInto kept buffer = .ok copy)
    (joined : append copy held = .ok both) :
    Taken page memories.ranges both.normalize.ranges (kept.ranges ++ held.ranges) ∧
      (∀ a, Within kept.ranges a ↔ Within permanent a ∧ Within memories.ranges a) ∧
      ∀ a, Within held.ranges a ↔ (Within bootHeld a ∧ Within memories.ranges a) ∧ ¬Within permanent a := by
  obtain ⟨ordered, covers, paged⟩ := clipAndNormalizeInto_ok managed clipped
  obtain ⟨orderedBoot, coversBoot, pagedBoot⟩ := clipAndNormalizeInto_ok managed clippedBoot
  obtain ⟨orderedHeld, coversHeld, pagedHeld⟩ := subtractInto_ok orderedBoot ordered pagedBoot paged removed
  have ranges : both.ranges = kept.ranges ++ held.ranges := by
    rw [append_ok joined, append_ok copied]
    rfl
  have pagedBoth := forall_mem_append.mpr ⟨paged, pagedHeld⟩
  obtain ⟨orderedBoth, coversBoth, cuts⟩ := normalize_paged pagedBoth
  refine ⟨?_, covers, fun a => ?_⟩
  · show Taken page memories.ranges (normalized both.ranges) _
    rw [ranges]
    refine ⟨orderedBoth, cuts, coversBoth, pagedBoth, ?_, fun a => ?_⟩
    · exact apart_append ordered.apart orderedHeld.apart ordered.proper orderedHeld.proper
        fun a inside has => ((coversHeld a).mp has).2 inside
    · rw [within_append, covers, coversHeld, coversBoot]
      rintro (⟨_, inside⟩ | ⟨⟨_, inside⟩, _⟩) <;> exact inside
  · rw [coversHeld, coversBoot, covers]
    constructor
    · exact fun ⟨asked, free⟩ => ⟨asked, fun kept => free ⟨kept, asked.2⟩⟩
    · exact fun ⟨asked, free⟩ => ⟨asked, fun kept => free kept.1⟩

section

variable (sensible : Sensible heap recovery requirements)
include sensible

theorem Sensible.heapNeed (some_ : 0 < requirements.heapChunkCount) :
    isPowerOfTwo requirements.heapChunkSize = true ∧ 0 < requirements.heapChunkSize ∧
      requirements.pageSize ∣ requirements.heapChunkSize ∧ requirements.pageSize ∣ requirements.heapChunkSize := by
  obtain ⟨power, large⟩ := sensible.heap some_
  have multiple := power_dvd sensible.page power large
  obtain ⟨k, same⟩ := isPowerOfTwo_iff power
  exact ⟨power, same ▸ Nat.two_pow_pos k, multiple, multiple⟩

theorem Sensible.recoveryNeed (some_ : 0 < requirements.recoveryTicketCount) :
    isPowerOfTwo requirements.pageSize = true ∧ 0 < requirements.recoveryTicketSize ∧
      requirements.pageSize ∣ requirements.pageSize ∧ requirements.pageSize ∣ requirements.recoveryTicketSize := by
  obtain ⟨positive, multiple⟩ := sensible.recovery some_
  exact ⟨sensible.page, positive, Nat.dvd_refl _, multiple⟩

theorem metadata_taken {metadataLen : Nat} {metadata : Range} {memories unavailable pushed : RangeBuffer n}
    (proper : ∀ memory ∈ memories.ranges, memory.Proper)
    (taken : Taken requirements.pageSize memories.ranges unavailable.ranges parts)
    (rounded : alignUp requirements.metadataBytes requirements.pageSize = .ok metadataLen)
    (tried : placeOne unavailable.ranges metadataLen requirements.pageSize memories.ranges = .ok (some metadata))
    (added : unavailable.push metadata = .ok pushed) :
    Taken requirements.pageSize memories.ranges pushed.normalize.ranges (parts ++ [metadata]) ∧
      size [metadata] = metadataLen := by
  obtain ⟨wholePages, enough, _⟩ := alignUp_ok sensible.page rounded
  have some_ := Nat.lt_of_lt_of_le sensible.metadata enough
  obtain ⟨free, aligned, sized⟩ := placeOne_free sensible.page some_ proper taken.ordered tried
  constructor
  · show Taken _ _ (normalized pushed.ranges) _
    rw [push_ok added]
    exact taken.place ⟨by unfold Span.Proper; omega, aligned, sized ▸ Nat.dvd_add aligned wholePages⟩ free
  · simp only [size, map_cons, map_nil, sum_cons, sum_nil, Span.len]
    omega

end

theorem systemBytesOf_ok {metadataLen bytes : Nat} (h : systemBytesOf metadataLen requirements = .ok bytes) :
    bytes = metadataLen + requirements.heapChunkSize * requirements.heapChunkCount +
      requirements.recoveryTicketSize * requirements.recoveryTicketCount := by
  obtain ⟨_, heap, h⟩ := bind_ok h
  obtain ⟨rfl, _⟩ := checkedMul_some (okOr_ok heap)
  obtain ⟨_, added, second⟩ := Option.bind_eq_some_iff.mp (okOr_ok h)
  obtain ⟨_, product, added'⟩ := Option.bind_eq_some_iff.mp second
  obtain ⟨rfl, _⟩ := checkedAdd_some added
  obtain ⟨rfl, _⟩ := checkedMul_some product
  exact (checkedAdd_some added').1

theorem classified_ok {permanentBytes bootHeldBytes systemBytes userFreeBytes classified : Nat}
    (h : okOr PlanError.arithmeticOverflow ((checkedAdd permanentBytes bootHeldBytes).bind fun bytes =>
      (checkedAdd bytes systemBytes).bind fun bytes => checkedAdd bytes userFreeBytes) = .ok classified) :
    classified = permanentBytes + bootHeldBytes + systemBytes + userFreeBytes := by
  obtain ⟨_, added, h⟩ := Option.bind_eq_some_iff.mp (okOr_ok h)
  obtain ⟨_, added', h⟩ := Option.bind_eq_some_iff.mp h
  obtain ⟨rfl, _⟩ := checkedAdd_some added
  obtain ⟨rfl, _⟩ := checkedAdd_some added'
  exact (checkedAdd_some h).1

/-- Whatever memory, reservations and sizes are given: a plan divides managed memory exactly, and the sizes of its
parts never fail to add up. -/
theorem plan_partitions {ranges heap recovery : Nat} (self : Planner ranges heap recovery)
    (managed permanent bootHeld : List Range) (requirements : Requirements) :
    (∀ result, plan self managed permanent bootHeld requirements = .ok result →
      Partitions managed permanent bootHeld requirements result) ∧
    plan self managed permanent bootHeld requirements ≠ fail .classificationMismatch := by
  have ends : Ends (Partitions managed permanent bootHeld requirements) (· = .error .classificationMismatch)
      (plan self managed permanent bootHeld requirements) := by
    refine .bind (avoids_refuseIf (by simp)) fun _ valid => ?_
    refine .bind (normalizeMemoriesInto_matches _ _) fun memories read => ?_
    refine .bind (clipAndNormalizeInto_matches _ _ _) fun kept clipped => ?_
    refine .bind (clipAndNormalizeInto_matches _ _ _) fun rawBoot clippedBoot => ?_
    refine .bind (subtractInto_matches _ _ _) fun held removed => ?_
    refine .bind (append_matches _ _) fun copy copied => ?_
    refine .bind (append_matches _ _) fun both joined => ?_
    refine .bind (avoids_okOr (by simp)) fun metadataLen rounded => ?_
    refine .bind (placeOne_matches _ _ _ _) fun found tried => ?_
    refine .bind (avoids_okOr (by simp)) fun metadata placed => ?_
    refine .bind (push_matches _ _) fun pushed added => ?_
    refine .bind (placeRanges_matches _ _ _ _ (by decide) _ _) ?_
    rintro ⟨heapRanges, unavailable⟩ heaps
    refine .bind (placeRanges_matches _ _ _ _ (by decide) _ _) ?_
    rintro ⟨recoveryRanges, unavailable'⟩ recoveries
    refine .bind (subtractInto_matches _ _ _) fun userFree left => ?_
    refine .bind (bytes_matches _) fun managedBytes managedCount => ?_
    refine .bind (bytes_matches _) fun permanentBytes permanentCount => ?_
    refine .bind (bytes_matches _) fun bootHeldBytes bootHeldCount => ?_
    refine .bind (systemBytesOf_matches _ _) fun systemBytes system => ?_
    refine .bind (bytes_matches _) fun userFreeBytes userFreeCount => ?_
    refine .bind (avoids_okOr (by simp)) fun classified sum => ?_
    have sensible := validateRequirements_ok valid
    obtain ⟨ordered, perm, paged⟩ := normalizeMemoriesInto_ok read
    have covers : ∀ a, Within memories.ranges a ↔ Within managed a := fun a => within_perm perm
    obtain ⟨reserved, exactPermanent, exactBootHeld⟩ := reserved_taken paged clipped clippedBoot removed copied joined
    cases okOr_ok placed
    obtain ⟨first, metadataSize⟩ := metadata_taken sensible ordered.proper reserved rounded tried added
    obtain ⟨heapLength, second, heapChunks⟩ := placeRanges_ok ordered.proper sensible.heapNeed first heaps
    obtain ⟨recoveryLength, third, recoveryChunks⟩ := placeRanges_ok ordered.proper sensible.recoveryNeed second recoveries
    obtain ⟨orderedFree, coversFree, pagedFree⟩ := subtractInto_ok ordered third.ordered paged third.cuts left
    obtain ⟨apart, union⟩ := third.whole orderedFree coversFree
    have heapCount : (heapRanges.take requirements.heapChunkCount).length = requirements.heapChunkCount := by
      rw [length_take, heapLength, self.heapLength]
      exact Nat.min_eq_left sensible.heapSlots
    have recoveryCount :
        (recoveryRanges.take requirements.recoveryTicketCount).length = requirements.recoveryTicketCount := by
      rw [length_take, recoveryLength, self.recoveryLength]
      exact Nat.min_eq_left sensible.recoverySlots
    have whole : classified = managedBytes := by
      have total := size_congr apart ordered.apart union
      simp only [size_append, metadataSize, chunks_size heapChunks, chunks_size recoveryChunks, heapCount,
        recoveryCount] at total
      rw [classified_ok sum, bytes_ok managedCount, bytes_ok permanentCount, bytes_ok bootHeldCount,
        bytes_ok userFreeCount, systemBytesOf_ok system, ← total]
      omega
    have agrees : refuseIf (classified != managedBytes) PlanError.classificationMismatch = .ok () := by
      rw [whole, bne_self_eq_false]
      rfl
    rw [agrees, ok_bind]
    refine ⟨fun result h => ?_, avoids_ok _⟩
    cases pure_ok h
    refine ⟨?_, ?_, fun a => ?_, fun a => ?_, fun a => ?_, ?_, ?_⟩
    all_goals simp only [Plan.ranges, SystemSupply.heapChunks, SystemSupply.recoveryTickets, filterMap_tickets]
    · exact forall_mem_append.mpr ⟨third.paged, pagedFree⟩
    · exact apart
    · rw [union, covers]
    · rw [exactPermanent, covers]
    · rw [exactBootHeld, covers]
    · exact ⟨heapCount, heapChunks⟩
    · exact ⟨recoveryCount, recoveryChunks⟩
  exact ⟨ends.1, fun failed => ends.2 _ failed rfl⟩

/-- Two pages reserved, one held and the rest divided. -/
theorem plan_partitions_small : ∃ result,
    plan (Planner.new : Planner 8 1 1) [⟨0, 64⟩, ⟨96, 128⟩] [⟨8, 24⟩] [⟨16, 32⟩] ⟨8, 5, 16, 1, 8, 1⟩ = .ok result ∧
      Partitions [⟨0, 64⟩, ⟨96, 128⟩] [⟨8, 24⟩] [⟨16, 32⟩] ⟨8, 5, 16, 1, 8, 1⟩ result := by
  obtain ⟨result, returned, _⟩ := returnsWith_ok
    (plan (Planner.new : Planner 8 1 1) [⟨0, 64⟩, ⟨96, 128⟩] [⟨8, 24⟩] [⟨16, 32⟩] ⟨8, 5, 16, 1, 8, 1⟩)
    (fun result => result.inventory.managedBytes == 96) (by decide +kernel)
  exact ⟨result, returned, (plan_partitions _ _ _ _ _).1 result returned⟩

end Halcyon.Supply
