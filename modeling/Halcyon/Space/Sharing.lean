import Mathlib.Data.List.Count
import Halcyon.Space.Object
import Halcyon.Space.Guarantees

/-!
Objects shared by any number of address spaces. An authorization may be used at any time later, when the object has moved on.
A call that would need what the callers do not hold changes nothing.
-/

namespace Halcyon.Space

open World List

structure System where
  objects : List MemoryObjectState
  spaces : List World
  issued : List ObjectViewAuthorization
  pool : List WritePermit

inductive Act where
  | space (i : Nat) (event : Event)
  | authorizeView (k : Nat) (maximum : Protection)
  | reserveWrites (k : Nat) (memory : Nat → Bool) (count : Nat)
  | reserveReplacementWrites (k : Nat) (memory : Nat → Bool) (requirement : PermitRequirement)
  | cancelWrite (k : Nat) (permit : WritePermit)
  | retireWrite (k : Nat) (permit : WritePermit)
  | seal_ (k : Nat)

namespace System

def start (objects : List MemoryObjectState) (spaces : List MemorySpace) : System :=
  ⟨objects, spaces.map World.start, [], []⟩

def affords (s : System) : Event → Bool
  | .validate _ (.map q) =>
    match q.backing with
    | .object authorization _ => decide (authorization ∈ s.issued)
    | .anonymous .. => true
  | .reserve _ _ permits => permits.all fun permit => permits.count permit ≤ s.pool.count permit
  | _ => true

/-- The callers give the permits that the space has taken, and get those it has returned or released. -/
def exchange (pool : List WritePermit) (w next : World) : List WritePermit :=
  pool.diff (next.supplied.drop w.supplied.length) ++ next.returned.drop w.returned.length ++
    next.released.drop w.released.length

def onObject (s : System) (k : Nat) (call : MemoryObjectState → Outcome Empty System) : Outcome Empty System :=
  match s.objects[k]? with
  | some object => call object
  | none => return s

def step (s : System) : Act → Outcome Empty System
  | .space i event =>
    match s.spaces[i]? with
    | none => return s
    | some w =>
      if s.affords event then do
        let next ← w.step event
        return { s with spaces := s.spaces.set i next, pool := exchange s.pool w next }
      else return s
  | .authorizeView k maximum => s.onObject k fun object =>
      settle (object.authorizeView maximum)
        (fun authorization => { s with issued := s.issued ++ [authorization] }) (fun _ => s)
  | .reserveWrites k memory count => s.onObject k fun object =>
      settle (object.reserveWrites memory count)
        (fun (object, permits) => { s with objects := s.objects.set k object, pool := s.pool ++ permits })
        (fun _ => s)
  | .reserveReplacementWrites k memory requirement => s.onObject k fun object =>
      settle (object.reserveReplacementWrites memory requirement)
        (fun (object, permits) => { s with objects := s.objects.set k object, pool := s.pool ++ permits })
        (fun _ => s)
  | .cancelWrite k permit =>
    if permit ∈ s.pool then s.onObject k fun object => do
      let (object, _) ← object.cancelWrite permit
      return { s with objects := s.objects.set k object, pool := s.pool.erase permit }
    else return s
  | .retireWrite k permit =>
    if permit ∈ s.pool then s.onObject k fun object => do
      let (object, _) ← object.retireWrite permit
      return { s with objects := s.objects.set k object, pool := s.pool.erase permit }
    else return s
  | .seal_ k => s.onObject k fun object => return { s with objects := s.objects.set k object.seal_.1 }

/-- The systems that some run without a panic leads to, from new address spaces and new objects with
identities of their own. -/
def Reachable (s : System) : Prop := ∃ objects spaces acts,
    (∀ x ∈ objects, ∃ object objectBytes permitLimit, x = MemoryObjectState.new object objectBytes permitLimit) ∧
    (objects.map (·.object)).Nodup ∧
    (∀ space ∈ spaces, ∃ heap bounds limits, MemorySpace.new heap bounds limits = .ok space) ∧
    runEvents step (start objects spaces) acts = .ok s

def Executable (s : System) (o : ObjectId) : Prop := ∃ x ∈ s.objects, x.object = o ∧ x.state = .executable

/-- The permits of an object that exist: with the callers, or inside some address space. -/
def outstanding (s : System) (o : ObjectId) : Nat := s.pool.count ⟨o⟩ + (s.spaces.map (fun w => w.heldPermits.count ⟨o⟩)).sum

end System

inductive Shares (s : System) : System → Prop
  | stay : Shares s s
  | worked {event : Event} {w next : World} {before after : List World} (here : s.spaces = before ++ w :: after)
      (afforded : s.affords event = true) (worked : w.step event = .ok next) :
      Shares s { s with spaces := before ++ next :: after, pool := System.exchange s.pool w next }
  | issued {x : MemoryObjectState} {maximum : Protection} {authorization : ObjectViewAuthorization}
      (member : x ∈ s.objects) (allowed : x.authorizeView maximum = .ok authorization) :
      Shares s { s with issued := s.issued ++ [authorization] }
  | evolved {x y : MemoryObjectState} {before after : List MemoryObjectState} {pool gained lost : List WritePermit}
      (here : s.objects = before ++ x :: after) (evolves : Evolves x y gained lost)
      (moved : (pool ++ lost).Perm (s.pool ++ gained)) :
      Shares s { s with objects := before ++ y :: after, pool }

variable {s next : System}

theorem System.onObject_ok {P : System → Prop} {k : Nat} {call : MemoryObjectState → Outcome Empty System}
    (h : s.onObject k call = .ok next) (stays : P s) (moves : ∀ before x after, s.objects = before ++ x :: after →
      before.length = k → call x = .ok next → P next) : P next := by
  unfold System.onObject at h
  split at h
  · rename_i x found
    obtain ⟨before, after, here, position⟩ := split_at_index found
    exact moves before x after here position h
  · exact pure_ok h ▸ stays

variable {x : MemoryObjectState} {w : World} {event : Event} {A : ObjectId → Prop}

variable {before after : List MemoryObjectState}

theorem reserves_shares {made : Outcome ObjectError (MemoryObjectState × List WritePermit)}
    (evolves : ∀ y permits, made = .ok (y, permits) → Evolves x y permits [])
    (here : s.objects = before ++ x :: after) (h : settle made (fun (y, permits) =>
      { s with objects := s.objects.set before.length y, pool := s.pool ++ permits }) (fun _ => s) = .ok next) :
    Shares s next := by
  rcases settle_ok h with ⟨⟨y, permits⟩, done, rfl⟩ | ⟨_, _, rfl⟩
  · dsimp only
    rw [here, set_split]
    exact .evolved here (evolves y permits done) (by rw [append_nil])
  · exact .stay

theorem release_shares {y : MemoryObjectState} {permit : WritePermit}
    {published : Bool} (held : permit ∈ s.pool) (here : s.objects = before ++ x :: after)
    (done : x.releaseOne permit = .ok (y, published)) :
    Shares s { s with objects := s.objects.set before.length y, pool := s.pool.erase permit } := by
  rw [here, set_split]
  refine .evolved here (releaseOne_evolves done) ?_
  rw [append_nil]
  exact (perm_append_singleton permit _).trans (perm_cons_erase held).symm

theorem shares_cases {act : Act} (h : s.step act = .ok next) : Shares s next := by
  cases act with
  | space i event =>
    rw [System.step] at h
    split at h
    · rw [pure_ok h]
      exact .stay
    · rename_i w found
      obtain ⟨before, after, here, rfl⟩ := split_at_index found
      split at h
      · rename_i afforded
        obtain ⟨w', worked, h⟩ := bind_ok h
        rw [pure_ok h, here, set_split]
        exact .worked here afforded worked
      · rw [pure_ok h]
        exact .stay
  | authorizeView k maximum =>
    refine System.onObject_ok h .stay ?_
    rintro before x after here _ h
    rcases settle_ok h with ⟨authorization, allowed, rfl⟩ | ⟨_, _, rfl⟩
    · exact .issued (by simp [here]) allowed
    · exact .stay
  | reserveWrites k memory count =>
    refine System.onObject_ok h .stay ?_
    rintro before x after here rfl h
    exact reserves_shares (fun _ _ => reserveWriteCount_evolves) here h
  | reserveReplacementWrites k memory requirement =>
    refine System.onObject_ok h .stay ?_
    rintro before x after here rfl h
    refine reserves_shares (fun _ _ done => ?_) here h
    obtain ⟨_, _, done⟩ := bind_ok done
    exact reserveWriteCount_evolves done
  | cancelWrite k permit | retireWrite k permit =>
    rw [System.step] at h
    split at h
    · rename_i held
      refine System.onObject_ok h .stay ?_
      rintro before x after here rfl h
      obtain ⟨⟨y, published⟩, done, h⟩ := bind_ok h
      rw [pure_ok h]
      exact release_shares held here done
    · rw [pure_ok h]
      exact .stay
  | seal_ k =>
    refine System.onObject_ok h .stay ?_
    rintro before x after here rfl h
    rw [pure_ok h, here, set_split]
    exact .evolved here (seal_evolves x) (List.Perm.refl _)

theorem step_histories {next : World} (h : w.step event = .ok next) :
    ∃ taken returned released, next.supplied = w.supplied ++ taken ∧ next.returned = w.returned ++ returned ∧
      next.released = w.released ++ released ∧ (taken = [] ∨ ∃ i heap, event = .reserve i heap taken) := by
  cases step_cases h with
  | refused permits => exact ⟨permits, permits, [], rfl, rfl, (append_nil _).symm, .inr ⟨_, _, rfl⟩⟩
  | @reserved heap _ _ _ _ permits before _ _ _ =>
    exact ⟨permits, [], [], rfl, (append_nil _).symm, (append_nil _).symm, .inr ⟨_, _, rfl⟩⟩
  | rolledBack =>
    exact ⟨[], _, [], (append_nil _).symm, rfl, (append_nil _).symm, .inl rfl⟩
  | popped | parted | drained =>
    exact ⟨[], [], _, (append_nil _).symm, (append_nil _).symm, rfl, .inl rfl⟩
  | _ => exact ⟨[], [], [], (append_nil _).symm, (append_nil _).symm, (append_nil _).symm, .inl rfl⟩

theorem exchange_outstanding {next : World} (before : w.Balanced) (after : next.Balanced)
    (afforded : s.affords event = true) (worked : w.step event = .ok next) (permit : WritePermit) :
    (System.exchange s.pool w next).count permit + next.heldPermits.count permit =
      s.pool.count permit + w.heldPermits.count permit := by
  obtain ⟨taken, returned, released, supplied', returned', released', source⟩ := step_histories worked
  have enough : taken.count permit ≤ s.pool.count permit := by
    rcases source with rfl | ⟨i, heap, rfl⟩
    · simp
    · by_cases member : permit ∈ taken
      · have each := all_eq_true.mp afforded permit member
        exact of_decide_eq_true each
      · simp [count_eq_zero_of_not_mem member]
  have before := before.count_eq permit
  have after := after.count_eq permit
  rw [supplied', returned', released'] at after
  simp only [System.exchange, supplied', returned', released', drop_left, count_append, count_diff]
    at before after ⊢
  omega

/-- Every executable view that the space has, will have, or was asked for, is of an object in `A`. -/
structure World.ExecutesOnly (w : World) (A : ObjectId → Prop) : Prop where
  asked : ∀ x ∈ w.validated, ∀ q authorization offset, x.1 = .map q → q.backing = .object authorization offset →
    authorization.maximum = .readExecute → A authorization.object
  views : ∀ r ∈ w.space.regions ++ w.pending, ∀ o, r.kind.view = some (o, .readExecute) → A o

theorem World.ExecutesOnly.mono {B : ObjectId → Prop} (h : w.ExecutesOnly A) (sub : ∀ o, A o → B o) : w.ExecutesOnly B :=
  ⟨fun x hx q authorization offset map backing execute =>
      sub _ (h.asked x hx q authorization offset map backing execute),
    fun r hr o view => sub _ (h.views r hr o view)⟩

theorem Reserves.executes {v : ValidatedChange} {permits : List WritePermit} {space : MemorySpace}
    {p : PreparedChange} (effect : Reserves w.space v permits space p) (request : Request) (sound : w.Sound)
    (executes : w.ExecutesOnly A) (member : (request, v) ∈ w.validated) :
    ∀ r ∈ p.plan.replacements, ∀ o, r.kind.view = some (o, .readExecute) → A o := by
  intro r hr o view
  obtain ⟨seen, removed, planned, known⟩ := sound.validated (request, v) member
  obtain ⟨fresh, made⟩ := effect.made
  obtain ⟨t, ht, from_⟩ : ∃ t ∈ v.plan.replacements, MadeFrom fresh t r := forall₂_mem_right made hr
  have live := seen_live planned.snapshot known effect.checked.snapshot
  have granted := planned.granted t ht (o, .readExecute) (by rw [← from_.kind]; exact view)
  have inherited : (∃ r ∈ removed, r.kind.view = some (o, .readExecute)) → A o := by
    rintro ⟨old, hold, shown⟩
    have here : old ∈ w.space.regions := by
      rcases planned.source with none | same
      · simp [none] at hold
      · exact live old (same ▸ hold)
    exact executes.views old (mem_append_left _ here) o shown
  cases request with
  | map q =>
    obtain ⟨authorization, offset, backing, same⟩ := granted
    obtain ⟨rfl, maximum⟩ := Prod.mk.injEq .. ▸ same
    exact executes.asked _ member q authorization offset rfl backing maximum.symm
  | unmap q | protect q => exact inherited granted

theorem step_executes {next : World} (sound : w.Sound) (executes : w.ExecutesOnly A)
    (issued : ∀ heap q authorization offset, event = .validate heap (.map q) →
      q.backing = .object authorization offset → authorization.maximum = .readExecute → A authorization.object)
    (h : w.step event = .ok next) : next.ExecutesOnly A := by
  cases step_cases h with
  | @validated heap request v accepted =>
    refine ⟨forall_mem_concat executes.asked ?_, executes.views⟩
    rintro q authorization offset rfl backing execute
    exact issued heap q authorization offset rfl backing execute
  | discarded i => exact ⟨fun x hx => executes.asked x (mem_of_mem_eraseIdx hx), executes.views⟩
  | @reserved heap request v p space permits before after token effect =>
    have new := effect.executes request sound executes (by simp [token])
    obtain ⟨_, _, ledger⟩ := effect.ledger
    refine ⟨forall_erased (token ▸ executes.asked), ?_⟩
    rw [ledger]
    simp only [pending, flatMap_append, flatMap_cons, flatMap_nil, append_nil, ← append_assoc]
    exact forall_mem_append.mpr ⟨executes.views, new⟩
  | rolledBack token transactions key stage less =>
    refine ⟨executes.asked, fun r hr => executes.views r ?_⟩
    simp only [pending, token, flatMap_append, flatMap_cons, mem_append] at hr ⊢
    tauto
  | @committed request p _ _ space payload removed kept _ _ _ token effect =>
    refine ⟨executes.asked, fun r hr => executes.views r ?_⟩
    have new : r ∈ space.regions ↔ r ∈ kept ∨ r ∈ p.plan.replacements := by
      rw [effect.regions_new.mem_iff, mem_append]
    have old : r ∈ kept → r ∈ w.space.regions := fun hr =>
      effect.regions.mem_iff.mp (mem_append_right _ hr)
    simp only [pending, token, flatMap_append, flatMap_cons, mem_append, new] at hr ⊢
    tauto
  | drained idle regions =>
    refine ⟨executes.asked, fun r hr => executes.views r ?_⟩
    rw [regions]
    simp only [pending, mem_append] at hr ⊢
    tauto
  | _ => exact ⟨executes.asked, executes.views⟩

structure System.Sound (s : System) : Prop where
  worlds : ∀ w ∈ s.spaces, w.Sound ∧ w.Balanced
  identities : (s.objects.map (·.object)).Nodup
  counted : ∀ x ∈ s.objects, x.permits = s.outstanding x.object
  quiet : ∀ x ∈ s.objects, x.state = .executable → x.permits = 0
  authorized : ∀ a ∈ s.issued, a.maximum = .readExecute → s.Executable a.object
  executes : ∀ w ∈ s.spaces, w.ExecutesOnly s.Executable

theorem start_system_sound {objects : List MemoryObjectState} {spaces : List MemorySpace}
    (new : ∀ x ∈ objects, ∃ object objectBytes permitLimit, x = .new object objectBytes permitLimit)
    (identities : (objects.map (·.object)).Nodup)
    (made : ∀ space ∈ spaces, ∃ heap bounds limits, MemorySpace.new heap bounds limits = .ok space) :
    (System.start objects spaces).Sound := by
  have empty : ∀ w ∈ (System.start objects spaces).spaces, w.Sound ∧ w.Balanced ∧ w.heldPermits = [] ∧
      w.validated = [] ∧ w.space.regions ++ w.pending = [] := by
    intro w member
    obtain ⟨space, hspace, rfl⟩ := mem_map.mp member
    obtain ⟨heap, bounds, limits, made⟩ := made space hspace
    have regions : space.regions = [] := by rw [MemorySpace.new_ok made]
    have held : (start space).heldPermits = [] := by
      simp [heldPermits, preparedPermits, regionPermits, stagedPermits, batchPermits, start, regions]
    exact ⟨start_sound made, start_balanced made, held, rfl, by simp [start, pending, regions]⟩
  have none : ∀ o, (System.start objects spaces).outstanding o = 0 := by
    intro o
    simp only [System.outstanding, System.start, count_nil, Nat.zero_add, List.sum_eq_zero_iff_forall_eq_nat]
    refine forall_mem_map.mpr fun w member => ?_
    rw [(empty w member).2.2.1, count_nil]
  constructor
  case worlds => exact fun w member => ⟨(empty w member).1, (empty w member).2.1⟩
  case identities => exact identities
  case counted =>
    intro x member
    obtain ⟨object, objectBytes, permitLimit, rfl⟩ := new x member
    rw [none]
    rfl
  case quiet =>
    intro x member executable
    obtain ⟨object, objectBytes, permitLimit, rfl⟩ := new x member
    cases executable
  case authorized => exact fun a member => absurd member not_mem_nil
  case executes =>
    intro w member
    obtain ⟨_, _, _, validated, regions⟩ := empty w member
    exact ⟨fun x hx => by simp [validated] at hx, fun r hr => by simp [regions] at hr⟩

theorem System.Sound.worked (sound : s.Sound) {w' : World} {before after : List World}
    (here : s.spaces = before ++ w :: after) (afforded : s.affords event = true) (worked : w.step event = .ok w') :
    System.Sound { s with spaces := before ++ w' :: after, pool := System.exchange s.pool w w' } := by
  have member : w ∈ s.spaces := by simp [here]
  obtain ⟨wSound, wBalanced⟩ := sound.worlds w member
  have balanced := step_balanced wSound wBalanced worked
  refine { sound with
    worlds := forall_replaced (here ▸ sound.worlds) ⟨step_sound wSound worked, balanced⟩
    counted := fun x hx => ?_
    executes := forall_replaced (here ▸ sound.executes) ?_ }
  · have total := exchange_outstanding wBalanced balanced afforded worked ⟨x.object⟩
    rw [sound.counted x hx]
    simp only [System.outstanding, here, map_append, map_cons, sum_append, sum_cons]
    omega
  · refine step_executes wSound (sound.executes w member) ?_ worked
    rintro heap q authorization offset rfl backing execute
    have issued : authorization ∈ s.issued := by simpa [System.affords, backing] using afforded
    exact sound.authorized authorization issued execute

theorem System.Sound.issued (sound : s.Sound) {maximum : Protection} {authorization : ObjectViewAuthorization}
    (member : x ∈ s.objects) (allowed : x.authorizeView maximum = .ok authorization) :
    System.Sound { s with issued := s.issued ++ [authorization] } := by
  obtain ⟨object, executable⟩ := authorizeView_ok allowed
  refine { sound with authorized := forall_mem_concat sound.authorized (fun execute => ?_) }
  exact ⟨x, member, object.symm, executable execute⟩

theorem System.Sound.evolved (sound : s.Sound) {y : MemoryObjectState}
    {pool gained lost : List WritePermit} (here : s.objects = before ++ x :: after)
    (evolves : Evolves x y gained lost) (moved : (pool ++ lost).Perm (s.pool ++ gained)) :
    System.Sound { s with objects := before ++ y :: after, pool } := by
  have member : x ∈ s.objects := by simp [here]
  have executable : ∀ o, s.Executable o → System.Executable { s with objects := before ++ y :: after, pool } o := by
    rintro o ⟨z, hz, object, state⟩
    rw [here] at hz
    rcases mem_cons.mp (perm_middle.mem_iff.mp hz) with rfl | hz
    · exact ⟨y, by simp, evolves.object.trans object, evolves.stays state⟩
    · exact ⟨z, mem_replaced hz, object, state⟩
  -- the other objects keep their identity, and no permit that moved names one of them
  have others : ∀ z ∈ before ++ y :: after, z = y ∨ z ∈ s.objects ∧ z.object ≠ x.object := by
    intro z hz
    have distinct := sound.identities
    rw [here, map_append, map_cons, nodup_middle, nodup_cons, ← map_append] at distinct
    refine (mem_cons.mp (perm_middle.mem_iff.mp hz)).imp_right fun old => ⟨here ▸ mem_replaced old, fun same => ?_⟩
    exact distinct.1 (same ▸ mem_map_of_mem old)
  refine { sound with
    identities := ?_
    counted := fun z hz => ?_
    quiet := fun z hz state => ?_
    authorized := fun a ha execute => executable _ (sound.authorized a ha execute)
    executes := fun w hw => (sound.executes w hw).mono executable }
  · have same := sound.identities
    rw [here] at same
    rw [map_append, map_cons, evolves.object]
    rwa [map_append, map_cons] at same
  · have count := moved.count_eq ⟨z.object⟩
    rw [count_append, count_append] at count
    rcases others z hz with rfl | ⟨hz, different⟩
    · have all : ∀ permits, permits ⊆ gained ++ lost → permits.count ⟨z.object⟩ = permits.length := by
        intro permits sub
        rw [count_eq_length, evolves.object]
        exact fun permit hp => (evolves.named permit (sub hp)).symm
      rw [all gained (subset_append_left _ _), all lost (subset_append_right _ _)] at count
      have balance := evolves.balance
      have before := sound.counted x member
      rw [← evolves.object] at before
      simp only [System.outstanding] at before ⊢
      omega
    · have none : ∀ permits, permits ⊆ gained ++ lost → permits.count ⟨z.object⟩ = 0 := by
        intro permits sub
        refine count_eq_zero_of_not_mem fun hp => different ?_
        have named := evolves.named _ (sub hp)
        exact WritePermit.mk.inj named
      rw [none gained (subset_append_left _ _), none lost (subset_append_right _ _)] at count
      rw [sound.counted z hz]
      simp only [System.outstanding]
      omega
  · rcases others z hz with rfl | ⟨hz, _⟩
    · exact evolves.quiet (sound.quiet x member) state
    · exact sound.quiet z hz state

theorem system_step_sound {act : Act} (sound : s.Sound) (h : s.step act = .ok next) : next.Sound := by
  cases shares_cases h with
  | stay => exact sound
  | worked here afforded worked => exact sound.worked here afforded worked
  | issued member allowed => exact sound.issued member allowed
  | evolved here evolves moved => exact sound.evolved here evolves moved

theorem reachable_system_sound (reachable : s.Reachable) : s.Sound := by
  obtain ⟨objects, spaces, acts, new, identities, made, run⟩ := reachable
  exact run_invariant (fun _ _ _ sound step => system_step_sound sound step)
    (start_system_sound new identities made) run

theorem System.Sound.not_executable (sound : s.Sound) (member : w ∈ s.spaces) {o : ObjectId}
    (held : ⟨o⟩ ∈ w.heldPermits) : ¬s.Executable o := by
  rintro ⟨x, hx, rfl, state⟩
  have counted := sound.counted x hx
  rw [sound.quiet x hx state, System.outstanding] at counted
  have here : w.heldPermits.count ⟨x.object⟩ ≤ (s.spaces.map (fun w => w.heldPermits.count ⟨x.object⟩)).sum :=
    le_sum_of_mem (mem_map_of_mem (f := fun w : World => w.heldPermits.count ⟨x.object⟩) member)
  have := count_pos_iff.mpr held
  omega

theorem writable_held (sound : w.Sound) {r : Region} (member : r ∈ w.space.regions) {o : ObjectId}
    {offset : Nat} {maximum : Protection} (writable : r.kind = .mapping (.object o offset) .readWrite maximum) :
    ⟨o⟩ ∈ w.heldPermits := by
  have permit : r.permit = some ⟨o⟩ := by
    rw [sound.ledger.permitted r member, writable]
    rfl
  have here : ⟨o⟩ ∈ w.regionPermits := mem_filterMap.mpr ⟨r, member, permit⟩
  simp [heldPermits, here]

/-- A writable view, or a permit inside an open change, keeps its object from being executable; a view that
may become executable is of an executable object. So no object is writable in one address space while
another one may execute it. -/
theorem shared_object_write_xor_execute (reachable : s.Reachable) :
    (∀ w ∈ s.spaces, ∀ r ∈ w.space.regions, ∀ o offset maximum,
      r.kind = .mapping (.object o offset) .readWrite maximum → ¬s.Executable o) ∧
    (∀ w ∈ s.spaces, ∀ o, ⟨o⟩ ∈ w.preparedPermits ++ w.stagedPermits ++ w.batchPermits → ¬s.Executable o) ∧
    (∀ w ∈ s.spaces, ∀ r ∈ w.space.regions, ∀ o offset current,
      r.kind = .mapping (.object o offset) current .readExecute → s.Executable o) ∧
    ∀ w ∈ s.spaces, ∀ r ∈ w.space.regions, ∀ w' ∈ s.spaces, ∀ r' ∈ w'.space.regions,
      ∀ o offset maximum offset' current, r.kind = .mapping (.object o offset) .readWrite maximum →
        r'.kind ≠ .mapping (.object o offset') current .readExecute := by
  have sound := reachable_system_sound reachable
  have writable : ∀ w ∈ s.spaces, ∀ r ∈ w.space.regions, ∀ o offset maximum,
      r.kind = .mapping (.object o offset) .readWrite maximum → ¬s.Executable o :=
    fun w hw r hr o offset maximum kind => sound.not_executable hw (writable_held (sound.worlds w hw).1 hr kind)
  have executable : ∀ w ∈ s.spaces, ∀ r ∈ w.space.regions, ∀ o offset current,
      r.kind = .mapping (.object o offset) current .readExecute → s.Executable o :=
    fun w hw r hr o offset current kind =>
      (sound.executes w hw).views r (mem_append_left _ hr) o (by rw [kind]; rfl)
  refine ⟨writable, fun w hw o held => sound.not_executable hw ?_, executable, ?_⟩
  · simp only [heldPermits, mem_append] at held ⊢
    tauto
  · exact fun w hw r hr w' hw' r' hr' o offset maximum offset' current kind kind' =>
      writable w hw r hr o offset maximum kind (executable w' hw' r' hr' o offset' current kind')

def viewPages (o : ObjectId) (protection : Protection) (first : Nat) : MapRequest :=
  ⟨8 * pageSize, 0, 0, .fixedEmpty (first * pageSize), protection, protection, .addressSpace,
    .object ⟨o, protection, 8 * pageSize⟩ 0, none⟩

theorem codeObject_ne_zero : (3 : Nat) ≠ 0 := by decide

def codeObject : ObjectId := ⟨3, codeObject_ne_zero⟩

def dataObject : ObjectId := ⟨5, by decide⟩

/-- The first space writes code, gives up its write access while the object is sealing, and the second
space maps the code executable. Another object stays writable in the first space. -/
def publishCode : List Act := [.authorizeView 0 .readWrite, .reserveWrites 0 (fun _ => true) 1,
    .authorizeView 1 .readWrite, .reserveWrites 1 (fun _ => true) 1] ++
  (completeChange (.map (viewPages codeObject .readWrite 16)) [⟨codeObject⟩]).map (.space 0) ++
  (completeChange (.map (viewPages dataObject .readWrite 32)) [⟨dataObject⟩]).map (.space 0) ++
  [.seal_ 0] ++
  (completeChange (.protect ⟨pageSpan 16 7, .readOnly, .addressSpace⟩) []).map (.space 0) ++
  [.retireWrite 0 ⟨codeObject⟩, .authorizeView 0 .readExecute] ++
  (completeChange (.map (viewPages codeObject .readExecute 16)) []).map (.space 1)

def sharedStart : System :=
  .start [.new codeObject (8 * pageSize) 4, .new dataObject (8 * pageSize) 4] [smallSpace, smallSpace]

theorem shared_object_publishCode : ∃ s, runEvents System.step sharedStart publishCode = .ok s ∧
      (∃ w ∈ s.spaces, ∃ r ∈ w.space.regions,
        r.kind = .mapping (.object codeObject 0) .readExecute .readExecute) ∧ s.Executable codeObject ∧
      (∃ w ∈ s.spaces, ∃ r ∈ w.space.regions,
        r.kind = .mapping (.object dataObject 0) .readWrite .readWrite) ∧ ¬s.Executable dataObject := by
  obtain ⟨s, run, test⟩ := returnsWith_ok (runEvents System.step sharedStart publishCode)
    (fun s => (s.spaces.any fun w => w.space.regions.any fun r =>
        decide (r.kind = .mapping (.object codeObject 0) .readExecute .readExecute)) &&
      s.spaces.any fun w => w.space.regions.any fun r =>
        decide (r.kind = .mapping (.object dataObject 0) .readWrite .readWrite))
    (by decide +kernel)
  simp only [Bool.and_eq_true, any_eq_true, decide_eq_true_eq] at test
  obtain ⟨⟨w, hw, r, hr, kind⟩, w', hw', r', hr', kind'⟩ := test
  have reachable : s.Reachable := ⟨_, _, publishCode, by simp, by decide, by simpa using ⟨_, _, _, smallSpace_new⟩, run⟩
  obtain ⟨writable, _, executable, _⟩ := shared_object_write_xor_execute reachable
  exact ⟨s, run, ⟨w, hw, r, hr, kind⟩, executable w hw r hr _ _ _ kind,
    ⟨w', hw', r', hr', kind'⟩, writable w' hw' r' hr' _ _ _ kind'⟩

end Halcyon.Space
