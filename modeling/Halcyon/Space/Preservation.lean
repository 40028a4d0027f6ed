import Halcyon.Space.Accepts
import Halcyon.Space.Invariant

/-!
Every step of a run keeps the invariant; the steps that leave the regions alone come first.
-/

namespace Halcyon.Space

open World List

variable {w next : World}

variable {request : Request} {pre post : List TransactionRecord} {replaced : TransactionRecord}
    {x : Request × PreparedChange} {p : PreparedChange}

theorem validate_planned {s : MemorySpace} {heap : Heap} {v : ValidatedChange} (sound : LedgerSound s)
    (h : s.validate heap request = .ok v) : Accepted s request v := by
  cases request with
  | map q => exact validateMap_planned h
  | unmap q => exact validateUnmap_planned sound h
  | protect q => exact validateProtect_planned sound h

theorem World.Sound.known (sound : w.Sound) {r : Region} (live : r ∈ w.space.regions ++ w.pending) : Known w r :=
  ⟨sound.regionsBelow r live, fun _ member same => inj_on_of_nodup_map sound.regionKeys member live same⟩

theorem clear_replace (record : TransactionRecord) (h : (pre ++ record :: post).Pairwise TransactionRecord.Clear)
    (less : ∀ a, replaced.Holds a → record.Holds a) :
    (pre ++ replaced :: post).Pairwise TransactionRecord.Clear := by
  rw [pairwise_append, pairwise_cons] at h ⊢
  refine ⟨h.1, ⟨fun other member => ?_, h.2.1.2⟩, fun x hx y hy => ?_⟩
  · have clear := h.2.1.1 other member
    rw [TransactionRecord.clear_iff] at clear ⊢
    exact fun a held => clear a (less a held)
  · rcases mem_cons.mp hy with rfl | hy
    · have clear := h.2.2 x hx record mem_cons_self
      rw [TransactionRecord.clear_iff] at clear ⊢
      exact fun a held other => clear a held (less a other)
    · exact h.2.2 x hx y (mem_cons_of_mem _ hy)

variable {record : TransactionRecord}

theorem clear_erase (h : (pre ++ record :: post).Pairwise TransactionRecord.Clear) :
    (pre ++ post).Pairwise TransactionRecord.Clear :=
  h.sublist (List.Sublist.append_left (sublist_cons_self _ _) _)

theorem LedgerSound.withRecords {s : MemorySpace} (h : LedgerSound s) {transactions : List TransactionRecord}
    {growth : Nat} (clear : transactions.Pairwise TransactionRecord.Clear)
    (sum : growth = (transactions.map (·.reservedGrowth)).sum) (less : growth ≤ s.reservedGrowth) :
    LedgerSound { s with transactions, reservedGrowth := growth } :=
  { h with
    clear := clear
    growth := sum
    room := by
      have := h.room
      dsimp only
      omega }

theorem sum_split : ((pre ++ record :: post).map (·.reservedGrowth)).sum =
      ((pre ++ post).map (·.reservedGrowth)).sum + record.reservedGrowth := by
  simp only [map_append, map_cons, sum_append, sum_cons]
  omega

theorem keys_erase (h : ((pre ++ record :: post).map (·.key)).Nodup) : ((pre ++ post).map (·.key)).Nodup :=
  h.sublist ((List.Sublist.append_left (sublist_cons_self _ _) _).map _)

theorem keys_replace (record : TransactionRecord) (h : ((pre ++ record :: post).map (·.key)).Nodup)
    (same : replaced.key = record.key) : ((pre ++ replaced :: post).map (·.key)).Nodup := by
  simpa [same] using h

theorem forall_erased {α : Type} {pre post : List α} {record : α} {P : α → Prop} (h : ∀ x ∈ pre ++ record :: post, P x) :
    ∀ x ∈ pre ++ post, P x :=
  fun x member => h x (mem_replaced member)

theorem forall_replaced {α : Type} {pre post : List α} {record replaced : α} {P : α → Prop}
    (h : ∀ x ∈ pre ++ record :: post, P x) (holds : P replaced) : ∀ x ∈ pre ++ replaced :: post, P x := by
  intro x member
  rcases mem_cons.mp (perm_middle.mem_iff.mp member) with rfl | member
  · exact holds
  · exact forall_erased h x member

theorem start_sound {heap : Heap} {bounds : PageRange} {limits : Limits} {space : MemorySpace}
    (h : MemorySpace.new heap bounds limits = .ok space) : (World.start space).Sound := by
  rw [MemorySpace.new_ok h]
  exact ⟨⟨.nil, by simp [start], by simp [start], by simp [start], .nil, .nil, rfl,
    Nat.zero_le _⟩, .nil, by simp [start, pending], .nil, by simp [start], .nil,
    by simp [start], by simp [start], by simp [start], by simp [start]⟩

theorem World.Sound.prepared_keep (sound : w.Sound)
    (transactions : w.space.transactions = pre ++ record :: post) (other : record.stage ≠ .reserved)
    (follows : Follows w next) (regions : next.space.regions = w.space.regions)
    (kept : ∀ x ∈ pre ++ post, x ∈ next.space.transactions) (member : x ∈ w.prepared) :
    ∃ record fresh removed, PreparedSound next x.1 x.2 record fresh removed := by
  obtain ⟨mine, fresh, removed, prepared⟩ := sound.prepared x member
  refine ⟨mine, fresh, removed, prepared.follows follows (kept mine ?_) (fun a _ m => by rw [regions])⟩
  refine mem_of_other transactions prepared.live fun same => ?_
  have here : record ∈ w.space.transactions := by simp [transactions]
  rw [eq_of_key sound prepared.live here same] at prepared
  exact other prepared.stage

theorem Follows.of_subset (bounds : next.space.bounds = w.space.bounds)
    (nextRegion : next.space.nextRegion = w.space.nextRegion) (regions : next.space.regions ⊆ w.space.regions)
    (prepared : ∀ x ∈ next.prepared, x ∈ w.prepared) : Follows w next := by
  refine ⟨bounds, Nat.le_of_eq nextRegion.symm, fun q member => .inl ?_⟩
  rcases mem_append.mp member with member | member
  · exact mem_append_left _ (regions member)
  · obtain ⟨x, hx, hq⟩ := mem_flatMap.mp member
    exact mem_append_right _ (mem_flatMap.mpr ⟨x, prepared x hx, hq⟩)

theorem Follows.refl_of (bounds : next.space.bounds = w.space.bounds)
    (nextRegion : next.space.nextRegion = w.space.nextRegion) (regions : next.space.regions = w.space.regions)
    (prepared : ∀ x ∈ next.prepared, x ∈ w.prepared) : Follows w next :=
  .of_subset bounds nextRegion (by rw [regions]; exact List.Subset.refl _) prepared

section

variable (sound : w.Sound)
include sound

theorem World.Sound.restaged {from_ to_ : ChangeStage} {payload payload' : ChangePayload}
    {before after : List (ChangeStage × ChangePayload)}
    {batches : List RetireBatch} (token : w.staged = before ++ (from_, payload) :: after)
    (transactions : w.space.transactions = pre ++ record :: post) (key : record.key = payload.key)
    (stage : record.stage = from_) (other : from_ ≠ .reserved) (sameKey : payload'.key = payload.key)
    (emptied : to_ = .retiring ∨ to_ = .retired → payload'.retiringPermits = []) : World.Sound { w with
      space := { w.space with transactions := pre ++ { record with stage := to_ } :: post }
      staged := before ++ (to_, payload') :: after
      batches } := by
  have growth := sound.ledger.growth
  have tokens := sound.tokens
  rw [transactions, sum_split] at growth
  rw [token, map_append, map_cons, ← append_assoc, ← key, ← stage] at tokens
  have below := transactions ▸ sound.changesBelow
  have settled := transactions ▸ sound.settled
  refine { sound with
    ledger := ?_
    changeKeys := keys_replace record (transactions ▸ sound.changeKeys) rfl
    changesBelow := forall_replaced below (below record (by simp))
    tokens := ?_
    settled := forall_replaced settled fun _ => settled record (by simp) (stage ▸ other)
    validated := fun x member => (sound.validated x member).follows (.refl_of rfl rfl rfl fun _ => id)
    prepared := fun x member => sound.prepared_keep transactions (stage ▸ other) (.refl_of rfl rfl rfl fun _ => id) rfl
      (fun x member => mem_replaced member) member
    emptied := forall_replaced (token ▸ sound.emptied) emptied }
  · refine sound.ledger.withRecords (clear_replace record (transactions ▸ sound.ledger.clear) fun _ => id) ?_ (Nat.le_refl _)
    rw [sum_split]
    exact growth
  · have rest := tokens_erase transactions tokens
    simp only [map_append, map_cons] at rest ⊢
    rw [← append_assoc, sameKey, ← key]
    exact perm_middle.trans ((rest.cons _).trans perm_middle.symm)

theorem World.Sound.completed {payload : ChangePayload} {before after : List (ChangeStage × ChangePayload)}
    (token : w.staged = before ++ (.retired, payload) :: after)
    (transactions : w.space.transactions = pre ++ record :: post) (key : record.key = payload.key)
    (stage : record.stage = .retired) : World.Sound { w with
      space := { w.space with transactions := pre ++ post }
      staged := before ++ after } := by
  have other : record.stage ≠ .reserved := by rw [stage]; decide
  have growth := sound.ledger.growth
  have tokens := sound.tokens
  rw [transactions, sum_split, sound.settled record (by simp [transactions]) other] at growth
  rw [token, map_append, map_cons, ← append_assoc, ← key, ← stage] at tokens
  have rest := tokens_erase transactions tokens
  rw [append_assoc, ← map_append] at rest
  exact { sound with
    ledger := sound.ledger.withRecords (clear_erase (transactions ▸ sound.ledger.clear)) growth (Nat.le_refl _)
    changeKeys := keys_erase (transactions ▸ sound.changeKeys)
    changesBelow := forall_erased (transactions ▸ sound.changesBelow)
    tokens := rest
    settled := forall_erased (transactions ▸ sound.settled)
    validated := fun x member => (sound.validated x member).follows (.refl_of rfl rfl rfl fun _ => id)
    prepared := fun x member =>
      sound.prepared_keep transactions other (.refl_of rfl rfl rfl fun _ => id) rfl (fun _ => id) member
    emptied := forall_erased (token ▸ sound.emptied) }

theorem World.Sound.drained {rest : List Region} {r : Region}
    (idle : w.space.transactions = []) (regions : w.space.regions = rest ++ [r]) (released : List WritePermit) :
    World.Sound { w with space := { w.space with regions := rest }, released } := by
  have none : w.prepared = [] := by
    have tokens := sound.tokens
    rw [idle, map_nil, nil_perm, append_eq_nil_iff, map_eq_nil_iff] at tokens
    exact tokens.1
  have sub : rest ⊆ w.space.regions := by simp [regions]
  have sublist : rest.Sublist w.space.regions := by rw [regions]; exact sublist_append_left _ _
  have room := sound.ledger.room
  have length := sublist.length_le
  exact { sound with
    ledger := { sound.ledger with
      ascending := sound.ledger.ascending.sublist (sublist.map _)
      within := fun r hr => sound.ledger.within r (sub hr)
      lawful := fun r hr => sound.ledger.lawful r (sub hr)
      permitted := fun r hr => sound.ledger.permitted r (sub hr)
      keys := sound.ledger.keys.sublist (sublist.map _)
      room := by dsimp only; omega }
    regionKeys := sound.regionKeys.sublist ((sublist.append (List.Sublist.refl _)).map _)
    regionsBelow := fun r hr => sound.regionsBelow r ((sublist.append (List.Sublist.refl _)).mem hr)
    validated := fun x member => (sound.validated x member).follows (.of_subset rfl rfl sub fun _ => id)
    prepared := fun x member => by
      rw [none] at member
      cases member }

theorem World.Sound.prepared_key_ne {before after : List (Request × PreparedChange)}
    (token : w.prepared = before ++ (request, p) :: after) (member : x ∈ before ++ after) : x.2.key ≠ p.key := by
  have keys := sound.token_keys
  rw [token, nodup_append] at keys
  have keys := keys.1
  rw [map_append, map_cons] at keys
  have keys := (nodup_middle.mp keys)
  rw [← map_append, nodup_cons] at keys
  exact fun same => keys.1 (same ▸ mem_map_of_mem member)

theorem World.Sound.others_live {before after : List (Request × PreparedChange)}
    (token : w.prepared = before ++ (request, p) :: after)
    (transactions : w.space.transactions = pre ++ record :: post) (key : record.key = p.key)
    (member : x ∈ before ++ after) {mine : TransactionRecord} {fresh : AllocationKey} {removed : List Region}
    (prepared : PreparedSound w x.1 x.2 mine fresh removed) : mine ∈ pre ++ post := by
  refine mem_of_other transactions prepared.live ?_
  rw [prepared.key, key]
  exact sound.prepared_key_ne token member

end

theorem mem_token {before after : List (Request × PreparedChange)}
    (token : w.prepared = before ++ (request, p) :: after) (member : x ∈ before ++ after) : x ∈ w.prepared := by
  rw [token]
  exact mem_replaced member

theorem World.Sound.rolledBack (sound : w.Sound) {before after : List (Request × PreparedChange)}
    {growth : Nat} (token : w.prepared = before ++ (request, p) :: after)
    (transactions : w.space.transactions = pre ++ record :: post) (key : record.key = p.key)
    (stage : record.stage = .reserved) (less : growth + record.reservedGrowth = w.space.reservedGrowth)
    (returned : List WritePermit) : World.Sound { w with
      space := { w.space with transactions := pre ++ post, reservedGrowth := growth }
      prepared := before ++ after
      returned } := by
  have sum := sound.ledger.growth
  have tokens := sound.tokens
  rw [transactions, sum_split] at sum
  rw [token, map_append, map_cons, append_assoc, cons_append, ← key, ← stage] at tokens
  have sublist : ((before ++ after).flatMap (·.2.plan.replacements)).Sublist w.pending := by
    rw [pending, token]
    simp only [flatMap_append, flatMap_cons]
    exact List.Sublist.append_left (sublist_append_right _ _) _
  have rest := tokens_erase transactions tokens
  rw [← append_assoc, ← map_append, stage] at rest
  exact { sound with
    ledger := sound.ledger.withRecords (clear_erase (transactions ▸ sound.ledger.clear)) (by omega) (by omega)
    regionKeys := sound.regionKeys.sublist (((List.Sublist.refl _).append sublist).map _)
    regionsBelow := fun r hr => sound.regionsBelow r ((List.Sublist.refl _).append sublist |>.mem hr)
    changeKeys := keys_erase (transactions ▸ sound.changeKeys)
    changesBelow := forall_erased (transactions ▸ sound.changesBelow)
    tokens := rest
    settled := forall_erased (transactions ▸ sound.settled)
    validated := fun x member => (sound.validated x member).follows (.refl_of rfl rfl rfl fun _ => mem_token token)
    prepared := fun x member => by
      obtain ⟨mine, fresh, removed, prepared⟩ := sound.prepared x (mem_token token member)
      exact ⟨mine, fresh, removed, prepared.follows (.refl_of rfl rfl rfl fun _ => mem_token token)
        (sound.others_live token transactions key member prepared) (fun _ _ _ => Iff.rfl)⟩ }

end Halcyon.Space
