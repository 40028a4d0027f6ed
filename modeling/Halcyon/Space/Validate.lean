import Halcyon.Space.Types

/-!
The validating half of the planner. Every `try_reserve` of the source asks a `Heap`, an arbitrary answer for each call site
and size.
-/

namespace Halcyon.Space

/-- The fallible allocations of the planner, one for each `try_reserve` in the source. -/
inductive AllocSite where
  | newRegions | newTransactions
  | obstacles | coveredIndices | leaseSegments | leaseKeys | requirements | normalized
  | mapReplacements | mapTranslations
  | unmapRemove | unmapReplacements | unmapRetiring | unmapTranslations
  | protectRemove | protectReplacements | protectRetiring | protectTranslations
  | reserveRegions | reserveTransactions
  | materializeReplacements | materializeRetiring | materializePermits | materializeDeltas
  deriving DecidableEq

abbrev Heap := AllocSite → Nat → Bool

def Heap.tryReserve (heap : Heap) (site : AllocSite) (count : Nat) : Outcome ChangeError Unit :=
  refuseIf (!heap site count) .allocationFailed

def roundPageBytes (bytes : Nat) : Outcome ChangeError Nat := do
  refuseIf (bytes == 0) (.range .empty)
  let value ← okOr (.range .overflow) (checkedAdd bytes (pageSize - 1))
  return value / pageSize * pageSize

def roundGuardBytes (bytes : Nat) : Outcome ChangeError Nat :=
  if bytes == 0 then return 0 else roundPageBytes bytes

/-- The kind of the part `range` of `region`, under another current protection when one is given.
The callers pass a subrange, so the subtraction is exact. -/
def cutKind (region : Region) (range : PageRange) (protection : Option Protection) : Outcome ChangeError RegionKind :=
  match region.kind with
  | .guard => return .guard
  | .mapping backing current maximum => do
    let backing ← okOr .backingOutOfRange (backing.shifted (range.start - region.range.start))
    return .mapping backing (protection.getD current) maximum

def templateFromRegion (region : Region) (range : PageRange) (protection : Option Protection) :
    Outcome ChangeError RegionTemplate := do
  let kind ← cutKind region range protection
  return {
    allocation := .existing region.allocation
    range
    owner := region.owner
    kind
    writeSuccessor := region.permit.isSome && (match kind with
      | .mapping _ .readWrite _ => true
      | _ => false) }

def retireTemplate (region : Region) (range : PageRange) (backingRetire : BackingRetire) :
    Outcome ChangeError RetireTemplate := do
  let kind ← cutKind region range none
  return { allocation := region.allocation, range, owner := region.owner, kind, backingRetire }

def templatesCompatible (left right : RegionTemplate) : Bool :=
  if !left.range.adjacent right.range || left.range.end_ != right.range.start
      || left.owner != right.owner then false
  else match left.allocation, right.allocation with
    | .existing leftAllocation, .existing rightAllocation =>
      if leftAllocation != rightAllocation then false
      else match left.kind, right.kind with
        | .guard, .guard => true
        | .mapping leftBacking leftCurrent leftMaximum, .mapping rightBacking rightCurrent rightMaximum =>
          leftCurrent == rightCurrent && leftMaximum == rightMaximum && left.writableObject.isNone
            && leftBacking.shifted left.range.bytes == some rightBacking
        | _, _ => false
    | _, _ => false

def templatesCompatibleRegion (region : Region) (template : RegionTemplate) : Bool :=
  match templateFromRegion region region.range none with
  | .error _ => false
  | .ok regionTemplate =>
    if region.range.end_ == template.range.start then templatesCompatible regionTemplate template
    else if template.range.end_ == region.range.start then templatesCompatible template regionTemplate
    else false

/-- The loop of `normalize_templates`; `previous` is the last template pushed so far. -/
def coalesce (previous : RegionTemplate) : List RegionTemplate → Outcome ChangeError (List RegionTemplate)
  | [] => return [previous]
  | template :: rest =>
    if templatesCompatible previous template then do
      let range ← liftRange (PageRange.fromBounds previous.range.start template.range.end_)
      coalesce { previous with range } rest
    else do
      return previous :: (← coalesce template rest)

def normalizeTemplates (heap : Heap) (templates : List RegionTemplate) : Outcome ChangeError (List RegionTemplate) := do
  let sorted := sortByKey (·.range.start) templates
  heap.tryReserve .normalized sorted.length
  match sorted with
  | [] => return []
  | first :: rest => coalesce first rest

/-- Counts one template in the requirement of its object, at the end of the list when it is new. -/
def countRequirement (heap : Heap) (object : ObjectId) (isNew : Nat) :
    Nat → List PermitRequirement → Outcome ChangeError (List PermitRequirement)
  | length, [] => do
    heap.tryReserve .requirements length
    return [{ object, count := 1, newWrites := isNew }]
  | length, requirement :: rest =>
    if requirement.object == object then do
      let count ← okOr .permitMismatch (checkedAdd requirement.count 1)
      let newWrites ← okOr .permitMismatch (checkedAdd requirement.newWrites isNew)
      return { requirement with count, newWrites } :: rest
    else do
      return requirement :: (← countRequirement heap object isNew (length + 1) rest)

def permitRequirementsFrom (heap : Heap) (requirements : List PermitRequirement) :
    List RegionTemplate → Outcome ChangeError (List PermitRequirement)
  | [] => return requirements
  | template :: rest =>
    match template.writableObject with
    | none => permitRequirementsFrom heap requirements rest
    | some object => do
      let isNew := if template.writeSuccessor then 0 else 1
      let requirements ← countRequirement heap object isNew 0 requirements
      permitRequirementsFrom heap requirements rest

def permitRequirements (heap : Heap) (replacements : List RegionTemplate) : Outcome ChangeError (List PermitRequirement) :=
  permitRequirementsFrom heap [] replacements

def permitsMatch (requirements : List PermitRequirement) (permits : List WritePermit) : Bool :=
  requirements.all (fun requirement =>
    permits.countP (fun permit => permit.object == requirement.object) == requirement.count)
  && permits.length == (requirements.map (·.count)).sum

/-- One transaction stands in the way of a footprint or of a lease. -/
def TransactionRecord.conflictsWith (record : TransactionRecord) (footprint : PageRange)
    (lease : Option AddressRange) : Bool :=
  record.footprint.overlaps footprint
  || record.lease.any (fun pinned => pinned.overlaps footprint.addressRange)
  || lease.any (fun range => record.footprint.addressRange.overlaps range
      || record.lease.any (fun pinned => pinned.overlaps range))

namespace MemorySpace

variable (s : MemorySpace)

def regionAt (index : Nat) : Outcome ChangeError Region := expect "index out of bounds" s.regions[index]?

def validateChangeRange (range : PageRange) : Outcome ChangeError Unit := do
  refuseIf (!s.bounds.contains range) .outOfBounds
  refuseIf (decide (range.pages > s.limits.maxPagesPerChange)) .pageLimit

def ensureNoTransactionConflict (footprint : PageRange) (lease : Option AddressRange) : Outcome ChangeError Unit :=
  refuseIf (s.transactions.any (·.conflictsWith footprint lease)) .busy

def checkProjectedRegions (growth : Nat) : Outcome ChangeError Unit := do
  let projected ← okOr .regionLimit
    ((checkedAdd s.regions.length s.reservedGrowth).bind (checkedAdd · growth))
  refuseIf (decide (projected > s.limits.maxRegions)) .regionLimit

def rangeEmpty (range : PageRange) : Bool :=
  !s.regions.any (·.range.overlaps range) && !s.transactions.any (·.footprint.overlaps range)

/-- The sweep of `find_hole` over the sorted obstacles. -/
def holeFrom (bytes : Nat) : Nat → List PageRange → Outcome ChangeError PageRange
  | cursor, [] => do
    let end_ ← okOr (.range .overflow) (checkedAdd cursor bytes)
    if end_ ≤ s.bounds.end_ then liftRange (PageRange.new cursor bytes) else fail .conflict
  | cursor, obstacle :: rest =>
    if obstacle.end_ ≤ cursor then holeFrom bytes cursor rest
    else if obstacle.start > cursor && decide (obstacle.start - cursor ≥ bytes) then
      liftRange (PageRange.new cursor bytes)
    else holeFrom bytes (max cursor obstacle.end_) rest

def findHole (heap : Heap) (bytes : Nat) : Outcome ChangeError PageRange := do
  let capacity ← okOr .regionLimit (checkedAdd s.regions.length s.transactions.length)
  heap.tryReserve .obstacles capacity
  let obstacles := s.regions.map (·.range) ++ s.transactions.map (·.footprint)
  s.holeFrom bytes s.bounds.start (sortByKey (·.start) obstacles)

/-- The scan of `covered_indices`, at `index` with `cursor` covered so far. -/
def coveredFrom (heap : Heap) (range : PageRange) (authority : RegionOwner) (mappingsOnly : Bool) :
    Nat → Nat → List Nat → List Region → Outcome ChangeError (List Nat)
  | _, _, _, [] => fail .notCovered
  | index, cursor, indices, region :: rest =>
    if region.range.end_ ≤ cursor then
      coveredFrom heap range authority mappingsOnly (index + 1) cursor indices rest
    else if region.range.start > cursor then fail .notCovered
    else if !region.range.overlaps range then
      if cursor ≥ range.end_ then fail .notCovered
      else coveredFrom heap range authority mappingsOnly (index + 1) cursor indices rest
    else if region.owner != authority then fail .ownerDenied
    else if mappingsOnly && !region.kind.isMapping then fail .guard
    else do
      heap.tryReserve .coveredIndices indices.length
      let indices := indices ++ [index]
      let cursor := min region.range.end_ range.end_
      if cursor == range.end_ then return indices
      else coveredFrom heap range authority mappingsOnly (index + 1) cursor indices rest

def coveredIndices (heap : Heap) (range : PageRange) (authority : RegionOwner) (mappingsOnly : Bool) :
    Outcome ChangeError (List Nat) :=
  coveredFrom heap range authority mappingsOnly 0 range.start [] s.regions

/-- The scan of `validate_user_write_lease`, with `cursor` covered so far. -/
def leaseFrom (heap : Heap) (maxSegments : Nat) (range : AddressRange) :
    Nat → List UserWriteSegment → List RegionKey → List Region →
    Outcome ChangeError (List UserWriteSegment × List RegionKey)
  | _, _, _, [] => fail .leaseInvalid
  | cursor, segments, keys, region :: rest =>
    if region.range.end_ ≤ cursor then leaseFrom heap maxSegments range cursor segments keys rest
    else if region.range.start > cursor then fail .leaseInvalid
    else match region.kind with
      | .mapping backing .readWrite _ => do
        let segmentEnd := min region.range.end_ range.end_
        let user ← liftRange (AddressRange.fromBounds cursor segmentEnd)
        refuseIf (decide (segments.length ≥ maxSegments)) .leaseTooLarge
        heap.tryReserve .leaseSegments segments.length
        heap.tryReserve .leaseKeys keys.length
        let backingOffset ← okOr .backingOutOfRange
          (checkedAdd backing.offset (cursor - region.range.start))
        let segments := segments ++ [{ region := region.key, user, backing, backingOffset }]
        let keys := keys ++ [region.key]
        if segmentEnd == range.end_ then return (segments, keys)
        else leaseFrom heap maxSegments range segmentEnd segments keys rest
      | _ => fail .leaseInvalid

def validateUserWriteLease (heap : Heap) (range : AddressRange) (mutation : PageRange) :
    Outcome ChangeError (List UserWriteSegment × List RegionKey) := do
  refuseIf (decide (range.bytes > s.limits.maxLeaseBytes)) .leaseTooLarge
  refuseIf (!s.bounds.addressRange.contains range) .outOfBounds
  s.ensureNoTransactionConflict mutation (some range)
  leaseFrom heap s.limits.maxLeaseSegments range range.start [] [] s.regions

end MemorySpace

/-!
The three validators of the planner. Each answers a request with a plan over the ledger it read; the
plan is checked again by `reserve`.
-/

def mapBackingView (request : MapRequest) (usableBytes : Nat) : Outcome ChangeError BackingView :=
  match request.backing with
  | .anonymous identity class_ => do
    let allowed := match class_ with
      | .data => request.maximum != .readExecute
      | .initialExecutable => request.maximum != .readWrite
    refuseIf (!allowed) .permissionDenied
    return .anonymous identity class_ 0
  | .object authorization offset => do
    refuseIf (authorization.maximum != request.maximum) .objectAuthorization
    let end_ ← okOr .backingOutOfRange (checkedAdd offset usableBytes)
    refuseIf (decide (end_ > authorization.objectBytes)) .backingOutOfRange
    return .object authorization.object offset

/-- The guard template of `bytes` at `start`, when there are any. -/
def guardTemplates (owner : RegionOwner) (start bytes : Nat) : Outcome ChangeError (List RegionTemplate) :=
  if bytes > 0 then do
    let range ← liftRange (PageRange.new start bytes)
    return [{ allocation := .new, range, owner, kind := .guard, writeSuccessor := false }]
  else return []

namespace MemorySpace

variable (s : MemorySpace)

def mapReservation (heap : Heap) (placement : MapPlacement) (guardBefore bytes : Nat) : Outcome ChangeError PageRange :=
  match placement with
  | .anywhere => s.findHole heap bytes
  | .fixedEmpty usableStart => do
    refuseIf (usableStart % pageSize != 0) (.range .unaligned)
    let start ← okOr .outOfBounds (checkedSub usableStart guardBefore)
    liftRange (PageRange.new start bytes)

def validateMap (heap : Heap) (request : MapRequest) : Outcome ChangeError ValidatedChange := do
  refuseIf (!request.maximum.permits request.current) .permissionDenied
  let usableBytes ← roundPageBytes request.bytes
  let guardBefore ← roundGuardBytes request.guardBefore
  let guardAfter ← roundGuardBytes request.guardAfter
  let reservationBytes ← okOr (.range .overflow)
    ((checkedAdd guardBefore usableBytes).bind (checkedAdd · guardAfter))
  refuseIf (decide (reservationBytes / pageSize > s.limits.maxPagesPerChange)) .pageLimit
  let reservation ← s.mapReservation heap request.placement guardBefore reservationBytes
  refuseIf (!s.bounds.contains reservation) .outOfBounds
  refuseIf (s.transactions.any (·.footprint.overlaps reservation)) .busy
  refuseIf (s.regions.any (·.range.overlaps reservation)) .conflict
  let usable ← liftRange (PageRange.new (reservation.start + guardBefore) usableBytes)
  let backing ← mapBackingView request usableBytes
  heap.tryReserve .mapReplacements
    (1 + (if guardBefore > 0 then 1 else 0) + (if guardAfter > 0 then 1 else 0))
  let before ← guardTemplates request.owner reservation.start guardBefore
  let after ← guardTemplates request.owner usable.end_ guardAfter
  let replacements := before ++ [{
    allocation := .new
    range := usable
    owner := request.owner
    kind := .mapping backing request.current request.maximum
    writeSuccessor := false }] ++ after
  heap.tryReserve .mapTranslations 1
  let translations := [.install usable backing request.current]
  let (snapshot, lease) ← match request.result with
    | some lease => do
      let (segments, keys) ← s.validateUserWriteLease heap lease.range reservation
      pure (keys, some (lease.range, segments))
    | none => pure ([], none)
  let permits ← permitRequirements heap replacements
  let growth := replacements.length
  s.checkProjectedRegions growth
  return {
    plan := {
      remove := []
      replacements
      retiring := []
      translations
      footprint := reservation
      resultLayout := some { usable, reservation } }
    snapshot
    lease
    permits
    growth }

/-! ### Unmap and Protect

Both walk the regions that cover the requested range. What one region adds to the plan's vectors is
a `Cut`. -/

end MemorySpace

structure Cut where
  remove : RegionKey
  replacements : List RegionTemplate
  retiring : RetireTemplate
  translations : List TranslationIntent
  deriving DecidableEq

def keptTemplates (region : Region) (start end_ : Nat) : Outcome ChangeError (List RegionTemplate) :=
  if start < end_ then do
    let range ← liftRange (PageRange.fromBounds start end_)
    return [← templateFromRegion region range none]
  else return []

def unmapCut (range : PageRange) (region : Region) : Outcome ChangeError Cut := do
  let cut ← expect "covered region intersects request" (region.range.intersection range)
  let left ← keptTemplates region region.range.start cut.start
  let right ← keptTemplates region cut.end_ region.range.end_
  let retiring ← retireTemplate region cut .release
  return { remove := region.key, replacements := left ++ right, retiring, translations := [] }

def protectCut (range : PageRange) (protection : Protection) (region : Region) : Outcome ChangeError Cut := do
  let cut ← expect "covered region intersects request" (region.range.intersection range)
  let left ← keptTemplates region region.range.start cut.start
  let middle ← templateFromRegion region cut (some protection)
  let right ← keptTemplates region cut.end_ region.range.end_
  let retiring ← retireTemplate region cut .retain
  let current ← match region.kind with
    | .mapping _ current _ => pure current
    | .guard => panicked "internal error: entered unreachable code"
  return {
    remove := region.key
    replacements := left ++ [middle] ++ right
    retiring
    translations := if current != protection then [.protect cut current protection] else [] }

/-- The mapping checks of `validate_protect` on one covered region. -/
def protectAllowed (protection : Protection) (region : Region) : Outcome ChangeError Unit :=
  match region.kind with
  | .guard => fail .guard
  | .mapping _ _ maximum => refuseIf (!maximum.permits protection) .permissionDenied

def hasProtection (protection : Protection) (region : Region) : Bool :=
  match region.kind with
  | .mapping _ current _ => current == protection
  | .guard => false

namespace MemorySpace

variable (s : MemorySpace)

def validateUnmap (heap : Heap) (request : UnmapRequest) : Outcome ChangeError ValidatedChange := do
  s.validateChangeRange request.range
  s.ensureNoTransactionConflict request.range none
  let indices ← s.coveredIndices heap request.range request.authority false
  heap.tryReserve .unmapRemove indices.length
  let replacementCapacity ← okOr .regionLimit (checkedMul indices.length 2)
  heap.tryReserve .unmapReplacements replacementCapacity
  heap.tryReserve .unmapRetiring indices.length
  heap.tryReserve .unmapTranslations 1
  let covered ← indices.mapM s.regionAt
  let cuts ← covered.mapM (unmapCut request.range)
  let remove := cuts.map (·.remove)
  let removesTranslation := covered.any (·.kind.isMapping)
  let translations := if removesTranslation then [.remove request.range] else []
  let replacements := sortByKey (·.range.start) (cuts.flatMap (·.replacements))
  let permits ← permitRequirements heap replacements
  let growth := replacements.length - remove.length
  s.checkProjectedRegions growth
  return {
    plan := {
      remove
      replacements
      retiring := cuts.map (·.retiring)
      translations
      footprint := request.range
      resultLayout := none }
    snapshot := remove
    lease := none
    permits
    growth }

/-- The untouched region before the first covered one, when its template continues `replacements`. -/
def leftNeighbor (firstIndex : Nat) (replacements : List RegionTemplate) : Outcome ChangeError (Option Region) :=
  if firstIndex > 0 then do
    let neighbor ← s.regionAt (firstIndex - 1)
    if neighbor.permit.isNone then do
      let edge ← expect "protect produces replacements" (minByKey (·.range.start) replacements)
      return if templatesCompatibleRegion neighbor edge then some neighbor else none
    else return none
  else return none

/-- The untouched region after the last covered one, when its template continues `replacements`. -/
def rightNeighbor (lastIndex : Nat) (replacements : List RegionTemplate) : Outcome ChangeError (Option Region) :=
  if lastIndex + 1 < s.regions.length then do
    let neighbor ← s.regionAt (lastIndex + 1)
    if neighbor.permit.isNone then do
      let edge ← expect "protect produces replacements" (maxByKey (·.range.end_) replacements)
      return if templatesCompatibleRegion neighbor edge then some neighbor else none
    else return none
  else return none

def neighborTemplates : Option Region → Outcome ChangeError (List RegionTemplate)
  | none => return []
  | some neighbor => do return [← templateFromRegion neighbor neighbor.range none]

/-- The neighbors that a protect of the `covered` regions pulls in, and its unsorted templates. -/
def absorbNeighbors (indices : List Nat) (replacements : List RegionTemplate) :
    Outcome ChangeError (List Region × List RegionTemplate) := do
  let firstIndex ← expect "coverage is nonempty" indices.head?
  let lastIndex ← expect "coverage is nonempty" indices.getLast?
  let left ← s.leftNeighbor firstIndex replacements
  let replacements := replacements ++ (← neighborTemplates left)
  let right ← s.rightNeighbor lastIndex replacements
  let replacements := replacements ++ (← neighborTemplates right)
  return (left.toList ++ right.toList, replacements)

def validateProtect (heap : Heap) (request : ProtectRequest) : Outcome ChangeError ValidatedChange := do
  s.validateChangeRange request.range
  s.ensureNoTransactionConflict request.range none
  let indices ← s.coveredIndices heap request.range request.authority true
  let covered ← indices.mapM s.regionAt
  let _ ← covered.mapM (protectAllowed request.protection)
  if covered.all (hasProtection request.protection) then
    return {
      plan := {
        remove := []
        replacements := []
        retiring := []
        translations := []
        footprint := request.range
        resultLayout := none }
      snapshot := covered.map (·.key)
      lease := none
      permits := []
      growth := 0 }
  let removeCapacity ← okOr .regionLimit (checkedAdd indices.length 2)
  let replacementCapacity ← okOr .regionLimit ((checkedMul indices.length 3).bind (checkedAdd · 2))
  heap.tryReserve .protectRemove removeCapacity
  heap.tryReserve .protectReplacements replacementCapacity
  heap.tryReserve .protectRetiring indices.length
  heap.tryReserve .protectTranslations indices.length
  let cuts ← covered.mapM (protectCut request.range request.protection)
  let (neighbors, templates) ← s.absorbNeighbors indices (cuts.flatMap (·.replacements))
  let remove := cuts.map (·.remove) ++ neighbors.map (·.key)
  let replacements ← normalizeTemplates heap templates
  let footprint ← liftRange (PageRange.fromBounds ((replacements.head?.map (·.range.start)).getD request.range.start)
    ((replacements.getLast?.map (·.range.end_)).getD request.range.end_))
  s.ensureNoTransactionConflict footprint none
  let permits ← permitRequirements heap replacements
  let growth := replacements.length - remove.length
  s.checkProjectedRegions growth
  return {
    plan := {
      remove
      replacements
      retiring := cuts.map (·.retiring)
      translations := cuts.flatMap (·.translations)
      footprint
      resultLayout := none }
    snapshot := remove
    lease := none
    permits
    growth }

end MemorySpace

end Halcyon.Space
