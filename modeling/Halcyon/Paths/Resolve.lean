import Halcyon.Base.Text
import Halcyon.Base.Programs

/-!
Path resolution (`libfs`): a walk through directories of providers that are not trusted. A provider may delegate the rest
of a path or report a symbolic link; the walk compares what it says of the components with what it asked.
-/

namespace Halcyon.Paths

open List

def symlinkLimit : Nat := 40
def componentLimit : Nat := 4096
def byteLimit : Nat := 65536
def stepLimit : Nat := 256

/-- The states a provider reports; only one of them is made here. -/
inductive Status where
  | internal
  | other (code : Nat)
  deriving DecidableEq

inductive ResolveError where
  | illegalPath
  | noProvider
  | status (status : Status)
  | tooManyLinks
  | budgetExceeded
  | stepLimit
  deriving DecidableEq

inductive ResolvePolicy where
  | followAll
  | noFollowFinal
  | resolveParent
  deriving DecidableEq

/-- `G` is the grant of a directory, `N` what is known of a node. -/
inductive LookupOutcome (G N : Type) where
  | found (info : N)
  | delegate (dir : G) (consumed remaining : Text)
  | link (consumed target remaining : Text)
  deriving DecidableEq

structure Question (G : Type) where
  dir : G
  policy : ResolvePolicy
  path : Text
  deriving DecidableEq

abbrev WalkTransport (G N : Type) : Interface := ⟨Question G, fun _ => Except Status (LookupOutcome G N)⟩

structure Position (G N : Type) where
  anchor : G
  rel : Text
  info : N
  deriving DecidableEq

variable {G N : Type}

structure MountEntry (G : Type) where
  mount : Text
  directory : G
  deriving DecidableEq

/-- `str::strip_prefix`. -/
def stripFront (front text : Text) : Option Text := if front <+: text then some (text.drop front.length) else none

def MountEntry.suffix (entry : MountEntry G) (path : Text) : Option Text :=
  if entry.mount = ['/'] then stripFront ['/'] path
  else
    match stripFront entry.mount path with
    | none => none
    | some [] => some []
    | some rest => stripFront ['/'] rest

/-- The longest mount in front of the path, the first one of that length, and what follows it. -/
def matchPath (table : List (MountEntry G)) (path : Text) : Option (MountEntry G × Text) := table.foldl (fun best entry =>
    match entry.suffix path, best with
    | none, _ => best
    | some suffix, none => some (entry, suffix)
    | some suffix, some (current, _) =>
      if utf8Length current.mount < utf8Length entry.mount then some (entry, suffix) else best) none

structure Budget where
  links : Nat
  components : Nat
  bytes : Nat
  deriving DecidableEq

def Budget.charge (budget : Budget) (name : Text) : Outcome ResolveError Budget := do
  let components := budget.components + 1
  let bytes := budget.bytes + utf8Length name
  refuseIf (decide (componentLimit < components) || decide (byteLimit < bytes)) .budgetExceeded
  pure { budget with components, bytes }

/-- `str::split`, which gives one empty part for an empty text. -/
def parts (text : Text) : List Text := text.splitOn '/'

def segments (text : Text) : List Text := if text.isEmpty then [] else parts text

def splitAbsoluteSuffix (suffix : Text) : Outcome ResolveError (List Text) := do
  if suffix.isEmpty then pure []
  else
    refuseIf ((parts suffix).any List.isEmpty) .illegalPath
    pure (parts suffix)

/-- A loop of `verify_cover`. -/
def agrees (frameRel : List Text) : Nat → List Text → Outcome ResolveError Unit
  | _, [] => pure ()
  | index, segment :: rest => do
    let name ← expect "index out of bounds" frameRel[index]?
    refuseIf (name != segment) .illegalPath
    agrees frameRel (index + 1) rest

def verifyCover (frameRel : List Text) (consumed remaining : Text) (withLink : Bool) : Outcome ResolveError Nat := do
  let skip := withLink.toNat
  let total := (segments consumed).length + skip + (segments remaining).length
  refuseIf (decide (frameRel.length < total)) .illegalPath
  agrees frameRel 0 (segments consumed)
  agrees frameRel ((segments consumed).length + skip) (segments remaining)
  pure (segments consumed).length

structure Frame (G : Type) where
  dir : G
  base : Nat
  deriving DecidableEq

/-- Between two lookups. The stack of frames is never empty; the top one is apart. -/
structure Walk (G : Type) where
  top : Frame G
  under : List (Frame G)
  logical : List Text
  budget : Budget
  deriving DecidableEq

namespace Walk

/-- Frames that begin beyond the end of the path are left, but never the last one. -/
def shrink (depth : Nat) : Frame G → List (Frame G) → Frame G × List (Frame G)
  | top, [] => (top, [])
  | top, next :: under => if depth < top.base then shrink depth next under else (top, next :: under)

/-- One component of `normalize`: the path so far, the frames, and whether a dot was there. -/
def fold (state : List Text × (Frame G × List (Frame G)) × Bool) (component : Text) :
    List Text × (Frame G × List (Frame G)) × Bool :=
  let (work, frames, changed) := state
  if component = ['.'] then (work, frames, true)
  else if component = ['.', '.'] then
    if work.isEmpty then (work, frames, true)
    else (work.dropLast, shrink work.dropLast.length frames.1 frames.2, true)
  else (work ++ [component], frames, changed)

def normalize (walk : Walk G) : Walk G :=
  let (work, frames, changed) := walk.logical.foldl fold ([], (walk.top, walk.under), false)
  let frames := if changed then shrink work.length frames.1 frames.2 else frames
  { walk with top := frames.1, under := frames.2, logical := work }

/-- `logical[frame.base..]`. -/
def relative (walk : Walk G) : Outcome ResolveError (List Text) := slice walk.logical walk.top.base walk.logical.length

/-- What the head of the outer loop does with the path it has come to. -/
def enter (table : List (MountEntry G)) (current : Text) (budget : Budget) : Outcome ResolveError (Walk G) := do
  let (entry, suffix) ← okOr .noProvider (matchPath table current)
  let logical ← splitAbsoluteSuffix suffix
  let budget ← logical.foldlM Budget.charge budget
  pure ⟨⟨entry.directory, 0⟩, [], logical, budget⟩

def delegate (walk : Walk G) (dir : G) (consumed remaining : Text) : Outcome ResolveError (Walk G) := do
  let consumedCount ← verifyCover (← walk.relative) consumed remaining false
  pure { walk with top := ⟨dir, walk.top.base + consumedCount⟩, under := walk.top :: walk.under }

def behind (target : Text) (after : List Text) : Text :=
  after.foldl (fun current component => (if ['/'] <:+ current then current else current ++ ['/']) ++ component) target

def link (walk : Walk G) (table : List (MountEntry G)) (consumed target remaining : Text) : Outcome ResolveError (Walk G) := do
  refuseIf (walk.budget.links == 0) .tooManyLinks
  let budget := { walk.budget with links := walk.budget.links - 1 }
  let consumedCount ← verifyCover (← walk.relative) consumed remaining true
  let linkAt := walk.top.base + consumedCount
  let after ← slice walk.logical (linkAt + 1) walk.logical.length
  if ['/'] <+: target then enter table (behind target after) budget
  else
    let budget ← (parts target).foldlM (fun budget segment => do
      refuseIf segment.isEmpty .illegalPath
      budget.charge segment) budget
    pure { walk with logical := walk.logical.take linkAt ++ parts target ++ after, budget }

end Walk

/-- The loop of `resolve`, with the number of lookups that are left. -/
def resolveFrom (table : List (MountEntry G)) (policy : ResolvePolicy) :
    Nat → Walk G → Routine (WalkTransport G N) ResolveError Unit (Position G N)
  | left, walk => do
    let walk := walk.normalize
    let rel := ['/'].intercalate (← Routine.lift walk.relative)
    match left with
    | 0 => Routine.lift (fail .stepLimit)
    | left + 1 =>
      match ← Routine.ask (I := WalkTransport G N) ⟨walk.top.dir, policy, rel⟩ with
      | .error status => Routine.lift (fail (.status status))
      | .ok (.found info) => pure ⟨walk.top.dir, rel, info⟩
      | .ok (.delegate dir consumed remaining) =>
        if rel.isEmpty then Routine.lift (fail (.status .internal))
        else resolveFrom table policy left (← Routine.lift (walk.delegate dir consumed remaining))
      | .ok (.link consumed target remaining) =>
        if rel.isEmpty then Routine.lift (fail (.status .internal))
        else resolveFrom table policy left (← Routine.lift (walk.link table consumed target remaining))

def resolve (table : List (MountEntry G)) (path : Text) (policy : ResolvePolicy) :
    Routine (WalkTransport G N) ResolveError Unit (Position G N) := do
  if ['/'] <+: path then
    resolveFrom table policy stepLimit (← Routine.lift (Walk.enter table path ⟨symlinkLimit, 0, 0⟩))
  else Routine.lift (fail .illegalPath)

end Halcyon.Paths
