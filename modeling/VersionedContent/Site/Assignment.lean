import VersionedContent.Site.Queue
import VersionedContent.Site.Registry
import VersionedContent.Text.Characters

/-!
# Branches and their pins

Creating branches and pinning versions on them. A pin moves forward along its
chain unless the step is forced. When content of the branch is on an older
version than the new pin, a job is queued that moves content from the former pin
to the new one.
-/

namespace VersionedContent.Site

/-- The branch of an identifier. -/
def branch (id : Id) : Action Branch := do
  Action.orNotFound "branch" id (← Action.query fun store => store.branch? id)

/-- Forgets the usage hashes of a branch. -/
def forgetUsage (branchId : Id) : Action Unit := modify fun site =>
  { site with memo := site.memo.forget branchId }

/-- Queues the job that moves content of a branch from one version to another. -/
def enqueueMigration (branchId : Id) (source target : Version) : Action Job :=
  enqueue (.migration target.kind branchId source.id target.id)

/-- Number of edges of a branch whose container follows a version. -/
def pendingCount (branchId : Id) (version : Version) : Action Nat :=
  .query fun store => store.countEdges version.kind branchId version.id

/-- Number of edges of a branch whose container follows one of some versions, added up. -/
def pendingTotal (branchId : Id) : List Version → Action Nat
  | [] => return 0
  | version :: rest => do
    let pending ← pendingCount branchId version
    return pending + (← pendingTotal branchId rest)

/-- Number of edges of a branch whose container follows a version of the chain below another. -/
def pendingBelow (branchId : Id) (pinned : Version) : Action Nat := do
  let chain ← versions pinned.kind pinned.name
  pendingTotal branchId (chain.filter fun older => older.number < pinned.number)

/-- Pins a version on a branch and queues the job that follows from it, if one does. -/
def pinVersion (branchId : Id) (requested : Version) (force : Bool) : Action (Option Job) := do
  let branch ← branch branchId
  let version ← version requested.id
  let former ← match branch.pinned? version.kind version.name with
    | none => pure none
    | some current =>
      if current = version.id then return none
      pure (some (← Site.version current))
  match former with
  | some former => if !force then let _ ← versionsBetween former version
  | none => pure ()
  upsertBranch (branch.pin version)
  if version.kind = .microschema then forgetUsage branchId
  match former with
  | none => return none
  | some former =>
    if former.number < version.number then
      if (← pendingBelow branchId version) = 0 then return none
      return some (← enqueueMigration branchId former version)
    else return none

/-- Pins a version that must be of a kind. -/
def assignOfKind (kind : Kind) (branchId : Id) (version : Version) (force : Bool) :
    Action (Option Job) := do
  if version.kind ≠ kind then throw (.validation (.otherKind version.name kind))
  pinVersion branchId version force

/-- Pins a version on a branch. -/
def assign (branchId : Id) (version : Version) (force : Bool) : Action (Option Job) :=
  assignOfKind version.kind branchId version force

/-- Pins the latest version of a chain on a branch. -/
def assignLatest (branchId : Id) (kind : Kind) (name : String) : Action (Option Job) := do
  assign branchId (← latestVersion kind name) false

/-- The version that a branch pins for a name. -/
def assignedVersion (branchId : Id) (kind : Kind) (name : String) : Action Version := do
  let branch ← branch branchId
  let id ← Action.orNotFound kind.name (name ++ " on branch " ++ branchId)
    (branch.pinned? kind name)
  version id

/-- All versions of a kind that a branch pins, in name order. -/
def assignedVersions (branchId : Id) (kind : Kind) : Action (List Version) := do
  let branch ← branch branchId
  (Dict.values (branch.pins kind)).mapM version

/-- Queues a job for every older version of a pinned one that content of the branch is on. -/
def migrateRemainingOf (branchId : Id) (kind : Kind) (pinned : Version) : Action (List Job) := do
  let chain ← versions kind pinned.name
  (chain.filter fun older => older.number < pinned.number).filterMapM fun older => do
    if 0 < (← pendingCount branchId older) then
      return some (← enqueueMigration branchId older pinned)
    return none

/-- Queues jobs for all content of a branch that is behind the pins of a kind. -/
def migrateRemaining (branchId : Id) (kind : Kind) : Action (List Job) := do
  let pinned ← assignedVersions branchId kind
  return (← pinned.mapM (migrateRemainingOf branchId kind)).flatten

/-- Number of edges of a branch whose container follows another version than the pinned one,
for each such version. -/
def remainingCount (branchId : Id) (kind : Kind) (name : String) : Action Nat := do
  let pinned ← assignedVersion branchId kind name
  let chain ← versions kind name
  pendingTotal branchId (chain.filter fun version => version.id ≠ pinned.id)

/-- Takes the mark of the newest branch from a branch. -/
def unmarkLatest (other : Branch) : Action Unit := do
  let current ← branch other.id
  upsertBranch { current with latest := false }

/-- The new branch of a project: the first, or a fork of one of its branches. -/
def newBranch (projectId : Id) (name : String) (baseId : Option Id) (existing : List Branch) :
    Action Branch := do
  match baseId with
  | none =>
    if !existing.isEmpty then throw (.validation .baseRequired)
    return .initial (← nextBranchId) (← Action.now) projectId name
  | some baseId =>
    let base ← branch baseId
    if base.projectId ≠ projectId then throw (.validation (.foreignBase baseId))
    return base.fork (← nextBranchId) (← Action.now) name

/-- Creates a branch; a forked one gets a job that copies the content of its base. -/
def createBranch (projectId : Id) (name : String) (baseId : Option Id) :
    Action (Branch × Option Job) := do
  if (Text.trim name).isEmpty then throw (.validation .emptyBranchName)
  let existing ← Action.query fun store => store.listBranches (some projectId)
  if existing.any fun other => other.name = name then
    throw (.conflict (.branchExists name projectId))
  let branch ← newBranch projectId name baseId existing
  (existing.filter Branch.latest).forM unmarkLatest
  addBranch branch
  match baseId with
  | none => return (branch, none)
  | some _ => return (branch, some (← enqueue (.branch branch.id none none)))

/-- The usage hash of a schema version on a branch. -/
def computeHash (versionId branchId : Id) (replacements : Dict Id) : Action String := do
  let version ← version versionId
  let branch ← branch branchId
  let site ← get
  let (hash, memo) := site.memo.hash version branch replacements
  set { site with memo := memo }
  return hash

end VersionedContent.Site
