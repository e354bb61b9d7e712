import VersionedContent.Content.Migration
import VersionedContent.Site.Assignment
import VersionedContent.Site.Content

/-!
# Running jobs

A job that has been claimed is run to its end, whatever happens on the way: what
goes wrong is recorded on the job. A container that cannot be migrated stays where
it is and is reported; the cursor moves past it.
-/

namespace VersionedContent

/-- How the content of one job moves. -/
structure MigrationPlan where
  /-- The version that content leaves. -/
  source : Version
  /-- The version that content goes to. -/
  target : Version
  /-- The changes of all versions after the one up to the other. -/
  changes : List Change
  /-- The definition that content follows afterwards. -/
  definition : Definition

namespace MigrationPlan

/-- The plan, for embedded content. -/
def embedding (plan : MigrationPlan) : Embedding where
  source := plan.source.id
  target := plan.target.id
  changes := plan.changes
  definition := plan.definition

/-- The field values of the successor of a container. -/
def successorFields (plan : MigrationPlan) (container : Container) :
    Except FieldError FieldMap :=
  match plan.source.kind with
  | .schema => migrateFields container.fields plan.changes plan.definition
  | .microschema => plan.embedding.carry container.fields

/-- The schema version of the successor of a container. -/
def successorVersion (plan : MigrationPlan) (container : Container) : Id :=
  match plan.source.kind with
  | .schema => plan.target.id
  | .microschema => container.schemaVersionId

/-- Whether there is nothing to do for a container. -/
def isDone (plan : MigrationPlan) (container : Container) : Bool :=
  match plan.source.kind with
  | .schema => container.schemaVersionId = plan.target.id
  | .microschema => !container.holdsMicronodeVersion plan.source.id

end MigrationPlan

/-- The report of a container that was found through an edge. -/
def ContainerError.at (edge : Edge) (container : Container) (field : Option String)
    (message : String) : ContainerError where
  containerId := container.id
  nodeId := edge.nodeId
  language := edge.language
  type := edge.type
  field := field
  message := message

namespace Site

/-- The plan for moving content between two versions of a kind. -/
def plan (kind : Kind) (sourceId targetId : Id) (limit : Limit := .ample) :
    Action MigrationPlan := do
  let source ← version sourceId
  let target ← version targetId
  if source.kind ≠ kind ∨ target.kind ≠ kind then
    throw (.execution (.wrongKind kind source.kind source.name target.kind target.name))
  let steps ← versionsBetween source target limit
  let _ ← compiled source
  let compiledTarget ← compiled target
  return {
    source := source
    target := target
    changes := steps.flatMap Version.changes
    definition := compiledTarget.version.definition }

/-- Moves one container; the answer is the report of what went wrong. -/
def migrateContainer (plan : MigrationPlan) (edge : Edge) (container : Container) :
    Action (Option ContainerError) := do
  if plan.isDone container then return none
  match plan.successorFields container with
  | .error error =>
    return some (.at edge container (some error.field) error.cause.message)
  | .ok fields =>
    let successor := container.successor (← nextContainerId) (← Action.now)
      (plan.successorVersion container) fields
    match ← (commitSuccessor edge.key successor).attempt with
    | .ok true =>
      countContainer
      return none
    | .ok false =>
      return some (.at edge container none "container was modified concurrently")
    | .error (.store fault) => return some (.at edge container none fault.fullMessage)
    | .error failure => return some (.at edge container none failure.message)

/-- Moves the content of a branch according to a plan; the answer is the reports of the
containers that stayed. -/
def migrateBranchContent (branchId : Id) (plan : MigrationPlan) (limit : Limit := .ample) :
    Action (List ContainerError) := do
  let _ ← branch branchId
  gatherAll limit
    (fun type cursor size => Action.query fun store =>
      store.contentPage (Store.followsVersion plan.source.kind plan.source.id) branchId type
        cursor size)
    (fun entry => entry.1.cursor)
    (fun page => page.filterMapM fun entry => migrateContainer plan entry.1 entry.2)

/-- Gives a branch an edge of its base, unless it has one of its own there. -/
def copyEdge (branchId : Id) (edge : Edge) : Action Unit := do
  let copy := { edge with branchId := branchId }
  if (← Action.query fun store => store.edge? copy.key).isNone then setEdge copy

/-- Points a branch at the content of its base and marks it migrated. -/
def copyBaseBranch (branchId : Id) (limit : Limit := .ample) : Action Unit := do
  let forked ← branch branchId
  if forked.migrated then return
  match forked.baseId with
  | none => throw (.execution (.noBase branchId))
  | some baseId =>
    let _ ← gatherAll limit
      (fun type cursor size => Action.query fun store =>
        store.edgePage baseId type cursor size)
      Edge.cursor
      (fun page => page.mapM (copyEdge branchId))
    let current ← branch branchId
    upsertBranch { current with migrated := true }

/-- Does the work of a job; the answer is the reports of the containers that stayed. -/
def execute (kind : JobKind) (limit : Limit := .ample) : Action (List ContainerError) :=
  match kind with
  | .schema branchId source target => do
    migrateBranchContent branchId (← plan .schema source target limit) limit
  | .microschema branchId source target => do
    migrateBranchContent branchId (← plan .microschema source target limit) limit
  | .branch branchId source target => do
    copyBaseBranch branchId limit
    match source, target with
    | some source, some target =>
      migrateBranchContent branchId (← plan .schema source target limit) limit
    | _, _ => return []
  | .versionPurge projectId before => do
    purgeVersions projectId before limit
    return []

/-- Forgets usage hashes after a job on a branch ended well, and announces its end. -/
def announce (job : Job) : Action Unit := do
  match job.kind.branchId? with
  | some branchId => if job.status = .completed then forgetUsage branchId
  | none => pure ()
  modify fun site => { site with events := site.events.send (.ofJob job) }

/-- Runs a claimed job and records how it ended; none when that could not be recorded. -/
def process (job : Job) (limit : Limit := .ample) : Action (Option Job) := do
  let recorded ← match ← (execute job.kind limit).attempt with
    | .ok [] => (complete job.id).attempt
    | .ok errors => (fail job.id (.ofContainerErrors errors)).attempt
    | .error failure => (fail job.id { message := failure.message }).attempt
  match recorded with
  | .error _ => return none
  | .ok finished =>
    announce finished
    return some finished

/-- Claims and runs jobs until none is eligible, at most a number of them. -/
def drain (limit : Limit) : Nat → Action (List Job)
  | 0 => do
    limit.cut
    return []
  | rounds + 1 => do
    match ← claimNext with
    | none => return []
    | some job =>
      let finished ← process job limit
      let rest ← drain limit rounds
      return finished.toList ++ rest

/-- Claims and runs jobs until none is eligible. Every claim takes one from the jobs that
wait, and no job queues another one. -/
def runPending (limit : Limit := .ample) : Action (List Job) := do
  drain limit (limit.rounds ((← Action.query fun store => store.jobs.waiting) + 1))

end Site

end VersionedContent
