import VersionedContent.Content.Container
import VersionedContent.Schema.Version

/-!
# Jobs

A job is one piece of migration work. It waits, runs, and ends completed or
failed; nothing leads back. Jobs of one scope, a branch or a project, run one
at a time in the order of their creation.
-/

namespace VersionedContent

/-- How far a job has come. -/
inductive JobStatus where
  /-- It waits. -/
  | queued
  /-- It runs. -/
  | started
  /-- It has ended well. -/
  | completed
  /-- It has ended badly. -/
  | failed
  deriving DecidableEq, Repr

namespace JobStatus

/-- The name of a status. -/
def name : JobStatus → String
  | queued => "queued"
  | started => "started"
  | completed => "completed"
  | failed => "failed"

/-- The statuses under their names. -/
def byName : List (String × JobStatus) :=
  [queued, started, completed, failed].map fun status => (status.name, status)

/-- The status of a name. -/
def ofName? (name : String) : Option JobStatus := byName.lookup name

/-- Reads a status. -/
def ofJson : Json → Except Mismatch JobStatus := Json.asName byName

/-- Every status is found under its name. -/
@[simp] theorem ofName?_name (status : JobStatus) : ofName? status.name = some status := by
  cases status <;> rfl

/-- Whether a job of this status has ended. -/
def isTerminal : JobStatus → Bool
  | completed => true
  | failed => true
  | _ => false

/-- Whether a job may go from one status to another. -/
def canBecome : JobStatus → JobStatus → Bool
  | queued, started => true
  | started, completed => true
  | started, failed => true
  | _, _ => false

/-- A job that has ended stays as it is. -/
theorem canBecome_of_isTerminal {status : JobStatus} (h : status.isTerminal = true)
    (next : JobStatus) : status.canBecome next = false := by
  cases status <;> cases next <;> first | rfl | cases h

end JobStatus

/-- What a job does. -/
inductive JobType where
  /-- Moves content to another schema version. -/
  | schema
  /-- Moves embedded content to another microschema version. -/
  | microschema
  /-- Copies the content of a base branch. -/
  | branch
  /-- Deletes superseded content. -/
  | versionPurge
  deriving DecidableEq, Repr

namespace JobType

/-- The name of a job type. -/
def name : JobType → String
  | schema => "schema"
  | microschema => "microschema"
  | branch => "branch"
  | versionPurge => "versionpurge"

/-- The job types under their names. -/
def byName : List (String × JobType) :=
  [schema, microschema, branch, versionPurge].map fun type => (type.name, type)

/-- Reads a job type. -/
def ofJson : Json → Except Mismatch JobType := Json.asName byName

end JobType

/-- What a job does, and to what. -/
inductive JobKind where
  /-- Moves the content of a branch from one schema version to another. -/
  | schema (branchId source target : Id)
  /-- Moves the embedded content of a branch from one microschema version to another. -/
  | microschema (branchId source target : Id)
  /-- Copies the content of the base branch, and may then move it between two versions. -/
  | branch (branchId : Id) (source target : Option Id)
  /-- Deletes superseded content of a project made before an instant. -/
  | versionPurge (projectId : Id) (before : Option Instant)
  deriving DecidableEq, Repr

namespace JobKind

/-- The type of a job. -/
def type : JobKind → JobType
  | schema .. => .schema
  | microschema .. => .microschema
  | branch .. => .branch
  | versionPurge .. => .versionPurge

/-- The branch that a job works on. -/
def branchId? : JobKind → Option Id
  | schema branchId _ _ => some branchId
  | microschema branchId _ _ => some branchId
  | branch branchId _ _ => some branchId
  | versionPurge .. => none

/-- What jobs of one scope share: the branch, or for purges the project. -/
def scope : JobKind → String
  | versionPurge projectId _ => "project:" ++ projectId
  | kind => "branch:" ++ kind.branchId?.getD ""

/-- The job that moves content between two versions of a kind. -/
def migration (kind : Kind) (branchId source target : Id) : JobKind :=
  match kind with
  | .schema => .schema branchId source target
  | .microschema => .microschema branchId source target

/-- The JSON form of a job kind. -/
def toJson : JobKind → Json
  | schema branchId source target =>
    .object [("branch_id", .string branchId), ("from_version", .string source),
      ("to_version", .string target), ("type", .string "schema")]
  | microschema branchId source target =>
    .object [("branch_id", .string branchId), ("from_version", .string source),
      ("to_version", .string target), ("type", .string "microschema")]
  | branch branchId source target =>
    .object [("branch_id", .string branchId), ("from_version", Json.ofOption source),
      ("to_version", Json.ofOption target), ("type", .string "branch")]
  | versionPurge projectId before =>
    .object [("before", Json.ofOption (before.map Instant.textZulu)),
      ("project_id", .string projectId), ("type", .string "versionpurge")]

/-- Reads the two versions of a migration. -/
def migrationOfJson (make : Id → Id → Id → JobKind) (content : Json) :
    Except Mismatch JobKind := do
  let members ← content.asRecord "struct variant" ["branch_id", "from_version", "to_version"]
  let branchId ← members.required "branch_id" Json.asText
  let source ← members.required "from_version" Json.asText
  let target ← members.required "to_version" Json.asText
  pure (make branchId source target)

/-- Reads a job kind. -/
def ofJson (json : Json) : Except Mismatch JobKind := do
  let (name, content) ← json.tagged "type" "internally tagged enum JobKind"
  match ← Json.asWord JobType.byName name with
  | .schema => migrationOfJson .schema content
  | .microschema => migrationOfJson .microschema content
  | .branch =>
    let members ← content.asRecord "struct variant" ["branch_id", "from_version", "to_version"]
    let branchId ← members.required "branch_id" Json.asText
    let source ← members.optional "from_version" Json.asText
    let target ← members.optional "to_version" Json.asText
    pure (.branch branchId source target)
  | .versionPurge =>
    let members ← content.asRecord "struct variant" ["project_id", "before"]
    let projectId ← members.required "project_id" Json.asText
    let before ← members.optional "before" Instant.ofJson
    pure (.versionPurge projectId before)

end JobKind

/-- A container that a job could not migrate. -/
structure ContainerError where
  /-- The container. -/
  containerId : Id
  /-- Its node. -/
  nodeId : Id
  /-- Its language. -/
  language : String
  /-- The container type of the edge that led to it. -/
  type : ContainerType
  /-- The field that could not follow, if it was one. -/
  field : Option String
  /-- What went wrong. -/
  message : String
  deriving DecidableEq, Repr

namespace ContainerError

/-- The error in one line. -/
def text (error : ContainerError) : String :=
  let field := match error.field with
    | some field => " field '" ++ field ++ "'"
    | none => ""
  "container " ++ error.containerId ++ " (node " ++ error.nodeId ++ ", " ++ error.language ++
    ", " ++ error.type.name ++ ")" ++ field ++ ": " ++ error.message

/-- Reads a container error. -/
def ofJson (json : Json) : Except Mismatch ContainerError := do
  let members ← json.asRecord "struct ContainerError"
    ["container_id", "node_id", "language", "container_type", "field", "message"]
  pure {
    containerId := ← members.required "container_id" Json.asText
    nodeId := ← members.required "node_id" Json.asText
    language := ← members.required "language" Json.asText
    type := ← members.required "container_type" ContainerType.ofJson
    field := ← members.nullable "field" Json.asText
    message := ← members.required "message" Json.asText }

end ContainerError

/-- Why a job failed. -/
structure JobError where
  /-- What went wrong with the job as a whole. -/
  message : String
  /-- What went wrong with single containers. -/
  containerErrors : List ContainerError := []
  deriving DecidableEq, Repr

namespace JobError

/-- The error of a job that could not migrate some containers. -/
def ofContainerErrors (errors : List ContainerError) : JobError where
  message := toString errors.length ++ " container(s) failed to migrate"
  containerErrors := errors

/-- Reads a job error. -/
def ofJson (json : Json) : Except Mismatch JobError := do
  let members ← json.asRecord "struct JobError" ["message", "container_errors"]
  pure {
    message := ← members.required "message" Json.asText
    containerErrors := ←
      members.withDefault "container_errors" [] (Json.asList ContainerError.ofJson) }

end JobError

/-- A piece of migration work. -/
structure Job where
  /-- Identifies the job. -/
  id : Id
  /-- What it does. -/
  kind : JobKind
  /-- How far it has come. -/
  status : JobStatus
  /-- When it was queued. -/
  createdAt : Instant
  /-- When it was started. -/
  startedAt : Option Instant
  /-- When it ended. -/
  stoppedAt : Option Instant
  /-- Why it failed. -/
  error : Option JobError
  /-- The failed job that it repeats. -/
  retryOf : Option Id
  deriving DecidableEq, Repr

namespace Job

/-- A job that waits. -/
def queue (id : Id) (createdAt : Instant) (kind : JobKind) (retryOf : Option Id) : Job where
  id := id
  kind := kind
  status := .queued
  createdAt := createdAt
  startedAt := none
  stoppedAt := none
  error := none
  retryOf := retryOf

/-- What jobs of one scope share. -/
def scope (job : Job) : String := job.kind.scope

/-- The members of a job in their order of declaration. -/
def memberNames : List String :=
  ["id", "kind", "status", "created_at", "started_at", "stopped_at", "error", "retry_of"]

/-- Reads a job. -/
def ofJson (json : Json) : Except Mismatch Job := do
  let members ← json.asRecord "struct MigrationJob" memberNames
  pure {
    id := ← members.required "id" Json.asText
    kind := ← members.required "kind" JobKind.ofJson
    status := ← members.required "status" JobStatus.ofJson
    createdAt := ← members.required "created_at" Instant.ofJson
    startedAt := ← members.nullable "started_at" Instant.ofJson
    stoppedAt := ← members.nullable "stopped_at" Instant.ofJson
    error := ← members.nullable "error" JobError.ofJson
    retryOf := ← members.nullable "retry_of" Json.asText }

end Job

/-- Criteria for listing jobs; those that are not set match every job. -/
structure JobFilter where
  /-- The status. -/
  status : Option JobStatus := none
  /-- The type. -/
  type : Option JobType := none
  /-- The branch. -/
  branchId : Option Id := none
  deriving DecidableEq, Repr

namespace JobFilter

/-- Whether a job meets all criteria that are set. -/
def accepts (filter : JobFilter) (job : Job) : Bool :=
  filter.status.all (job.status = ·) && filter.type.all (job.kind.type = ·) &&
    filter.branchId.all (fun id => job.kind.branchId? = some id)

/-- Reads a filter. -/
def ofJson (json : Json) : Except Mismatch JobFilter := do
  let members ← json.asRecord "struct JobFilter" ["status", "job_type", "branch_id"]
  pure {
    status := ← members.nullable "status" JobStatus.ofJson
    type := ← members.nullable "job_type" JobType.ofJson
    branchId := ← members.nullable "branch_id" Json.asText }

/-- The filter without criteria accepts every job. -/
@[simp] theorem accepts_default (job : Job) : accepts {} job = true := rfl

end JobFilter

end VersionedContent
