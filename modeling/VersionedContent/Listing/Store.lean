import VersionedContent.Branching.Branch
import VersionedContent.Content.Encoding
import VersionedContent.Jobs.Event
import VersionedContent.Store.Store

/-!
# Listed stores

What a listing shows of a record: everything but when it was made. Of the times
of a job it shows whether they are set. The failures of a job come from content
that was walked in no fixed order, so they are listed by type, node and language.

A store is listed with everything in it. Versions, branches, containers and jobs
stand in the order in which they were stored, edges by branch, type, node and
language.
-/

namespace VersionedContent

/-- What a listing shows of a version. -/
def Version.listing (version : Version) : Json :=
  Json.ofMembers [("id", .string version.id), ("kind", .string version.kind.name),
    ("name", .string version.name), ("version", .integer version.number),
    ("definition", version.definition.toJson), ("previous", Json.ofOption version.previous),
    ("next", Json.ofOption version.next), ("changes", .array (version.changes.map Change.toJson))]

namespace Branch

/-- What a listing shows of pins. -/
def pinsListing (pins : Dict Id) : Json := .object (pins.map fun pin => (pin.1, .string pin.2))

/-- What a listing shows of a branch. -/
def listing (branch : Branch) : Json :=
  Json.ofMembers [("id", .string branch.id), ("project_id", .string branch.projectId),
    ("name", .string branch.name), ("base_branch_id", Json.ofOption branch.baseId),
    ("latest", .bool branch.latest), ("migrated", .bool branch.migrated),
    ("auto_purge", .bool branch.autoPurge),
    ("schema_versions", pinsListing branch.schemaVersions),
    ("microschema_versions", pinsListing branch.microschemaVersions)]

end Branch

/-- What a listing shows of a container. -/
def Container.listing (container : Container) : Json :=
  Json.ofMembers [("id", .string container.id), ("node_id", .string container.nodeId),
    ("language", .string container.language),
    ("schema_version_id", .string container.schemaVersionId),
    ("fields", FieldMap.toJson container.fields),
    ("previous", Json.ofOption container.previous), ("next", Json.ofStrings container.next)]

namespace ContainerError

/-- The order of listed failures: by type, then by node, then by language. -/
def listedBefore (a b : ContainerError) : Bool :=
  a.type.rank < b.type.rank || (a.type.rank == b.type.rank &&
    (a.nodeId < b.nodeId || (a.nodeId == b.nodeId && a.language ≤ b.language)))

/-- What a listing shows of the failure of a container. -/
def listing (error : ContainerError) : Json :=
  Json.ofMembers [("container_id", .string error.containerId), ("node_id", .string error.nodeId),
    ("language", .string error.language), ("container_type", .string error.type.name),
    ("field", Json.ofOption error.field), ("message", .string error.message)]

end ContainerError

/-- What a listing shows of the failure of a job. -/
def JobError.listing (error : JobError) : Json :=
  Json.ofMembers [("message", .string error.message),
    ("container_errors", .array
      ((error.containerErrors.mergeSort ContainerError.listedBefore).map ContainerError.listing))]

/-- What a listing shows of a job. -/
def Job.listing (job : Job) : Json :=
  Json.ofMembers <| [("id", .string job.id), ("kind", job.kind.toJson),
    ("status", .string job.status.name), ("started_at", .bool job.startedAt.isSome),
    ("stopped_at", .bool job.stoppedAt.isSome)] ++
    optionalMember "error" (job.error.map JobError.listing) ++
    optionalMember "retry_of" (job.retryOf.map .string)

/-- What a listing shows of an announcement. -/
def Event.listing (event : Event) : Json :=
  Json.ofMembers <| [("job_id", .string event.jobId), ("job_type", .string event.jobType.name),
    ("branch_id", Json.ofOption event.branchId), ("success", .bool event.isSuccess)] ++
    match event.outcome with
    | .completed => [("outcome", .string "completed")]
    | .failed message => [("outcome", .string "failed"), ("message", .string message)]

/-- The order of listed edges: by branch, then by type, then by cursor. -/
def Edge.listedBefore (a b : Edge) : Bool :=
  a.branchId < b.branchId || (a.branchId == b.branchId &&
    (a.type.rank < b.type.rank || (a.type.rank == b.type.rank && !b.cursor.precedes a.cursor)))

/-- What a listing shows of the place of a version in its chain. -/
def Version.place (version : Version) : Json :=
  .array [.string version.id, .string version.kind.name, .string version.name,
    .integer version.number, Json.ofOption version.previous, Json.ofOption version.next]

/-- What a listing shows of a store. -/
def Store.listing (store : Store) : Json :=
  Json.ofMembers [
    ("versions", .array (store.versions.rows.map Version.place)),
    ("branches", .array (store.branches.rows.map Branch.listing)),
    ("containers", .array (store.containers.rows.map Container.listing)),
    ("edges", .array ((store.edges.rows.mergeSort Edge.listedBefore).map fun edge =>
      Json.ofStrings [edge.branchId, edge.type.name, edge.nodeId, edge.language,
        edge.containerId])),
    ("jobs", .array (store.jobs.jobs.map Job.listing))]

end VersionedContent
