import VersionedContent.Branching.Branch
import VersionedContent.Collection.Table
import VersionedContent.Content.Container
import VersionedContent.Jobs.JobLog

/-!
# The store

All records of a site: versions, branches, jobs, containers and edges. This
module holds what can be asked of the store. Nothing here assumes that links
between records lead anywhere.

Edges of a branch are listed in pages: those past a cursor, in cursor order, up
to a size.
-/

namespace VersionedContent

/-- All records of a site. -/
structure Store where
  /-- The versions of all schemas. -/
  versions : Table Version Version.id := {}
  /-- The branches of all projects. -/
  branches : Table Branch Branch.id := {}
  /-- The jobs. -/
  jobs : JobLog := {}
  /-- The containers, current and superseded. -/
  containers : Table Container Container.id := {}
  /-- The edges of all branches. -/
  edges : Table Edge Edge.key := {}

namespace Store

/-- The version of an identifier. -/
def version? (store : Store) (id : Id) : Option Version := store.versions.find? id

/-- The versions of a chain, in the order in which they were stored. -/
def chainVersions (store : Store) (kind : Kind) (name : String) : List Version :=
  store.versions.rows.filter fun version => version.inChain kind name

/-- The version of a chain with a number. -/
def findVersion? (store : Store) (kind : Kind) (name : String) (number : Nat) : Option Version :=
  (store.chainVersions kind name).find? fun version => version.number = number

/-- The first version of a chain. -/
def rootVersion? (store : Store) (kind : Kind) (name : String) : Option Version :=
  (store.chainVersions kind name).find? Version.isRoot

/-- The latest version of a chain. -/
def latestVersion? (store : Store) (kind : Kind) (name : String) : Option Version :=
  (store.chainVersions kind name).find? Version.isLatest

/-- The names of all chains of a kind, in order. -/
def schemaNames (store : Store) (kind : Kind) : List String :=
  ((store.versions.rows.filter fun version => version.kind = kind && version.isRoot).map
    Version.name).mergeSort fun a b => a ≤ b

/-- The branch of an identifier. -/
def branch? (store : Store) (id : Id) : Option Branch := store.branches.find? id

/-- The branches of a project, or of all projects, in listing order. -/
def listBranches (store : Store) (projectId : Option Id) : List Branch :=
  (store.branches.rows.filter fun branch =>
    projectId.all (branch.projectId = ·)).mergeSort Branch.listedBefore

/-- The container of an identifier. -/
def container? (store : Store) (id : Id) : Option Container := store.containers.find? id

/-- The edge of a key. -/
def edge? (store : Store) (key : EdgeKey) : Option Edge := store.edges.find? key

/-- The edges of a branch and type past a bound, in cursor order. -/
def orderedEdges (store : Store) (branchId : Id) (type : ContainerType) (after : Option Cursor) :
    List Edge :=
  (store.edges.rows.filter fun edge =>
    edge.branchId = branchId && edge.type = type && edge.cursor.isAfter after).mergeSort
    fun a b => !b.cursor.precedes a.cursor

/-- An edge with the container it points at. -/
def withContainer (store : Store) (edge : Edge) : Option (Edge × Container) :=
  (store.container? edge.containerId).map fun container => (edge, container)

/-- A page of the edges of a branch and type. -/
def edgePage (store : Store) (branchId : Id) (type : ContainerType) (after : Option Cursor)
    (size : Nat) : List Edge :=
  (store.orderedEdges branchId type after).take size

/-- A page of the edges whose container passes a test. -/
def contentPage (store : Store) (keep : Container → Bool) (branchId : Id) (type : ContainerType)
    (after : Option Cursor) (size : Nat) : List (Edge × Container) :=
  (((store.orderedEdges branchId type after).filterMap store.withContainer).filter fun entry =>
    keep entry.2).take size

/-- Whether a container is to be moved when content leaves a version of a kind. -/
def followsVersion (kind : Kind) (versionId : Id) (container : Container) : Bool :=
  match kind with
  | .schema => container.schemaVersionId = versionId
  | .microschema => container.holdsMicronodeVersion versionId

/-- Number of edges of a branch, of any type, whose container follows a version. -/
def countEdges (store : Store) (kind : Kind) (branchId versionId : Id) : Nat :=
  ((store.edges.rows.filter fun edge => edge.branchId = branchId).filterMap
    store.withContainer).countP fun entry => followsVersion kind versionId entry.2

/-- Number of containers, current and superseded, that follow a schema version. -/
def countContainers (store : Store) (versionId : Id) : Nat :=
  store.containers.rows.countP fun container => container.schemaVersionId = versionId

/-- Whether an edge of any branch points at a container. -/
def isReferenced (store : Store) (containerId : Id) : Bool :=
  store.edges.rows.any fun edge => edge.containerId = containerId

/-- The sizes of the store in one line. -/
def summary (store : Store) : String :=
  "MemoryStore \x7b version_count: " ++ toString store.versions.size ++
    ", branch_count: " ++ toString store.branches.size ++
    ", job_count: " ++ toString store.jobs.entries.length ++
    ", container_count: " ++ toString store.containers.size ++ " \x7d"

end Store

end VersionedContent
