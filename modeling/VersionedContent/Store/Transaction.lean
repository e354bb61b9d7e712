import VersionedContent.Store.Fault
import VersionedContent.Store.Store

/-!
# Transactions

Writes to the store. A transaction may decline, answering `false` or none, or
fail with a fault. Every transaction looks before it writes: what declines or
fails has written nothing.
-/

namespace VersionedContent

/-- A write to the store with an answer. -/
abbrev Transaction (α : Type) := ExceptT StoreFault (StateM Store) α

namespace Store

/-- Stores a version and links the version before it to it. Declines when that one has a
successor, or, for a first version, when the chain has a version. -/
def appendVersion (version : Version) : Transaction Bool := do
  let store ← get
  match version.previous with
  | some previousId =>
    match store.version? previousId with
    | none => throw (.versionMissing previousId)
    | some previous =>
      if previous.next.isSome then return false
      modify fun store =>
        { store with versions := store.versions.insert { previous with next := some version.id } }
  | none =>
    if !(store.chainVersions version.kind version.name).isEmpty then return false
  modify fun store => { store with versions := store.versions.insert version }
  return true

/-- Stores a branch. -/
def upsertBranch (branch : Branch) : Transaction Unit :=
  modify fun store => { store with branches := store.branches.insert branch }

/-- Logs a job. -/
def insertJob (job : Job) : Transaction Unit :=
  modify fun store => { store with jobs := store.jobs.append job }

/-- Starts the next eligible job. -/
def claimNextJob (startedAt : Instant) : Transaction (Option Job) := do
  let store ← get
  match store.jobs.nextEligible? with
  | none => return none
  | some entry =>
    let job := { entry.job with status := .started, startedAt := some startedAt }
    set { store with jobs := store.jobs.replace entry.sequence job }
    return some job

/-- Ends a running job. Declines when the job does not run or the status is no end. -/
def finishJob (id : Id) (status : JobStatus) (error : Option JobError) (stoppedAt : Instant) :
    Transaction (Option Job) := do
  let store ← get
  let entry? := (Dict.get? store.jobs.index id).bind store.jobs.entry?
  match entry? with
  | none => return none
  | some entry =>
    if !entry.job.status.canBecome status || entry.job.status != .started then return none
    let job := { entry.job with status := status, error := error, stoppedAt := some stoppedAt }
    set { store with jobs := store.jobs.replace entry.sequence job }
    return some job

/-- Drops all jobs of a status and tells how many they were. -/
def deleteJobsWithStatus (status : JobStatus) : Transaction Nat := do
  let store ← get
  let doomed := store.jobs.entries.filter fun entry => entry.job.status = status
  set { store with jobs := store.jobs.drop doomed }
  return doomed.length

/-- Drops a job that does not run. -/
def deleteJob (id : Id) : Transaction Bool := do
  let store ← get
  match Dict.get? store.jobs.index id with
  | none => return false
  | some sequence =>
    let running := (store.jobs.entry? sequence).any fun entry => entry.job.status = .started
    if running then return false
    set { store with
      jobs := { store.jobs with
        entries := store.jobs.entries.filter fun entry => entry.sequence ≠ sequence
        index := Dict.erase store.jobs.index id } }
    return true

/-- Drops all jobs and tells how many they were. Declines while a job runs. -/
def clearJobs : Transaction (Option Nat) := do
  let store ← get
  if store.jobs.isRunning then return none
  set { store with jobs := { store.jobs with entries := [], index := [] } }
  return some store.jobs.entries.length

/-- Stores a container. -/
def insertContainer (container : Container) : Transaction Unit :=
  modify fun store => { store with containers := store.containers.insert container }

/-- Stores an edge to a container that is stored. -/
def setEdge (edge : Edge) : Transaction Unit := do
  let store ← get
  if !store.containers.contains edge.containerId then throw (.containerMissing edge.containerId)
  set { store with edges := store.edges.insert edge }

/-- Stores a successor, links the container before it to it and turns the edge to it. Declines
when the edge no longer points at the container before it. -/
def commitSuccessor (key : EdgeKey) (successor : Container) : Transaction Bool := do
  let store ← get
  match successor.previous with
  | none => throw (.noPredecessor successor.id)
  | some previousId =>
    match store.edge? key with
    | none => return false
    | some edge =>
      if edge.containerId ≠ previousId then return false
      if store.containers.contains successor.id then throw (.containerPresent successor.id)
      match store.container? previousId with
      | none => throw (.containerMissing previousId)
      | some previous =>
        let linked := { previous with next := IdSet.insert previous.next successor.id }
        set { store with
          containers := (store.containers.insert linked).insert successor
          edges := store.edges.insert { edge with containerId := successor.id } }
        return true

/-- Joins the neighbours of a container that has been taken out: its successors get its
predecessor, and the predecessor gets them all. -/
def splice (containers : Table Container Container.id) (removed : Container) :
    Table Container Container.id :=
  let containers :=
    match removed.previous.bind containers.find? with
    | none => containers
    | some previous =>
      containers.insert
        { previous with next := IdSet.union (IdSet.erase previous.next removed.id) removed.next }
  removed.next.foldl (fun containers id =>
    match containers.find? id with
    | none => containers
    | some next => containers.insert { next with previous := removed.previous }) containers

/-- Takes a superseded container out of its history. Declines when it is not stored. -/
def deleteContainerVersion (id : Id) : Transaction Bool := do
  let store ← get
  if store.isReferenced id then throw (.stillReferenced id)
  match store.container? id with
  | none => return false
  | some removed =>
    set { store with containers := splice (store.containers.erase id) removed }
    return true

end Store

end VersionedContent
