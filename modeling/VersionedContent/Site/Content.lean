import VersionedContent.Site.Site

/-!
# The content of a site

New content enters a site as a container without history and the edges of one
branch to it. Content is read in pages of one bucket, in cursor order, drafts
before published content. A purge goes through it and takes out the containers
that others have succeeded and no edge points at any more.
-/

namespace VersionedContent.Site

/-- Stores a new container and one edge to it for each container type given. -/
def addContent (branchId nodeId : Id) (language : String) (schemaVersionId : Id)
    (fields : FieldMap) (types : List ContainerType) : Action Id := do
  let container := Container.create (← nextContainerId) (← Action.now) nodeId language
    schemaVersionId fields
  Action.transact (Store.insertContainer container)
  countContainer
  types.forM fun type => setEdge (.toContainer branchId container type)
  return container.id

/-- Stores a successor of a stored container through an edge; the answer is its identifier, or
none when the store declines. -/
def addSuccessor (key : EdgeKey) (container : Container) (schemaVersionId : Id)
    (fields : FieldMap) : Action (Option Id) := do
  let successor := container.successor (← nextContainerId) (← Action.now) schemaVersionId fields
  if ← commitSuccessor key successor then
    countContainer
    return some successor.id
  else return none

/-- Goes through pages, each starting past the last item of the one before, and gathers what
is found on them. A page that is not full is the last one. -/
def gather {α β : Type} (limit : Limit) (bucket : Nat) (fetch : Option Cursor → Action (List α))
    (cursorOf : α → Cursor) (visit : List α → Action (List β)) :
    Nat → Option Cursor → Action (List β)
  | 0, _ => do
    limit.cut
    return []
  | rounds + 1, cursor => do
    let page ← fetch cursor
    match page.getLast? with
    | none => return []
    | some last => do
      let found ← visit page
      if page.length = bucket then
        return found ++
          (← gather limit bucket fetch cursorOf visit rounds (some (cursorOf last)))
      else return found

/-- Goes through the pages of drafts, then of published content. No page but the last is
empty, so there are no more pages than edges. -/
def gatherAll {α β : Type} (limit : Limit)
    (fetch : ContainerType → Option Cursor → Nat → Action (List α)) (cursorOf : α → Cursor)
    (visit : List α → Action (List β)) : Action (List β) := do
  let site ← get
  let found ← ContainerType.all.mapM fun type =>
    gather limit site.bucketSize (fun cursor => fetch type cursor site.bucketSize) cursorOf visit
      (limit.rounds (site.store.edges.size + 1)) none
  return found.flatten

/-- Goes back along the history of a container and takes out what no edge points at and is old
enough. A history is no longer than the number of containers. -/
def purgeHistory (limit : Limit) (before : Option Instant) : Nat → Option Id → Action Unit
  | _, none => return
  | 0, some _ => limit.cut
  | rounds + 1, some id => do
    match ← Action.query fun store => store.container? id with
    | none => return
    | some container =>
      let oldEnough := before.all fun before => container.createdAt.before before
      if oldEnough then
        if !(← Action.query fun store => store.isReferenced container.id) then
          let _ ← deleteContainerVersion container.id
      purgeHistory limit before rounds container.previous

/-- Takes out the superseded containers behind one edge. -/
def purgeBehind (before : Option Instant) (edge : Edge) (limit : Limit := .ample) :
    Action Unit := do
  let store := (← get).store
  match store.container? edge.containerId with
  | none => return
  | some head =>
    purgeHistory limit before (limit.rounds (store.containers.size + 1)) head.previous

/-- Takes out the superseded containers behind the edges of a branch. -/
def purgeBranch (before : Option Instant) (branch : Branch) (limit : Limit := .ample) :
    Action Unit := do
  let _ ← gatherAll limit
    (fun type cursor size => Action.query fun store =>
      store.edgePage branch.id type cursor size)
    Edge.cursor
    (fun page => page.mapM fun edge => purgeBehind before edge limit)

/-- Takes out the superseded containers of a project. -/
def purgeVersions (projectId : Id) (before : Option Instant) (limit : Limit := .ample) :
    Action Unit := do
  let branches ← Action.query fun store => store.listBranches (some projectId)
  branches.forM fun branch => purgeBranch before branch limit

end VersionedContent.Site
