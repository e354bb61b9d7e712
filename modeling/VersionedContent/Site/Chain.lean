import VersionedContent.Site.Site

/-!
# Walking chains

A walk goes over the versions of a chain from the first to the latest, one at a
time, along the links that the store holds. It ends at a version without a
successor; a link that leads nowhere fails, and so does one that leads back to a
version passed before, after which the walk is over.
-/

namespace VersionedContent

/-- Where a walk goes next. -/
inductive ChainCursor where
  /-- To the first version. -/
  | start
  /-- To the version of an identifier. -/
  | at (id : Id)
  /-- Nowhere. -/
  | done
  deriving DecidableEq, Repr

/-- A walk over the versions of a chain. -/
structure ChainWalk where
  /-- Kind of the schema. -/
  kind : Kind
  /-- Name of the schema. -/
  name : String
  /-- Where it goes next. -/
  cursor : ChainCursor := .start
  /-- The versions passed. -/
  seen : List Id := []
  deriving DecidableEq, Repr

namespace ChainWalk

/-- The walk at its start again. -/
def restart (walk : ChainWalk) : ChainWalk := { walk with cursor := .start, seen := [] }

/-- Steps on to a version. -/
def stepTo (walk : ChainWalk) (version : Version) :
    Except Failure (Option Version) × ChainWalk :=
  if version.id ∈ walk.seen then
    (.error (.execution (.chainLoops walk.kind walk.name version.number)),
      { walk with cursor := .done })
  else
    let cursor := match version.next with
      | some id => .at id
      | none => .done
    (.ok (some version), { walk with cursor := cursor, seen := version.id :: walk.seen })

/-- The next version, and the walk after it. -/
def next (walk : ChainWalk) : Action (Except Failure (Option Version) × ChainWalk) := do
  match walk.cursor with
  | .done => return (.ok none, walk)
  | .start =>
    match ← (Site.rootVersion? walk.kind walk.name).attempt with
    | .error failure => return (.error failure, walk)
    | .ok none => return (.ok none, { walk with cursor := .done })
    | .ok (some version) => return walk.stepTo version
  | .at id =>
    match ← Action.query fun store => store.version? id with
    | none => return (.error (.notFound "schema version" id), walk)
    | some version => return walk.stepTo version

/-- Walks on for at most a number of steps; `passed` holds the versions so far. -/
def collect : Nat → List Version → ChainWalk →
    Action (Except Failure (List Version) × ChainWalk)
  | 0, passed, walk => return (.ok passed, walk)
  | fuel + 1, passed, walk => do
    match ← walk.next with
    | (.error failure, walk) => return (.error failure, walk)
    | (.ok none, walk) => return (.ok passed, walk)
    | (.ok (some version), walk) => collect fuel (passed ++ [version]) walk

/-- Walks on to the end. A walk takes no more steps than there are versions, one more to
notice a loop and one more to notice its end. -/
def collectAll (walk : ChainWalk) : Action (Except Failure (List Version) × ChainWalk) := do
  let size ← Action.query fun store => store.versions.size
  walk.collect (size + 2) []

end ChainWalk

namespace Site

/-- All versions of a chain, from the first to the latest. -/
def versions (kind : Kind) (name : String) : Action (List Version) := do
  let (answer, _) ← ChainWalk.collectAll { kind := kind, name := name }
  match answer with
  | .ok versions => return versions
  | .error failure => throw failure

end Site

end VersionedContent
