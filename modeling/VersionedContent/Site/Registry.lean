import VersionedContent.Site.Chain

/-!
# The registry

Making and finding versions. A new version has a valid definition, refers to
microschemas that exist, and differs from the version before it. An edit may
name the version it was based on; it fails when that is no longer the latest.
-/

namespace VersionedContent.Site

/-- Refuses a definition that is not valid or refers to unknown microschemas. -/
def checkDefinition (kind : Kind) (definition : Definition) : Action Unit := do
  match definition.issues kind with
  | [] => pure ()
  | issues => throw (.validation (.definition kind definition.name issues))
  for microschema in definition.microschemaReferences do
    if (← rootVersion? .microschema microschema).isNone then
      throw (.validation (.unknownMicroschema kind definition.name microschema))

/-- Drops the compiled version of a place. -/
def invalidateCompiled (key : CacheKey) : Action Unit := modify fun site =>
  { site with cache := site.cache.invalidate key }

/-- Drops all compiled versions. -/
def clearCompiled : Action Unit := modify fun site => { site with cache := [] }

/-- Starts a chain. -/
def createSchema (kind : Kind) (definition : Definition) : Action Version := do
  checkDefinition kind definition
  if (← rootVersion? kind definition.name).isSome then
    throw (.conflict (.chainExists kind definition.name))
  let version := Version.root (← nextVersionId) (← Action.now) kind definition
  if !(← appendVersion version) then throw (.conflict (.chainExists kind version.name))
  countVersion
  invalidateCompiled (.ofVersion version)
  return version

/-- Adds a version to a chain. -/
def updateSchema (kind : Kind) (name : String) (definition : Definition) (renames : List Rename)
    (expected : Option Nat) : Action Version := do
  if definition.name ≠ name then
    throw (.validation (.renamedSchema kind name definition.name))
  let latest ← Action.orNotFound kind.name name
    (← Action.query fun store => store.latestVersion? kind name)
  match expected with
  | some number =>
    if number ≠ latest.number then
      throw (.conflict (.staleEdit kind name latest.number number))
  | none => pure ()
  checkDefinition kind definition
  match Definition.difference latest.definition definition renames with
  | .error fault => throw (.validation (.difference fault))
  | .ok [] => throw (.validation (.unchanged kind name latest.number))
  | .ok changes =>
    let version := latest.successor (← nextVersionId) (← Action.now) definition changes
    if !(← appendVersion version) then
      throw (.conflict (.superseded kind name latest.number))
    countVersion
    invalidateCompiled (.ofVersion version)
    return version

/-- Starts a chain, or adds a version to it when it exists. -/
def createVersion (kind : Kind) (definition : Definition) (renames : List Rename) :
    Action Version := do
  match ← Action.query fun store => store.latestVersion? kind definition.name with
  | some latest => updateSchema kind latest.name definition renames none
  | none =>
    if renames.isEmpty then createSchema kind definition
    else throw (.validation .renamesWithoutVersion)

/-- The version of an identifier. -/
def version (id : Id) : Action Version := do
  Action.orNotFound "schema version" id (← Action.query fun store => store.version? id)

/-- The version of a chain with a number. -/
def findVersion (kind : Kind) (name : String) (number : Nat) : Action Version := do
  Action.orNotFound kind.name (name ++ "@" ++ toString number)
    (← Action.query fun store => store.findVersion? kind name number)

/-- The latest version of a chain. -/
def latestVersion (kind : Kind) (name : String) : Action Version := do
  Action.orNotFound kind.name name (← Action.query fun store => store.latestVersion? kind name)

/-- Compiles a version and keeps it under a place. -/
def compileAs (key : CacheKey) (version : Version) : Action Compiled := do
  match Compiled.ofVersion version with
  | .error issues =>
    throw (.validation (.definition version.kind version.definition.name issues))
  | .ok compiled =>
    modify fun site => { site with cache := site.cache.insert key compiled }
    return compiled

/-- The compiled version of a place: the one kept, else the stored version, compiled. -/
def compiledAt (key : CacheKey) : Action Compiled := do
  match (← get).cache.get? key with
  | some compiled => return compiled
  | none => compileAs key (← findVersion key.kind key.name key.number)

/-- The compiled form of a version, looked up by its place. -/
def compiled (version : Version) : Action Compiled := compiledAt (.ofVersion version)

/-- The compiled form of a version: the one kept for its place, else the version itself,
compiled. -/
def compiledForVersion (version : Version) : Action Compiled := do
  match (← get).cache.get? (.ofVersion version) with
  | some compiled => return compiled
  | none => compileAs (.ofVersion version) version

/-- Follows links until a version is reached; none when the chain ends before. A walk that is
longer than the number of versions goes around in circles. -/
def stepsTo (limit : Limit) (target : Id) : Nat → Option Id → Action (Option (List Version))
  | _, none => return none
  | 0, some _ => do
    limit.cut
    return none
  | rounds + 1, some id => do
    let step ← version id
    if step.id = target then return some [step]
    return (← stepsTo limit target rounds step.next).map fun steps => step :: steps

/-- The versions after the one up to the other, along the links. -/
def versionsBetween (source target : Version) (limit : Limit := .ample) :
    Action (List Version) := do
  if source.kind ≠ target.kind ∨ source.name ≠ target.name then
    throw (.validation (.differentChains source.kind source.name target.kind target.name))
  if source.id = target.id then return []
  let size ← Action.query fun store => store.versions.size
  match ← stepsTo limit target.id (limit.rounds (size + 1)) source.next with
  | some steps => return steps
  | none =>
    throw (.conflict (.notAhead target.kind target.name target.number source.number))

/-- The branches that pin a version of a chain, each with the version that it pins. -/
def referencedBranches (chain : Version) : Action (List (Branch × Version)) := do
  let branches ← Action.query fun store => store.listBranches none
  branches.filterMapM fun branch => do
    match branch.pinned? chain.kind chain.name with
    | none => return none
    | some id => return some (branch, ← version id)

end VersionedContent.Site
