import VersionedContent.Schema.Version

/-!
# Branches

A branch is a staging line of a project. It pins one version of each schema and
microschema that it uses. A branch forked from another one inherits the pins and,
when its branch job runs, the content.
-/

namespace VersionedContent

/-- A staging line of a project. -/
structure Branch where
  /-- Identifies the branch. -/
  id : Id
  /-- The project. -/
  projectId : Id
  /-- Its name, unique in the project. -/
  name : String
  /-- When it was made. -/
  createdAt : Instant
  /-- The branch it was forked from, none for the first of a project. -/
  baseId : Option Id
  /-- Whether it is the newest branch of the project. -/
  latest : Bool
  /-- Whether the content of its base has been copied. -/
  migrated : Bool
  /-- Whether superseded content may be deleted. -/
  autoPurge : Bool
  /-- The pinned schema versions by schema name. -/
  schemaVersions : Dict Id
  /-- The pinned microschema versions by microschema name. -/
  microschemaVersions : Dict Id

namespace Branch

/-- The first branch of a project. -/
def initial (id : Id) (createdAt : Instant) (projectId : Id) (name : String) : Branch where
  id := id
  projectId := projectId
  name := name
  createdAt := createdAt
  baseId := none
  latest := true
  migrated := true
  autoPurge := false
  schemaVersions := []
  microschemaVersions := []

/-- A branch forked from another one, with its pins and without its content. -/
def fork (base : Branch) (id : Id) (createdAt : Instant) (name : String) : Branch where
  id := id
  projectId := base.projectId
  name := name
  createdAt := createdAt
  baseId := some base.id
  latest := true
  migrated := false
  autoPurge := base.autoPurge
  schemaVersions := base.schemaVersions
  microschemaVersions := base.microschemaVersions

/-- The pins of a kind. -/
def pins (branch : Branch) : Kind → Dict Id
  | .schema => branch.schemaVersions
  | .microschema => branch.microschemaVersions

/-- The version pinned for a name. -/
def pinned? (branch : Branch) (kind : Kind) (name : String) : Option Id :=
  Dict.get? (branch.pins kind) name

/-- Pins a version in place of the one pinned for its name. -/
def pin (branch : Branch) (version : Version) : Branch :=
  match version.kind with
  | .schema =>
    { branch with schemaVersions := Dict.insert branch.schemaVersions version.name version.id }
  | .microschema =>
    { branch with
      microschemaVersions := Dict.insert branch.microschemaVersions version.name version.id }

/-- Pinning a version changes the pin of its kind and name only. -/
theorem pinned?_pin (branch : Branch) (version : Version) (kind : Kind) (name : String) :
    (branch.pin version).pinned? kind name =
      if kind = version.kind ∧ name = version.name then some version.id
      else branch.pinned? kind name := by
  unfold pin pinned? pins
  cases hv : version.kind <;> cases kind <;> simp [Dict.get?_insert]

/-- Branches are listed by age, then by name. -/
def listedBefore (a b : Branch) : Bool :=
  a.createdAt.before b.createdAt || (a.createdAt == b.createdAt && a.name ≤ b.name)

/-- The members of a branch in their order of declaration. -/
def memberNames : List String :=
  ["id", "project_id", "name", "created_at", "base_branch_id", "latest", "migrated", "auto_purge",
    "schema_versions", "microschema_versions"]

/-- Reads a dictionary of pins. -/
def pinsOfJson (json : Json) : Except Mismatch (Dict Id) := Json.asDict Json.asText json

/-- Reads a branch. -/
def ofJson (json : Json) : Except Mismatch Branch := do
  let members ← json.asRecord "struct Branch" memberNames
  pure {
    id := ← members.required "id" Json.asText
    projectId := ← members.required "project_id" Json.asText
    name := ← members.required "name" Json.asText
    createdAt := ← members.required "created_at" Instant.ofJson
    baseId := ← members.nullable "base_branch_id" Json.asText
    latest := ← members.required "latest" Json.asBool
    migrated := ← members.required "migrated" Json.asBool
    autoPurge := ← members.required "auto_purge" Json.asBool
    schemaVersions := ← members.required "schema_versions" pinsOfJson
    microschemaVersions := ← members.required "microschema_versions" pinsOfJson }

end Branch

end VersionedContent
