import VersionedContent.Schema.Validation
import VersionedContent.Schema.Version

/-!
# Compiled versions

A compiled version is a valid one together with an index of its fields by name
and the microschemas that it refers to.
-/

namespace VersionedContent

/-- Names a version by its place in a chain. -/
structure CacheKey where
  /-- Kind of the schema. -/
  kind : Kind
  /-- Name of the schema. -/
  name : String
  /-- Number of the version. -/
  number : Nat
  deriving DecidableEq, Repr

namespace CacheKey

/-- The place of a version. -/
def ofVersion (version : Version) : CacheKey := ⟨version.kind, version.name, version.number⟩

end CacheKey

/-- A valid version with its indexes. -/
structure Compiled where
  /-- The version. -/
  version : Version
  /-- The position of each field by name. -/
  positions : Dict Nat
  /-- The microschemas that fields allow. -/
  microschemaReferences : List String

namespace Compiled

/-- The positions of fields by name; the last of two fields of one name counts. -/
def index (fields : List FieldSpec) : Dict Nat :=
  fields.zipIdx.foldl (fun positions entry => Dict.insert positions entry.1.name entry.2) []

/-- Compiles a version, or tells the issues with its definition. -/
def ofVersion (version : Version) : Except (List Issue) Compiled :=
  match version.definition.issues version.kind with
  | [] =>
    .ok {
      version := version
      positions := index version.definition.fields
      microschemaReferences := version.definition.microschemaReferences }
  | issues => .error issues

/-- The field of a name, through the index. -/
def field? (compiled : Compiled) (name : String) : Option FieldSpec :=
  (Dict.get? compiled.positions name).bind fun position =>
    compiled.version.definition.fields[position]?

/-- The place of the compiled version. -/
def key (compiled : Compiled) : CacheKey := .ofVersion compiled.version

end Compiled

end VersionedContent
