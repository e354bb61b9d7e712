import VersionedContent.Schema.Encoding
import VersionedContent.Time.Rfc3339

/-!
# Versions

The versions of one schema form a chain. Each version holds its definition and
the changes that lead to it from the version before.
-/

namespace VersionedContent

/-- One version of a schema. -/
structure Version where
  /-- Identifies the version. -/
  id : Id
  /-- Kind of the schema. -/
  kind : Kind
  /-- Name of the schema. -/
  name : String
  /-- Its number in the chain, from 1. -/
  number : Nat
  /-- The definition. -/
  definition : Definition
  /-- The version before, none for the first. -/
  previous : Option Id
  /-- The version after, none for the latest. -/
  next : Option Id
  /-- The changes from the definition of the version before. -/
  changes : List Change
  /-- When it was made. -/
  createdAt : Instant

namespace Version

/-- The first version of a chain. -/
def root (id : Id) (createdAt : Instant) (kind : Kind) (definition : Definition) : Version where
  id := id
  kind := kind
  name := definition.name
  number := 1
  definition := definition
  previous := none
  next := none
  changes := []
  createdAt := createdAt

/-- The number after another one. Numbers have 32 bits, and zero follows the last of them. -/
def nextNumber (number : Nat) : Nat := (number + 1) % 4294967296

/-- The version after another one; the link to it is made when it is stored. -/
def successor (version : Version) (id : Id) (createdAt : Instant) (definition : Definition)
    (changes : List Change) : Version where
  id := id
  kind := version.kind
  name := version.name
  number := nextNumber version.number
  definition := definition
  previous := some version.id
  next := none
  changes := changes
  createdAt := createdAt

/-- Below the last number, the next one is greater by one. -/
theorem nextNumber_eq {number : Nat} (h : number < 4294967295) :
    nextNumber number = number + 1 := by
  unfold nextNumber
  omega

/-- Whether a version starts its chain. -/
def isRoot (version : Version) : Bool := version.previous.isNone

/-- Whether a version ends its chain. -/
def isLatest (version : Version) : Bool := version.next.isNone

/-- Whether a version belongs to the chain of a kind and name. -/
def inChain (version : Version) (kind : Kind) (name : String) : Bool :=
  version.kind = kind && version.name = name

/-- The members of a version in their order of declaration. -/
def memberNames : List String :=
  ["id", "kind", "name", "version", "definition", "previous", "next", "changes", "created_at"]

end Version

/-- Reads the instant of a stored record. -/
def Instant.ofJson (json : Json) : Except Mismatch Instant := do
  let text ← json.asText
  match Instant.readLoosely? text with
  | some instant => pure instant
  | none => throw (.wrongValue json "an RFC 3339 formatted date and time string")

/-- Reads a version. -/
def Version.ofJson (json : Json) : Except Mismatch Version := do
  let members ← json.asRecord "struct SchemaVersion" Version.memberNames
  pure {
    id := ← members.required "id" Json.asText
    kind := ← members.required "kind" Kind.ofJson
    name := ← members.required "name" Json.asText
    number := ← members.required "version" Json.asNat32
    definition := ← members.required "definition" Definition.ofJson
    previous := ← members.nullable "previous" Json.asText
    next := ← members.nullable "next" Json.asText
    changes := ← members.required "changes" (Json.asList Change.ofJson)
    createdAt := ← members.required "created_at" Instant.ofJson }

end VersionedContent
