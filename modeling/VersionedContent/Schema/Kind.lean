import VersionedContent.Json.Shape

/-!
# Kinds of schemas and types of fields

Schemas describe the content of nodes, microschemas the content embedded in
other content. Both are versioned in the same way.
-/

namespace VersionedContent

/-- Identifies a record. -/
abbrev Id := String

/-- What a schema describes. -/
inductive Kind where
  /-- The content of nodes. -/
  | schema
  /-- Content embedded in a field. -/
  | microschema
  deriving DecidableEq, Repr

namespace Kind

/-- The name of a kind. -/
def name : Kind → String
  | schema => "schema"
  | microschema => "microschema"

/-- All kinds under their names. -/
def byName : List (String × Kind) := [schema, microschema].map fun kind => (kind.name, kind)

/-- The kind of a name. -/
def ofName? (name : String) : Option Kind := byName.lookup name

/-- Reads a kind. -/
def ofJson : Json → Except Mismatch Kind := Json.asName byName

/-- Every kind is found under its name. -/
@[simp] theorem ofName?_name (kind : Kind) : ofName? kind.name = some kind := by
  cases kind <;> rfl

end Kind

/-- The type of a field's values. -/
inductive FieldType where
  /-- Plain text. -/
  | string
  /-- Text with markup. -/
  | html
  /-- A number. -/
  | number
  /-- A truth value. -/
  | boolean
  /-- An instant. -/
  | date
  /-- A reference to a node. -/
  | node
  /-- Embedded content. -/
  | micronode
  /-- A sequence of values of one other type. -/
  | list
  deriving DecidableEq, Repr

namespace FieldType

/-- The name of a type. -/
def name : FieldType → String
  | string => "string"
  | html => "html"
  | number => "number"
  | boolean => "boolean"
  | date => "date"
  | node => "node"
  | micronode => "micronode"
  | list => "list"

/-- All types. -/
def all : List FieldType := [string, html, number, boolean, date, node, micronode, list]

/-- All types under their names. -/
def byName : List (String × FieldType) := all.map fun type => (type.name, type)

/-- Reads a type. -/
def ofJson : Json → Except Mismatch FieldType := Json.asName byName

/-- Reads a type in a tagged record. -/
def ofTaggedJson : Json → Except Mismatch FieldType := Json.asTaggedName byName

/-- Reads a type given as a text. -/
def ofWord : Json → Except Mismatch FieldType := Json.asWord byName

/-- Every type is found under its name. -/
@[simp] theorem lookup_name (type : FieldType) : byName.lookup type.name = some type := by
  cases type <;> rfl

end FieldType

end VersionedContent
