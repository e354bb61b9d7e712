import VersionedContent.Content.Conversion
import VersionedContent.Text.Characters

/-!
# Validation of definitions

What is wrong with a definition by itself. Whether the microschemas it names
exist is not asked here.
-/

namespace VersionedContent

/-- One thing wrong with a definition. -/
inductive Issue where
  /-- The name of the schema is no identifier. -/
  | badName (name : String)
  /-- There is no field. -/
  | noFields
  /-- Two fields have one name. -/
  | duplicateField (name : String)
  /-- The name of a field is no identifier. -/
  | badFieldName (name : String)
  /-- A list does not say of what. -/
  | listOfNothing (name : String)
  /-- A list of lists. -/
  | listOfLists (name : String)
  /-- A field that is no list says of what it is one. -/
  | strayListType (name : String) (type : FieldType)
  /-- Embedded content that embeds content. -/
  | nestedMicronode (name : String)
  /-- A field that embeds content allows no microschema. -/
  | nothingAllowed (name : String)
  /-- A default is no value of its field. -/
  | badDefault (name : String) (cause : ConversionError)
  /-- The display field holds no text. -/
  | displayFieldNoText (name : String)
  /-- The display field is no field. -/
  | displayFieldMissing (name : String)

namespace Issue

/-- The message of an issue. -/
def message : Issue → String
  | badName name => "invalid name '" ++ name ++ "'"
  | noFields => "at least one field is required"
  | duplicateField name => "duplicate field '" ++ name ++ "'"
  | badFieldName name => "invalid field name '" ++ name ++ "'"
  | listOfNothing name => "list field '" ++ name ++ "' needs a list_type"
  | listOfLists name => "list field '" ++ name ++ "' cannot contain lists"
  | strayListType name type =>
    "field '" ++ name ++ "' of type " ++ type.name ++ " cannot have a list_type"
  | nestedMicronode name => "microschemas cannot nest micronodes (field '" ++ name ++ "')"
  | nothingAllowed name =>
    "micronode field '" ++ name ++ "' must allow at least one microschema"
  | badDefault name cause => "default of field '" ++ name ++ "': " ++ cause.message
  | displayFieldNoText name => "display field '" ++ name ++ "' must be a string field"
  | displayFieldMissing name => "display field '" ++ name ++ "' does not exist"

end Issue

/-- The names that occur again, each where it occurs for the second time; `before` holds the
names passed already. -/
def repeatedNames (before : List String) : List String → List String
  | [] => []
  | name :: rest =>
    if before.count name = 1 then name :: repeatedNames (name :: before) rest
    else repeatedNames (name :: before) rest

namespace FieldSpec

/-- Issues with the type of a field. -/
def typeIssues (field : FieldSpec) : List Issue :=
  match field.type, field.listType with
  | .list, none => [.listOfNothing field.name]
  | .list, some .list => [.listOfLists field.name]
  | .list, some _ => []
  | type, some _ => [.strayListType field.name type]
  | _, none => []

/-- Issues with the microschemas of a field. -/
def embeddingIssues (field : FieldSpec) (kind : Kind) : List Issue :=
  if field.embeds then
    (if kind = .microschema then [.nestedMicronode field.name] else []) ++
      (if field.allow.isEmpty then [.nothingAllowed field.name] else [])
  else []

/-- Issues with the default of a field. -/
def defaultIssues (field : FieldSpec) : List Issue :=
  match field.default with
  | none => []
  | some json =>
    match field.read json with
    | .ok _ => []
    | .error cause => [.badDefault field.name cause]

/-- All issues with a field. -/
def issues (field : FieldSpec) (kind : Kind) : List Issue :=
  (if Text.isIdentifier field.name then [] else [.badFieldName field.name]) ++
    field.typeIssues ++ field.embeddingIssues kind ++ field.defaultIssues

end FieldSpec

namespace Definition

/-- Issues with the display field. -/
def displayIssues (definition : Definition) : List Issue :=
  match definition.displayField with
  | none => []
  | some name =>
    match definition.field? name with
    | none => [.displayFieldMissing name]
    | some field => if field.type = .string then [] else [.displayFieldNoText name]

/-- All issues with a definition. -/
def issues (definition : Definition) (kind : Kind) : List Issue :=
  (if Text.isIdentifier definition.name then [] else [.badName definition.name]) ++
    (if definition.fields.isEmpty then [.noFields] else []) ++
    (repeatedNames [] definition.fieldNames).map .duplicateField ++
    definition.fields.flatMap (fun field => field.issues kind) ++
    definition.displayIssues

/-- A definition without issues. -/
def isValid (definition : Definition) (kind : Kind) : Bool := (definition.issues kind).isEmpty

end Definition

end VersionedContent
