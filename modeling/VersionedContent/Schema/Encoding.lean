import VersionedContent.Schema.Change

/-!
# JSON form of definitions and changes

A definition is written without the members that say nothing: no description,
no display field, no item type, nothing allowed, no default, no label. Reading
takes every member that may be absent as absent when it is `null`; so a default
that is `null` is written, and read as no default. The other members that may be
missing, `allow`, `required` and `auto_purge`, have a default of their own.
-/

namespace VersionedContent

/-- A member that is written only when there is something to say. -/
def optionalMember (name : String) (value : Option Json) : List (String × Json) :=
  match value with
  | some json => [(name, json)]
  | none => []

namespace FieldSpec

/-- The JSON form of a field. -/
def toJson (field : FieldSpec) : Json :=
  .object <|
    (if field.allow.isEmpty then [] else [("allow", Json.ofStrings field.allow)]) ++
    optionalMember "default" field.default ++
    optionalMember "label" (field.label.map .string) ++
    optionalMember "list_type" (field.listType.map fun type => .string type.name) ++
    [("name", .string field.name), ("required", .bool field.required),
      ("type", .string field.type.name)]

/-- The members of a field in their order of declaration. -/
def memberNames : List String :=
  ["name", "type", "list_type", "allow", "required", "default", "label"]

/-- Reads a field whose types are read in a given way. -/
def ofJsonWith (type : Json → Except Mismatch FieldType) (json : Json) :
    Except Mismatch FieldSpec := do
  let members ← json.asRecord "struct FieldSchema" memberNames
  pure {
    name := ← members.required "name" Json.asText
    type := ← members.required "type" type
    listType := ← members.optional "list_type" type
    allow := ← members.withDefault "allow" [] (Json.asList Json.asText)
    required := ← members.withDefault "required" false Json.asBool
    default := ← members.optional "default" pure
    label := ← members.optional "label" Json.asText }

/-- Reads a field. -/
def ofJson : Json → Except Mismatch FieldSpec := ofJsonWith FieldType.ofJson

/-- Reads a field in a tagged record. -/
def ofTaggedJson : Json → Except Mismatch FieldSpec := ofJsonWith FieldType.ofTaggedJson

end FieldSpec

namespace Definition

/-- The JSON form of a definition. -/
def toJson (definition : Definition) : Json :=
  .object <|
    [("auto_purge", .bool definition.autoPurge)] ++
    optionalMember "description" (definition.description.map .string) ++
    optionalMember "display_field" (definition.displayField.map .string) ++
    [("fields", .array (definition.fields.map FieldSpec.toJson)),
      ("name", .string definition.name)]

/-- The members of a definition in their order of declaration. -/
def memberNames : List String := ["name", "description", "display_field", "auto_purge", "fields"]

/-- Reads a definition. -/
def ofJson (json : Json) : Except Mismatch Definition := do
  let members ← json.asRecord "struct SchemaDefinition" memberNames
  pure {
    name := ← members.required "name" Json.asText
    description := ← members.optional "description" Json.asText
    displayField := ← members.optional "display_field" Json.asText
    autoPurge := ← members.withDefault "auto_purge" false Json.asBool
    fields := ← members.required "fields" (Json.asList FieldSpec.ofJson) }

end Definition

namespace Change

/-- The names of the operations. -/
inductive Operation where
  /-- Adds a field. -/
  | addField
  /-- Removes a field. -/
  | removeField
  /-- Declares a field anew. -/
  | updateField
  /-- Renames a field. -/
  | renameField
  /-- Reorders the fields. -/
  | reorderFields
  /-- Changes what is said of the schema. -/
  | updateSchema

/-- The operations under their names. -/
def operations : List (String × Operation) :=
  [("add_field", .addField), ("remove_field", .removeField), ("update_field", .updateField),
    ("rename_field", .renameField), ("reorder_fields", .reorderFields),
    ("update_schema", .updateSchema)]

/-- The JSON form of a change. -/
def toJson : Change → Json
  | addField field position =>
    .object <| [("field", field.toJson), ("operation", .string "add_field")] ++
      optionalMember "position" (position.map fun n => .integer n)
  | removeField field =>
    .object [("field", .string field), ("operation", .string "remove_field")]
  | updateField field =>
    .object [("field", field.toJson), ("operation", .string "update_field")]
  | renameField source target =>
    .object [("from", .string source), ("operation", .string "rename_field"),
      ("to", .string target)]
  | reorderFields order =>
    .object [("operation", .string "reorder_fields"), ("order", Json.ofStrings order)]
  | updateSchema description displayField autoPurge =>
    .object [("auto_purge", .bool autoPurge), ("description", Json.ofOption description),
      ("display_field", Json.ofOption displayField), ("operation", .string "update_schema")]

/-- Reads a change. -/
def ofJson (json : Json) : Except Mismatch Change := do
  let (name, content) ← json.tagged "operation" "internally tagged enum SchemaChange"
  match ← Json.asWord operations name with
  | .addField =>
    let members ← content.asRecord "struct variant" ["field", "position"]
    return .addField (← members.required "field" FieldSpec.ofTaggedJson)
      (← members.optional "position" Json.asNat64)
  | .removeField =>
    let members ← content.asRecord "struct variant" ["field"]
    return .removeField (← members.required "field" Json.asText)
  | .updateField =>
    let members ← content.asRecord "struct variant" ["field"]
    return .updateField (← members.required "field" FieldSpec.ofTaggedJson)
  | .renameField =>
    let members ← content.asRecord "struct variant" ["from", "to"]
    return .renameField (← members.required "from" Json.asText)
      (← members.required "to" Json.asText)
  | .reorderFields =>
    let members ← content.asRecord "struct variant" ["order"]
    return .reorderFields (← members.required "order" (Json.asList Json.asText))
  | .updateSchema =>
    let members ← content.asRecord "struct variant" ["description", "display_field", "auto_purge"]
    return .updateSchema (← members.nullable "description" Json.asText)
      (← members.nullable "display_field" Json.asText)
      (← members.required "auto_purge" Json.asBool)

end Change

namespace Rename

/-- The JSON form of a rename. -/
def toJson (rename : Rename) : Json :=
  .object [("from", .string rename.source), ("to", .string rename.target)]

/-- Reads a rename. -/
def ofJson (json : Json) : Except Mismatch Rename := do
  let members ← json.asRecord "struct FieldRename" ["from", "to"]
  pure {
    source := ← members.required "from" Json.asText
    target := ← members.required "to" Json.asText }

end Rename

end VersionedContent
