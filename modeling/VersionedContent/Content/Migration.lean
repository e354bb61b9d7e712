import VersionedContent.Content.Conversion
import VersionedContent.Schema.Change

/-!
# Migration of field values

A change list, read as instructions for stored values: what a definition says
of a field, its value follows. `migrateFields` runs a change list over the
values of one piece of content and then drops what the target definition does
not declare. `Embedding.carry` does so for the embedded content of one
microschema version inside the values, and leaves everything else alone.
-/

namespace VersionedContent

/-- A value that cannot follow a change. -/
structure FieldError where
  /-- The field, or the path to it through embedded content. -/
  field : String
  /-- What is wrong with its value. -/
  cause : ConversionError

namespace Change

/-- The field values after one change. -/
def migrate (fields : FieldMap) : Change → Except FieldError FieldMap
  | addField field _ =>
    match field.default with
    | none => .ok (Dict.erase fields field.name)
    | some json =>
      match field.read json with
      | .ok value => .ok (Dict.insert fields field.name value)
      | .error cause => .error ⟨field.name, cause⟩
  | removeField name => .ok (Dict.erase fields name)
  | updateField field =>
    match Dict.get? fields field.name with
    | none => .ok fields
    | some current =>
      match field.convert current with
      | .ok (some value) => .ok (Dict.insert fields field.name value)
      | .ok none => .ok (Dict.erase fields field.name)
      | .error cause => .error ⟨field.name, cause⟩
  | renameField source target =>
    match Dict.get? fields source with
    | none => .ok fields
    | some value => .ok (Dict.insert (Dict.erase fields source) target value)
  | reorderFields _ => .ok fields
  | updateSchema .. => .ok fields

end Change

/-- The field values after a change list, as far as the target definition declares them. -/
def migrateFields (fields : FieldMap) (changes : List Change) (target : Definition) :
    Except FieldError FieldMap :=
  (changes.foldlM Change.migrate fields).map fun migrated =>
    Dict.restrict migrated fun name => (target.field? name).isSome

/-- How embedded content moves from one version of its microschema to another. -/
structure Embedding where
  /-- The version that the content follows so far. -/
  source : Id
  /-- The version that it is to follow. -/
  target : Id
  /-- The changes between the two. -/
  changes : List Change
  /-- The definition of the target version. -/
  definition : Definition

namespace Embedding

/-- Moves embedded content that follows the source version. -/
def carryMicronode (plan : Embedding) (content : Micronode) : Except FieldError Micronode :=
  if content.versionId = plan.source then
    (migrateFields content.fields plan.changes plan.definition).map fun fields =>
      { content with versionId := plan.target, fields := fields }
  else .ok content

/-- Moves one item of a list. -/
def carryItem (plan : Embedding) : FieldValue → Except FieldError FieldValue
  | .micronode content => (plan.carryMicronode content).map .micronode
  | item => .ok item

/-- Moves the embedded content of a value. -/
def carryValue (plan : Embedding) : FieldValue → Except FieldError FieldValue
  | .micronode content => (plan.carryMicronode content).map .micronode
  | .list items => (items.mapM plan.carryItem).map .list
  | value => .ok value

/-- Puts the name of the outer field in front of a path. -/
def within (name : String) (error : FieldError) : FieldError :=
  { error with field := name ++ "." ++ error.field }

/-- Moves the embedded content of all values, in key order; the first that cannot move fails. -/
def carry (plan : Embedding) (fields : FieldMap) : Except FieldError FieldMap :=
  fields.mapM fun entry =>
    match plan.carryValue entry.2 with
    | .ok value => .ok (entry.1, value)
    | .error error => .error (within entry.1 error)

end Embedding

/-- No change leaves what the target declares. -/
theorem migrateFields_nil (fields : FieldMap) (target : Definition) :
    migrateFields fields [] target =
      .ok (Dict.restrict fields fun name => (target.field? name).isSome) := rfl

end VersionedContent
