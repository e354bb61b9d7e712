import VersionedContent.Content.Value
import VersionedContent.Schema.Definition
import VersionedContent.Time.Rfc3339

/-!
# Conversion of values

`FieldSpec.read` makes a value of a field's type from a JSON literal, for
defaults. `FieldSpec.convert` carries a stored value over to a field that was
declared differently: single values become lists of one item, lists become
their first item, and scalars are read from each other's text. An empty list
has no first item; carried to a field that is no list it disappears.

Dates are normalised to universal time when they are read; a date that is
stored already is kept as it stands.
-/

namespace VersionedContent

/-- Why a value cannot be carried to a field. -/
inductive ConversionError where
  /-- The default of a list is not a sequence. -/
  | notSequence (field : String)
  /-- A JSON value is no literal of the type. -/
  | notLiteral (json : Json) (type : FieldType)
  /-- A text is no date. -/
  | notDate (text : String)
  /-- A text is no finite number. -/
  | notNumber (text : String)
  /-- A text is no truth value. -/
  | notBoolean (text : String)
  /-- A number of milliseconds lies outside the calendar. -/
  | notTimestamp (value : Binary64)
  /-- A JSON value is no embedded content. -/
  | notMicronode (mismatch : Mismatch)
  /-- The field does not allow the microschema. -/
  | notAllowed (microschema field : String)
  /-- Lists do not hold lists. -/
  | nestedList (field : String)
  /-- No rule leads from the one type to the other. -/
  | noRule (source target : FieldType)

namespace ConversionError

/-- The message of an error. -/
def message : ConversionError → String
  | notSequence field => "expected an array for list field '" ++ field ++ "'"
  | notLiteral json type => json.render ++ " is not a valid " ++ type.name ++ " value"
  | notDate text => "'" ++ text ++ "' is not an RFC 3339 date"
  | notNumber text => "'" ++ text ++ "' is not a number"
  | notBoolean text => "'" ++ text ++ "' is not a boolean"
  | notTimestamp value => value.plain ++ " is not a valid timestamp"
  | notMicronode mismatch => "invalid micronode: " ++ mismatch.message
  | notAllowed microschema field =>
    "microschema '" ++ microschema ++ "' is not allowed in field '" ++ field ++ "'"
  | nestedList field => "nested lists are not supported ('" ++ field ++ "')"
  | noRule source target => "cannot convert " ++ source.name ++ " value to " ++ target.name

end ConversionError

/-- Reads a date, with or without blanks around it. -/
def readDate (text : String) : Except ConversionError Instant :=
  match Instant.read? (Text.trim text) with
  | some instant => .ok instant
  | none => .error (.notDate text)

/-- Reads a finite number, with or without blanks around it. -/
def readNumber (text : String) : Except ConversionError Binary64 :=
  match Numeral.finite? (Text.trim text) with
  | some value => .ok value
  | none => .error (.notNumber text)

/-- Reads a truth value, in any letter case, with or without blanks around it. -/
def readBoolean (text : String) : Except ConversionError Bool :=
  let word := (Text.trim text).toList.map Char.toLower
  if word = ['t', 'r', 'u', 'e'] then .ok true
  else if word = ['f', 'a', 'l', 's', 'e'] then .ok false
  else .error (.notBoolean text)

/-- The word for a truth value. -/
def booleanText (value : Bool) : String := if value then "true" else "false"

namespace FieldSpec

/-- Whether a field takes embedded content; naming no microschema allows all. -/
def admits (field : FieldSpec) (content : Micronode) : Bool :=
  field.allow.isEmpty || field.allows content.microschema

/-- Refuses embedded content that a field does not allow. -/
def checkAllowed (field : FieldSpec) (content : Micronode) : Except ConversionError FieldValue :=
  if field.admits content then .ok (.micronode content)
  else .error (.notAllowed content.microschema field.name)

/-- Reads a single value of a type from a JSON literal. -/
def readScalar (field : FieldSpec) (type : FieldType) (json : Json) :
    Except ConversionError FieldValue :=
  match type, json with
  | .string, .string text => .ok (.string text)
  | .html, .string text => .ok (.html text)
  | .number, .integer n => .ok (.number (.ofInt n))
  | .number, .float value => .ok (.number value)
  | .boolean, .bool value => .ok (.boolean value)
  | .date, .string text => (readDate text).map fun instant => .date instant.text
  | .node, .string id => .ok (.node id)
  | .micronode, json =>
    match Embedded.ofJson json with
    | .ok content => field.checkAllowed content
    | .error mismatch => .error (.notMicronode mismatch)
  | .list, _ => .error (.nestedList field.name)
  | type, json => .error (.notLiteral json type)

/-- Reads a value of a field from a JSON literal. -/
def read (field : FieldSpec) (json : Json) : Except ConversionError FieldValue :=
  match field.type with
  | .list =>
    match json with
    | .array items => (items.mapM (field.readScalar field.elementType)).map .list
    | _ => .error (.notSequence field.name)
  | type => field.readScalar type json

/-- Carries a single value to a type. -/
def convertScalar (field : FieldSpec) (type : FieldType) (value : FieldValue) :
    Except ConversionError FieldValue :=
  match value, type with
  | .string text, .string | .html text, .string => .ok (.string text)
  | .string text, .html | .html text, .html => .ok (.html text)
  | .number x, .string => .ok (.string x.plain)
  | .number x, .html => .ok (.html x.plain)
  | .boolean b, .string => .ok (.string (booleanText b))
  | .boolean b, .html => .ok (.html (booleanText b))
  | .date text, .string => .ok (.string text)
  | .date text, .html => .ok (.html text)
  | .number x, .number => .ok (.number x)
  | .string text, .number | .html text, .number => (readNumber text).map .number
  | .boolean b, .number => .ok (.number (if b then .one else .zero))
  | .date text, .number => (readDate text).map fun instant => .number (.ofInt instant.toMillis)
  | .boolean b, .boolean => .ok (.boolean b)
  | .string text, .boolean | .html text, .boolean => (readBoolean text).map .boolean
  | .number x, .boolean =>
    if x.same .one then .ok (.boolean true)
    else if x.same .zero then .ok (.boolean false)
    else .error (.noRule .number .boolean)
  | .date text, .date => .ok (.date text)
  | .string text, .date | .html text, .date =>
    (readDate text).map fun instant => .date instant.text
  | .number x, .date =>
    match Instant.ofMillis? x.truncate with
    | some instant => .ok (.date instant.text)
    | none => .error (.notTimestamp x)
  | .node id, .node => .ok (.node id)
  | .micronode content, .micronode => field.checkAllowed content
  | value, type => .error (.noRule value.type type)

/-- Carries a value to a field; nothing is left of an empty list carried to a single value. -/
def convert (field : FieldSpec) (value : FieldValue) :
    Except ConversionError (Option FieldValue) :=
  match field.type, value with
  | .list, .list items =>
    (items.mapM (field.convertScalar field.elementType)).map fun items => some (.list items)
  | .list, single =>
    (field.convertScalar field.elementType single).map fun item => some (.list [item])
  | _, .list [] => .ok none
  | type, .list (first :: _) => (field.convertScalar type first).map some
  | type, single => (field.convertScalar type single).map some

end FieldSpec

end VersionedContent
