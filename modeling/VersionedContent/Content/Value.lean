import VersionedContent.Schema.Kind

/-!
# Field values

What a field of a piece of content holds: a scalar, embedded content, or a list
of values. Embedded content names the microschema and the version of it that it
follows, and has field values of its own. A number is a finite double; content
that holds an infinity or a value that is no number is left out, since no literal,
no default and no conversion gives one.

In JSON a value is tagged with its type, `type` beside `value`, or the two in a
sequence, where the type is a plain text. Members are visited in key order, so
of two faults in one value the one under the smaller key is reported; a missing
member is reported last.
-/

namespace VersionedContent

/-- Content embedded in a field, over the type of its field values. -/
structure Embedded (α : Type) where
  /-- Name of the microschema. -/
  microschema : String
  /-- The version of the microschema that the fields follow. -/
  versionId : Id
  /-- The field values by field name, in key order. -/
  fields : List (String × α)

/-- The value of a field. -/
inductive FieldValue where
  /-- Plain text. -/
  | string (text : String)
  /-- Text with markup. -/
  | html (text : String)
  /-- A number. -/
  | number (value : Binary64)
  /-- A truth value. -/
  | boolean (value : Bool)
  /-- An instant as text. -/
  | date (text : String)
  /-- A reference to a node. -/
  | node (id : Id)
  /-- Embedded content. -/
  | micronode (content : Embedded FieldValue)
  /-- A sequence of values. -/
  | list (items : List FieldValue)

/-- Embedded content. -/
abbrev Micronode := Embedded FieldValue

/-- Field values by field name. -/
abbrev FieldMap := Dict FieldValue

namespace FieldValue

/-- The type of a value. -/
def type : FieldValue → FieldType
  | string _ => .string
  | html _ => .html
  | number _ => .number
  | boolean _ => .boolean
  | date _ => .date
  | node _ => .node
  | micronode _ => .micronode
  | list _ => .list

/-- The embedded content of a value that is embedded content. -/
def micronode? : FieldValue → Option Micronode
  | micronode content => some content
  | _ => none

/-- Embedded content held directly or as an item of a list. -/
def micronodes : FieldValue → List Micronode
  | micronode content => [content]
  | list items => items.filterMap micronode?
  | _ => []

/-- Reads the content of a value that holds no other values; the two types that do are
refused here, since their content was none of theirs. -/
def ofScalar (type : FieldType) (j : Json) : Except Mismatch FieldValue :=
  match type with
  | .string => j.asText.map .string
  | .html => j.asText.map .html
  | .number => j.asNumber.map .number
  | .boolean => j.asBool.map .boolean
  | .date => j.asText.map .date
  | .node => j.asText.map .node
  | .micronode => .error (.wrongType j "struct Micronode")
  | .list => .error (.wrongType j "a sequence")

mutual

/-- Reads a tagged value. -/
def ofJson : Json → Except Mismatch FieldValue
  | .object members => ofMembers none none members
  | .array [] => .error (.wrongLength 0 "adjacently tagged enum FieldValue")
  | .array [tag] => do
    let _ ← FieldType.ofWord tag
    throw (.wrongLength 1 "adjacently tagged enum FieldValue")
  | .array (tag :: content :: rest) => do
    let type ← FieldType.ofWord tag
    let value ← ofContent type content
    if rest.isEmpty then pure value
    else throw (.wrongLength (rest.length + 2) "fewer elements in array")
  | j => .error (.wrongType j "adjacently tagged enum FieldValue")

/-- Reads the members of a tagged value, given the tag and the value read so far. A content
that comes before its tag waits for it, and without one it is not looked at. -/
def ofMembers (type : Option FieldType) (value : Option FieldValue) :
    List (String × Json) → Except Mismatch FieldValue
  | [] =>
    match type, value with
    | none, _ => .error (.missingMember "type")
    | some _, none => .error (.missingMember "value")
    | some _, some value => .ok value
  | (key, j) :: rest =>
    if key = "type" then
      match FieldType.ofJson j with
      | .ok type => ofMembers (some type) value rest
      | .error e => .error e
    else if key = "value" then
      match type with
      | none => ofMembers none value rest
      | some type =>
        match ofContent type j with
        | .ok value => ofMembers (some type) (some value) rest
        | .error e => .error e
    else ofMembers type value rest

/-- Reads the content of a value of a type. -/
def ofContent (type : FieldType) : Json → Except Mismatch FieldValue
  | .object members =>
    match type with
    | .micronode => (ofMicronodeMembers none none none members).map .micronode
    | type => ofScalar type (.object members)
  | .array items =>
    match type with
    | .micronode => (ofPositions items).map .micronode
    | .list => (ofItems items).map .list
    | type => ofScalar type (.array items)
  | j => ofScalar type j

/-- Reads the items of a list. -/
def ofItems : List Json → Except Mismatch (List FieldValue)
  | [] => .ok []
  | item :: rest => do
    let item ← ofJson item
    let rest ← ofItems rest
    pure (item :: rest)

/-- Reads field values by name. -/
def ofFields : Json → Except Mismatch (List (String × FieldValue))
  | .object members => ofFieldMembers members
  | j => .error (.wrongType j "a map")

/-- Reads the members of a dictionary of field values. -/
def ofFieldMembers : List (String × Json) → Except Mismatch (List (String × FieldValue))
  | [] => .ok []
  | (name, j) :: rest => do
    let value ← ofJson j
    let rest ← ofFieldMembers rest
    pure ((name, value) :: rest)

/-- Reads the members of embedded content, given those read so far. -/
def ofMicronodeMembers (microschema versionId : Option String)
    (fields : Option (List (String × FieldValue))) :
    List (String × Json) → Except Mismatch Micronode
  | [] =>
    match microschema, versionId with
    | none, _ => .error (.missingMember "microschema")
    | some _, none => .error (.missingMember "version_id")
    | some microschema, some versionId => .ok ⟨microschema, versionId, fields.getD []⟩
  | (key, j) :: rest =>
    if key = "fields" then
      match ofFields j with
      | .ok fields => ofMicronodeMembers microschema versionId (some fields) rest
      | .error e => .error e
    else if key = "microschema" then
      match Json.asText j with
      | .ok name => ofMicronodeMembers (some name) versionId fields rest
      | .error e => .error e
    else if key = "version_id" then
      match Json.asText j with
      | .ok id => ofMicronodeMembers microschema (some id) fields rest
      | .error e => .error e
    else ofMicronodeMembers microschema versionId fields rest

/-- Reads embedded content given by position. -/
def ofPositions : List Json → Except Mismatch Micronode
  | [] => .error (.wrongLength 0 "struct Micronode with 3 elements")
  | [name] => do
    let _ ← Json.asText name
    throw (.wrongLength 1 "struct Micronode with 3 elements")
  | [name, id] => do
    let name ← Json.asText name
    let id ← Json.asText id
    pure ⟨name, id, []⟩
  | name :: id :: fields :: rest => do
    let name ← Json.asText name
    let id ← Json.asText id
    let fields ← ofFields fields
    if rest.isEmpty then pure ⟨name, id, fields⟩
    else throw (.wrongLength (rest.length + 3) "fewer elements in array")

end

end FieldValue

namespace Embedded

/-- Reads embedded content. -/
def ofJson : Json → Except Mismatch Micronode
  | .object members => FieldValue.ofMicronodeMembers none none none members
  | .array items => FieldValue.ofPositions items
  | j => .error (.wrongType j "struct Micronode")

end Embedded

end VersionedContent
