import VersionedContent.Content.Container
import VersionedContent.Schema.Version

/-!
# Reading and writing content

The JSON forms of field values, containers, edges, their keys and cursors. A
value is written with its type beside it. Numbers are written as text, digit by
digit and without an exponent, and read from JSON numbers.
-/

namespace VersionedContent

namespace FieldValue

mutual

/-- Writes a value. -/
def toJson (value : FieldValue) : Json :=
  Json.ofMembers [("type", .string value.type.name), ("value", contentJson value)]

/-- Writes what a value holds. -/
def contentJson : FieldValue → Json
  | .string text => .string text
  | .html text => .string text
  | .number x => .string x.plain
  | .boolean b => .bool b
  | .date text => .string text
  | .node id => .string id
  | .micronode ⟨microschema, versionId, fields⟩ =>
    Json.ofMembers [("microschema", .string microschema), ("version_id", .string versionId),
      ("fields", .object (memberJson fields))]
  | .list items => .array (itemJson items)

/-- Writes the items of a list. -/
def itemJson : List FieldValue → List Json
  | [] => []
  | item :: rest => toJson item :: itemJson rest

/-- Writes field values by name. -/
def memberJson : List (String × FieldValue) → List (String × Json)
  | [] => []
  | (name, value) :: rest => (name, toJson value) :: memberJson rest

end

end FieldValue

/-- Writes field values by name. -/
def FieldMap.toJson (fields : FieldMap) : Json := .object (FieldValue.memberJson fields)

/-- Reads field values by name. -/
def FieldMap.ofJson (json : Json) : Except Mismatch FieldMap := FieldValue.ofFields json

/-- Reads a container. -/
def Container.ofJson (json : Json) : Except Mismatch Container := do
  let members ← json.asRecord "struct FieldContainer" Container.memberNames
  pure {
    id := ← members.required "id" Json.asText
    nodeId := ← members.required "node_id" Json.asText
    language := ← members.required "language" Json.asText
    schemaVersionId := ← members.required "schema_version_id" Json.asText
    fields := ← members.required "fields" FieldMap.ofJson
    previous := ← members.nullable "previous" Json.asText
    next := IdSet.ofList (← members.withDefault "next" [] (Json.asList Json.asText))
    createdAt := ← members.required "created_at" Instant.ofJson }

/-- Writes an edge. -/
def Edge.toJson (edge : Edge) : Json :=
  Json.ofMembers [("branch_id", .string edge.branchId), ("node_id", .string edge.nodeId),
    ("language", .string edge.language), ("container_type", .string edge.type.name),
    ("container_id", .string edge.containerId)]

/-- Reads an edge. -/
def Edge.ofJson (json : Json) : Except Mismatch Edge := do
  let members ← json.asRecord "struct ContainerEdge"
    ["branch_id", "node_id", "language", "container_type", "container_id"]
  pure {
    branchId := ← members.required "branch_id" Json.asText
    nodeId := ← members.required "node_id" Json.asText
    language := ← members.required "language" Json.asText
    type := ← members.required "container_type" ContainerType.ofJson
    containerId := ← members.required "container_id" Json.asText }

/-- Writes the key of an edge. -/
def EdgeKey.toJson (key : EdgeKey) : Json :=
  Json.ofMembers [("branch_id", .string key.branchId), ("node_id", .string key.nodeId),
    ("language", .string key.language), ("container_type", .string key.type.name)]

/-- Reads the key of an edge. -/
def EdgeKey.ofJson (json : Json) : Except Mismatch EdgeKey := do
  let members ← json.asRecord "struct EdgeKey"
    ["branch_id", "node_id", "language", "container_type"]
  pure {
    branchId := ← members.required "branch_id" Json.asText
    nodeId := ← members.required "node_id" Json.asText
    language := ← members.required "language" Json.asText
    type := ← members.required "container_type" ContainerType.ofJson }

/-- Writes a cursor. -/
def Cursor.toJson (cursor : Cursor) : Json :=
  Json.ofMembers [("node_id", .string cursor.nodeId), ("language", .string cursor.language)]

/-- Reads a cursor. -/
def Cursor.ofJson (json : Json) : Except Mismatch Cursor := do
  let members ← json.asRecord "struct EdgeCursor" ["node_id", "language"]
  pure {
    nodeId := ← members.required "node_id" Json.asText
    language := ← members.required "language" Json.asText }

end VersionedContent
