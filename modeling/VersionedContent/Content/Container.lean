import VersionedContent.Content.Value
import VersionedContent.Time.Rfc3339

/-!
# Containers and edges

A container is one version of the content of a node in one language. Containers
never change what they hold; an edit makes a successor, and branches that share
a container may each make one of their own. An edge is a branch's pointer to the
current container of a node, language and container type.
-/

namespace VersionedContent

/-- Which of a node's two states a container is in. -/
inductive ContainerType where
  /-- Being edited. -/
  | draft
  /-- Visible to readers. -/
  | published
  deriving DecidableEq, Repr

namespace ContainerType

/-- The name of a container type. -/
def name : ContainerType → String
  | draft => "draft"
  | published => "published"

/-- Both types, in the order in which they are migrated. -/
def all : List ContainerType := [draft, published]

/-- The container types under their names. -/
def byName : List (String × ContainerType) := all.map fun type => (type.name, type)

/-- The container type of a name. -/
def ofName? (name : String) : Option ContainerType := byName.lookup name

/-- Reads a container type. -/
def ofJson : Json → Except Mismatch ContainerType := Json.asName byName

/-- Every container type is found under its name. -/
@[simp] theorem ofName?_name (type : ContainerType) : ofName? type.name = some type := by
  cases type <;> rfl

/-- Position in the order of migration. -/
def rank : ContainerType → Nat
  | draft => 0
  | published => 1

end ContainerType

/-- Sets of identifiers, in increasing order. -/
abbrev IdSet := List Id

namespace IdSet

/-- Adds an identifier. -/
def insert : IdSet → Id → IdSet
  | [], id => [id]
  | first :: rest, id =>
    if id < first then id :: first :: rest
    else if id = first then first :: rest
    else first :: insert rest id

/-- The set of the identifiers in a list. -/
def ofList (ids : List Id) : IdSet := ids.foldl insert []

/-- Adds all identifiers of a list. -/
def union (set : IdSet) (ids : List Id) : IdSet := ids.foldl insert set

/-- Takes an identifier out. -/
def erase (set : IdSet) (id : Id) : IdSet := set.filter fun other => other ≠ id

/-- An insertion adds the one identifier. -/
@[simp] theorem mem_insert (set : IdSet) (id other : Id) :
    other ∈ insert set id ↔ other = id ∨ other ∈ set := by
  induction set with
  | nil => simp [insert]
  | cons first rest ih =>
    simp only [insert]
    split
    · simp
    · split
      · rename_i h
        subst h
        simp
      · simp only [List.mem_cons, ih]
        constructor
        · rintro (h | h | h)
          · exact Or.inr (Or.inl h)
          · exact Or.inl h
          · exact Or.inr (Or.inr h)
        · rintro (h | h | h)
          · exact Or.inr (Or.inl h)
          · exact Or.inl h
          · exact Or.inr (Or.inr h)

@[simp] theorem mem_erase (set : IdSet) (id other : Id) :
    other ∈ erase set id ↔ other ∈ set ∧ other ≠ id := by
  simp [erase]

/-- A union holds the identifiers of both. -/
@[simp] theorem mem_union (set : IdSet) (ids : List Id) (other : Id) :
    other ∈ union set ids ↔ other ∈ set ∨ other ∈ ids := by
  induction ids generalizing set with
  | nil => simp [union]
  | cons id rest ih =>
    have h := ih (insert set id)
    simp only [union, List.foldl_cons, mem_insert, List.mem_cons] at h ⊢
    rw [h]
    constructor
    · rintro ((h | h) | h)
      · exact Or.inr (Or.inl h)
      · exact Or.inl h
      · exact Or.inr (Or.inr h)
    · rintro (h | h | h)
      · exact Or.inl (Or.inr h)
      · exact Or.inl (Or.inl h)
      · exact Or.inr h

end IdSet

/-- One version of the content of a node in one language. -/
structure Container where
  /-- Identifies the container. -/
  id : Id
  /-- The node. -/
  nodeId : Id
  /-- The language. -/
  language : String
  /-- The schema version that the fields follow. -/
  schemaVersionId : Id
  /-- The field values. -/
  fields : FieldMap
  /-- The container that it succeeds. -/
  previous : Option Id
  /-- The containers that succeed it, one for each branch that made one. -/
  next : IdSet
  /-- When it was made. -/
  createdAt : Instant

namespace Container

/-- A container without history. -/
def create (id : Id) (createdAt : Instant) (nodeId : Id) (language : String)
    (schemaVersionId : Id) (fields : FieldMap) : Container where
  id := id
  nodeId := nodeId
  language := language
  schemaVersionId := schemaVersionId
  fields := fields
  previous := none
  next := []
  createdAt := createdAt

/-- A container that succeeds another one; the link to it is made when it is stored. -/
def successor (container : Container) (id : Id) (createdAt : Instant) (schemaVersionId : Id)
    (fields : FieldMap) : Container where
  id := id
  nodeId := container.nodeId
  language := container.language
  schemaVersionId := schemaVersionId
  fields := fields
  previous := some container.id
  next := []
  createdAt := createdAt

/-- The embedded content of all field values. -/
def micronodes (container : Container) : List Micronode :=
  (Dict.values container.fields).flatMap FieldValue.micronodes

/-- The microschema versions of the embedded content, in order and without repetition. -/
def micronodeVersions (container : Container) : IdSet :=
  IdSet.ofList (container.micronodes.map Embedded.versionId)

/-- Whether embedded content follows a microschema version. -/
def holdsMicronodeVersion (container : Container) (versionId : Id) : Bool :=
  container.micronodes.any fun content => content.versionId = versionId

/-- The members of a container in their order of declaration. -/
def memberNames : List String :=
  ["id", "node_id", "language", "schema_version_id", "fields", "previous", "next", "created_at"]

end Container

/-- Names the pointer of a branch for a node, language and container type. -/
structure EdgeKey where
  /-- The branch. -/
  branchId : Id
  /-- The node. -/
  nodeId : Id
  /-- The language. -/
  language : String
  /-- The container type. -/
  type : ContainerType
  deriving DecidableEq, Repr

/-- A place in the order of a branch's edges of one type: by node, then by language. -/
structure Cursor where
  /-- The node. -/
  nodeId : Id
  /-- The language. -/
  language : String
  deriving DecidableEq, Repr

namespace Cursor

/-- Whether a place comes before another one. -/
def precedes (a b : Cursor) : Bool :=
  a.nodeId < b.nodeId || (a.nodeId == b.nodeId && a.language < b.language)

/-- Whether a place is past an optional bound. -/
def isAfter (cursor : Cursor) (bound : Option Cursor) : Bool :=
  match bound with
  | none => true
  | some bound => bound.precedes cursor

end Cursor

/-- A branch's pointer to a container. -/
structure Edge where
  /-- The branch. -/
  branchId : Id
  /-- The node. -/
  nodeId : Id
  /-- The language. -/
  language : String
  /-- The container type. -/
  type : ContainerType
  /-- The container it points at. -/
  containerId : Id
  deriving DecidableEq, Repr

namespace Edge

/-- The edge of a branch to a container. -/
def toContainer (branchId : Id) (container : Container) (type : ContainerType) : Edge where
  branchId := branchId
  nodeId := container.nodeId
  language := container.language
  type := type
  containerId := container.id

/-- The key of an edge. -/
def key (edge : Edge) : EdgeKey := ⟨edge.branchId, edge.nodeId, edge.language, edge.type⟩

/-- The place of an edge in the order of its branch and type. -/
def cursor (edge : Edge) : Cursor := ⟨edge.nodeId, edge.language⟩

end Edge

end VersionedContent
