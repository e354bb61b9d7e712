import VersionedContent.Schema.Kind

/-!
# Definitions

A definition lists the fields that content of a schema has. A field has a type;
fields of embedded content, and lists of it, name the microschemas that they
allow.

Defaults are kept as the JSON that was given, and are compared as JSON values
(`same`): two definitions are the same when they agree in everything, the sign
of a zero in a default apart.
-/

namespace VersionedContent

/-- One declared field. -/
structure FieldSpec where
  /-- Its name, unique within the definition. -/
  name : String
  /-- The type of its values. -/
  type : FieldType
  /-- The type of the items, for lists. -/
  listType : Option FieldType := none
  /-- Microschemas that embedded content may have, or schemas of referenced nodes. -/
  allow : List String := []
  /-- Whether editors must fill it. -/
  required : Bool := false
  /-- What existing content gets when the field is added. -/
  default : Option Json := none
  /-- A caption for editors. -/
  label : Option String := none

namespace FieldSpec

/-- The type of single values: of the items for lists, which are texts when nothing is said. -/
def elementType (field : FieldSpec) : FieldType :=
  match field.type with
  | .list => field.listType.getD .string
  | other => other

/-- Whether values are embedded content or lists of it. -/
def embeds (field : FieldSpec) : Bool := field.elementType = .micronode

/-- Whether a name is among those allowed. -/
def allows (field : FieldSpec) (name : String) : Bool := field.allow.contains name

/-- Agreement of two defaults. -/
def sameDefault : Option Json → Option Json → Bool
  | none, none => true
  | some a, some b => a.same b
  | _, _ => false

/-- Agreement in everything. -/
def same (a b : FieldSpec) : Bool :=
  a.name == b.name && a.type = b.type && a.listType = b.listType && a.allow == b.allow &&
    a.required == b.required && sameDefault a.default b.default && a.label == b.label

/-- Every field agrees with itself. -/
@[simp] theorem same_refl (field : FieldSpec) : same field field = true := by
  simp only [same, beq_self_eq_true, decide_true, Bool.and_true, Bool.true_and]
  cases field.default with
  | none => rfl
  | some j => exact j.same_refl

/-- Fields that agree have one name. -/
theorem name_of_same {a b : FieldSpec} (h : same a b = true) : a.name = b.name := by
  simp only [same, Bool.and_eq_true, beq_iff_eq] at h
  exact h.1.1.1.1.1.1

end FieldSpec

/-- The fields of a schema and how editors see them. -/
structure Definition where
  /-- Name of the schema. -/
  name : String
  /-- Text for editors. -/
  description : Option String := none
  /-- The field that titles a piece of content. -/
  displayField : Option String := none
  /-- Whether superseded content may be deleted. -/
  autoPurge : Bool := false
  /-- The fields in order. -/
  fields : List FieldSpec := []

namespace Definition

/-- The first field of a name. -/
def field? (definition : Definition) (name : String) : Option FieldSpec :=
  definition.fields.find? fun field => field.name = name

/-- The names of the fields in order. -/
def fieldNames (definition : Definition) : List String := definition.fields.map FieldSpec.name

/-- Sorts names and drops repetitions. -/
def distinctNames (names : List String) : List String :=
  (names.foldl (fun seen name => Dict.insert seen name ()) ([] : Dict Unit)).keys

/-- The microschemas that fields allow, in order and without repetition. -/
def microschemaReferences (definition : Definition) : List String :=
  distinctNames ((definition.fields.filter FieldSpec.embeds).flatMap FieldSpec.allow)

/-- The fields that embed content of a microschema, in order and without repetition. -/
def fieldsEmbedding (definition : Definition) (microschema : String) : List String :=
  distinctNames ((definition.fields.filter fun field =>
    field.embeds && field.allows microschema).map FieldSpec.name)

/-- Agreement of two lists of fields, field by field. -/
def sameFields : List FieldSpec → List FieldSpec → Bool
  | [], [] => true
  | a :: as, b :: bs => a.same b && sameFields as bs
  | _, _ => false

/-- Agreement in everything. -/
def same (a b : Definition) : Bool :=
  a.name == b.name && a.description == b.description && a.displayField == b.displayField &&
    a.autoPurge == b.autoPurge && sameFields a.fields b.fields

/-- A field that is found has the name it was looked up by. -/
theorem name_of_field? {definition : Definition} {name : String} {field : FieldSpec}
    (h : definition.field? name = some field) : field.name = name := by
  simpa using List.find?_some h

/-- A field that is found is one of the fields. -/
theorem mem_of_field? {definition : Definition} {name : String} {field : FieldSpec}
    (h : definition.field? name = some field) : field ∈ definition.fields :=
  List.mem_of_find?_eq_some h

/-- There is a field of a name exactly when the name is among the field names. -/
theorem field?_isSome_iff (definition : Definition) (name : String) :
    (definition.field? name).isSome = true ↔ name ∈ definition.fieldNames := by
  simp [field?, fieldNames, List.find?_isSome]

end Definition

end VersionedContent
