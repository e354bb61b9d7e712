import VersionedContent.Schema.Definition

/-!
# Changes of a definition

A change list turns one definition into the next. `Definition.apply` carries it
out on the definition itself; every change is checked against the definition as
the changes before it left it.
-/

namespace VersionedContent

/-- One step of a change list. -/
inductive Change where
  /-- A new field, at a position or at the end. -/
  | addField (field : FieldSpec) (position : Option Nat)
  /-- A field goes. -/
  | removeField (field : String)
  /-- A field of the same name is declared anew. -/
  | updateField (field : FieldSpec)
  /-- A field goes on under another name. -/
  | renameField (source target : String)
  /-- The fields stand in another order. -/
  | reorderFields (order : List String)
  /-- What is said of the schema as a whole. -/
  | updateSchema (description displayField : Option String) (autoPurge : Bool)

/-- A rename that an editor asks for; content never suggests one. -/
structure Rename where
  /-- The name of the field so far. -/
  source : String
  /-- Its name from now on. -/
  target : String
  deriving DecidableEq, Repr

namespace Change

/-- The field that a change is about, under its name before the change. -/
def fieldName? : Change → Option String
  | addField field _ => some field.name
  | updateField field => some field.name
  | removeField field => some field
  | renameField source _ => some source
  | reorderFields _ => none
  | updateSchema .. => none

/-- Whether content has to be touched for a change. -/
def affectsData : Change → Bool
  | reorderFields _ => false
  | updateSchema .. => false
  | _ => true

end Change

/-- Why a change does not fit a definition. -/
inductive ChangeFault where
  /-- There is a field of that name already. -/
  | present (name : String)
  /-- There is no field of that name. -/
  | absent (name : String)
  /-- An order does not have as many names as there are fields. -/
  | incompleteOrder
  deriving DecidableEq, Repr

namespace ChangeFault

/-- The message of a fault. -/
def message : ChangeFault → String
  | present name => "field '" ++ name ++ "' already exists"
  | absent name => "field '" ++ name ++ "' does not exist"
  | incompleteOrder => "reorder must list every field exactly once"

end ChangeFault

namespace Definition

/-- Puts a field before the one at a position, at the end if there is none. -/
def insertField (fields : List FieldSpec) (position : Nat) (field : FieldSpec) :
    List FieldSpec :=
  fields.take position ++ field :: fields.drop position

/-- Changes the first field of a name. -/
def modifyField (name : String) (f : FieldSpec → FieldSpec) : List FieldSpec → List FieldSpec
  | [] => []
  | field :: rest =>
    if field.name = name then f field :: rest else field :: modifyField name f rest

/-- The first field of a name, which a change needs. -/
def require (definition : Definition) (name : String) : Except ChangeFault FieldSpec :=
  match definition.field? name with
  | some field => .ok field
  | none => .error (.absent name)

/-- Refuses a name that a field has. -/
def refuse (definition : Definition) (name : String) : Except ChangeFault Unit :=
  if (definition.field? name).isSome then .error (.present name) else .ok ()

/-- The definition after one change. -/
def step (definition : Definition) : Change → Except ChangeFault Definition
  | .addField field position => do
    definition.refuse field.name
    let position := position.getD definition.fields.length
    pure { definition with fields := insertField definition.fields position field }
  | .removeField name => do
    let _ ← definition.require name
    pure { definition with fields := definition.fields.eraseP fun field => field.name = name }
  | .updateField field => do
    let _ ← definition.require field.name
    pure { definition with fields := modifyField field.name (fun _ => field) definition.fields }
  | .renameField source target => do
    definition.refuse target
    let _ ← definition.require source
    pure { definition with
      fields := modifyField source (fun field => { field with name := target })
        definition.fields }
  | .reorderFields order => do
    let fields ← order.mapM definition.require
    if fields.length = definition.fields.length then pure { definition with fields := fields }
    else throw .incompleteOrder
  | .updateSchema description displayField autoPurge =>
    pure { definition with
      description := description, displayField := displayField, autoPurge := autoPurge }

/-- The definition after a change list. -/
def apply (definition : Definition) (changes : List Change) : Except ChangeFault Definition :=
  changes.foldlM step definition

/-- No change leaves a definition as it is. -/
@[simp] theorem apply_nil (definition : Definition) : definition.apply [] = .ok definition := rfl

/-- A change list is carried out from the front. -/
theorem apply_cons (definition : Definition) (change : Change) (rest : List Change) :
    definition.apply (change :: rest) = (definition.step change).bind fun d => d.apply rest := rfl

/-- A change list can be cut anywhere. -/
theorem apply_append (definition : Definition) (first second : List Change) :
    definition.apply (first ++ second) =
      (definition.apply first).bind fun d => d.apply second := by
  simp only [apply, List.foldlM_append]
  rfl

end Definition

end VersionedContent
