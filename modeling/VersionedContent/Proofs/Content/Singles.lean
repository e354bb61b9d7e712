import VersionedContent.Content.Conversion

/-!
# Single values

Values and literals are read and converted by their single values: the items of a
list, and otherwise the value itself. A list takes all of them, each as one of its
element type, and any other field takes the first.
-/

namespace VersionedContent

namespace FieldValue

/-- The single values of a value: the items of a list, and otherwise the value alone. -/
def items : FieldValue → List FieldValue
  | list items => items
  | single => [single]

/-- What is no list is its only single value. -/
theorem items_of_single {value : FieldValue} (h : value.type ≠ .list) : value.items = [value] := by
  cases value with
  | list items => exact absurd rfl h
  | _ => rfl

end FieldValue

namespace FieldSpec

/-- The literals that the single values of a field are read from: the items of a sequence for a
list, and otherwise the literal alone. -/
def literals (field : FieldSpec) (json : Json) : List Json :=
  match field.type, json with
  | .list, .array items => items
  | _, json => [json]

variable {field : FieldSpec}

/-- The element type of a field that is no list is its type. -/
theorem elementType_of_single (h : field.type ≠ .list) : field.elementType = field.type := by
  unfold elementType
  split
  · contradiction
  · rfl

/-- A field that is no list has one literal. -/
theorem literals_of_single (h : field.type ≠ .list) (json : Json) :
    field.literals json = [json] := by
  unfold literals
  split
  · contradiction
  · rfl

/-- A field that is no list is read from its literal. -/
theorem read_of_single (h : field.type ≠ .list) (json : Json) :
    field.read json = field.readScalar field.elementType json := by
  rw [elementType_of_single h]
  unfold read
  split
  · contradiction
  · rfl

/-- A value is carried to a list by its single values, each of which becomes an item. -/
theorem convert_of_list (h : field.type = .list) (value : FieldValue) :
    field.convert value =
      (value.items.mapM (field.convertScalar field.elementType)).map fun items =>
        some (.list items) := by
  have hsingle (single : FieldValue) :
      ([single].mapM (field.convertScalar field.elementType)).map (fun items =>
        some (FieldValue.list items)) =
          (field.convertScalar field.elementType single).map fun item => some (.list [item]) := by
    rw [List.mapM_cons]
    cases field.convertScalar field.elementType single <;> rfl
  cases value with
  | list items => simp only [convert, h, FieldValue.items]
  | _ => simp only [convert, h, FieldValue.items, hsingle]

/-- A value is carried to a field that is no list by the first of its single values. -/
theorem convert_of_single (h : field.type ≠ .list) (value : FieldValue) :
    field.convert value =
      match value.items with
      | [] => .ok none
      | first :: _ => (field.convertScalar field.elementType first).map some := by
  rw [elementType_of_single h]
  unfold convert
  split
  · contradiction
  · contradiction
  · rfl
  · rfl
  · next single _ _ hnil hcons _ _ =>
    cases single with
    | list items =>
      cases items with
      | nil => exact absurd rfl hnil
      | cons first rest => exact absurd rfl (hcons first rest)
    | _ => rfl

end FieldSpec

end VersionedContent
