import VersionedContent.Collection.Dict
import VersionedContent.Number.Binary64

/-!
# JSON values

The members of an object stand in increasing order of their keys. Integers of
up to 64 bits and doubles are different numbers: `1` and `1.0` are not equal.
`same` is equality of values up to the sign of a zero that is a double.
-/

namespace VersionedContent

/-- A JSON value. -/
inductive Json where
  /-- The value `null`. -/
  | null
  /-- A truth value. -/
  | bool (value : Bool)
  /-- A number written without fraction and exponent, of at most 64 bits. -/
  | integer (value : Int)
  /-- Any other number. -/
  | float (value : Binary64)
  /-- A text. -/
  | string (text : String)
  /-- A sequence. -/
  | array (items : List Json)
  /-- A dictionary. -/
  | object (members : List (String × Json))

namespace Json

mutual

/-- Equality of values; the two zeros among the doubles are equal. -/
def same : Json → Json → Bool
  | .null, .null => true
  | .bool a, .bool b => a == b
  | .integer a, .integer b => a == b
  | .float a, .float b => a.same b
  | .string a, .string b => a == b
  | .array a, .array b => sameItems a b
  | .object a, .object b => sameMembers a b
  | _, _ => false

/-- Equality of sequences, item by item. -/
def sameItems : List Json → List Json → Bool
  | [], [] => true
  | a :: as, b :: bs => same a b && sameItems as bs
  | _, _ => false

/-- Equality of dictionaries, member by member. -/
def sameMembers : List (String × Json) → List (String × Json) → Bool
  | [], [] => true
  | (k, a) :: as, (l, b) :: bs => k == l && same a b && sameMembers as bs
  | _, _ => false

end

mutual

/-- Every value is the same as itself. -/
theorem same_refl : ∀ j : Json, same j j = true
  | .null => rfl
  | .bool b => by simp [same]
  | .integer n => by simp [same]
  | .float x => by simp [same]
  | .string s => by simp [same]
  | .array items => by
    simp only [same]
    exact sameItems_refl items
  | .object members => by
    simp only [same]
    exact sameMembers_refl members

/-- Every sequence is the same as itself. -/
theorem sameItems_refl : ∀ items : List Json, sameItems items items = true
  | [] => rfl
  | j :: rest => by
    simp only [sameItems, Bool.and_eq_true]
    exact ⟨same_refl j, sameItems_refl rest⟩

/-- Every dictionary is the same as itself. -/
theorem sameMembers_refl : ∀ members : List (String × Json), sameMembers members members = true
  | [] => rfl
  | (k, j) :: rest => by
    simp only [sameMembers, Bool.and_eq_true, beq_self_eq_true, true_and]
    exact ⟨same_refl j, sameMembers_refl rest⟩

end

/-- An object from its members in any order; the last of two equal keys counts. -/
def ofMembers (members : List (String × Json)) : Json := .object (Dict.ofList members)

/-- A sequence of texts. -/
def ofStrings (texts : List String) : Json := .array (texts.map .string)

/-- A text, or `null` for none. -/
def ofOption (text : Option String) : Json := (text.map .string).getD .null

end Json

end VersionedContent
