import VersionedContent.Collection.Dict
import VersionedContent.Settings.Path
import VersionedContent.Settings.Variable

/-!
# Statements about settings

What has been said of a setting is a single value, a list, or something said of
each of its parts. A value put at the end of a way replaces what was said there
before and makes lists and parts on the way where there are none.
-/

namespace VersionedContent

/-- What is said of a setting. -/
inductive Statement where
  /-- Nothing. -/
  | absent
  /-- A value. -/
  | single (value : Variable)
  /-- A list: how long it is, and what is said of each of its elements. -/
  | listed (length : Nat) (element : Nat → Statement)
  /-- What is said of parts, by name. -/
  | parts (members : List (String × Statement))

namespace Statement

/-- The statements about parts; none unless it is about parts. -/
def members : Statement → Dict Statement
  | parts members => members
  | _ => []

/-- The length and the elements of a list; none unless it is one. -/
def elements : Statement → Nat × (Nat → Statement)
  | listed length element => (length, element)
  | _ => (0, fun _ => absent)

/-- A list with room for a position, and the position counted from its start. A position
before the start moves the elements up. -/
def reach (list : Nat × (Nat → Statement)) (position : Int) :
    (Nat × (Nat → Statement)) × Nat :=
  let (length, element) := list
  let place := if position < 0 then position + length else position
  if place < 0 then
    let lead := place.natAbs
    ((length + lead, fun n => if n < lead then absent else element (n - lead)), 0)
  else ((max length (place.toNat + 1), element), place.toNat)

/-- Puts a value at the end of a way. -/
def put (value : Variable) : List PathStep → Statement → Statement
  | [], _ => single value
  | .member name :: way, statement =>
    let old := (statement.members.get? name).getD absent
    parts (statement.members.insert name (put value way old))
  | .element position :: way, statement =>
    let ((length, element), place) := reach statement.elements position
    listed length fun n => if n = place then put value way (element place) else element n

/-- What is said of the parts of some names; the elements of a list stand for them in their
order. -/
def select? (names : List String) : Statement → Option (List Statement)
  | listed length element =>
    if names.length ≤ length then some ((List.range names.length).map element) else none
  | parts members => some (names.map fun name => (Dict.get? members name).getD absent)
  | _ => none

/-- The value that is said. -/
def value? : Statement → Option Variable
  | single value => some value
  | _ => none

/-- Reads a setting that may be left out. -/
def optional? {α : Type} (read : Variable → Option α) : Statement → Option (Option α)
  | absent => some none
  | statement => (statement.value?.bind read).map some

/-- What is put under a name is found there, on top of what was said there before. -/
@[simp] theorem get?_members_put_self (value : Variable) (name : String) (way : List PathStep)
    (statement : Statement) :
    (put value (.member name :: way) statement).members.get? name =
      some (put value way ((statement.members.get? name).getD absent)) :=
  Dict.get?_insert_self ..

/-- What is put under a name leaves what is said under other names. -/
theorem get?_members_put_of_ne (value : Variable) {name other : String} (way : List PathStep)
    (statement : Statement) (h : other ≠ name) :
    (put value (.member name :: way) statement).members.get? other =
      statement.members.get? other :=
  Dict.get?_insert_of_ne _ _ h

end Statement

end VersionedContent
