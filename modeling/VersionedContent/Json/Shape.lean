import VersionedContent.Json.Writer
import VersionedContent.Text.Visible

/-!
# Shapes of JSON values

Reading records, names, texts and numbers out of a JSON value, and what is said
when a value does not have the shape that is needed.

A record is an object, or a sequence of the same members in their order of
declaration. Members that are not declared are ignored. An optional member is
absent when it is missing or `null`; a member with a default may be missing but
not `null`.
-/

namespace VersionedContent

/-- Why a JSON value does not have the shape that is needed. -/
inductive Mismatch where
  /-- A value of another kind stands there. -/
  | wrongType (found : Json) (expected : String)
  /-- A value of the right kind that is out of range. -/
  | wrongValue (found : Json) (expected : String)
  /-- A sequence has too few or too many items. -/
  | wrongLength (length : Nat) (expected : String)
  /-- A member is missing. -/
  | missingMember (name : String)
  /-- A name is none of those known. -/
  | unknownName (name : String) (known : List String)

namespace Mismatch

/-- What a value is called in a message. -/
def describe : Json → String
  | .null => "null"
  | .bool b => "boolean \x60" ++ (if b then "true" else "false") ++ "\x60"
  | .integer n => "integer \x60" ++ toString n ++ "\x60"
  | .float x => "floating point \x60" ++ x.scientific ++ "\x60"
  | .string s => "string " ++ Text.quoteVisible s
  | .array _ => "sequence"
  | .object _ => "map"

/-- A name between grave accents. -/
def graved (name : String) : String := "\x60" ++ name ++ "\x60"

/-- The names that were possible. -/
def oneOf : List String → String
  | [] => "there are no variants"
  | [name] => "expected " ++ graved name
  | [first, second] => "expected " ++ graved first ++ " or " ++ graved second
  | names => "expected one of " ++ ", ".intercalate (names.map graved)

/-- The message of a mismatch. -/
def message : Mismatch → String
  | .wrongType found expected => "invalid type: " ++ describe found ++ ", expected " ++ expected
  | .wrongValue found expected => "invalid value: " ++ describe found ++ ", expected " ++ expected
  | .wrongLength length expected =>
    "invalid length " ++ toString length ++ ", expected " ++ expected
  | .missingMember name => "missing field " ++ graved name
  | .unknownName name [] => "unknown variant " ++ graved name ++ ", there are no variants"
  | .unknownName name known => "unknown variant " ++ graved name ++ ", " ++ oneOf known

end Mismatch

namespace Json

/-- A text. -/
def asText : Json → Except Mismatch String
  | .string s => .ok s
  | j => .error (.wrongType j "a string")

/-- A truth value. -/
def asBool : Json → Except Mismatch Bool
  | .bool b => .ok b
  | j => .error (.wrongType j "a boolean")

/-- A number as a double; an integer becomes the nearest one. -/
def asNumber : Json → Except Mismatch Binary64
  | .integer n => .ok (.ofInt n)
  | .float x => .ok x
  | j => .error (.wrongType j "f64")

/-- A natural number below a bound. -/
def asNatBelow (bound : Nat) (expected : String) : Json → Except Mismatch Nat
  | .integer n =>
    if 0 ≤ n ∧ n < bound then .ok n.toNat else .error (.wrongValue (.integer n) expected)
  | j => .error (.wrongType j expected)

/-- A version number, of 32 bits. -/
def asNat32 : Json → Except Mismatch Nat := asNatBelow 4294967296 "u32"

/-- A size or a position, of 64 bits. -/
def asNat64 : Json → Except Mismatch Nat := asNatBelow 18446744073709551616 "u64"

/-- A sequence, item by item. -/
def asList {α : Type} (item : Json → Except Mismatch α) : Json → Except Mismatch (List α)
  | .array items => items.mapM item
  | j => .error (.wrongType j "a sequence")

/-- A dictionary, member by member. -/
def asDict {α : Type} (value : Json → Except Mismatch α) : Json → Except Mismatch (Dict α)
  | .object members => members.mapM fun member => (value member.2).map fun v => (member.1, v)
  | j => .error (.wrongType j "a map")

/-- A name: a text, or an object whose one member has that name and no content. `isEmpty` says
which values are no content. -/
def asNameWith {α : Type} (isEmpty : Json → Bool) (known : List (String × α)) (j : Json) :
    Except Mismatch α := do
  let (name, content) ← match j with
    | .string name => pure (name, none)
    | .object [(name, content)] => pure (name, some content)
    | .object _ => throw (.wrongValue j "map with a single key")
    | _ => throw (.wrongType j "string or map")
  match known.lookup name with
  | none => throw (.unknownName name (known.map Prod.fst))
  | some value =>
    match content with
    | none => pure value
    | some content => if isEmpty content then pure value else throw (.wrongType content "unit")

/-- A name: a text, or an object whose one member has that name and is `null`. -/
def asName {α : Type} : List (String × α) → Json → Except Mismatch α :=
  asNameWith fun
    | .null => true
    | _ => false

/-- A name in a tagged record, where the one member may also be an empty object. -/
def asTaggedName {α : Type} : List (String × α) → Json → Except Mismatch α :=
  asNameWith fun
    | .null => true
    | .object [] => true
    | _ => false

/-- A name given as a text. -/
def asWord {α : Type} (known : List (String × α)) : Json → Except Mismatch α
  | .string name =>
    match known.lookup name with
    | some value => .ok value
    | none => .error (.unknownName name (known.map Prod.fst))
  | j => .error (.wrongType j "variant identifier")

/-- The members of a record, by name. -/
structure Members where
  /-- The members that are there. -/
  entries : List (String × Json)
  /-- Whether they were given by position, not by name. -/
  positional : Bool

/-- The record with members of the given names. -/
def asRecord (expected : String) (names : List String) : Json → Except Mismatch Members
  | .object members => .ok ⟨members, false⟩
  | .array items =>
    if names.length < items.length then
      .error (.wrongLength items.length "fewer elements in array")
    else .ok ⟨names.zip items, true⟩
  | j => .error (.wrongType j expected)

namespace Members

variable {α : Type}

/-- A member that must be there. -/
def required (members : Members) (name : String) (read : Json → Except Mismatch α) :
    Except Mismatch α :=
  match members.entries.lookup name with
  | some j => read j
  | none => .error (.missingMember name)

/-- A member that may be missing, but is not `null` when it is there. -/
def withDefault (members : Members) (name : String) (default : α)
    (read : Json → Except Mismatch α) : Except Mismatch α :=
  match members.entries.lookup name with
  | some j => read j
  | none => .ok default

/-- A member that is none when it is missing or `null`. -/
def optional (members : Members) (name : String) (read : Json → Except Mismatch α) :
    Except Mismatch (Option α) :=
  match members.entries.lookup name with
  | some .null => .ok none
  | some j => (read j).map some
  | none => .ok none

/-- An optional member that keeps its place when members are given by position. -/
def nullable (members : Members) (name : String) (read : Json → Except Mismatch α) :
    Except Mismatch (Option α) :=
  if members.positional && (members.entries.lookup name).isNone then
    .error (.missingMember name)
  else members.optional name read

end Members

/-- The tag of a tagged record, and its other members. Given by position, the tag comes first. -/
def tagged (tag expected : String) : Json → Except Mismatch (Json × Json)
  | .object members =>
    match members.lookup tag with
    | some name => .ok (name, .object (members.filter fun member => member.1 ≠ tag))
    | none => .error (.missingMember tag)
  | .array (name :: rest) => .ok (name, .array rest)
  | .array [] => .error (.missingMember tag)
  | j => .error (.wrongType j expected)

end Json

end VersionedContent
