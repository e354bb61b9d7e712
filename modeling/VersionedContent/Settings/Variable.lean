import VersionedContent.Number.Numeral

/-!
# The texts of variables

The text of a variable is read as a truth value, an integer or a number if it
is one. A setting then takes what it can use: counts are rounded and clamped,
words for truth values count as one and zero, and truth values and numbers
given where a text is wanted are written out again.
-/

namespace VersionedContent

/-- The text of a variable, as far as it says something more special than a text. -/
inductive Variable where
  /-- A truth value. -/
  | boolean (value : Bool)
  /-- An integer of 64 bits. -/
  | integer (value : Int)
  /-- A number. -/
  | number (value : Numeral)
  /-- Any other text. -/
  | text (value : String)
  deriving DecidableEq

namespace Variable

/-- A text in lower case. -/
def lower (text : String) : String := String.ofList (text.toList.map Char.toLower)

/-- Reads the text of a variable. -/
def read (text : String) : Variable :=
  if lower text = "true" then .boolean true
  else if lower text = "false" then .boolean false
  else match readInt64? text with
    | some n => .integer n
    | none =>
      match Numeral.read? text with
      | some x => .number x
      | none => .text text

/-- The words that stand for a truth value. -/
def word? (text : String) : Option Bool :=
  if lower text = "on" ∨ lower text = "yes" then some true
  else if lower text = "off" ∨ lower text = "no" then some false
  else none

/-- The largest count of 64 bits. -/
def maxCount : Nat := 18446744073709551615

/-- A count of 64 bits. -/
def asCount : Variable → Option Nat
  | boolean value => some (if value then 1 else 0)
  | integer n => if 0 ≤ n then some n.toNat else none
  | number (.finite x) => some (min x.round.toNat maxCount)
  | number (.infinite negative) => some (if negative then 0 else maxCount)
  | number .undefined => some 0
  | text value => (word? value).map fun word => if word then 1 else 0

/-- A truth value. -/
def asBoolean : Variable → Option Bool
  | boolean value => some value
  | integer n => some (n ≠ 0)
  | number (.finite x) => some (x.rank ≠ 0)
  | number _ => some true
  | text value => word? value

/-- A text. -/
def asText : Variable → String
  | boolean value => if value then "true" else "false"
  | integer n => toString n
  | number (.finite x) => x.plain
  | number (.infinite negative) => if negative then "-inf" else "inf"
  | number .undefined => "NaN"
  | text value => value

end Variable

end VersionedContent
