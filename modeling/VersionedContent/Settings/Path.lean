import VersionedContent.Number.Numeral

/-!
# The names of variables

A name, in any letter case, spells the way to a setting: the names of the parts
on the way, between points or double underscores, each with the positions of
list elements behind it in square brackets.
-/

namespace VersionedContent

/-- One step of the way to a setting. -/
inductive PathStep where
  /-- To the part of a name. -/
  | member (name : String)
  /-- To the element at a position, counted from the end when it is negative. -/
  | element (position : Int)
  deriving DecidableEq

namespace PathStep

/-- A letter in lower case. The Kelvin sign is the one character beyond ASCII that has an
ASCII letter for its lower case. -/
def lowerLetter (c : Char) : Char := if c = '\u212A' then 'k' else c.toLower

/-- Writes a double underscore as a point. -/
def points : List Char → List Char
  | '_' :: '_' :: rest => '.' :: points rest
  | c :: rest => c :: points rest
  | [] => []

/-- The pieces between the places of a mark; `piece` holds the current one, last character
first. -/
def pieces (mark : Char) (piece : List Char) : List Char → List (List Char)
  | [] => [piece.reverse]
  | c :: rest =>
    if c = mark then piece.reverse :: pieces mark [] rest else pieces mark (c :: piece) rest

/-- Characters that may stand in the name of a part. -/
def isNamePart (c : Char) : Bool := c.isAlphanum || c = '_' || c = '-' || c = ' '

/-- The blanks that may stand around a position. -/
def isPadding (c : Char) : Bool := c = ' ' || c = '\t'

/-- Reads a position and the bracket that closes it. -/
def ofBracket? (chars : List Char) : Option PathStep :=
  match (chars.dropWhile isPadding).reverse with
  | ']' :: digits =>
    let digits := (digits.dropWhile isPadding).reverse
    if digits.head? = some '+' then none
    else (readInt64? (String.ofList digits)).map element
  | _ => none

/-- Reads the name of a part and the positions behind it. -/
def ofPart? (chars : List Char) : Option (List PathStep) :=
  match pieces '[' [] chars with
  | name :: brackets =>
    if !name.isEmpty && name.all isNamePart then
      (brackets.mapM ofBracket?).map (member (String.ofList name) :: ·)
    else none
  | [] => none

/-- What the names of all variables for settings start with. -/
def namePrefix : List Char := ['m', 'e', 's', 'h', '_']

/-- The way that the name of a variable spells, if it is a name for settings. -/
def ofName? (name : String) : Option (List PathStep) :=
  let chars := name.toList.map lowerLetter
  if namePrefix.isPrefixOf chars then
    ((pieces '.' [] (points (chars.drop namePrefix.length))).mapM ofPart?).map List.flatten
  else none

/-- Positions stand behind the part whose elements they count. -/
example : ofName? "Mesh_A__b c[ -1 ][2].d" =
    some [.member "a", .member "b c", .element (-1), .element 2, .member "d"] := by
  decide +kernel

/-- Nothing may stand between a bracket and the part behind it. -/
example : ofName? "mesh_a[0]b" = none ∧ ofName? "mesh_a____b" = none := by decide +kernel

end PathStep

end VersionedContent
