import VersionedContent.Json.Basic
import VersionedContent.Number.Numeral

/-!
# Reading JSON text

`Json.read?` reads a text that is one JSON value from end to end. Objects keep
the last of two equal keys. Integers beyond 64 bits and the integer `-0` become
doubles; a number beyond the largest double is refused, and so are containers
nested more than 127 deep.
-/

namespace VersionedContent.Json

/-- Blanks between tokens. -/
def isGap (c : Char) : Bool := c = ' ' || c = '\t' || c = '\n' || c = '\r'

/-- The text from the first character on that is no blank. -/
def skipGap (chars : List Char) : List Char := chars.dropWhile isGap

/-- The text after an expected word. -/
def expect (word : List Char) (chars : List Char) : Option (List Char) :=
  if word.isPrefixOf chars then some (chars.drop word.length) else none

/-- Value of a hexadecimal digit. -/
def hexValue? (c : Char) : Option Nat :=
  if c.isDigit then some (c.toNat - '0'.toNat)
  else if 'a' ≤ c ∧ c ≤ 'f' then some (c.toNat - 'a'.toNat + 10)
  else if 'A' ≤ c ∧ c ≤ 'F' then some (c.toNat - 'A'.toNat + 10)
  else none

/-- Reads the four hexadecimal digits of an escape. -/
def readUnit : List Char → Option (Nat × List Char)
  | a :: b :: c :: d :: rest => do
    let a ← hexValue? a
    let b ← hexValue? b
    let c ← hexValue? c
    let d ← hexValue? d
    some (((a * 16 + b) * 16 + c) * 16 + d, rest)
  | _ => none

/-- Reads what follows `\u`: one unit, or the two units of a surrogate pair. -/
def readEscapedUnits (chars : List Char) : Option (Char × List Char) := do
  let (first, rest) ← readUnit chars
  if 0xD800 ≤ first ∧ first < 0xDC00 then
    let rest ← expect ['\\', 'u'] rest
    let (second, rest) ← readUnit rest
    if 0xDC00 ≤ second ∧ second < 0xE000 then
      some (Char.ofNat (0x10000 + (first - 0xD800) * 0x400 + (second - 0xDC00)), rest)
    else none
  else if 0xDC00 ≤ first ∧ first < 0xE000 then none
  else some (Char.ofNat first, rest)

/-- Reads one escape after its backslash. -/
def readEscape : List Char → Option (Char × List Char)
  | 'u' :: rest => readEscapedUnits rest
  | '"' :: rest => some ('"', rest)
  | '\\' :: rest => some ('\\', rest)
  | '/' :: rest => some ('/', rest)
  | 'b' :: rest => some (Char.ofNat 8, rest)
  | 'f' :: rest => some (Char.ofNat 12, rest)
  | 'n' :: rest => some ('\n', rest)
  | 'r' :: rest => some ('\r', rest)
  | 't' :: rest => some ('\t', rest)
  | _ => none

/-- Reads the rest of a quoted text, up to and with its closing mark; `done` holds the
characters read so far, last first. -/
def readQuoted : Nat → List Char → List Char → Option (String × List Char)
  | 0, _, _ => none
  | _ + 1, _, [] => none
  | _ + 1, done, '"' :: rest => some (String.ofList done.reverse, rest)
  | fuel + 1, done, '\\' :: rest => do
    let (c, rest) ← readEscape rest
    readQuoted fuel (c :: done) rest
  | fuel + 1, done, c :: rest => if c.toNat < 32 then none else readQuoted fuel (c :: done) rest

/-- The digits before point and exponent: a zero alone, or digits that start with another one. -/
def wholeDigits (chars : List Char) : Option (List Char × List Char) :=
  match chars with
  | '0' :: rest =>
    match rest with
    | c :: _ => if c.isDigit then none else some (['0'], rest)
    | [] => some (['0'], [])
  | _ =>
    let digits := chars.takeWhile Char.isDigit
    if digits.isEmpty then none else some (digits, chars.dropWhile Char.isDigit)

/-- A point with at least one digit after it, or nothing. -/
def fractionDigits (chars : List Char) : Option (List Char × List Char) :=
  match chars with
  | '.' :: rest =>
    let digits := rest.takeWhile Char.isDigit
    if digits.isEmpty then none else some (digits, rest.dropWhile Char.isDigit)
  | _ => some ([], chars)

/-- An exponent with at least one digit, or nothing. -/
def exponentPart (chars : List Char) : Option (Option Int × List Char) :=
  match chars with
  | mark :: rest =>
    if mark = 'e' ∨ mark = 'E' then
      let (negative, rest) := match rest with
        | '-' :: rest => (true, rest)
        | '+' :: rest => (false, rest)
        | _ => (false, rest)
      let digits := rest.takeWhile Char.isDigit
      if digits.isEmpty then none
      else
        let size : Int := valueOfDigits digits
        some (some (if negative then -size else size), rest.dropWhile Char.isDigit)
    else some (none, chars)
  | [] => some (none, [])

/-- The number with the given parts. -/
def numberOf (negative : Bool) (whole fraction : List Char) (exponent : Option Int) :
    Option Json :=
  let digits := valueOfDigits (whole ++ fraction)
  let double : Option Json :=
    (Binary64.ofDecimal negative digits (exponent.getD 0 - fraction.length)).map .float
  if fraction.isEmpty && exponent.isNone then
    if negative then
      if digits = 0 then double
      else if digits ≤ 9223372036854775808 then some (.integer (-digits)) else double
    else if digits < 18446744073709551616 then some (.integer digits) else double
  else double

/-- Reads a number. -/
def readNumber (chars : List Char) : Option (Json × List Char) := do
  let (negative, rest) := match chars with
    | '-' :: rest => (true, rest)
    | _ => (false, chars)
  let (whole, rest) ← wholeDigits rest
  let (fraction, rest) ← fractionDigits rest
  let (exponent, rest) ← exponentPart rest
  let number ← numberOf negative whole fraction exponent
  some (number, rest)

mutual

/-- Reads one value; `depth` counts the containers that may still be opened. -/
def readValue : Nat → Nat → List Char → Option (Json × List Char)
  | 0, _, _ => none
  | fuel + 1, depth, chars =>
    match skipGap chars with
    | '"' :: rest => do
      let (text, rest) ← readQuoted (rest.length + 1) [] rest
      some (.string text, rest)
    | '[' :: rest =>
      match depth with
      | 0 => none
      | depth + 1 =>
        match skipGap rest with
        | ']' :: rest => some (.array [], rest)
        | rest => do
          let (items, rest) ← readItems fuel depth rest
          some (.array items, rest)
    | '\x7b' :: rest =>
      match depth with
      | 0 => none
      | depth + 1 =>
        match skipGap rest with
        | '\x7d' :: rest => some (.object [], rest)
        | rest => do
          let (members, rest) ← readMembers fuel depth rest
          some (ofMembers members, rest)
    | 't' :: rest => (expect ['r', 'u', 'e'] rest).map fun rest => (.bool true, rest)
    | 'f' :: rest => (expect ['a', 'l', 's', 'e'] rest).map fun rest => (.bool false, rest)
    | 'n' :: rest => (expect ['u', 'l', 'l'] rest).map fun rest => (.null, rest)
    | rest => readNumber rest

/-- Reads the items of a sequence and its closing bracket. -/
def readItems : Nat → Nat → List Char → Option (List Json × List Char)
  | 0, _, _ => none
  | fuel + 1, depth, chars => do
    let (item, rest) ← readValue fuel depth chars
    match skipGap rest with
    | ',' :: rest =>
      let (items, rest) ← readItems fuel depth rest
      some (item :: items, rest)
    | ']' :: rest => some ([item], rest)
    | _ => none

/-- Reads the members of an object and its closing brace. -/
def readMembers : Nat → Nat → List Char → Option (List (String × Json) × List Char)
  | 0, _, _ => none
  | fuel + 1, depth, chars => do
    let rest ← expect ['"'] (skipGap chars)
    let (key, rest) ← readQuoted (rest.length + 1) [] rest
    let rest ← expect [':'] (skipGap rest)
    let (value, rest) ← readValue fuel depth rest
    match skipGap rest with
    | ',' :: rest =>
      let (members, rest) ← readMembers fuel depth rest
      some ((key, value) :: members, rest)
    | '\x7d' :: rest => some ([(key, value)], rest)
    | _ => none

end

/-- Containers may be nested this deep. -/
def depthLimit : Nat := 127

/-- Reads a text that is one JSON value. Each step of the reader takes a character, or is
one of two before a step that does. -/
def read? (text : String) : Option Json :=
  let chars := text.toList
  match readValue (2 * chars.length + 2) depthLimit chars with
  | some (value, rest) => if (skipGap rest).isEmpty then some value else none
  | none => none

end VersionedContent.Json
