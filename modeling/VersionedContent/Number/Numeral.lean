import VersionedContent.Number.Shortest

/-!
# Numerals

How numbers are written and read as text.

* `Binary64.plain` is the text of a number standing alone: shortest digits, all
  of them positional, no point in an integer.
* `Binary64.scientific` is the text of a number inside JSON: shortest digits, a
  fraction always, an exponent below `10 ^ -5` and from `10 ^ 16` on.
* `Numeral.read?` reads free text: an optional sign, digits with an optional
  point, an optional exponent, or one of the words for infinity and for no number.
-/

namespace VersionedContent

/-- The decimal digits of a natural number. -/
def digitsOf (n : Nat) : List Char := Nat.toDigits 10 n

/-- The value of a list of decimal digits. -/
def valueOfDigits (digits : List Char) : Nat :=
  digits.foldl (fun n c => 10 * n + (c.toNat - '0'.toNat)) 0

namespace Decimal

/-- Positional text; `point` is what an integer has after its digits. -/
def positional (d : Decimal) (point : List Char) : List Char :=
  let digits := digitsOf d.digits
  if 0 ≤ d.scale then digits ++ List.replicate d.scale.toNat '0' ++ point
  else
    let places := (-d.scale).toNat
    if places < digits.length then
      digits.take (digits.length - places) ++ '.' :: digits.drop (digits.length - places)
    else '0' :: '.' :: List.replicate (places - digits.length) '0' ++ digits

/-- Text with an exponent: one digit, a fraction if there are more, the exponent with its sign. -/
def exponential (d : Decimal) : List Char :=
  let digits := digitsOf d.digits
  let exponent : Int := d.scale + digits.length - 1
  let mantissa := match digits with
    | [] => []
    | [digit] => [digit]
    | digit :: rest => digit :: '.' :: rest
  let sign := if exponent < 0 then '-' else '+'
  mantissa ++ 'e' :: sign :: digitsOf exponent.natAbs

end Decimal

namespace Binary64

/-- The sign of a number, then the text of its magnitude. -/
def signed (x : Binary64) (magnitude : List Char) : String :=
  String.ofList (if x.negative then '-' :: magnitude else magnitude)

/-- The text of a number standing alone. -/
def plain (x : Binary64) : String :=
  x.signed ((x.shortest .up).positional [])

/-- The text of a number inside JSON. -/
def scientific (x : Binary64) : String :=
  let decimal := x.shortest .even
  let leading : Int := decimal.scale + (digitsOf decimal.digits).length
  x.signed <|
    if -5 < leading ∧ leading ≤ 16 then decimal.positional ['.', '0'] else decimal.exponential

end Binary64

/-- What a text that denotes a number denotes. -/
inductive Numeral where
  /-- A finite number. -/
  | finite (value : Binary64)
  /-- A word for infinity, or digits beyond the largest finite number. -/
  | infinite (negative : Bool)
  /-- The word for no number. -/
  | undefined
  deriving DecidableEq

namespace Numeral

/-- An exponent at the end of a numeral: none, or `e` with an optional sign and digits. -/
def exponent? : List Char → Option Int
  | [] => some 0
  | mark :: rest =>
    if mark != 'e' && mark != 'E' then none
    else
      let (negative, digits) := match rest with
        | '-' :: digits => (true, digits)
        | '+' :: digits => (false, digits)
        | digits => (false, digits)
      if digits.isEmpty || !digits.all Char.isDigit then none
      else some (if negative then -valueOfDigits digits else valueOfDigits digits)

/-- Digits with an optional point, at least one digit, and an optional exponent. -/
def magnitude? (negative : Bool) (chars : List Char) : Option Numeral :=
  let whole := chars.takeWhile Char.isDigit
  let rest := chars.dropWhile Char.isDigit
  let (fraction, rest) := match rest with
    | '.' :: rest => (rest.takeWhile Char.isDigit, rest.dropWhile Char.isDigit)
    | rest => ([], rest)
  if whole.isEmpty && fraction.isEmpty then none
  else (exponent? rest).map fun exponent =>
    match Binary64.ofDecimal negative (valueOfDigits (whole ++ fraction))
        (exponent - fraction.length) with
    | some value => .finite value
    | none => .infinite negative

/-- Reads a numeral without its sign. -/
def unsigned? (negative : Bool) (chars : List Char) : Option Numeral :=
  let word := String.ofList (chars.map Char.toLower)
  if word = "inf" ∨ word = "infinity" then some (.infinite negative)
  else if word = "nan" then some .undefined
  else magnitude? negative chars

/-- Reads a text that is a numeral from end to end. -/
def read? (text : String) : Option Numeral :=
  match text.toList with
  | '-' :: rest => unsigned? true rest
  | '+' :: rest => unsigned? false rest
  | chars => unsigned? false chars

/-- The finite number that a text denotes. -/
def finite? (text : String) : Option Binary64 :=
  match read? text with
  | some (.finite value) => some value
  | _ => none

end Numeral

/-- Reads an integer of 64 bits: an optional sign and digits. -/
def readInt64? (text : String) : Option Int :=
  let (negative, digits) := match text.toList with
    | '-' :: digits => (true, digits)
    | '+' :: digits => (false, digits)
    | digits => (false, digits)
  if digits.isEmpty || !digits.all Char.isDigit then none
  else
    let n : Int := if negative then -valueOfDigits digits else valueOfDigits digits
    if -9223372036854775808 ≤ n ∧ n < 9223372036854775808 then some n else none

end VersionedContent
