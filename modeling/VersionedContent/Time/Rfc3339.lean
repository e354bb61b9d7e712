import VersionedContent.Text.Characters
import VersionedContent.Number.Numeral
import VersionedContent.Time.Instant

/-!
# Dates as text

RFC 3339 text of instants.

* `Instant.read?` is strict: four digits of the year, two of every other
  number, one of the three separators between day and time, an offset of less
  than a day. The second 60 is a leap second. Digits of a fraction after the
  ninth are dropped.
* `Instant.readLoosely?` also takes shorter numbers, signed years, blanks
  between the parts and an offset without its colon; the dates of stored
  records are read this way.
* `Instant.text` writes the fraction with no, three, six or nine digits,
  whichever is exact first, and years beyond four digits with their sign.
-/

namespace VersionedContent

/-- Reads at most `most` digits, at least one. -/
def readDigits (most : Nat) (chars : List Char) : Option (Nat × List Char) :=
  let digits := (chars.take most).takeWhile Char.isDigit
  if digits.isEmpty then none else some (valueOfDigits digits, chars.drop digits.length)

/-- Reads exactly `count` digits. -/
def readExactDigits (count : Nat) (chars : List Char) : Option (Nat × List Char) :=
  let digits := chars.take count
  if digits.length = count ∧ digits.all Char.isDigit then
    some (valueOfDigits digits, chars.drop count)
  else none

/-- The text after an expected character. -/
def afterChar (c : Char) : List Char → Option (List Char)
  | first :: rest => if first = c then some rest else none
  | [] => none

/-- The text from the first character on that is not blank. -/
def skipBlanks (chars : List Char) : List Char := chars.dropWhile Text.isBlank

/-- The numbers of a date and a time of day, before they are checked. -/
structure ClockReading where
  /-- The year. -/
  year : Int
  /-- The month, from 1. -/
  month : Nat
  /-- The day, from 1. -/
  day : Nat
  /-- The hour. -/
  hour : Nat
  /-- The minute. -/
  minute : Nat
  /-- The second; 60 is a leap second. -/
  second : Nat
  /-- Nanoseconds. -/
  nanos : Nat
  /-- Seconds by which the clock is ahead of universal time. -/
  offset : Int

namespace ClockReading

/-- The instant of a reading that the calendar and the clock can show. Both its own date and
the date of universal time lie within the calendar's range. -/
def toInstant? (r : ClockReading) : Option Instant :=
  let date : CivilDate := ⟨r.year, r.month, r.day⟩
  if Instant.firstYear ≤ r.year ∧ r.year ≤ Instant.lastYear ∧ date.isValid ∧ r.hour ≤ 23 ∧
      r.minute ≤ 59 ∧ r.second ≤ 60 ∧ -86400 < r.offset ∧ r.offset < 86400 then
    let leap := r.second = 60
    let second := if leap then 59 else r.second
    let seconds := date.toDays * 86400 + (r.hour * 3600 + r.minute * 60 + second : Nat) - r.offset
    if Instant.minMillis ≤ seconds * 1000 ∧ seconds * 1000 ≤ Instant.maxMillis then
      some ⟨seconds, if leap then r.nanos + 1000000000 else r.nanos⟩
    else none
  else none

/-- Reads a fraction of a second, if there is one, in nanoseconds. -/
def readFraction (chars : List Char) : Option (Nat × List Char) :=
  match chars with
  | '.' :: rest =>
    let digits := rest.takeWhile Char.isDigit
    if digits.isEmpty then none
    else
      let kept := digits.take 9
      some (valueOfDigits kept * Nat.pow 10 (9 - kept.length), rest.dropWhile Char.isDigit)
  | _ => some (0, chars)

/-- Reads an offset in seconds: `Z`, or a sign, hours and minutes. `between` says what
stands between hours and minutes. -/
def readOffset (between : List Char → Option (List Char)) (chars : List Char) :
    Option (Int × List Char) :=
  match chars with
  | [] => none
  | mark :: rest =>
    if mark = 'Z' ∨ mark = 'z' then some (0, rest)
    else if mark = '+' ∨ mark = '-' ∨ mark = '\u2212' then do
      let (hours, rest) ← readExactDigits 2 rest
      let rest ← between rest
      let (minutes, rest) ← readExactDigits 2 rest
      if 60 ≤ minutes then none
      else
        let size : Int := (hours * 3600 + minutes * 60 : Nat)
        some (if mark = '+' then size else -size, rest)
    else none

/-- Reads the separator between the day and the time. -/
def readSeparator : List Char → Option (List Char)
  | c :: rest => if c = 'T' ∨ c = 't' ∨ c = ' ' then some rest else none
  | [] => none

/-- Reads a reading in the strict form. -/
def read? (chars : List Char) : Option ClockReading := do
  let (year, rest) ← readExactDigits 4 chars
  let rest ← afterChar '-' rest
  let (month, rest) ← readExactDigits 2 rest
  let rest ← afterChar '-' rest
  let (day, rest) ← readExactDigits 2 rest
  let rest ← readSeparator rest
  let (hour, rest) ← readExactDigits 2 rest
  let rest ← afterChar ':' rest
  let (minute, rest) ← readExactDigits 2 rest
  let rest ← afterChar ':' rest
  let (second, rest) ← readExactDigits 2 rest
  let (nanos, rest) ← readFraction rest
  let (offset, rest) ← readOffset (afterChar ':') rest
  if rest.isEmpty then some ⟨year, month, day, hour, minute, second, nanos, offset⟩ else none

/-- Reads a year with an optional sign; without one it has at most four digits. -/
def readYear (chars : List Char) : Option (Int × List Char) :=
  match skipBlanks chars with
  | '-' :: rest => (readDigits rest.length rest).map fun (n, rest) => (-(n : Int), rest)
  | '+' :: rest => (readDigits rest.length rest).map fun (n, rest) => ((n : Int), rest)
  | rest => (readDigits 4 rest).map fun (n, rest) => ((n : Int), rest)

/-- Reads a number of one or two digits after blanks. -/
def readShort (chars : List Char) : Option (Nat × List Char) := readDigits 2 (skipBlanks chars)

/-- Skips the colons and blanks between hours and minutes of an offset. -/
def skipColons (chars : List Char) : Option (List Char) :=
  some (chars.dropWhile fun c => c = ':' ∨ Text.isBlank c)

/-- Reads an offset, or the word for universal time. -/
def readZone (chars : List Char) : Option (Int × List Char) :=
  if (chars.take 3).map Char.toUpper = ['U', 'T', 'C'] then some (0, chars.drop 3)
  else readOffset skipColons chars

/-- Reads a reading in the loose form. -/
def readLoosely? (chars : List Char) : Option ClockReading := do
  let (year, rest) ← readYear chars
  let rest ← afterChar '-' (skipBlanks rest)
  let (month, rest) ← readShort rest
  let rest ← afterChar '-' (skipBlanks rest)
  let (day, rest) ← readShort rest
  let rest ← readSeparator rest
  let (hour, rest) ← readShort rest
  let rest ← afterChar ':' (skipBlanks rest)
  let (minute, rest) ← readShort rest
  let rest ← afterChar ':' (skipBlanks rest)
  let (second, rest) ← readShort rest
  let (nanos, rest) ← readFraction rest
  let (offset, rest) ← readZone (skipBlanks rest)
  if (skipBlanks rest).isEmpty then
    some ⟨year, month, day, hour, minute, second, nanos, offset⟩
  else none

end ClockReading

/-- The digits of a number, with zeros in front up to a width. -/
def padded (width n : Nat) : List Char :=
  let digits := digitsOf n
  List.replicate (width - digits.length) '0' ++ digits

namespace Instant

/-- Reads the strict form. -/
def read? (text : String) : Option Instant :=
  (ClockReading.read? text.toList).bind ClockReading.toInstant?

/-- Reads the loose form. -/
def readLoosely? (text : String) : Option Instant :=
  (ClockReading.readLoosely? text.toList).bind ClockReading.toInstant?

/-- A year: four digits, and a sign in front when it has another number of them. -/
def yearText (year : Int) : List Char :=
  if 0 ≤ year ∧ year ≤ 9999 then padded 4 year.toNat
  else (if year < 0 then '-' else '+') :: padded 4 year.natAbs

/-- A fraction of a second in as few groups of three digits as are exact. -/
def fractionText (nanos : Nat) : List Char :=
  if nanos = 0 then []
  else if nanos % 1000000 = 0 then '.' :: padded 3 (nanos / 1000000)
  else if nanos % 1000 = 0 then '.' :: padded 6 (nanos / 1000)
  else '.' :: padded 9 nanos

/-- The text of an instant with a given spelling of the offset of universal time. -/
def textWith (zone : List Char) (t : Instant) : String :=
  let date := t.date
  let secondOfDay := (t.seconds % 86400).toNat
  let leap := 1000000000 ≤ t.nanos
  let second := secondOfDay % 60 + if leap then 1 else 0
  let nanos := if leap then t.nanos - 1000000000 else t.nanos
  String.ofList <|
    yearText date.year ++ '-' :: padded 2 date.month ++ '-' :: padded 2 date.day ++
    'T' :: padded 2 (secondOfDay / 3600) ++ ':' :: padded 2 (secondOfDay / 60 % 60) ++
    ':' :: padded 2 second ++ fractionText nanos ++ zone

/-- The text of an instant, with the offset as numbers. -/
def text (t : Instant) : String := t.textWith ['+', '0', '0', ':', '0', '0']

/-- The text of an instant, with the letter for universal time. -/
def textZulu (t : Instant) : String := t.textWith ['Z']

end Instant

end VersionedContent
