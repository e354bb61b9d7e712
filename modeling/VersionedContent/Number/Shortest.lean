import VersionedContent.Number.Binary64

/-!
# Shortest decimals

Of all decimals that round to a given double, the one with the fewest digits,
and of those the nearest. The reals that round to a double form an interval
around it, whose ends belong to it exactly when the significand is even. Grids
of powers of ten are tried from the coarsest on; the first grid with a point in
the interval wins. Only the two grid points around the value need a test.
-/

namespace VersionedContent

/-- A decimal `digits · 10 ^ scale`. -/
structure Decimal where
  /-- The digits, read as one natural number. -/
  digits : Nat
  /-- The power of ten of the last digit. -/
  scale : Int
  deriving DecidableEq, Repr

/-- Which of two equally near decimals is taken. -/
inductive Tie where
  /-- The larger one. -/
  | up
  /-- The one whose last digit is even. -/
  | even
  deriving DecidableEq, Repr

namespace Binary64

/-- Magnitudes that round to a double, in quarters of its last place. -/
structure Neighbourhood where
  /-- Lower end. -/
  low : Nat
  /-- The double itself. -/
  centre : Nat
  /-- Upper end. -/
  high : Nat
  /-- Whether the ends belong to it. -/
  closed : Bool

/-- Half a step to either neighbour; below a power of two the step is half as long. -/
def neighbourhood (x : Binary64) : Neighbourhood where
  low := 4 * x.significand - (if x.significand = binade ∧ 0 < x.shift then 1 else 2)
  centre := 4 * x.significand
  high := 4 * x.significand + 2
  closed := x.significand % 2 == 0

/-- The grid point of `10 ^ scale` nearest to the magnitude, when one rounds to the double. -/
def gridPoint (x : Binary64) (tie : Tie) (scale : Int) : Option Nat :=
  let around := x.neighbourhood
  let num := Nat.pow 2 x.shift * Nat.pow 10 (-scale).toNat
  let den := Nat.pow 2 1076 * Nat.pow 10 scale.toNat
  let inside (point : Nat) : Bool :=
    if around.closed then around.low * num ≤ point * den && point * den ≤ around.high * num
    else around.low * num < point * den && point * den < around.high * num
  let below := around.centre * num / den
  let under := around.centre * num - below * den
  match inside below, inside (below + 1) with
  | false, false => none
  | true, false => some below
  | false, true => some (below + 1)
  | true, true =>
    if 2 * under < den then some below
    else if den < 2 * under then some (below + 1)
    else match tie with
      | .up => some (below + 1)
      | .even => some (below + below % 2)

/-- Tries the grids from `10 ^ scale` down. -/
def shortestFrom (x : Binary64) (tie : Tie) : Nat → Int → Decimal
  | 0, scale => ⟨0, scale⟩
  | fuel + 1, scale =>
    match x.gridPoint tie scale with
    | some point => ⟨point, scale⟩
    | none => shortestFrom x tie fuel (scale - 1)

/-- A power of ten above the magnitude; `30103 / 100000` is a little more than the
logarithm of two. -/
def scaleAbove (x : Binary64) : Int :=
  let power : Int := (x.significand.log2 : Int) + x.shift + 1 - 1074
  Int.fdiv (power * 30103) 100000 + 2

/-- The shortest decimal that rounds to the magnitude. Seventeen digits always suffice. -/
def shortest (x : Binary64) (tie : Tie) : Decimal :=
  if x.rank = 0 then ⟨0, 0⟩ else x.shortestFrom tie 24 x.scaleAbove

end Binary64

end VersionedContent
