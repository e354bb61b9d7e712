/-!
# Double-precision numbers

A finite IEEE 754 double is kept as its sign and the rank of its magnitude
among all magnitudes: rank 0 is zero, and each step is one unit in the last
place. The rank determines the exact value, `significand · 2 ^ (shift - 1074)`,
so rounding, comparison and printing are exact arithmetic on natural numbers.

Zero has both signs. The two zeros are different values, which print
differently, and compare equal (`same`).

The infinities and the values that are no numbers are left out: no literal, no
default and no conversion between fields gives one. What is said of content here
is said of content whose numbers are finite.
-/

namespace VersionedContent

/-- Number of magnitudes from a power of two to the next: `2 ^ 52`. -/
def binade : Nat := 4503599627370496

/-- A finite double-precision number. -/
structure Binary64 where
  /-- The sign; zero has one too. -/
  negative : Bool
  /-- Position of the magnitude among all finite magnitudes. -/
  rank : Nat
  /-- The ranks from here on are infinity and the values that are no numbers. -/
  rank_lt : rank < 2047 * binade
  deriving DecidableEq

namespace Binary64

/-- The integer part of the magnitude in units of its last place. -/
def significand (x : Binary64) : Nat :=
  if x.rank < binade then x.rank else binade + x.rank % binade

/-- The last place is `2 ^ (shift - 1074)`. -/
def shift (x : Binary64) : Nat := x.rank / binade - 1

/-- Positive zero. -/
def zero : Binary64 := ⟨false, 0, by decide⟩

/-- One. -/
def one : Binary64 := ⟨false, 1023 * binade, by decide⟩

/-- Equality of numbers: the two zeros are equal. -/
def same (x y : Binary64) : Bool :=
  x.rank == y.rank && (x.negative == y.negative || x.rank == 0)

/-- The integer nearest to `num / den`; a half goes to the even neighbour. -/
def roundHalfEven (num den : Nat) : Nat :=
  let whole := num / den
  let rest := num % den
  if 2 * rest < den then whole else if den < 2 * rest then whole + 1 else whole + whole % 2

/-- Rank of the magnitude nearest to `num / den`, as if there were no largest one. -/
def nearestRank (num den : Nat) : Nat :=
  let units := num * Nat.pow 2 1074
  let places := Nat.log2 (units / den) - 52
  places * binade + roundHalfEven units (den * Nat.pow 2 places)

/-- The double nearest to `±num / den`, none when that is infinite. -/
def ofRatio (negative : Bool) (num den : Nat) : Option Binary64 :=
  if h : nearestRank num den < 2047 * binade then some ⟨negative, nearestRank num den, h⟩ else none

/-- The double nearest to `±digits · 10 ^ scale`, none when that is infinite. The first
two tests answer for magnitudes so far out of range that the power of ten is not needed. -/
def ofDecimal (negative : Bool) (digits : Nat) (scale : Int) : Option Binary64 :=
  let size : Int := digits.log2
  if digits = 0 then some ⟨negative, 0, by decide⟩
  else if 1025 ≤ size + 3 * scale ∧ 0 ≤ scale then none
  else if size + 1 + 3 * scale < -1076 ∧ scale < 0 then some ⟨negative, 0, by decide⟩
  else if 0 ≤ scale then ofRatio negative (digits * Nat.pow 10 scale.toNat) 1
  else ofRatio negative digits (Nat.pow 10 (-scale).toNat)

/-- The double nearest to an integer; integers of 64 bits are far below the largest double. -/
def ofInt (n : Int) : Binary64 :=
  (ofRatio (n < 0) n.natAbs 1).getD zero

/-- The integer part, toward zero. -/
def truncate (x : Binary64) : Int :=
  let magnitude : Nat := x.significand * Nat.pow 2 x.shift / Nat.pow 2 1074
  if x.negative then -(magnitude : Int) else magnitude

/-- The nearest integer; a half goes away from zero. -/
def round (x : Binary64) : Int :=
  let magnitude : Nat :=
    (2 * x.significand * Nat.pow 2 x.shift + Nat.pow 2 1074) / Nat.pow 2 1075
  if x.negative then -(magnitude : Int) else magnitude

@[simp] theorem same_refl (x : Binary64) : same x x = true := by simp [same]

theorem same_symm (x y : Binary64) : same x y = same y x := by
  unfold same
  rw [Bool.eq_iff_iff]
  simp only [Bool.and_eq_true, beq_iff_eq, Bool.or_eq_true]
  constructor
  · rintro ⟨h, hs | hs⟩
    · exact ⟨h.symm, Or.inl hs.symm⟩
    · exact ⟨h.symm, Or.inr (h ▸ hs)⟩
  · rintro ⟨h, hs | hs⟩
    · exact ⟨h.symm, Or.inl hs.symm⟩
    · exact ⟨h.symm, Or.inr (h ▸ hs)⟩

/-- Two numbers compare equal exactly when they are one value or both zero. -/
theorem same_iff (x y : Binary64) : same x y = true ↔ x = y ∨ (x.rank = 0 ∧ y.rank = 0) := by
  obtain ⟨n, r, hr⟩ := x
  obtain ⟨m, s, hs⟩ := y
  simp only [same, Bool.and_eq_true, beq_iff_eq, Bool.or_eq_true, mk.injEq]
  constructor
  · rintro ⟨rfl, rfl | h⟩
    · exact Or.inl ⟨rfl, rfl⟩
    · exact Or.inr ⟨h, h⟩
  · rintro (⟨rfl, rfl⟩ | ⟨rfl, rfl⟩) <;> simp

end Binary64

end VersionedContent
