/-!
# Sorts of characters

Blank space, with the trimming of a text at both ends, and the characters of
identifiers: schemas and fields are named by an ASCII letter, then ASCII letters,
digits and underscores.
-/

namespace VersionedContent.Text

/-- Unicode property White_Space, 25 characters. -/
def isBlank (c : Char) : Bool :=
  let n := c.toNat
  (9 ≤ n && n ≤ 13) || n == 0x20 || n == 0x85 || n == 0xA0 || n == 0x1680 ||
    (0x2000 ≤ n && n ≤ 0x200A) || n == 0x2028 || n == 0x2029 || n == 0x202F || n == 0x205F ||
    n == 0x3000

/-- The characters between the first and the last one that is not blank. -/
def trimChars (chars : List Char) : List Char :=
  ((chars.dropWhile isBlank).reverse.dropWhile isBlank).reverse

/-- A text without the blanks at its ends. -/
def trim (text : String) : String := String.ofList (trimChars text.toList)

/-- The usual ASCII blanks are blank. -/
theorem isBlank_of_isWhitespace {c : Char} (h : c.isWhitespace = true) : isBlank c = true := by
  simp only [Char.isWhitespace, Bool.or_eq_true, decide_eq_true_eq] at h
  rcases h with ((rfl | rfl) | rfl) | rfl <;> decide

/-- Characters that may follow the first one of an identifier. -/
def isIdentifierRest (c : Char) : Bool := c.isAlphanum || c == '_'

/-- Whether a text can name a schema or a field. -/
def isIdentifier (name : String) : Bool :=
  match name.toList with
  | [] => false
  | first :: rest => first.isAlpha && rest.all isIdentifierRest

/-- An identifier is a letter followed by letters, digits and underscores. -/
theorem isIdentifier_iff (name : String) :
    isIdentifier name = true ↔ ∃ first rest, name.toList = first :: rest ∧
      first.isAlpha = true ∧ ∀ c ∈ rest, isIdentifierRest c = true := by
  unfold isIdentifier
  cases h : name.toList with
  | nil => simp
  | cons first rest =>
    simp only [Bool.and_eq_true, List.all_eq_true, List.cons.injEq]
    constructor
    · intro hc
      exact ⟨first, rest, ⟨rfl, rfl⟩, hc⟩
    · rintro ⟨_, _, ⟨rfl, rfl⟩, hc⟩
      exact hc

end VersionedContent.Text
