import Mathlib.Data.List.Basic
import Mathlib.Data.UInt
import VersionedContent.Digest.Sha256

/-!
# Digests as texts

A digest is written with two digits for each byte, and a text is digested as its
UTF-8 bytes. Neither loses anything: two texts that are written with one digest are
the same text, unless their bytes are a collision of the digest itself.
-/

namespace VersionedContent.Sha256

/-- Whether two messages are apart and have one digest. -/
def Collides (message other : List UInt8) : Prop := message ≠ other ∧ digest message = digest other

instance (message other : List UInt8) : Decidable (Collides message other) :=
  inferInstanceAs (Decidable (message ≠ other ∧ digest message = digest other))

/-- Hexadecimal digits tell the numbers below sixteen apart. -/
theorem digitChar_inj {m n : Nat} (hm : m < 16) (hn : n < 16)
    (h : Nat.digitChar m = Nat.digitChar n) : m = n := by
  have hall : ∀ i : Fin 16, ∀ j : Fin 16, Nat.digitChar i = Nat.digitChar j → i = j := by decide
  exact congrArg Fin.val (hall ⟨m, hm⟩ ⟨n, hn⟩ h)

/-- A byte is known by its two digits. -/
theorem hexByte_inj {byte other : UInt8} (h : hexByte byte = hexByte other) : byte = other := by
  simp only [hexByte, List.cons.injEq, and_true] at h
  have hbyte := byte.toNat_lt
  have hother := other.toNat_lt
  have hhigh := digitChar_inj (by omega) (by omega) h.1
  have hlow := digitChar_inj (by omega) (by omega) h.2
  exact UInt8.toNat_inj.mp (by omega)

/-- Bytes are known by their digits, because each has two of them. -/
theorem flatMap_hexByte_inj {bytes others : List UInt8}
    (h : bytes.flatMap hexByte = others.flatMap hexByte) : bytes = others := by
  induction bytes generalizing others with
  | nil =>
    cases others with
    | nil => rfl
    | cons other rest => simp [hexByte] at h
  | cons byte tail ih =>
    cases others with
    | nil => simp [hexByte] at h
    | cons other rest =>
      rw [List.flatMap_cons, List.flatMap_cons] at h
      obtain ⟨hfirst, hrest⟩ := List.append_inj h rfl
      rw [hexByte_inj hfirst, ih hrest]

/-- Listing bytes from a place on adds them to those listed before. -/
theorem toList_loop (bytes : ByteArray) (i : Nat) (before : List UInt8) :
    ByteArray.toList.loop bytes i before = before.reverse ++ bytes.data.toList.drop i := by
  induction i, before using ByteArray.toList.loop.induct bytes with
  | case1 i before hlt ih =>
    have hi : i < bytes.data.toList.length := by simpa using hlt
    have hget : bytes.get! i = bytes.data.toList[i] := by
      rw [ByteArray.get!, Array.getElem_toList]
      exact getElem!_pos bytes.data i (by simpa using hlt)
    rw [ByteArray.toList.loop, if_pos hlt, ih, List.drop_eq_getElem_cons hi, hget]
    simp
  | case2 i before hge =>
    have hi : bytes.data.toList.length ≤ i := by simpa using hge
    rw [ByteArray.toList.loop, if_neg hge, List.drop_eq_nil_of_le hi, List.append_nil]

/-- A text is known by its bytes. -/
theorem toUTF8_toList_inj {text other : String}
    (h : text.toUTF8.toList = other.toUTF8.toList) : text = other := by
  simp only [ByteArray.toList, toList_loop, List.reverse_nil, List.nil_append, List.drop_zero] at h
  exact String.toByteArray_inj.mp (ByteArray.ext (Array.toList_inj.mp h))

/-- Texts with one digest are the same, unless their bytes collide. -/
theorem hex_eq_iff {text other : String}
    (hc : ¬ Collides text.toUTF8.toList other.toUTF8.toList) :
    hex text = hex other ↔ text = other := by
  constructor
  · intro h
    have hdigest := flatMap_hexByte_inj (String.ofList_injective h)
    exact toUTF8_toList_inj (by_contra fun hne => hc ⟨hne, hdigest⟩)
  · rintro rfl
    rfl

end VersionedContent.Sha256
