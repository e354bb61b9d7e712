import VersionedContent.Proofs.Collection.Traversal
import VersionedContent.Schema.Encoding

/-!
# Members written and read back

What a reader of a member gives for a record that was written: the value that was
written, provided that its own reader gives that back. A member that was left out
reads as none, and so does one that is `null`, so an optional value that is written
as `null` is not read back.
-/

namespace VersionedContent

variable {α β : Type}

/-- A member that may be left out is found under its name only, and only when it is written. -/
theorem lookup_optionalMember (name key : String) (value : Option Json) :
    (optionalMember name value).lookup key = if key = name then value else none := by
  cases value with
  | none => simp [optionalMember]
  | some json =>
    by_cases h : key = name
    · simp [optionalMember, h]
    · simp [optionalMember, List.lookup_cons, beq_eq_false_iff_ne.mpr h, h]

namespace Json

/-- A list that was written item by item is read item by item. -/
theorem asList_map {write : α → Json} {read : Json → Except Mismatch β} {back : α → β}
    {list : List α} (h : ∀ a ∈ list, read (write a) = .ok (back a)) :
    asList read (.array (list.map write)) = .ok (list.map back) := by
  change (list.map write).mapM read = .ok (list.map back)
  rw [mapM_eq_ok_iff, List.forall₂_map_left_iff, List.forall₂_map_right_iff, List.forall₂_same]
  exact h

/-- A list whose items are read as they were written is read as it was written. -/
theorem asList_map_self {write : α → Json} {read : Json → Except Mismatch α} {list : List α}
    (h : ∀ a ∈ list, read (write a) = .ok a) :
    asList read (.array (list.map write)) = .ok list :=
  (asList_map h).trans (by rw [List.map_id'])

/-- A list of texts is read as it was written. -/
@[simp] theorem asList_ofStrings (texts : List String) :
    asList asText (ofStrings texts) = .ok texts :=
  asList_map_self fun _ _ => rfl

/-- A position that takes 64 bits is read as it was written. -/
theorem asNat64_integer {n : Nat} (h : n < 18446744073709551616) :
    asNat64 (.integer n) = .ok n := by
  rw [asNat64, asNatBelow, if_pos (by omega)]
  rfl

namespace Members

variable {members : Members} {name : String} {read : Json → Except Mismatch α}

/-- A member that is there is read. -/
theorem required_of_lookup {json : Json} (h : members.entries.lookup name = some json) :
    members.required name read = read json := by
  rw [required, h]

/-- A member that may be missing and has a default is read when it is there. -/
theorem withDefault_of_lookup {json : Json} (h : members.entries.lookup name = some json)
    (default : α) : members.withDefault name default read = read json := by
  rw [withDefault, h]

/-- An optional value that is written by a writer of its own, never as `null`, is read back. -/
theorem optional_of_lookup {write : α → Json} {value : Option α}
    (h : members.entries.lookup name = value.map write)
    (hread : ∀ a, value = some a → read (write a) = .ok a)
    (hnull : ∀ a, value = some a → write a ≠ .null) :
    members.optional name read = .ok value := by
  rw [optional, h]
  cases value with
  | none => rfl
  | some a =>
    have hread := hread a rfl
    have hnull := hnull a rfl
    rw [Option.map_some]
    split
    · next hw => exact absurd (Option.some.inj hw) hnull
    · next json _ hw =>
      rw [← Option.some.inj hw, hread]
      rfl
    · next hw => cases hw

/-- An optional text is read back. -/
theorem optional_text {text : Option String}
    (h : members.entries.lookup name = text.map .string) :
    members.optional name asText = .ok text :=
  optional_of_lookup h (fun _ _ => rfl) fun _ _ => by simp

end Members

end Json

end VersionedContent
