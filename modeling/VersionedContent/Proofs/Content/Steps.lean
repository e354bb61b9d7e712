import VersionedContent.Content.Migration
import VersionedContent.Proofs.Collection.Keys
import VersionedContent.Proofs.Collection.Traversal

/-!
# Single changes of stored values

What a change does to the value under each name. An addition and an update settle
the name of their field, a rename moves a value to a free name, and no change
touches any other name.
-/

namespace VersionedContent

namespace FieldSpec

/-- What stored content gets for a field that is added: its default as it reads, nothing without
one. -/
def initial (field : FieldSpec) : Except ConversionError (Option FieldValue) :=
  match field.default with
  | none => .ok none
  | some json => (field.read json).map some

/-- What a field that is declared anew makes of the value it held, if it held one. -/
def revised (field : FieldSpec) : Option FieldValue → Except ConversionError (Option FieldValue)
  | none => .ok none
  | some value => field.convert value

/-- A field can be added to stored content when its default, if it has one, reads. -/
theorem exists_initial_eq_ok_iff {field : FieldSpec} :
    (∃ value, field.initial = .ok value) ↔
      ∀ json, field.default = some json → ∃ value, field.read json = .ok value := by
  unfold initial
  cases field.default with
  | none => simp
  | some json => simp [exists_map_eq_ok_iff]

/-- A result for a field, whose failure is reported under the name of the field. -/
def report {α : Type} (field : FieldSpec) (result : Except ConversionError α) :
    Except FieldError α :=
  result.mapError (FieldError.mk field.name)

/-- A report is a result when it is that of the field. -/
theorem report_eq_ok_iff {α : Type} {field : FieldSpec} {result : Except ConversionError α}
    {a : α} : field.report result = .ok a ↔ result = .ok a := by
  cases result <;> simp [report, Except.mapError]

/-- A report is a failure when it names the field and gives the cause. -/
theorem report_eq_error_iff {α : Type} {field : FieldSpec} {result : Except ConversionError α}
    {error : FieldError} :
    field.report result = .error error ↔
      result = .error error.cause ∧ error.field = field.name := by
  cases result with
  | ok a => simp [report, Except.mapError]
  | error cause =>
    obtain ⟨name, reason⟩ := error
    simp [report, Except.mapError, and_comm, eq_comm]

/-- Puts a result under the name of a field. -/
def settle (field : FieldSpec) (fields : FieldMap)
    (result : Except ConversionError (Option FieldValue)) : Except FieldError FieldMap :=
  (field.report result).map (Dict.put fields field.name)

/-- What is put under the name of a field is a result. -/
theorem exists_of_settle_eq_ok {field : FieldSpec} {fields settled : FieldMap}
    {result : Except ConversionError (Option FieldValue)}
    (h : field.settle fields result = .ok settled) :
    ∃ value, result = .ok value ∧ settled = Dict.put fields field.name value := by
  obtain ⟨value, hr, rfl⟩ := exists_of_map_eq_ok h
  exact ⟨value, report_eq_ok_iff.mp hr, rfl⟩

/-- Settling a name fails as its result does, and is reported there. -/
theorem settle_eq_error_iff {field : FieldSpec} {fields : FieldMap}
    {result : Except ConversionError (Option FieldValue)} {error : FieldError} :
    field.settle fields result = .error error ↔
      result = .error error.cause ∧ error.field = field.name := by
  rw [← report_eq_error_iff, settle]
  cases field.report result <;> simp [Except.map]

end FieldSpec

namespace Change

/-- An addition settles the name of its field at what stored content gets for it. -/
theorem migrate_addField (fields : FieldMap) (field : FieldSpec) (position : Option Nat) :
    (addField field position).migrate fields = field.settle fields field.initial := by
  simp only [migrate, FieldSpec.initial]
  cases field.default with
  | none => rfl
  | some json =>
    dsimp only
    cases field.read json <;> rfl

/-- A removal settles the name at nothing. -/
theorem migrate_removeField (fields : FieldMap) (name : String) :
    (removeField name).migrate fields = .ok (Dict.put fields name none) := rfl

/-- An update settles the name of its field at what becomes of the value it held. -/
theorem migrate_updateField (fields : FieldMap) (field : FieldSpec) :
    (updateField field).migrate fields =
      field.settle fields (field.revised (Dict.get? fields field.name)) := by
  simp only [migrate]
  cases hg : Dict.get? fields field.name with
  | none => exact congrArg Except.ok (Dict.put_none_of_get?_eq_none hg).symm
  | some value =>
    simp only [FieldSpec.revised]
    rcases field.convert value with cause | _ | _ <;> rfl

/-- A rename never fails, and moves the value to a name that is free. -/
theorem migrate_renameField {fields : FieldMap} (source : String) {target : String}
    (hfree : Dict.get? fields target = none) :
    ∃ moved, (renameField source target).migrate fields = .ok moved ∧
      ∀ name, Dict.get? moved name =
        if name = target then Dict.get? fields source
        else if name = source then none else Dict.get? fields name := by
  simp only [migrate]
  split
  · next hg =>
    refine ⟨fields, rfl, fun name => ?_⟩
    split_ifs with ht hs
    · rw [ht, hfree, hg]
    · rw [hs, hg]
    · rfl
  · next value hg =>
    refine ⟨_, rfl, fun name => ?_⟩
    rw [Dict.get?_insert, Dict.get?_erase, hg]

end Change

end VersionedContent
