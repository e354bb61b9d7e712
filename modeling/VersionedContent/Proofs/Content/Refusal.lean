import VersionedContent.Proofs.Content.Steps

/-!
# Values that are refused

Stored values can fail a change in two ways: the default of a field that is added
does not read, or the value held is refused by a field that is declared anew. With
defaults that read, whatever fails is the fault of an update.
-/

namespace VersionedContent

variable {fields : FieldMap} {error : FieldError}

/-- A change fails as an addition whose default does not read, or as an update of a field that
refuses the value held. -/
theorem Change.of_migrate_eq_error {change : Change} (h : change.migrate fields = .error error) :
    (∃ field position, change = .addField field position ∧ field.initial = .error error.cause) ∨
      ∃ field value, change = .updateField field ∧ error.field = field.name ∧
        Dict.get? fields field.name = some value ∧ field.convert value = .error error.cause := by
  cases change with
  | addField field position =>
    rw [migrate_addField, FieldSpec.settle_eq_error_iff] at h
    exact .inl ⟨field, position, rfl, h.1⟩
  | updateField field =>
    rw [migrate_updateField, FieldSpec.settle_eq_error_iff] at h
    obtain ⟨hrevised, hname⟩ := h
    cases hg : Dict.get? fields field.name with
    | none =>
      rw [hg] at hrevised
      cases hrevised
    | some value =>
      rw [hg] at hrevised
      exact .inr ⟨field, value, rfl, hname, hg, hrevised⟩
  | renameField source target =>
    simp only [migrate] at h
    split at h <;> cases h
  | _ => cases h

/-- When the defaults of all fields that are added read, a migration fails at an update, which
refuses the value that the changes before it lead to under its name. -/
theorem exists_of_migrateFields_eq_error {changes : List Change} {target : Definition}
    (hr : ∀ field position, .addField field position ∈ changes →
      ∃ value, field.initial = .ok value)
    (h : migrateFields fields changes target = .error error) :
    ∃ before field after moved value, changes = before ++ .updateField field :: after ∧
      error.field = field.name ∧ before.foldlM Change.migrate fields = .ok moved ∧
      Dict.get? moved field.name = some value ∧ field.convert value = .error error.cause := by
  have hrun : changes.foldlM Change.migrate fields = .error error := by
    unfold migrateFields at h
    cases hm : changes.foldlM Change.migrate fields with
    | error cause => rwa [hm] at h
    | ok migrated =>
      rw [hm] at h
      cases h
  obtain ⟨before, change, after, moved, rfl, hmoved, hchange⟩ := exists_of_foldlM_eq_error hrun
  rcases Change.of_migrate_eq_error hchange with
    ⟨field, position, rfl, hinitial⟩ | ⟨field, value, rfl, hname, hg, hc⟩
  · obtain ⟨value, hread⟩ := hr field position (by simp)
    rw [hread] at hinitial
    cases hinitial
  · exact ⟨before, field, after, moved, value, rfl, hname, hmoved, hg, hc⟩

end VersionedContent
