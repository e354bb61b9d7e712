import VersionedContent.Proofs.Content.Dates
import VersionedContent.Proofs.Content.Recast

/-!
# Where embedded content comes from

A conversion takes embedded content as it stands and makes none of anything else.
So a change carries what the fields embed, or brings in what the default of an
added field embeds, and whatever the fields embed after a migration has come in
one of these ways.
-/

namespace VersionedContent

variable {content : Micronode}

/-- The embedded content of a value is found among its single values. -/
theorem FieldValue.mem_micronodes_iff_mem_items {value : FieldValue} :
    content ∈ value.micronodes ↔ .micronode content ∈ value.items := by
  rw [mem_micronodes]
  cases value <;> simp [items, eq_comm]

/-- What a field makes of a value embeds no more than the value did. -/
theorem FieldSpec.mem_micronodes_of_convert {field : FieldSpec} {value converted : FieldValue}
    (h : field.convert value = .ok (some converted)) (hm : content ∈ converted.micronodes) :
    content ∈ value.micronodes := by
  rw [FieldValue.mem_micronodes_iff_mem_items] at hm ⊢
  obtain ⟨i, hi⟩ := List.mem_iff_getElem?.mp hm
  obtain ⟨source, hs, hc⟩ := exists_source_of_convert h hi
  exact source_of_micronode hc ▸ List.mem_of_getElem? hs

/-- Whether some field value embeds content. -/
def FieldMap.Embeds (fields : FieldMap) (content : Micronode) : Prop :=
  ∃ entry ∈ fields, content ∈ entry.2.micronodes

/-- A container embeds what its fields do. -/
theorem Container.embeds_iff {container : Container} :
    container.Embeds content ↔ container.fields.Embeds content := by
  simp only [Embeds, FieldMap.Embeds, FieldValue.mem_micronodes, Prod.exists]

namespace FieldMap.Embeds

variable {fields : FieldMap} {name : String}

/-- What some of the field values embed, all of them do. -/
theorem mono {more : FieldMap} (h : fields.Embeds content) (hs : fields ⊆ more) :
    more.Embeds content := by
  obtain ⟨entry, he, hm⟩ := h
  exact ⟨entry, hs he, hm⟩

/-- What field values embed once one is stored, that one does, or they did before. -/
theorem of_insert {value : FieldValue}
    (h : FieldMap.Embeds (Dict.insert fields name value) content) :
    content ∈ value.micronodes ∨ fields.Embeds content := by
  obtain ⟨entry, he, hm⟩ := h
  rcases Dict.mem_insert he with rfl | he
  · exact .inl hm
  · exact .inr ⟨entry, he, hm⟩

/-- What field values embed once one has been stored or dropped, that one does, or they did
before. -/
theorem of_put {value : Option FieldValue}
    (h : FieldMap.Embeds (Dict.put fields name value) content) :
    (∃ stored, value = some stored ∧ content ∈ stored.micronodes) ∨ fields.Embeds content := by
  cases value with
  | none => exact .inr (h.mono List.filter_sublist.subset)
  | some stored => exact h.of_insert.imp_left fun hm => ⟨stored, rfl, hm⟩

end FieldMap.Embeds

namespace Change

/-- The content that a change brings in, embedded in the default of a field that it adds. -/
def imported : Change → List Micronode
  | addField field _ =>
    match field.initial with
    | .ok (some value) => value.micronodes
    | _ => []
  | _ => []

/-- Only added fields whose default reads bring content in. -/
theorem mem_imported_iff {change : Change} :
    content ∈ change.imported ↔ ∃ field position value, change = addField field position ∧
      field.initial = .ok (some value) ∧ content ∈ value.micronodes := by
  constructor
  · intro h
    cases change with
    | addField field position =>
      rw [imported] at h
      split at h
      · next value hi => exact ⟨field, position, value, rfl, hi, h⟩
      · cases h
    | _ => cases h
  · rintro ⟨field, position, value, rfl, hi, hm⟩
    simpa only [imported, hi] using hm

variable {fields moved : FieldMap}

/-- What the fields embed after a change they embedded before, or the change brings it in. -/
theorem embeds_or_imported_of_migrate {change : Change} (h : change.migrate fields = .ok moved)
    (he : moved.Embeds content) : fields.Embeds content ∨ content ∈ change.imported := by
  cases change with
  | addField field position =>
    rw [migrate_addField] at h
    obtain ⟨value, hi, rfl⟩ := FieldSpec.exists_of_settle_eq_ok h
    rcases he.of_put with ⟨stored, rfl, hm⟩ | he
    · exact .inr (mem_imported_iff.mpr ⟨field, position, stored, rfl, hi, hm⟩)
    · exact .inl he
  | removeField name =>
    obtain rfl := Except.ok.inj h
    exact .inl (he.mono List.filter_sublist.subset)
  | updateField field =>
    rw [migrate_updateField] at h
    obtain ⟨value, hr, rfl⟩ := FieldSpec.exists_of_settle_eq_ok h
    rcases he.of_put with ⟨converted, rfl, hm⟩ | he
    · cases hg : Dict.get? fields field.name with
      | none =>
        rw [hg] at hr
        cases hr
      | some held =>
        rw [hg] at hr
        exact .inl ⟨_, Dict.mem_of_get?_eq_some hg, FieldSpec.mem_micronodes_of_convert hr hm⟩
    · exact .inl he
  | renameField source target =>
    simp only [migrate] at h
    split at h
    · obtain rfl := Except.ok.inj h
      exact .inl he
    · next held hg =>
      obtain rfl := Except.ok.inj h
      rcases he.of_insert with hm | he
      · exact .inl ⟨_, Dict.mem_of_get?_eq_some hg, hm⟩
      · exact .inl (he.mono List.filter_sublist.subset)
  | reorderFields order =>
    obtain rfl := Except.ok.inj h
    exact .inl he
  | updateSchema description displayField autoPurge =>
    obtain rfl := Except.ok.inj h
    exact .inl he

/-- What the fields embed after some changes they embedded before, or one of the changes brings it
in. -/
theorem embeds_or_imported_of_foldlM {changes : List Change}
    (h : changes.foldlM migrate fields = .ok moved) (he : moved.Embeds content) :
    fields.Embeds content ∨ content ∈ changes.flatMap imported := by
  induction changes generalizing fields with
  | nil =>
    obtain rfl := Except.ok.inj h
    exact .inl he
  | cons change rest ih =>
    rw [List.foldlM_cons] at h
    rw [List.flatMap_cons, List.mem_append]
    cases hc : change.migrate fields with
    | error error =>
      rw [hc] at h
      cases h
    | ok middle =>
      rw [hc] at h
      rcases ih h with hm | hi
      · exact (embeds_or_imported_of_migrate hc hm).imp_right .inl
      · exact .inr (.inr hi)

end Change

/-- What the fields embed after a migration they embedded before, or one of the changes brings it
in. -/
theorem embeds_or_imported_of_migrateFields {fields migrated : FieldMap} {changes : List Change}
    {target : Definition} (h : migrateFields fields changes target = .ok migrated)
    (he : migrated.Embeds content) :
    fields.Embeds content ∨ content ∈ changes.flatMap Change.imported := by
  obtain ⟨moved, hm, rfl⟩ := exists_of_map_eq_ok h
  exact Change.embeds_or_imported_of_foldlM hm (he.mono List.filter_sublist.subset)

end VersionedContent
