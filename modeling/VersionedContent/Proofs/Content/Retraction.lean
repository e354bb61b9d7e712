import VersionedContent.Proofs.Content.Fits
import VersionedContent.Proofs.Content.Steps

/-!
# Conversion leaves alone what fits

Values that fit a field are just what values are converted to for it: conversion
leads there, and once there a value stays. So a field that is declared anew with
the types and microschemas it had takes every value as it stands.
-/

namespace VersionedContent

namespace FieldSpec

variable {field : FieldSpec}

/-- A single value that fits a type is converted to itself. -/
theorem convertScalar_of_fitsAs {type : FieldType} {value : FieldValue}
    (h : field.FitsAs type value) : field.convertScalar type value = .ok value := by
  obtain rfl := h.type
  cases value with
  | micronode content =>
    have hadmits := h.admitted content rfl
    simp only [FieldValue.type, convertScalar, checkAllowed, if_pos hadmits]
  | list items => exact absurd rfl h.single
  | _ => rfl

/-- A value that fits is converted to itself. -/
theorem convert_of_fits {value : FieldValue} (h : field.Fits value) :
    field.convert value = .ok (some value) := by
  by_cases hl : field.type = .list
  · obtain ⟨items, rfl, hitems⟩ := (fits_iff_of_list hl).mp h
    have hself : items.mapM (field.convertScalar field.elementType) = .ok items :=
      mapM_eq_self fun item hm => convertScalar_of_fitsAs (hitems item hm)
    rw [convert_of_list hl, FieldValue.items, hself]
    rfl
  · have hfits := (fits_iff_of_single hl).mp h
    rw [convert_of_single hl, FieldValue.items_of_single hfits.single, elementType_of_single hl]
    simp only [convertScalar_of_fitsAs hfits, Except.map]

/-- Only of an empty list nothing is left, where no list is asked for. -/
theorem convert_eq_none_iff {value : FieldValue} :
    field.convert value = .ok none ↔ value = .list [] ∧ field.type ≠ .list := by
  have hsome : ∀ {α : Type} {g : α → FieldValue} {result : Except ConversionError α},
      result.map (fun a => some (g a)) ≠ .ok none := by
    intro α g result h
    obtain ⟨a, -, ha⟩ := exists_of_map_eq_ok h
    cases ha
  by_cases hl : field.type = .list
  · rw [convert_of_list hl]
    exact iff_of_false hsome fun h => h.2 hl
  · rw [convert_of_single hl]
    split
    · next hnone =>
      refine iff_of_true rfl ⟨?_, hl⟩
      cases value with
      | list items => rw [show items = [] from hnone]
      | _ => cases hnone
    · next first rest hsomeOf =>
      refine iff_of_false hsome fun h => ?_
      rw [h.1] at hsomeOf
      cases hsomeOf

/-- A field that is declared anew takes a value that fits it as it stands. -/
theorem migrate_updateField_of_fits {fields : FieldMap} (hs : fields.Sorted) {value : FieldValue}
    (hg : Dict.get? fields field.name = some value) (h : field.Fits value) :
    (Change.updateField field).migrate fields = .ok fields := by
  simp only [Change.migrate, hg, convert_of_fits h, hs.insert_eq_self hg]

/-- Conversion leads to values that fit and keeps each of those; nothing is left of an empty list
only, where a single value is asked for; and what is read fits too. So a field that is declared
anew, with the types and microschemas it had, changes and refuses no value that fitted it. -/
theorem convert_retracts (field : FieldSpec) :
    (∀ value converted, field.convert value = .ok (some converted) →
      field.Fits converted ∧ field.convert converted = .ok (some converted)) ∧
      (∀ value, field.Fits value → field.convert value = .ok (some value)) ∧
      (∀ value, field.convert value = .ok none ↔ value = .list [] ∧ field.type ≠ .list) ∧
      (∀ json value, field.read json = .ok value → field.Fits value) ∧
      ∀ before : FieldSpec, field.type = before.type → field.listType = before.listType →
        field.allow = before.allow → ∀ fields : FieldMap, fields.Sorted →
          ∀ value, Dict.get? fields field.name = some value → before.Fits value →
            (Change.updateField field).migrate fields = .ok fields := by
  refine ⟨fun value converted h => ?_, fun value => convert_of_fits,
    fun value => convert_eq_none_iff, fun json value => fits_of_read, ?_⟩
  · have hfits := fits_of_convert h
    exact ⟨hfits, convert_of_fits hfits⟩
  · intro before ht hl ha fields hs value hg hfits
    exact migrate_updateField_of_fits hs hg (hfits.congr ht hl ha)

/-- A single image becomes a gallery of one, which stays as it is when the gallery has to be filled
from now on; a gallery without images is left without them. -/
theorem convert_of_single_image :
    let before : FieldSpec :=
      { name := "gallery", type := .list, listType := some .micronode, allow := ["image"] }
    let gallery : FieldSpec := { before with required := true }
    let image : FieldValue := .micronode ⟨"image", "v1", []⟩
    let fields : FieldMap := [("gallery", .list [image])]
    gallery.convert image = .ok (some (.list [image])) ∧
      gallery.Fits (.list [image]) ∧
      gallery.convert (.list [image]) = .ok (some (.list [image])) ∧
      gallery.convert (.list []) ≠ .ok none ∧
      (gallery.type = before.type ∧ gallery.listType = before.listType ∧
        gallery.allow = before.allow ∧ fields.Sorted ∧ before.Fits (.list [image])) ∧
      (Change.updateField gallery).migrate fields = .ok fields := by
  intro before gallery image fields
  obtain ⟨hled, -, hnone, -, hanew⟩ := convert_retracts gallery
  have hconvert : gallery.convert image = .ok (some (.list [image])) := rfl
  obtain ⟨hfits, hself⟩ := hled image _ hconvert
  have hempty : gallery.convert (.list []) ≠ .ok none := fun h => ((hnone _).mp h).2 rfl
  have hbefore : before.Fits (.list [image]) := hfits.congr rfl rfl rfl
  have hsorted : fields.Sorted := List.pairwise_singleton _ _
  exact ⟨hconvert, hfits, hself, hempty, ⟨rfl, rfl, rfl, hsorted, hbefore⟩,
    hanew before rfl rfl rfl fields hsorted _ rfl hbefore⟩

end FieldSpec

end VersionedContent
