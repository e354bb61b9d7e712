import Mathlib.Data.List.Nodup
import Mathlib.Data.List.Perm.Basic
import Mathlib.Data.List.Perm.Lattice
import VersionedContent.Schema.Change

/-!
# Fields by name

A definition whose field names are distinct is determined by its field names in
order and by the field of each name. Each change is described by what it does to
these two, so that change lists can be followed without looking at positions.
-/

namespace VersionedContent

namespace Definition

/-- Whether no two fields have one name. -/
def Distinct (definition : Definition) : Prop := definition.fieldNames.Nodup

instance (definition : Definition) : Decidable definition.Distinct :=
  inferInstanceAs (Decidable definition.fieldNames.Nodup)

/-- There is no field of a name exactly when the name is not among the field names. -/
theorem field?_eq_none_iff {definition : Definition} {name : String} :
    definition.field? name = none ↔ name ∉ definition.fieldNames := by
  rw [← definition.field?_isSome_iff, Option.isSome_iff_ne_none, not_not]

/-- A name among the field names has a field. -/
theorem exists_field? {definition : Definition} {name : String}
    (h : name ∈ definition.fieldNames) : ∃ field, definition.field? name = some field :=
  Option.isSome_iff_exists.mp ((definition.field?_isSome_iff name).mpr h)

/-- With distinct names, a field is the one found under its name. -/
theorem field?_eq_some_iff {definition : Definition} (hd : definition.Distinct) {name : String}
    {field : FieldSpec} :
    definition.field? name = some field ↔ field ∈ definition.fields ∧ field.name = name := by
  constructor
  · intro h
    exact ⟨mem_of_field? h, name_of_field? h⟩
  · rintro ⟨hm, rfl⟩
    obtain ⟨found, hf⟩ := exists_field? (List.mem_map_of_mem (f := FieldSpec.name) hm)
    have he := List.inj_on_of_nodup_map hd (mem_of_field? hf) hm (name_of_field? hf)
    rw [hf, he]

/-- Distinct names list the fields back through the look-up. -/
theorem map_field?_fieldNames {definition : Definition} (hd : definition.Distinct) :
    definition.fieldNames.map definition.field? = definition.fields.map some := by
  rw [fieldNames, List.map_map]
  refine List.map_congr_left fun field hm => ?_
  exact (field?_eq_some_iff hd).mpr ⟨hm, rfl⟩

/-- A look-up in a part of the fields finds the field exactly when the part keeps it. -/
theorem find?_filter_name {fields : List FieldSpec} (hd : (fields.map FieldSpec.name).Nodup)
    (keep : FieldSpec → Bool) (name : String) :
    (fields.filter keep).find? (fun field => field.name = name) =
      (fields.find? fun field => field.name = name).filter keep := by
  induction fields with
  | nil => rfl
  | cons first rest ih =>
    simp only [List.map_cons, List.nodup_cons] at hd
    by_cases hn : first.name = name
    · have hrest : (rest.filter keep).find? (fun field => field.name = name) = none := by
        rw [List.find?_eq_none]
        intro field hm he
        simp only [decide_eq_true_eq] at he
        exact hd.1 (by rw [hn, ← he]; exact List.mem_map_of_mem (List.mem_filter.mp hm).1)
      by_cases hk : keep first = true <;> simp [hk, hn, hrest, Option.filter]
    · by_cases hk : keep first = true <;>
        simp [hk, hn, ih hd.2]

/-- With distinct names, changing the first field of a name changes every one. -/
theorem modifyField_eq_map {fields : List FieldSpec} (hd : (fields.map FieldSpec.name).Nodup)
    (name : String) (f : FieldSpec → FieldSpec) :
    modifyField name f fields =
      fields.map fun field => if field.name = name then f field else field := by
  induction fields with
  | nil => rfl
  | cons first rest ih =>
    simp only [List.map_cons, List.nodup_cons] at hd
    by_cases hn : first.name = name
    · have hrest : rest.map (fun field => if field.name = name then f field else field) = rest := by
        refine (List.map_congr_left fun field hm => ?_).trans (List.map_id' rest)
        have hne : field.name ≠ name := by
          intro he
          exact hd.1 (by rw [hn, ← he]; exact List.mem_map_of_mem hm)
        simp [hne]
      simp [modifyField, hn, hrest]
    · simp [modifyField, hn, ih hd.2]

/-- With distinct names, dropping the first field of a name drops every one. -/
theorem eraseP_name_eq_filter {fields : List FieldSpec} (hd : (fields.map FieldSpec.name).Nodup)
    (name : String) :
    (fields.eraseP fun field => field.name = name) =
      fields.filter fun field => field.name ≠ name := by
  induction fields with
  | nil => rfl
  | cons first rest ih =>
    simp only [List.map_cons, List.nodup_cons] at hd
    by_cases hn : first.name = name
    · have hrest : rest.filter (fun field => field.name ≠ name) = rest := by
        refine List.filter_eq_self.mpr fun field hm => ?_
        have hne : field.name ≠ name := by
          intro he
          exact hd.1 (by rw [hn, ← he]; exact List.mem_map_of_mem hm)
        simp [hne]
      rw [List.eraseP_cons_of_pos (by simp [hn]), List.filter_cons_of_neg (by simp [hn]), hrest]
    · rw [List.eraseP_cons_of_neg (by simp [hn]), List.filter_cons_of_pos (by simp [hn]), ih hd.2]

/-- Lists of fields that agree have the same names in the same order. -/
theorem map_name_of_sameFields {as bs : List FieldSpec} (h : sameFields as bs = true) :
    as.map FieldSpec.name = bs.map FieldSpec.name := by
  induction as, bs using sameFields.induct with
  | case1 => rfl
  | case2 first as second bs ih =>
    rw [sameFields, Bool.and_eq_true] at h
    rw [List.map_cons, List.map_cons, FieldSpec.name_of_same h.1, ih h.2]
  | case3 as bs hnil hcons => simp [sameFields] at h

/-- In lists of fields that agree, fields that agree are found under each name. -/
theorem find?_of_sameFields {as bs : List FieldSpec} (h : sameFields as bs = true) {name : String}
    {field : FieldSpec} (hf : as.find? (fun field => field.name = name) = some field) :
    ∃ other, bs.find? (fun field => field.name = name) = some other ∧ field.same other = true := by
  induction as, bs using sameFields.induct with
  | case1 => cases hf
  | case2 first as second bs ih =>
    rw [sameFields, Bool.and_eq_true] at h
    have hname := FieldSpec.name_of_same h.1
    by_cases hn : second.name = name
    · rw [List.find?_cons_of_pos (by simpa [hname] using hn)] at hf
      obtain rfl := Option.some.inj hf
      exact ⟨second, by rw [List.find?_cons_of_pos (by simpa using hn)], h.1⟩
    · rw [List.find?_cons_of_neg (by simpa [hname] using hn)] at hf
      rw [List.find?_cons_of_neg (by simpa using hn)]
      exact ih h.2 hf
  | case3 as bs hnil hcons => simp [sameFields] at h

end Definition

end VersionedContent
