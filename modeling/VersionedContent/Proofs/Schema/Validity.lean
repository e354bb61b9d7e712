import VersionedContent.Proofs.Collection.Keys
import VersionedContent.Proofs.Schema.Fields
import VersionedContent.Schema.Validation

/-!
# What valid definitions are known to satisfy

A definition without issues has distinct field names, the defaults of its fields
can be read, and its references are just the microschemas that its fields allow.
-/

namespace VersionedContent

/-- Names of which none occurs again are distinct. -/
theorem nodup_of_repeatedNames {before names : List String} (hb : before.Nodup)
    (h : repeatedNames before names = []) : names.Nodup ∧ ∀ name ∈ names, name ∉ before := by
  induction names generalizing before with
  | nil => simp
  | cons name rest ih =>
    rw [repeatedNames] at h
    by_cases hc : before.count name = 1
    · rw [if_pos hc] at h
      cases h
    · rw [if_neg hc] at h
      have hn : name ∉ before := by
        intro hm
        have hpos := List.count_pos_iff.mpr hm
        have hle := List.nodup_iff_count_le_one.mp hb name
        omega
      obtain ⟨hr, hd⟩ := ih (List.nodup_cons.mpr ⟨hn, hb⟩) h
      refine ⟨List.nodup_cons.mpr ⟨fun hm => hd name hm List.mem_cons_self, hr⟩, ?_⟩
      intro other hm
      rcases List.mem_cons.mp hm with rfl | hm
      · exact hn
      · exact fun ho => hd other hm (List.mem_cons_of_mem _ ho)

namespace Definition

/-- A definition without issues has distinct field names. -/
theorem distinct_of_issues {definition : Definition} {kind : Kind}
    (h : definition.issues kind = []) : definition.Distinct := by
  simp only [issues, List.append_eq_nil_iff, List.map_eq_nil_iff] at h
  exact (nodup_of_repeatedNames .nil h.1.1.2).1

/-- The default of a field of a definition without issues reads. -/
theorem exists_read_of_issues {definition : Definition} {kind : Kind}
    (h : definition.issues kind = []) {field : FieldSpec} (hm : field ∈ definition.fields)
    {json : Json} (hd : field.default = some json) : ∃ value, field.read json = .ok value := by
  simp only [issues, List.append_eq_nil_iff, List.flatMap_eq_nil_iff] at h
  have hissues := h.1.2 field hm
  simp only [FieldSpec.issues, List.append_eq_nil_iff, FieldSpec.defaultIssues, hd] at hissues
  cases hr : field.read json with
  | ok value => exact ⟨value, rfl⟩
  | error cause =>
    rw [hr] at hissues
    cases hissues.2

/-- Sorting names and dropping repetitions keeps every name. -/
theorem mem_distinctNames {names : List String} {name : String} :
    name ∈ distinctNames names ↔ name ∈ names := by
  have hfold : ∀ (list : List String) (seen : Dict Unit),
      name ∈ (list.foldl (fun seen name => Dict.insert seen name ()) seen).keys ↔
        name ∈ list ∨ name ∈ seen.keys := by
    intro list
    induction list with
    | nil => simp
    | cons first rest ih =>
      intro seen
      rw [List.foldl_cons, ih, List.mem_cons, Dict.mem_keys_insert]
      tauto
  rw [distinctNames, hfold]
  simp [Dict.keys]

/-- The references of a definition are what its embedding fields allow. -/
theorem mem_microschemaReferences {definition : Definition} {name : String} :
    name ∈ definition.microschemaReferences ↔
      ∃ field ∈ definition.fields, field.embeds = true ∧ name ∈ field.allow := by
  rw [microschemaReferences, mem_distinctNames, List.mem_flatMap]
  simp [and_assoc]

end Definition

end VersionedContent
