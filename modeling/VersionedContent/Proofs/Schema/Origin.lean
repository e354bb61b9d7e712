import Mathlib.Data.List.Find
import VersionedContent.Proofs.Schema.Difference

/-!
# Where fields come from

A field of the new definition carries on the old one that is renamed to its name, or
else the one of its name. Between the two definitions the renames go both ways.
-/

namespace VersionedContent

/-- Where keys are distinct, an entry is the first one of its key. -/
theorem find?_key_eq_some {α κ : Type} [DecidableEq κ] {key : α → κ} {list : List α}
    (hn : (list.map key).Nodup) {a : α} (ha : a ∈ list) :
    list.find? (fun b => key b = key a) = some a := by
  cases hf : list.find? fun b => key b = key a with
  | none => simpa using List.find?_eq_none.mp hf a ha
  | some b =>
    have hkey : key b = key a := by simpa using List.find?_some hf
    rw [List.inj_on_of_nodup_map hn (List.mem_of_find?_eq_some hf) ha hkey]

namespace Definition

/-- The name that a field had before the renames. -/
def nameBefore (renames : List Rename) (name : String) : String :=
  match renames.find? fun rename => rename.target = name with
  | some rename => rename.source
  | none => name

/-- The old field that a field of the new definition comes from: the one that is renamed to its
name, or else the one of its name. -/
def origin? (old : Definition) (renames : List Rename) (name : String) : Option FieldSpec :=
  old.field? (nameBefore renames name)

/-- The first rename of a list decides about its target, the rest about other names. -/
theorem nameBefore_cons (rename : Rename) (rest : List Rename) (name : String) :
    nameBefore (rename :: rest) name =
      if name = rename.target then rename.source else nameBefore rest name := by
  by_cases h : name = rename.target
  · simp [nameBefore, h]
  · simp [nameBefore, h, Ne.symm h]

/-- A name that is no target was there before. -/
theorem nameBefore_of_notMem {renames : List Rename} {name : String}
    (h : name ∉ renames.map Rename.target) : nameBefore renames name = name := by
  have hf : renames.find? (fun rename => rename.target = name) = none := by
    rw [List.find?_eq_none]
    intro rename hm he
    simp only [decide_eq_true_eq] at he
    exact h (he ▸ List.mem_map_of_mem hm)
  rw [nameBefore, hf]

variable {old new : Definition} {renames : List Rename}

/-- Between fields of the old definition and fields of the new one the renames go both ways. -/
theorem nameAfter_eq_iff (hfit : RenamesFit old new renames) {name other : String}
    (hold : name ∈ old.fieldNames) (hnew : other ∈ new.fieldNames) :
    nameAfter renames name = other ↔ name = nameBefore renames other := by
  constructor
  · rintro rfl
    by_cases hs : name ∈ renames.map Rename.source
    · obtain ⟨rename, hm, rfl⟩ := List.mem_map.mp hs
      rw [nameAfter, find?_key_eq_some hfit.sources_nodup hm, nameBefore,
        find?_key_eq_some hfit.targets_nodup hm]
    · rw [nameAfter_of_notMem hs, nameBefore_of_notMem]
      intro ht
      obtain ⟨rename, hm, rfl⟩ := List.mem_map.mp ht
      exact hfit.target_notMem_old rename hm hold
  · rintro rfl
    by_cases ht : other ∈ renames.map Rename.target
    · obtain ⟨rename, hm, rfl⟩ := List.mem_map.mp ht
      rw [nameBefore, find?_key_eq_some hfit.targets_nodup hm, nameAfter,
        find?_key_eq_some hfit.sources_nodup hm]
    · rw [nameBefore_of_notMem ht, nameAfter_of_notMem]
      intro hs
      obtain ⟨rename, hm, rfl⟩ := List.mem_map.mp hs
      exact hfit.source_notMem_new rename hm hnew

/-- Under a name of the new definition the carried fields have the origin, renamed. -/
theorem find?_carried (hfit : RenamesFit old new renames) {name : String}
    (hnew : name ∈ new.fieldNames) :
    (old.carried renames).find? (fun existing => existing.name = name) =
      (old.origin? renames name).map fun before => { before with name := name } := by
  have hfind : (old.carried renames).find? (fun existing => existing.name = name) =
      (old.origin? renames name).map
        fun before => { before with name := nameAfter renames before.name } := by
    rw [carried, List.find?_map, origin?, field?]
    refine congrArg _ (List.find?_congr fun field hm => ?_)
    exact decide_eq_decide.mpr (nameAfter_eq_iff hfit (List.mem_map_of_mem hm) hnew)
  rw [hfind]
  refine Option.map_congr fun before hb => ?_
  have hname := name_of_field? hb
  rw [(nameAfter_eq_iff hfit (List.mem_map_of_mem (mem_of_field? hb)) hnew).mpr hname]

end Definition

end VersionedContent
