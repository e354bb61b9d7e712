import VersionedContent.Proofs.Schema.Fields
import VersionedContent.Proofs.Schema.Validity
import VersionedContent.Schema.Compiled

/-!
# What a compiled version tells

The index of a compiled version takes the last field of a name and the search in a
definition the first. Only valid versions are compiled, and their field names are
distinct, so the two find the same field. A compiled version thus reflects the
version that it was made of, and any other that differs in its link to the next
one only.
-/

namespace VersionedContent

/-- A version without its link to the next one, which is all that changes once it is stored. -/
def Version.unlinked (version : Version) : Version := { version with next := none }

namespace Compiled

/-- Whether a compiled version is a version with its fields and references, apart from the link to
the next one. -/
structure Reflects (compiled : Compiled) (stored : Version) : Prop where
  /-- All but the link is that of the version. -/
  version : compiled.version.unlinked = stored.unlinked
  /-- The index finds the fields of the definition. -/
  field? : ∀ name, compiled.field? name = stored.definition.field? name
  /-- The references are those of the definition. -/
  references : compiled.microschemaReferences = stored.definition.microschemaReferences

/-- The link to the next version does not matter. -/
theorem Reflects.of_unlinked_eq {compiled : Compiled} {version other : Version}
    (h : compiled.Reflects version) (he : other.unlinked = version.unlinked) :
    compiled.Reflects other := by
  have hd : other.definition = version.definition := (congrArg Version.definition he :)
  exact ⟨h.version.trans he.symm, by rw [hd]; exact h.field?, by rw [hd]; exact h.references⟩

/-- Positions of other names do not change what is found. -/
theorem get?_foldl_of_notMem {entries : List (FieldSpec × Nat)} {name : String}
    (h : ∀ entry ∈ entries, entry.1.name ≠ name) (positions : Dict Nat) :
    Dict.get? (entries.foldl
      (fun positions entry => Dict.insert positions entry.1.name entry.2) positions) name =
        Dict.get? positions name := by
  induction entries generalizing positions with
  | nil => rfl
  | cons entry rest ih =>
    rw [List.foldl_cons, ih fun other hm => h other (List.mem_cons_of_mem _ hm)]
    exact Dict.get?_insert_of_ne positions entry.2 (h entry List.mem_cons_self).symm

/-- With distinct names, the index has the position of each field. -/
theorem get?_index {fields : List FieldSpec} (hd : (fields.map FieldSpec.name).Nodup) {i : Nat}
    {field : FieldSpec} (hi : fields[i]? = some field) :
    Dict.get? (index fields) field.name = some i := by
  obtain ⟨before, after, rfl, rfl⟩ : ∃ before after, fields = before ++ field :: after ∧
      before.length = i := by
    obtain ⟨hlt, rfl⟩ := List.getElem?_eq_some_iff.mp hi
    exact ⟨fields.take i, fields.drop (i + 1), by simp, by simp; omega⟩
  have hafter : ∀ entry ∈ after.zipIdx (before.length + 1), entry.1.name ≠ field.name := by
    intro entry hm he
    rw [List.map_append, List.map_cons] at hd
    have hrest := (List.nodup_cons.mp hd.of_append_right).1
    exact hrest (he ▸ List.mem_map_of_mem (List.fst_mem_of_mem_zipIdx hm))
  rw [index, List.zipIdx_append, List.foldl_append, List.zipIdx_cons, List.foldl_cons, Nat.zero_add,
    get?_foldl_of_notMem hafter, Dict.get?_insert_self]

/-- A name that no field has is not in the index. -/
theorem get?_index_of_notMem {fields : List FieldSpec} {name : String}
    (h : name ∉ fields.map FieldSpec.name) : Dict.get? (index fields) name = none := by
  refine get?_foldl_of_notMem (fun entry hm he => h ?_) []
  rw [← he]
  exact List.mem_map_of_mem (List.fst_mem_of_mem_zipIdx hm)

/-- A compiled version reflects the version that it was made of. -/
theorem reflects_of_ofVersion {version : Version} {compiled : Compiled}
    (h : ofVersion version = .ok compiled) : compiled.Reflects version := by
  unfold ofVersion at h
  cases hi : version.definition.issues version.kind with
  | cons issue rest =>
    rw [hi] at h
    cases h
  | nil =>
    rw [hi] at h
    obtain rfl := Except.ok.inj h
    have hd : version.definition.Distinct := Definition.distinct_of_issues hi
    refine ⟨rfl, fun name => ?_, rfl⟩
    unfold Compiled.field?
    cases hf : version.definition.field? name with
    | none =>
      dsimp only
      rw [get?_index_of_notMem (Definition.field?_eq_none_iff.mp hf), Option.bind_none]
    | some field =>
      obtain ⟨hm, rfl⟩ := (Definition.field?_eq_some_iff hd).mp hf
      obtain ⟨i, hget⟩ := List.mem_iff_getElem?.mp hm
      dsimp only
      rw [get?_index hd hget, Option.bind_some, hget]

/-- A valid version is compiled. -/
theorem exists_ofVersion {version : Version} (h : version.definition.issues version.kind = []) :
    ∃ compiled, ofVersion version = .ok compiled := by
  unfold ofVersion
  rw [h]
  exact ⟨_, rfl⟩

end Compiled

end VersionedContent
