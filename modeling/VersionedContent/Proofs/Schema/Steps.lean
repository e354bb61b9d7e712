import VersionedContent.Proofs.Schema.Fields

/-!
# Single changes of a definition

When a change fits, and which definition it leads to. A definition with distinct
names stays one, and afterwards each name has the field that the change says:
no other name is touched, and a reordering touches none.
-/

namespace VersionedContent

namespace Definition

variable {definition next : Definition}

/-- A name is free for a change exactly when no field has it. -/
theorem refuse_eq_ok_iff {name : String} :
    definition.refuse name = .ok () ↔ name ∉ definition.fieldNames := by
  unfold refuse
  rw [← field?_eq_none_iff]
  cases definition.field? name <;> simp

/-- A field can be added exactly when its name is free. -/
theorem step_addField_eq_ok_iff {field : FieldSpec} {position : Option Nat} :
    definition.step (.addField field position) = .ok next ↔
      field.name ∉ definition.fieldNames ∧
        next = { definition with
          fields := insertField definition.fields
            (position.getD definition.fields.length) field } := by
  rw [← refuse_eq_ok_iff]
  simp only [step]
  cases definition.refuse field.name with
  | error fault => simp [bind, Except.bind]
  | ok _ => simp [bind, Except.bind, pure, Except.pure, eq_comm]

/-- A field can be removed exactly when it is there. -/
theorem step_removeField_eq_ok_iff {name : String} :
    definition.step (.removeField name) = .ok next ↔
      name ∈ definition.fieldNames ∧
        next = { definition with
          fields := definition.fields.eraseP fun field => field.name = name } := by
  rw [← field?_isSome_iff]
  simp only [step, require]
  cases definition.field? name with
  | none => simp [bind, Except.bind]
  | some _ => simp [bind, Except.bind, pure, Except.pure, eq_comm]

/-- A field can be declared anew exactly when it is there. -/
theorem step_updateField_eq_ok_iff {field : FieldSpec} :
    definition.step (.updateField field) = .ok next ↔
      field.name ∈ definition.fieldNames ∧
        next = { definition with
          fields := modifyField field.name (fun _ => field) definition.fields } := by
  rw [← field?_isSome_iff]
  simp only [step, require]
  cases definition.field? field.name with
  | none => simp [bind, Except.bind]
  | some _ => simp [bind, Except.bind, pure, Except.pure, eq_comm]

/-- A field can be renamed exactly when it is there and its new name is free. -/
theorem step_renameField_eq_ok_iff {source target : String} :
    definition.step (.renameField source target) = .ok next ↔
      target ∉ definition.fieldNames ∧ source ∈ definition.fieldNames ∧
        next = { definition with
          fields := modifyField source (fun field => { field with name := target })
            definition.fields } := by
  rw [← refuse_eq_ok_iff, ← field?_isSome_iff]
  simp only [step, require]
  cases definition.refuse target with
  | error fault => simp [bind, Except.bind]
  | ok _ =>
    cases definition.field? source with
    | none => simp [bind, Except.bind]
    | some _ => simp [bind, Except.bind, pure, Except.pure, eq_comm]

/-- An order can be followed exactly when every name in it is found. -/
theorem mapM_require_eq_ok_iff {order : List String} {fields : List FieldSpec} :
    order.mapM definition.require = .ok fields ↔
      order.map definition.field? = fields.map some := by
  induction order generalizing fields with
  | nil => cases fields <;> simp [pure, Except.pure]
  | cons name rest ih =>
    have hcons : (name :: rest).mapM definition.require = .ok fields ↔
        ∃ field others, definition.field? name = some field ∧
          rest.mapM definition.require = .ok others ∧ fields = field :: others := by
      rw [List.mapM_cons]
      cases hf : definition.field? name with
      | none => simp [require, hf, bind, Except.bind]
      | some field =>
        cases rest.mapM definition.require with
        | error fault => simp [require, hf, bind, Except.bind]
        | ok others => simp [require, hf, bind, Except.bind, pure, Except.pure, eq_comm]
    rw [hcons]
    cases fields with
    | nil => simp
    | cons field others => simp [ih, eq_comm]

/-- Fields can be reordered exactly when the order names as many fields as there are. -/
theorem step_reorderFields_eq_ok_iff {order : List String} :
    definition.step (.reorderFields order) = .ok next ↔
      ∃ fields, order.map definition.field? = fields.map some ∧
        fields.length = definition.fields.length ∧ next = { definition with fields := fields } := by
  simp only [← mapM_require_eq_ok_iff, step]
  cases order.mapM definition.require with
  | error fault => simp [bind, Except.bind]
  | ok fields =>
    by_cases h : fields.length = definition.fields.length <;>
      simp [bind, Except.bind, pure, Except.pure, h, eq_comm, throw, throwThe,
        MonadExceptOf.throw]


/-- Putting a field in adds the one field, wherever it is put. -/
theorem insertField_perm (fields : List FieldSpec) (position : Nat) (field : FieldSpec) :
    (insertField fields position field).Perm (field :: fields) := by
  unfold insertField
  apply List.perm_middle.trans
  rw [List.take_append_drop]

/-- With distinct names on both sides, a look-up does not depend on the order of the fields. -/
theorem field?_eq_of_perm {a b : Definition} (ha : a.Distinct) (hp : a.fields.Perm b.fields)
    (name : String) : a.field? name = b.field? name := by
  have hb : b.Distinct := (hp.map FieldSpec.name).nodup_iff.mp ha
  apply Option.ext
  intro field
  rw [field?_eq_some_iff ha, field?_eq_some_iff hb, hp.mem_iff]

/-- Changing the field of a name changes that name alone. -/
theorem map_name_modifyField {fields : List FieldSpec} (hd : (fields.map FieldSpec.name).Nodup)
    {source : String} (target : String) {f : FieldSpec → FieldSpec}
    (hf : ∀ field, field.name = source → (f field).name = target) :
    (modifyField source f fields).map FieldSpec.name =
      (fields.map FieldSpec.name).map fun name => if name = source then target else name := by
  rw [modifyField_eq_map hd, List.map_map, List.map_map]
  refine List.map_congr_left fun field _ => ?_
  by_cases h : field.name = source
  · simp [h, hf field h]
  · simp [h]

/-- Declaring a field anew leaves the names as they are. -/
theorem fieldNames_of_update (hd : definition.Distinct) (field : FieldSpec) :
    fieldNames { definition with
      fields := modifyField field.name (fun _ => field) definition.fields } =
        definition.fieldNames := by
  have hid : (fun name => if name = field.name then field.name else name) = id := by
    funext name
    by_cases hn : name = field.name <;> simp [hn]
  rw [fieldNames, map_name_modifyField hd field.name (fun _ _ => rfl), hid, List.map_id]
  rfl

/-- Fields found under the names of an order stand in that order. -/
theorem map_name_of_map_field? {order : List String} {fields : List FieldSpec}
    (h : order.map definition.field? = fields.map some) : fields.map FieldSpec.name = order := by
  induction order generalizing fields with
  | nil =>
    obtain rfl : fields = [] := by simpa using h.symm
    rfl
  | cons name rest ih =>
    cases fields with
    | nil => simp at h
    | cons field others =>
      simp only [List.map_cons, List.cons.injEq] at h
      rw [List.map_cons, name_of_field? h.1, ih h.2]

/-- A look-up after the field of one name was changed, which may move it to a free name. -/
theorem find?_modifyField {fields : List FieldSpec} (hd : (fields.map FieldSpec.name).Nodup)
    {source : String} (target : String) {f : FieldSpec → FieldSpec}
    (hf : ∀ field, field.name = source → (f field).name = target)
    (ht : target = source ∨ target ∉ fields.map FieldSpec.name) (name : String) :
    (modifyField source f fields).find? (fun field => field.name = name) =
      if name = target then (fields.find? fun field => field.name = source).map f
      else if name = source then none
      else fields.find? fun field => field.name = name := by
  induction fields with
  | nil => simp [modifyField]
  | cons first rest ih =>
    simp only [List.map_cons, List.nodup_cons, List.mem_cons, not_or] at hd ht
    by_cases hs : first.name = source
    · have hrest : rest.find? (fun field => field.name = source) = none := by
        rw [List.find?_eq_none]
        intro field hm he
        simp only [decide_eq_true_eq] at he
        exact hd.1 (by rw [hs, ← he]; exact List.mem_map_of_mem hm)
      by_cases hn : name = target
      · simp [modifyField, hs, hn, hf first hs]
      · by_cases hns : name = source
        · have hst : source ≠ target := hns ▸ hn
          simp [modifyField, hs, hns, hf first hs, hrest, hst, Ne.symm hst]
        · simp [modifyField, hs, hn, hns, hf first hs, Ne.symm hn, Ne.symm hns]
    · have ht' : target = source ∨ target ∉ rest.map FieldSpec.name := ht.imp id And.right
      have hrest := ih hd.2 ht'
      by_cases hn : first.name = name
      · have hnt : name ≠ target := by
          rcases ht with ht | ht
          · exact fun he => hs (hn.trans (he.trans ht))
          · exact fun he => ht.1 (he ▸ hn.symm)
        simp [modifyField, hn, hnt, hn ▸ hs]
      · simp only [modifyField, hs, ite_false, List.find?_cons_of_neg, decide_eq_true_eq, hn,
          not_false_eq_true, hrest]

/-- A change keeps names distinct when an order that it prescribes repeats none. -/
theorem distinct_of_step (hd : definition.Distinct) {change : Change}
    (ho : ∀ order, change = .reorderFields order → order.Nodup)
    (h : definition.step change = .ok next) : next.Distinct := by
  cases change with
  | addField field position =>
    obtain ⟨hn, rfl⟩ := step_addField_eq_ok_iff.mp h
    exact ((insertField_perm _ _ field).map FieldSpec.name).nodup_iff.mpr
      (List.nodup_cons.mpr ⟨hn, hd⟩)
  | removeField name =>
    obtain ⟨-, rfl⟩ := step_removeField_eq_ok_iff.mp h
    exact hd.sublist (List.eraseP_sublist.map _)
  | updateField field =>
    obtain ⟨-, rfl⟩ := step_updateField_eq_ok_iff.mp h
    rw [Distinct, fieldNames_of_update hd field]
    exact hd
  | renameField source target =>
    obtain ⟨ht, -, rfl⟩ := step_renameField_eq_ok_iff.mp h
    rw [Distinct, fieldNames, map_name_modifyField hd target (fun _ _ => rfl)]
    refine hd.map_on fun a ha b hb he => ?_
    by_cases hsa : a = source <;> by_cases hsb : b = source <;>
      simp only [hsa, hsb, ite_true, ite_false] at he ⊢
    · exact absurd (he ▸ hb) ht
    · exact absurd (he ▸ ha) ht
    · exact he
  | reorderFields order =>
    obtain ⟨fields, hf, -, rfl⟩ := step_reorderFields_eq_ok_iff.mp h
    rw [Distinct, fieldNames, map_name_of_map_field? hf]
    exact ho order rfl
  | updateSchema description displayField autoPurge =>
    obtain rfl : _ = next := by simpa [step, pure, Except.pure] using h
    exact hd

section Lookup

variable (hd : definition.Distinct)
include hd

/-- After an addition the new field is found under its name and nothing else has changed. -/
theorem field?_of_step_addField {field : FieldSpec} {position : Option Nat}
    (h : definition.step (.addField field position) = .ok next) (name : String) :
    next.field? name = if name = field.name then some field else definition.field? name := by
  have hn := distinct_of_step hd (by simp) h
  obtain ⟨-, rfl⟩ := step_addField_eq_ok_iff.mp h
  have hp := insertField_perm definition.fields (position.getD definition.fields.length) field
  rw [field?_eq_of_perm (b := { definition with fields := field :: definition.fields }) hn hp]
  by_cases he : name = field.name
  · simp [field?, he]
  · simp [field?, he, Ne.symm he]

/-- After a removal nothing is found under the name and nothing else has changed. -/
theorem field?_of_step_removeField {removed : String}
    (h : definition.step (.removeField removed) = .ok next) (name : String) :
    next.field? name = if name = removed then none else definition.field? name := by
  obtain ⟨-, rfl⟩ := step_removeField_eq_ok_iff.mp h
  rw [field?, eraseP_name_eq_filter hd, find?_filter_name hd]
  cases hf : definition.field? name with
  | none =>
    rw [field?] at hf
    simp [hf]
  | some field =>
    have hname := name_of_field? hf
    rw [field?] at hf
    rw [hf]
    by_cases he : name = removed <;> simp [Option.filter, hname, he]

/-- After an update the field is found as declared anew and nothing else has changed. -/
theorem field?_of_step_updateField {field : FieldSpec}
    (h : definition.step (.updateField field) = .ok next) (name : String) :
    next.field? name = if name = field.name then some field else definition.field? name := by
  obtain ⟨hm, rfl⟩ := step_updateField_eq_ok_iff.mp h
  obtain ⟨old, ho⟩ := exists_field? hm
  rw [field?] at ho
  rw [field?, find?_modifyField hd field.name (fun _ _ => rfl) (.inl rfl), ho,
    Option.map_some]
  by_cases he : name = field.name <;> simp [he, field?]

/-- After a rename the field is found under the new name and nothing else has changed. -/
theorem field?_of_step_renameField {source target : String}
    (h : definition.step (.renameField source target) = .ok next) (name : String) :
    next.field? name =
      if name = target then
        (definition.field? source).map fun field => { field with name := target }
      else if name = source then none else definition.field? name := by
  obtain ⟨ht, -, rfl⟩ := step_renameField_eq_ok_iff.mp h
  exact find?_modifyField hd target (fun _ _ => rfl) (.inr ht) name

/-- An order that repeats no name leaves the fields that there were. -/
theorem perm_of_step_reorderFields {order : List String} (ho : order.Nodup)
    (h : definition.step (.reorderFields order) = .ok next) :
    next.fields.Perm definition.fields := by
  have hn := distinct_of_step hd (by simpa using ho) h
  obtain ⟨fields, hf, hl, rfl⟩ := step_reorderFields_eq_ok_iff.mp h
  have hsub : fields ⊆ definition.fields := by
    intro field hm
    obtain ⟨name, -, hf⟩ := List.mem_map.mp (hf ▸ List.mem_map_of_mem (f := some) hm)
    exact mem_of_field? hf
  exact (List.subperm_of_subset hn.of_map hsub).perm_of_length_le (Nat.le_of_eq hl.symm)

/-- After a reordering every name has the field it had. -/
theorem field?_of_step_reorderFields {order : List String} (ho : order.Nodup)
    (h : definition.step (.reorderFields order) = .ok next) (name : String) :
    next.field? name = definition.field? name :=
  field?_eq_of_perm (distinct_of_step hd (by simpa using ho) h)
    (perm_of_step_reorderFields hd ho h) name

end Lookup

end Definition

end VersionedContent
