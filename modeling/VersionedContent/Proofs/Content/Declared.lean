import VersionedContent.Proofs.Content.Conforms

/-!
# Values under declared names

A change does to the names of a definition what it does to the keys of stored
values. Values that stand under declared names go on to do so, change by change,
and a migration that reaches a definition has nothing left to drop there. So it
may be cut in two at every definition that it passes.
-/

namespace VersionedContent

namespace Definition

/-- Whether every value stands under the name of a declared field. -/
def Declares (definition : Definition) (fields : FieldMap) : Prop :=
  ∀ name ∈ Dict.keys fields, name ∈ definition.fieldNames

variable {definition next : Definition} {fields migrated : FieldMap}

/-- No value stands under a name that is not declared. -/
theorem Declares.get?_eq_none (h : definition.Declares fields) {name : String}
    (hn : name ∉ definition.fieldNames) : Dict.get? fields name = none := by
  by_contra hg
  exact hn (h name ((Dict.get?_ne_none_iff fields name).mp hg))

/-- Values stay declared when each stands under a name that is declared now, or under its own
name, of which nothing else is said than before. -/
theorem Declares.of_get? (h : definition.Declares fields)
    (hk : ∀ name, Dict.get? migrated name ≠ none → (next.field? name).isSome = true ∨
      Dict.get? fields name ≠ none ∧ next.field? name = definition.field? name) :
    next.Declares migrated := by
  intro name hm
  rw [← field?_isSome_iff]
  rcases hk name ((Dict.get?_ne_none_iff migrated name).mpr hm) with hnext | ⟨hold, hsame⟩
  · exact hnext
  · rw [hsame, field?_isSome_iff]
    exact h name ((Dict.get?_ne_none_iff fields name).mp hold)

/-- Values stay declared when one name is settled, at a value only if it is declared. -/
theorem Declares.put (h : definition.Declares fields) {name : String} {value : Option FieldValue}
    (hv : value ≠ none → (next.field? name).isSome = true)
    (hn : ∀ other, other ≠ name → next.field? other = definition.field? other) :
    next.Declares (Dict.put fields name value) := by
  refine h.of_get? fun other hm => ?_
  rw [Dict.get?_put] at hm
  split_ifs at hm with he
  · exact .inl (he ▸ hv hm)
  · exact .inr ⟨hm, hn other he⟩

/-- Values stay declared when a field is renamed. -/
theorem Declares.renameField (hd : definition.Distinct) (h : definition.Declares fields)
    {source target : String} (hs : definition.step (.renameField source target) = .ok next)
    (hm : (Change.renameField source target).migrate fields = .ok migrated) :
    next.Declares migrated := by
  have hlook := field?_of_step_renameField hd hs
  obtain ⟨htarget, hsource, -⟩ := step_renameField_eq_ok_iff.mp hs
  obtain ⟨moved, hmove, hvalue⟩ :=
    Change.migrate_renameField source (h.get?_eq_none htarget)
  obtain rfl := Except.ok.inj (hmove.symm.trans hm)
  refine h.of_get? fun name hk => ?_
  rw [hvalue] at hk
  rw [hlook]
  split_ifs at hk ⊢ with ht hs
  · exact .inl (by rw [Option.isSome_map]; exact (field?_isSome_iff ..).mpr hsource)
  · exact absurd rfl hk
  · exact .inr ⟨hk, rfl⟩

/-- A change that fits a definition leads declared values to declared values. -/
theorem Declares.migrate (hd : definition.Distinct) (h : definition.Declares fields)
    {change : Change} (ho : ∀ order, change = .reorderFields order → order.Nodup)
    (hs : definition.step change = .ok next) (hm : change.migrate fields = .ok migrated) :
    next.Declares migrated := by
  cases change with
  | addField field position =>
    have hlook := field?_of_step_addField hd hs
    rw [Change.migrate_addField] at hm
    obtain ⟨value, -, rfl⟩ := FieldSpec.exists_of_settle_eq_ok hm
    exact h.put (fun _ => by rw [hlook, if_pos rfl]; rfl) fun other hne => by rw [hlook, if_neg hne]
  | removeField name =>
    have hlook := field?_of_step_removeField hd hs
    rw [Change.migrate_removeField] at hm
    obtain rfl := Except.ok.inj hm
    exact h.put (by simp) fun other hne => by rw [hlook, if_neg hne]
  | updateField field =>
    have hlook := field?_of_step_updateField hd hs
    rw [Change.migrate_updateField] at hm
    obtain ⟨value, -, rfl⟩ := FieldSpec.exists_of_settle_eq_ok hm
    exact h.put (fun _ => by rw [hlook, if_pos rfl]; rfl) fun other hne => by rw [hlook, if_neg hne]
  | renameField source target => exact h.renameField hd hs hm
  | reorderFields order =>
    obtain rfl := Except.ok.inj hm
    have hlook := field?_of_step_reorderFields hd (ho order rfl) hs
    exact h.of_get? fun name hk => .inr ⟨hk, hlook name⟩
  | updateSchema description displayField autoPurge =>
    obtain rfl := Except.ok.inj hm
    obtain rfl : _ = next := by simpa [step, pure, Except.pure] using hs
    exact h

/-- Declared values are declared by a definition that agrees. -/
theorem Declares.of_same {other : Definition} (h : definition.Declares fields)
    (hs : definition.same other = true) : other.Declares fields := by
  simp only [same, Bool.and_eq_true] at hs
  intro name hm
  have hold := h name hm
  rw [fieldNames, map_name_of_sameFields hs.2] at hold
  exact hold

/-- Change lists lead declared values to declared values. -/
theorem follows_declares : Follows Declares where
  migrate hd ho hs hm h := h.migrate hd ho hs hm
  same hs h := h.of_same hs

/-- No declared value is dropped. -/
theorem Declares.restrict_eq (h : definition.Declares fields) :
    Dict.restrict fields (fun name => (definition.field? name).isSome) = fields :=
  Dict.restrict_eq_self fun name hm => (field?_isSome_iff ..).mpr (h name hm)

end Definition

/-- A migration can be cut at a definition that declares whatever the first part leads to. -/
theorem migrateFields_append {fields : FieldMap} {first : List Change} {middle : Definition}
    (h : ∀ moved, first.foldlM Change.migrate fields = .ok moved → middle.Declares moved)
    (second : List Change) (target : Definition) :
    migrateFields fields (first ++ second) target =
      (migrateFields fields first middle).bind fun moved => migrateFields moved second target := by
  unfold migrateFields
  rw [List.foldlM_append]
  cases hm : first.foldlM Change.migrate fields with
  | error error => rfl
  | ok moved =>
    simp only [Except.map, Except.bind, (h moved hm).restrict_eq]
    rfl

end VersionedContent
