import VersionedContent.Proofs.Content.Fits
import VersionedContent.Proofs.Content.Steps
import VersionedContent.Proofs.Schema.Steps

/-!
# Values that conform to a definition

A change does to the fields of a definition what it does to stored values: values
that conform to a definition conform, after a change list was run over both, to
the definition that the change list leads to.
-/

namespace VersionedContent

namespace Definition

/-- Whether every value stands under a declared field and fits it. -/
def Conforms (definition : Definition) (fields : FieldMap) : Prop :=
  ∀ name value, Dict.get? fields name = some value →
    ∃ field, definition.field? name = some field ∧ field.Fits value

variable {definition next : Definition} {fields migrated : FieldMap}

/-- Values go on to conform when one name is settled at what the field declared for it holds. -/
theorem Conforms.put (h : definition.Conforms fields) {name : String} {value : Option FieldValue}
    (hv : ∀ stored, value = some stored →
      ∃ field, next.field? name = some field ∧ field.Fits stored)
    (hn : ∀ other, other ≠ name → next.field? other = definition.field? other) :
    next.Conforms (Dict.put fields name value) := by
  intro other stored hs
  rw [Dict.get?_put] at hs
  split at hs
  · next he => exact he ▸ hv stored hs
  · next hne =>
    rw [hn other hne]
    exact h other stored hs

/-- Values that conform go on to do so when all their fields stay. -/
theorem Conforms.of_field?_eq (h : definition.Conforms fields)
    (hn : ∀ name, (Dict.get? fields name).isSome → next.field? name = definition.field? name) :
    next.Conforms fields := by
  intro name value hv
  rw [hn name (by rw [hv]; rfl)]
  exact h name value hv

/-- No value stands under a name that is not declared. -/
theorem Conforms.get?_eq_none (h : definition.Conforms fields) {name : String}
    (hn : definition.field? name = none) : Dict.get? fields name = none := by
  cases hg : Dict.get? fields name with
  | none => rfl
  | some value =>
    obtain ⟨field, hf, -⟩ := h name value hg
    rw [hn] at hf
    cases hf

/-- What a field that is added gets fits it. -/
theorem fits_of_initial {field : FieldSpec} {value : Option FieldValue}
    (h : field.initial = .ok value) : ∀ stored, value = some stored → field.Fits stored := by
  rintro stored rfl
  unfold FieldSpec.initial at h
  split at h
  · cases h
  · obtain ⟨_, hr, he⟩ := exists_of_map_eq_ok h
    exact Option.some.inj he ▸ FieldSpec.fits_of_read hr

/-- What a field that is declared anew makes of a value fits it. -/
theorem fits_of_revised {field : FieldSpec} {held value : Option FieldValue}
    (h : field.revised held = .ok value) : ∀ stored, value = some stored → field.Fits stored := by
  rintro stored rfl
  cases held with
  | none => cases h
  | some current => exact FieldSpec.fits_of_convert h

/-- Values conform with a field that is added. -/
theorem Conforms.addField (hd : definition.Distinct) (h : definition.Conforms fields)
    {field : FieldSpec} {position : Option Nat}
    (hs : definition.step (.addField field position) = .ok next)
    (hm : (Change.addField field position).migrate fields = .ok migrated) :
    next.Conforms migrated := by
  have hlook := field?_of_step_addField hd hs
  rw [Change.migrate_addField] at hm
  obtain ⟨value, hvalue, rfl⟩ := FieldSpec.exists_of_settle_eq_ok hm
  refine h.put (fun stored he => ?_) fun other hne => by rw [hlook, if_neg hne]
  exact ⟨field, by rw [hlook, if_pos rfl], fits_of_initial hvalue stored he⟩

/-- Values conform with a field that is updated. -/
theorem Conforms.updateField (hd : definition.Distinct) (h : definition.Conforms fields)
    {field : FieldSpec} (hs : definition.step (.updateField field) = .ok next)
    (hm : (Change.updateField field).migrate fields = .ok migrated) : next.Conforms migrated := by
  have hlook := field?_of_step_updateField hd hs
  rw [Change.migrate_updateField] at hm
  obtain ⟨value, hvalue, rfl⟩ := FieldSpec.exists_of_settle_eq_ok hm
  refine h.put (fun stored he => ?_) fun other hne => by rw [hlook, if_neg hne]
  exact ⟨field, by rw [hlook, if_pos rfl], fits_of_revised hvalue stored he⟩

/-- Values conform with a field that is renamed. -/
theorem Conforms.renameField (hd : definition.Distinct) (h : definition.Conforms fields)
    {source target : String} (hs : definition.step (.renameField source target) = .ok next)
    (hm : (Change.renameField source target).migrate fields = .ok migrated) :
    next.Conforms migrated := by
  have hlook := field?_of_step_renameField hd hs
  have htarget : definition.field? target = none :=
    field?_eq_none_iff.mpr (step_renameField_eq_ok_iff.mp hs).1
  obtain ⟨moved, hmove, hvalue⟩ :=
    Change.migrate_renameField source (h.get?_eq_none htarget)
  obtain rfl := Except.ok.inj (hmove.symm.trans hm)
  intro name stored hst
  rw [hvalue] at hst
  rw [hlook]
  split_ifs at hst ⊢ with ht hsource
  · obtain ⟨field, hf, hv⟩ := h source stored hst
    rw [hf]
    exact ⟨_, rfl, hv.congr rfl rfl rfl⟩
  · exact h name stored hst

/-- A change that fits a definition leads values that conform to values that conform. -/
theorem Conforms.migrate (hd : definition.Distinct) (h : definition.Conforms fields)
    {change : Change} (ho : ∀ order, change = .reorderFields order → order.Nodup)
    (hs : definition.step change = .ok next) (hm : change.migrate fields = .ok migrated) :
    next.Conforms migrated := by
  cases change with
  | addField field position => exact h.addField hd hs hm
  | removeField name =>
    have hlook := field?_of_step_removeField hd hs
    rw [Change.migrate_removeField] at hm
    obtain rfl := Except.ok.inj hm
    exact h.put (by simp) fun other hne => by rw [hlook, if_neg hne]
  | updateField field => exact h.updateField hd hs hm
  | renameField source target => exact h.renameField hd hs hm
  | reorderFields order =>
    obtain rfl := Except.ok.inj hm
    exact h.of_field?_eq fun name _ => field?_of_step_reorderFields hd (ho order rfl) hs name
  | updateSchema description displayField autoPurge =>
    obtain rfl := Except.ok.inj hm
    obtain rfl : _ = next := by simpa [step, pure, Except.pure] using hs
    exact h

/-- What a change keeps that is carried out on a definition and on stored values alike, and that
does not tell definitions apart that agree. -/
structure Follows (P : Definition → FieldMap → Prop) : Prop where
  /-- A change that fits keeps it. -/
  migrate : ∀ {definition next : Definition} {fields migrated : FieldMap} {change : Change},
    definition.Distinct → (∀ order, change = .reorderFields order → order.Nodup) →
      definition.step change = .ok next → change.migrate fields = .ok migrated →
        P definition fields → P next migrated
  /-- It holds of a definition that agrees. -/
  same : ∀ {definition other : Definition} {fields : FieldMap}, definition.same other = true →
    P definition fields → P other fields

/-- What every change keeps, a change list keeps. -/
theorem Follows.migrate_all {P : Definition → FieldMap → Prop} (hf : Follows P)
    {changes : List Change} (hd : definition.Distinct) (h : P definition fields)
    (ho : ∀ order, .reorderFields order ∈ changes → order.Nodup)
    (hs : definition.apply changes = .ok next)
    (hm : changes.foldlM Change.migrate fields = .ok migrated) : P next migrated := by
  induction changes generalizing definition fields with
  | nil =>
    obtain rfl := Except.ok.inj hs
    obtain rfl := Except.ok.inj hm
    exact h
  | cons change rest ih =>
    have hfirst : ∀ order, change = .reorderFields order → order.Nodup :=
      fun order he => ho order (he ▸ List.mem_cons_self)
    rw [apply_cons] at hs
    rw [List.foldlM_cons] at hm
    cases hstep : definition.step change with
    | error fault =>
      rw [hstep] at hs
      cases hs
    | ok stepped =>
      cases hmove : change.migrate fields with
      | error fault =>
        rw [hmove] at hm
        cases hm
      | ok moved =>
        rw [hstep] at hs
        rw [hmove] at hm
        exact ih (distinct_of_step hd hfirst hstep) (hf.migrate hd hfirst hstep hmove h)
          (fun order hin => ho order (List.mem_cons_of_mem _ hin)) hs hm

/-- Values that conform to a definition conform to one that agrees with it. -/
theorem Conforms.of_same {other : Definition} (h : definition.Conforms fields)
    (hs : definition.same other = true) : other.Conforms fields := by
  simp only [same, Bool.and_eq_true] at hs
  intro name value hv
  obtain ⟨field, hf, hfits⟩ := h name value hv
  obtain ⟨agreeing, ha, hsame⟩ := find?_of_sameFields hs.2 hf
  simp only [FieldSpec.same, Bool.and_eq_true, beq_iff_eq, decide_eq_true_eq] at hsame
  exact ⟨agreeing, ha, hfits.congr hsame.1.1.1.1.1.2.symm hsame.1.1.1.1.2.symm hsame.1.1.1.2.symm⟩

/-- Change lists lead values that conform to values that conform. -/
theorem follows_conforms : Follows Conforms where
  migrate hd ho hs hm h := h.migrate hd ho hs hm
  same hs h := h.of_same hs

/-- Values that conform to a definition are kept when what it does not declare is dropped. -/
theorem Conforms.restrict (h : definition.Conforms fields) (keep : String → Bool) :
    definition.Conforms (Dict.restrict fields keep) := by
  intro name value hv
  rw [Dict.get?_restrict] at hv
  split at hv
  · exact h name value hv
  · cases hv

end Definition

end VersionedContent
