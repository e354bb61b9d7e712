import VersionedContent.Proofs.Content.Declared
import VersionedContent.Proofs.Content.Refusal

/-!
# Values on their own

A change list runs over all the values of one piece of content at once, but no value
is in another one's way: where changes fit a definition that declares the values,
what becomes of a value can be told from the changes alone. So a run goes through
when each value does that was there at first, and each that a field brought in with
its default on the way; and whatever makes the run fail makes one of these fail.
-/

namespace VersionedContent

open Definition

namespace Change

/-- What becomes of a single value at a change: the name and the value that it goes on with, nothing
when it goes. -/
def lead (change : Change) (entry : String × FieldValue) :
    Except FieldError (Option (String × FieldValue)) :=
  match change with
  | addField field _ => .ok (if field.name = entry.1 then none else some entry)
  | removeField name => .ok (if name = entry.1 then none else some entry)
  | updateField field =>
    if field.name = entry.1 then
      field.report ((field.convert entry.2).map (Option.map fun value => (entry.1, value)))
    else .ok (some entry)
  | renameField source target =>
    .ok (if source = entry.1 then some (target, entry.2)
      else if target = entry.1 then none
      else some entry)
  | reorderFields _ => .ok (some entry)
  | updateSchema .. => .ok (some entry)

/-- What becomes of a single value over a change list. -/
def leadAll : List Change → String × FieldValue → Except FieldError (Option (String × FieldValue))
  | [], entry => .ok (some entry)
  | change :: rest, entry =>
    match change.lead entry with
    | .error error => .error error
    | .ok none => .ok none
    | .ok (some later) => leadAll rest later

/-- How values stand to those that a change leads to: each value goes on as it does on its own, and
what there is went on so or is what a field that is added gets. -/
structure Leads (change : Change) (fields moved : FieldMap) : Prop where
  /-- Every value goes on. -/
  held : ∀ entry, Dict.get? fields entry.1 = some entry.2 →
    ∃ place, change.lead entry = .ok place ∧
      ∀ later, place = some later → Dict.get? moved later.1 = some later.2
  /-- What a field that is added gets is there. -/
  added : ∀ field position value, change = .addField field position →
    field.initial = .ok (some value) → Dict.get? moved field.name = some value
  /-- Nothing else is there. -/
  origin : ∀ later, Dict.get? moved later.1 = some later.2 →
    (∃ entry, Dict.get? fields entry.1 = some entry.2 ∧ change.lead entry = .ok (some later)) ∨
      ∃ field position, change = .addField field position ∧ field.name = later.1 ∧
        field.initial = .ok (some later.2)

variable {definition next : Definition} {fields moved : FieldMap}

/-- A change that leaves the values alone leads them to themselves. -/
theorem Leads.same {change : Change} (hl : ∀ entry, change.lead entry = .ok (some entry))
    (ha : ∀ field position, change ≠ .addField field position) : change.Leads fields fields where
  held entry hg := ⟨some entry, hl entry, fun _ he => Option.some.inj he ▸ hg⟩
  added field position _ he := absurd he (ha field position)
  origin later hg := .inl ⟨later, hg, hl later⟩

/-- An addition leads to the values there were and to what the field gets. -/
theorem leads_addField {field : FieldSpec} {position : Option Nat}
    (hfree : Dict.get? fields field.name = none)
    (hm : (addField field position).migrate fields = .ok moved) :
    (addField field position).Leads fields moved := by
  rw [migrate_addField] at hm
  obtain ⟨value, hinitial, rfl⟩ := FieldSpec.exists_of_settle_eq_ok hm
  have hapart : ∀ entry : String × FieldValue, Dict.get? fields entry.1 = some entry.2 →
      field.name ≠ entry.1 := fun entry hg he => by simp [← he, hfree] at hg
  refine ⟨fun entry hg => ?_, fun added _ stored he hi => ?_, fun later hg => ?_⟩
  · refine ⟨some entry, by rw [lead, if_neg (hapart entry hg)], fun later he => ?_⟩
    obtain rfl := Option.some.inj he
    rw [Dict.get?_put, if_neg (Ne.symm (hapart entry hg)), hg]
  · cases he
    rw [Dict.get?_put, if_pos rfl]
    exact Except.ok.inj (hinitial.symm.trans hi)
  · rw [Dict.get?_put] at hg
    split_ifs at hg with he
    · exact .inr ⟨field, position, rfl, he.symm, by rw [hinitial, hg]⟩
    · exact .inl ⟨later, hg, by rw [lead, if_neg (Ne.symm he)]⟩

/-- A removal leads to the values of the other fields. -/
theorem leads_removeField (fields : FieldMap) (name : String) :
    (removeField name).Leads fields (Dict.put fields name none) := by
  refine ⟨fun entry hg => ?_, (fun _ _ _ he => by cases he), fun later hg => ?_⟩
  · by_cases he : name = entry.1
    · exact ⟨none, by rw [lead, if_pos he], fun _ he => by cases he⟩
    · refine ⟨some entry, by rw [lead, if_neg he], fun later hlater => ?_⟩
      obtain rfl := Option.some.inj hlater
      rw [Dict.get?_put, if_neg (Ne.symm he), hg]
  · rw [Dict.get?_put] at hg
    split_ifs at hg with he
    exact .inl ⟨later, hg, by rw [lead, if_neg (Ne.symm he)]⟩

/-- An update leads to what becomes of the value of its field, and to the others. -/
theorem leads_updateField {field : FieldSpec}
    (hm : (updateField field).migrate fields = .ok moved) :
    (updateField field).Leads fields moved := by
  rw [migrate_updateField] at hm
  obtain ⟨value, hrevised, rfl⟩ := FieldSpec.exists_of_settle_eq_ok hm
  have hlead : ∀ held, Dict.get? fields field.name = some held →
      (updateField field).lead (field.name, held) =
        .ok (value.map fun stored => (field.name, stored)) := by
    intro held hg
    rw [hg, FieldSpec.revised] at hrevised
    rw [lead, if_pos rfl, hrevised]
    rfl
  refine ⟨fun entry hg => ?_, (fun _ _ _ he => by cases he), fun later hg => ?_⟩
  · by_cases he : field.name = entry.1
    · obtain ⟨name, held⟩ := entry
      obtain rfl : field.name = name := he
      refine ⟨_, hlead held hg, fun later hlater => ?_⟩
      obtain ⟨stored, rfl, rfl⟩ := Option.map_eq_some_iff.mp hlater
      rw [Dict.get?_put, if_pos rfl]
    · refine ⟨some entry, by rw [lead, if_neg he], fun later hlater => ?_⟩
      obtain rfl := Option.some.inj hlater
      rw [Dict.get?_put, if_neg (Ne.symm he), hg]
  · rw [Dict.get?_put] at hg
    split_ifs at hg with he
    · cases hheld : Dict.get? fields field.name with
      | none =>
        rw [hheld, FieldSpec.revised] at hrevised
        obtain rfl := Except.ok.inj hrevised
        cases hg
      | some held =>
        refine .inl ⟨(field.name, held), hheld, ?_⟩
        rw [hlead held hheld, hg, Option.map_some, ← he]
    · exact .inl ⟨later, hg, by rw [lead, if_neg (Ne.symm he)]⟩

/-- A rename leads to the value of the field under its new name, and to the others. -/
theorem leads_renameField {source target : String} (hfree : Dict.get? fields target = none)
    (hm : (renameField source target).migrate fields = .ok moved) :
    (renameField source target).Leads fields moved := by
  obtain ⟨found, hfound, hlook⟩ := migrate_renameField source hfree
  obtain rfl := Except.ok.inj (hfound.symm.trans hm)
  have hapart : ∀ entry : String × FieldValue, Dict.get? fields entry.1 = some entry.2 →
      target ≠ entry.1 := fun entry hg he => by simp [← he, hfree] at hg
  refine ⟨fun entry hg => ?_, (fun _ _ _ he => by cases he), fun later hg => ?_⟩
  · by_cases he : source = entry.1
    · refine ⟨some (target, entry.2), by rw [lead, if_pos he], fun later hlater => ?_⟩
      obtain rfl := Option.some.inj hlater
      rw [hlook, if_pos rfl, he, hg]
    · refine ⟨some entry, by rw [lead, if_neg he, if_neg (hapart entry hg)], fun later hlater => ?_⟩
      obtain rfl := Option.some.inj hlater
      rw [hlook, if_neg (Ne.symm (hapart entry hg)), if_neg (Ne.symm he), hg]
  · rw [hlook] at hg
    split_ifs at hg with ht hs
    · refine .inl ⟨(source, later.2), hg, ?_⟩
      rw [lead, if_pos rfl, ← ht]
    · refine .inl ⟨later, hg, ?_⟩
      rw [lead, if_neg (Ne.symm hs), if_neg (Ne.symm ht)]

/-- A change that fits the definition of the values leads each of them as it would on its own. -/
theorem leads_of_migrate {change : Change} (hf : definition.Declares fields)
    (hs : definition.step change = .ok next) (hm : change.migrate fields = .ok moved) :
    change.Leads fields moved := by
  cases change with
  | addField field position =>
    exact leads_addField (hf.get?_eq_none (step_addField_eq_ok_iff.mp hs).1) hm
  | removeField name =>
    obtain rfl := Except.ok.inj hm
    exact leads_removeField fields name
  | updateField field => exact leads_updateField hm
  | renameField source target =>
    exact leads_renameField (hf.get?_eq_none (step_renameField_eq_ok_iff.mp hs).1) hm
  | reorderFields order =>
    obtain rfl := Except.ok.inj hm
    exact .same (fun _ => rfl) fun _ _ he => by cases he
  | updateSchema description displayField autoPurge =>
    obtain rfl := Except.ok.inj hm
    exact .same (fun _ => rfl) fun _ _ he => by cases he

/-- A change that fails over values whose defaults read fails for one of them on its own. -/
theorem exists_lead_eq_error {change : Change} {error : FieldError}
    (hr : ∀ field position, change = .addField field position →
      ∃ value, field.initial = .ok value)
    (h : change.migrate fields = .error error) :
    ∃ entry, Dict.get? fields entry.1 = some entry.2 ∧ change.lead entry = .error error := by
  rcases of_migrate_eq_error h with
    ⟨field, position, rfl, hinitial⟩ | ⟨field, value, rfl, hname, hg, hc⟩
  · obtain ⟨value, hread⟩ := hr field position rfl
    rw [hread] at hinitial
    cases hinitial
  · refine ⟨(field.name, value), hg, ?_⟩
    rw [lead, if_pos rfl, hc, FieldSpec.report_eq_error_iff]
    exact ⟨rfl, hname⟩

/-- A value that does not pass a change is refused by the field that is declared anew. -/
theorem of_lead_eq_error {change : Change} {entry : String × FieldValue} {error : FieldError}
    (h : change.lead entry = .error error) :
    ∃ field, change = .updateField field ∧ entry.1 = field.name ∧ error.field = field.name ∧
      field.convert entry.2 = .error error.cause := by
  cases change with
  | updateField field =>
    rw [lead] at h
    split_ifs at h with he
    rw [FieldSpec.report_eq_error_iff] at h
    obtain ⟨hconvert, hname⟩ := h
    refine ⟨field, rfl, he.symm, hname, ?_⟩
    cases hc : field.convert entry.2 with
    | error cause =>
      rw [hc] at hconvert
      exact congrArg Except.error (Except.error.inj hconvert)
    | ok value =>
      rw [hc] at hconvert
      cases hconvert
  | _ => cases h

/-- What a field brings in on the way goes through the rest of a change list on its own. -/
def Enters (changes : List Change) (result : Except FieldError (Option (String × FieldValue))) :
    Prop :=
  ∃ before field position after value, changes = before ++ .addField field position :: after ∧
    field.initial = .ok (some value) ∧ leadAll after (field.name, value) = result

/-- What is brought in later is brought in. -/
theorem Enters.cons {changes : List Change}
    {result : Except FieldError (Option (String × FieldValue))} (h : Enters changes result)
    (change : Change) : Enters (change :: changes) result := by
  obtain ⟨before, field, position, after, value, rfl, hrest⟩ := h
  exact ⟨change :: before, field, position, after, value, rfl, hrest⟩

/-- What is brought in is brought in at once or later. -/
theorem enters_cons_iff {change : Change} {changes : List Change}
    {result : Except FieldError (Option (String × FieldValue))} :
    Enters (change :: changes) result ↔
      (∃ field position value, change = .addField field position ∧
        field.initial = .ok (some value) ∧ leadAll changes (field.name, value) = result) ∨
      Enters changes result := by
  constructor
  · rintro ⟨before, field, position, after, value, he, hrest⟩
    cases before with
    | nil =>
      obtain ⟨rfl, rfl⟩ := List.cons.inj he
      exact .inl ⟨field, position, value, rfl, hrest⟩
    | cons first rest =>
      obtain ⟨rfl, rfl⟩ := List.cons.inj he
      exact .inr ⟨rest, field, position, after, value, rfl, hrest⟩
  · rintro (⟨field, position, value, rfl, hrest⟩ | h)
    · exact ⟨[], field, position, changes, value, rfl, hrest⟩
    · exact h.cons change

/-- Nothing is brought in without changes. -/
theorem not_enters_nil {result : Except FieldError (Option (String × FieldValue))} :
    ¬ Enters [] result := by
  rintro ⟨before, field, position, after, value, he, -⟩
  simp at he

/-- A value that goes on is followed over the rest of the changes. -/
theorem leadAll_cons {change : Change} {changes : List Change} {entry later : String × FieldValue}
    (h : change.lead entry = .ok (some later)) :
    leadAll (change :: changes) entry = leadAll changes later := by
  rw [leadAll, h]

/-- A value that does not pass the first change does not pass the changes. -/
theorem leadAll_cons_of_error {change : Change} {changes : List Change}
    {entry : String × FieldValue} {error : FieldError} (h : change.lead entry = .error error) :
    leadAll (change :: changes) entry = .error error := by
  rw [leadAll, h]

/-- A value does not pass a change list exactly when the changes lead it to an update that refuses
it. -/
theorem leadAll_eq_error_iff {changes : List Change} {entry : String × FieldValue}
    {error : FieldError} :
    leadAll changes entry = .error error ↔
      ∃ before field after value, changes = before ++ .updateField field :: after ∧
        leadAll before entry = .ok (some (field.name, value)) ∧ error.field = field.name ∧
          field.convert value = .error error.cause := by
  induction changes generalizing entry with
  | nil => simp [leadAll]
  | cons change rest ih =>
    constructor
    · intro h
      cases hl : change.lead entry with
      | error fault =>
        obtain rfl : fault = error := by simpa [leadAll, hl] using h
        obtain ⟨field, rfl, hentry, hrefused⟩ := of_lead_eq_error hl
        exact ⟨[], field, rest, entry.2, rfl, by rw [leadAll, ← hentry], hrefused⟩
      | ok place =>
        cases place with
        | none => simp [leadAll, hl] at h
        | some later =>
          rw [leadAll_cons hl, ih] at h
          obtain ⟨before, field, after, value, rfl, hlater, hrefused⟩ := h
          exact ⟨change :: before, field, after, value, rfl, by rw [leadAll_cons hl, hlater],
            hrefused⟩
    · rintro ⟨before, field, after, value, he, hlater, hn, hc⟩
      cases before with
      | nil =>
        obtain ⟨rfl, rfl⟩ := List.cons.inj he
        obtain rfl : entry = (field.name, value) := by simpa [leadAll] using hlater
        refine leadAll_cons_of_error ?_
        rw [lead, if_pos rfl, hc, FieldSpec.report_eq_error_iff]
        exact ⟨rfl, hn⟩
      | cons first between =>
        obtain ⟨rfl, rfl⟩ := List.cons.inj he
        cases hl : change.lead entry with
        | error fault => simp [leadAll, hl] at hlater
        | ok place =>
          cases place with
          | none => simp [leadAll, hl] at hlater
          | some later =>
            rw [leadAll_cons hl] at hlater ⊢
            exact ih.mpr ⟨between, field, after, value, rfl, hlater, hn, hc⟩

end Change

/-- A run over declared values, whose defaults read, goes through only if each value does that is
there or that is brought in on the way; and if it fails, one of these fails alike. -/
theorem Definition.Declares.courses {definition next : Definition} {fields : FieldMap}
    (hf : definition.Declares fields) (hd : definition.Distinct) {changes : List Change}
    (ho : ∀ order, .reorderFields order ∈ changes → order.Nodup)
    (hs : definition.apply changes = .ok next)
    (hr : ∀ field position, .addField field position ∈ changes →
      ∃ value, field.initial = .ok value) :
    match changes.foldlM Change.migrate fields with
    | .ok _ => (∀ entry, Dict.get? fields entry.1 = some entry.2 →
        ∃ place, Change.leadAll changes entry = .ok place) ∧
          ∀ result, Change.Enters changes result → ∃ place, result = .ok place
    | .error error => (∃ entry, Dict.get? fields entry.1 = some entry.2 ∧
        Change.leadAll changes entry = .error error) ∨ Change.Enters changes (.error error) := by
  induction changes generalizing definition fields with
  | nil => exact ⟨fun entry _ => ⟨some entry, rfl⟩, fun _ h => absurd h Change.not_enters_nil⟩
  | cons change rest ih =>
    have hfirst : ∀ order, change = .reorderFields order → order.Nodup :=
      fun order he => ho order (he ▸ List.mem_cons_self)
    rw [apply_cons] at hs
    obtain ⟨stepped, hstep, hrest⟩ : ∃ stepped, definition.step change = .ok stepped ∧
        stepped.apply rest = .ok next := by
      cases hstep : definition.step change with
      | error fault =>
        rw [hstep] at hs
        cases hs
      | ok stepped =>
        rw [hstep] at hs
        exact ⟨stepped, rfl, hs⟩
    rw [List.foldlM_cons]
    cases hm : change.migrate fields with
    | error error =>
      obtain ⟨entry, hg, hlead⟩ := Change.exists_lead_eq_error
        (fun field position he => hr field position (he ▸ List.mem_cons_self)) hm
      exact .inl ⟨entry, hg, Change.leadAll_cons_of_error hlead⟩
    | ok moved =>
      have hleads := Change.leads_of_migrate hf hstep hm
      have hall := ih (hf.migrate hd hfirst hstep hm) (distinct_of_step hd hfirst hstep)
        (fun order hin => ho order (List.mem_cons_of_mem _ hin)) hrest
        fun field position hin => hr field position (List.mem_cons_of_mem _ hin)
      simp only [bind, Except.bind]
      cases hmoved : rest.foldlM Change.migrate moved with
      | ok migrated =>
        rw [hmoved] at hall
        obtain ⟨hheld, hentered⟩ := hall
        refine ⟨fun entry hg => ?_, fun result he => ?_⟩
        · obtain ⟨place, hlead, hlater⟩ := hleads.held entry hg
          cases place with
          | none => exact ⟨none, by rw [Change.leadAll, hlead]⟩
          | some later =>
            rw [Change.leadAll_cons hlead]
            exact hheld later (hlater later rfl)
        · rcases Change.enters_cons_iff.mp he with ⟨field, position, value, rfl, hi, rfl⟩ | hin
          · exact hheld _ (hleads.added field position value rfl hi)
          · exact hentered result hin
      | error error =>
        rw [hmoved] at hall
        dsimp only at hall ⊢
        rcases hall with ⟨later, hg, hfails⟩ | hin
        · rcases hleads.origin later hg with ⟨entry, hheld, hlead⟩ | ⟨field, position, rfl, hn, hi⟩
          · exact .inl ⟨entry, hheld, by rw [Change.leadAll_cons hlead, hfails]⟩
          · exact .inr (Change.enters_cons_iff.mpr (.inl ⟨field, position, later.2, rfl, hi,
              by rw [hn]; exact hfails⟩))
        · exact .inr (hin.cons change)

end VersionedContent
