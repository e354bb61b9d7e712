import VersionedContent.Proofs.Schema.Steps
import VersionedContent.Schema.Difference

/-!
# Differences lead to the new definition

A difference is followed change by change. The renames give the carried fields,
the removals leave those that the new definition has, and the revisions settle
each name of the new definition. Where a field stands meanwhile does not matter:
the last step puts the names in order. A difference exists exactly when the
renames fit, and then its changes lead from the old definition to the new one.
-/

namespace VersionedContent

namespace Definition

/-- What is asked of renames between two definitions. -/
structure RenamesFit (old new : Definition) (renames : List Rename) : Prop where
  /-- No field is renamed twice. -/
  sources_nodup : (renames.map Rename.source).Nodup
  /-- No two fields get one name. -/
  targets_nodup : (renames.map Rename.target).Nodup
  /-- A renamed field is a field of the old definition. -/
  source_mem_old : ∀ rename ∈ renames, rename.source ∈ old.fieldNames
  /-- A renamed field is no field of the new definition. -/
  source_notMem_new : ∀ rename ∈ renames, rename.source ∉ new.fieldNames
  /-- The new name of a field is a field of the new definition. -/
  target_mem_new : ∀ rename ∈ renames, rename.target ∈ new.fieldNames
  /-- The new name of a field is no field of the old definition. -/
  target_notMem_old : ∀ rename ∈ renames, rename.target ∉ old.fieldNames

/-- A single rename passes exactly when it fits and repeats no earlier one. -/
theorem checkRename_eq_ok_iff {old new : Definition} {earlier : List Rename} {rename : Rename} :
    checkRename old new earlier rename = .ok () ↔
      rename.source ∈ old.fieldNames ∧ rename.source ∉ new.fieldNames ∧
        rename.target ∈ new.fieldNames ∧ rename.target ∉ old.fieldNames ∧
        rename.source ∉ earlier.map Rename.source ∧
        rename.target ∉ earlier.map Rename.target := by
  have hso := old.field?_isSome_iff rename.source
  have hsn := new.field?_isSome_iff rename.source
  have hto := old.field?_isSome_iff rename.target
  have htn := new.field?_isSome_iff rename.target
  unfold checkRename
  by_cases he : rename.source = rename.target
  · simp only [he, ite_true, reduceCtorEq, false_iff]
    rintro ⟨ho, -, -, hno, -⟩
    exact hno ho
  · simp only [he, ite_false, Option.isNone_iff_eq_none, field?_eq_none_iff, hsn, hto]
    grind

/-- Renames pass exactly when they fit; those checked before count for repetitions only. -/
theorem checkRenames_eq_ok_iff {old new : Definition} {earlier renames : List Rename}
    (hs : (earlier.map Rename.source).Nodup) (ht : (earlier.map Rename.target).Nodup) :
    checkRenames old new earlier renames = .ok () ↔
      ((earlier ++ renames).map Rename.source).Nodup ∧
        ((earlier ++ renames).map Rename.target).Nodup ∧
        ∀ rename ∈ renames, rename.source ∈ old.fieldNames ∧ rename.source ∉ new.fieldNames ∧
          rename.target ∈ new.fieldNames ∧ rename.target ∉ old.fieldNames := by
  induction renames generalizing earlier with
  | nil => simp [checkRenames, hs, ht]
  | cons rename rest ih =>
    rw [checkRenames]
    cases hc : checkRename old new earlier rename with
    | error fault =>
      simp only [reduceCtorEq, false_iff]
      rintro ⟨hns, hnt, hall⟩
      obtain ⟨h1, h2, h3, h4⟩ := hall rename List.mem_cons_self
      have hok : checkRename old new earlier rename = .ok () := by
        rw [List.map_append, List.map_cons, List.nodup_middle] at hns hnt
        refine checkRename_eq_ok_iff.mpr ⟨h1, h2, h3, h4, ?_, ?_⟩
        · exact fun hm => (List.nodup_cons.mp hns).1 (List.mem_append_left _ hm)
        · exact fun hm => (List.nodup_cons.mp hnt).1 (List.mem_append_left _ hm)
      rw [hc] at hok
      cases hok
    | ok _ =>
      obtain ⟨h1, h2, h3, h4, h5, h6⟩ := checkRename_eq_ok_iff.mp hc
      have hs' : ((earlier ++ [rename]).map Rename.source).Nodup := by
        simpa only [List.map_append, List.map_singleton, List.concat_eq_append] using hs.concat h5
      have ht' : ((earlier ++ [rename]).map Rename.target).Nodup := by
        simpa only [List.map_append, List.map_singleton, List.concat_eq_append] using ht.concat h6
      rw [ih hs' ht']
      simp [h1, h2, h3, h4]

/-- Renames pass from the start exactly when they fit. -/
theorem checkRenames_eq_ok_iff_fit {old new : Definition} {renames : List Rename} :
    checkRenames old new [] renames = .ok () ↔ RenamesFit old new renames := by
  rw [checkRenames_eq_ok_iff (by simp) (by simp), List.nil_append]
  constructor
  · rintro ⟨hs, ht, hall⟩
    exact {
      sources_nodup := hs
      targets_nodup := ht
      source_mem_old := fun rename hm => (hall rename hm).1
      source_notMem_new := fun rename hm => (hall rename hm).2.1
      target_mem_new := fun rename hm => (hall rename hm).2.2.1
      target_notMem_old := fun rename hm => (hall rename hm).2.2.2 }
  · intro h
    exact ⟨h.sources_nodup, h.targets_nodup, fun rename hm =>
      ⟨h.source_mem_old rename hm, h.source_notMem_new rename hm,
        h.target_mem_new rename hm, h.target_notMem_old rename hm⟩⟩

/-- The first rename of a list decides about its source, the rest about other names. -/
theorem nameAfter_cons (rename : Rename) (rest : List Rename) (name : String) :
    nameAfter (rename :: rest) name =
      if name = rename.source then rename.target else nameAfter rest name := by
  by_cases h : name = rename.source
  · simp [nameAfter, h]
  · simp [nameAfter, h, Ne.symm h]

/-- A name that is no source stays. -/
theorem nameAfter_of_notMem {renames : List Rename} {name : String}
    (h : name ∉ renames.map Rename.source) : nameAfter renames name = name := by
  have hf : renames.find? (fun rename => rename.source = name) = none := by
    rw [List.find?_eq_none]
    intro rename hm he
    simp only [decide_eq_true_eq] at he
    exact h (he ▸ List.mem_map_of_mem hm)
  rw [nameAfter, hf]

/-- Renames that fit can be carried out one after the other, and give the carried fields. -/
theorem apply_renames {definition : Definition} (hd : definition.Distinct) {renames : List Rename}
    (hs : (renames.map Rename.source).Nodup) (ht : (renames.map Rename.target).Nodup)
    (hin : ∀ rename ∈ renames, rename.source ∈ definition.fieldNames)
    (hout : ∀ rename ∈ renames, rename.target ∉ definition.fieldNames) :
    ∃ reached, definition.apply
        (renames.map fun rename => .renameField rename.source rename.target) = .ok reached ∧
      reached = { definition with fields := definition.carried renames } ∧ reached.Distinct := by
  induction renames generalizing definition with
  | nil =>
    refine ⟨definition, rfl, ?_, hd⟩
    simp [carried, nameAfter]
  | cons rename rest ih =>
    simp only [List.map_cons, List.nodup_cons] at hs ht
    have hsource := hin rename List.mem_cons_self
    have htarget := hout rename List.mem_cons_self
    obtain ⟨next, hdef⟩ : ∃ next : Definition, next = { definition with
        fields := modifyField rename.source (fun field => { field with name := rename.target })
          definition.fields } := ⟨_, rfl⟩
    have hstep := step_renameField_eq_ok_iff.mpr ⟨htarget, hsource, hdef⟩
    have hnext := distinct_of_step hd (by simp) hstep
    have hnames : next.fieldNames = definition.fieldNames.map fun name =>
        if name = rename.source then rename.target else name := by
      rw [hdef]
      exact map_name_modifyField hd _ fun _ _ => rfl
    have hin' : ∀ other ∈ rest, other.source ∈ next.fieldNames := by
      intro other hm
      rw [hnames, List.mem_map]
      have hne : other.source ≠ rename.source := fun he => hs.1 (he ▸ List.mem_map_of_mem hm)
      exact ⟨other.source, hin other (List.mem_cons_of_mem _ hm), by simp [hne]⟩
    have hout' : ∀ other ∈ rest, other.target ∉ next.fieldNames := by
      intro other hm
      rw [hnames, List.mem_map]
      rintro ⟨name, hmem, he⟩
      by_cases hn : name = rename.source
      · simp only [hn, ite_true] at he
        exact ht.1 (he ▸ List.mem_map_of_mem hm)
      · simp only [hn, ite_false] at he
        exact hout other (List.mem_cons_of_mem _ hm) (he ▸ hmem)
    have hstay : nameAfter rest rename.target = rename.target := by
      refine nameAfter_of_notMem fun hm => ?_
      obtain ⟨other, hmo, he⟩ := List.mem_map.mp hm
      exact htarget (he ▸ hin other (List.mem_cons_of_mem _ hmo))
    have hfields : next.carried rest = definition.carried (rename :: rest) := by
      rw [hdef, carried, carried, modifyField_eq_map hd, List.map_map]
      refine List.map_congr_left fun field _ => ?_
      by_cases hn : field.name = rename.source
      · simp [nameAfter_cons, hn, hstay]
      · simp [nameAfter_cons, hn]
    obtain ⟨reached, hr, rfl, hdr⟩ := ih hnext hs.2 ht.2 hin' hout'
    refine ⟨_, ?_, ?_, hdr⟩
    · rw [List.map_cons, apply_cons, hstep]
      exact hr
    · rw [hfields, hdef]

/-- Distinct fields that are there can be removed one after the other. -/
theorem apply_removeFields {definition : Definition} (hd : definition.Distinct)
    {names : List String} (hn : names.Nodup) (hin : ∀ name ∈ names, name ∈ definition.fieldNames) :
    definition.apply (names.map .removeField) =
      .ok { definition with
        fields := definition.fields.filter fun field => field.name ∉ names } := by
  induction names generalizing definition with
  | nil => simp
  | cons name rest ih =>
    obtain ⟨next, hdef⟩ : ∃ next : Definition, next = { definition with
        fields := definition.fields.eraseP fun field => field.name = name } := ⟨_, rfl⟩
    have hstep := step_removeField_eq_ok_iff.mpr ⟨hin name List.mem_cons_self, hdef⟩
    have hnext := distinct_of_step hd (by simp) hstep
    rw [eraseP_name_eq_filter hd] at hdef
    rw [List.nodup_cons] at hn
    have hin' : ∀ other ∈ rest, other ∈ next.fieldNames := by
      intro other hm
      have hne : other ≠ name := fun he => hn.1 (he ▸ hm)
      obtain ⟨field, hf, rfl⟩ := List.mem_map.mp (hin other (List.mem_cons_of_mem _ hm))
      rw [hdef]
      exact List.mem_map_of_mem (List.mem_filter.mpr ⟨hf, by simpa using hne⟩)
    rw [List.map_cons, apply_cons, hstep]
    apply (ih hnext hn.2 hin').trans
    rw [hdef, List.filter_filter]
    simp only [List.mem_cons, not_or, Bool.decide_and, Bool.and_comm, ne_eq]

/-- The removals leave the fields whose names the new definition has. -/
theorem apply_removals {definition : Definition} (hd : definition.Distinct) (new : Definition) :
    definition.apply (removals definition.fields new) =
      .ok { definition with
        fields := definition.fields.filter fun field => field.name ∈ new.fieldNames } := by
  obtain ⟨names, hnames⟩ : ∃ names, names = (definition.fields.filter fun field =>
      (new.field? field.name).isNone).map FieldSpec.name := ⟨_, rfl⟩
  have hremovals : removals definition.fields new = names.map .removeField := by
    rw [hnames, List.map_map]
    rfl
  have hmem : ∀ field ∈ definition.fields,
      (field.name ∉ names ↔ field.name ∈ new.fieldNames) := by
    intro field hf
    rw [hnames, not_iff_comm, List.mem_map]
    constructor
    · intro hnew
      exact ⟨field, List.mem_filter.mpr ⟨hf, by simpa [field?_eq_none_iff] using hnew⟩, rfl⟩
    · rintro ⟨other, ho, he⟩
      have hnone := (List.mem_filter.mp ho).2
      rw [he, Option.isNone_iff_eq_none, field?_eq_none_iff] at hnone
      exact hnone
  have hsub : names.Sublist definition.fieldNames := by
    rw [hnames]
    exact List.filter_sublist.map _
  rw [hremovals, apply_removeFields hd (hd.sublist hsub) fun name hm => hsub.subset hm]
  congr 2
  exact List.filter_congr fun field hf => decide_eq_decide.mpr (hmem field hf)

/-- A field of the new definition as the changes leave it: a carried field that is the same
already is not declared anew. -/
def settled (carried : List FieldSpec) (field : FieldSpec) : FieldSpec :=
  match carried.find? fun existing => existing.name = field.name with
  | some existing => if existing.same field then existing else field
  | none => field

/-- Settling a field keeps its name. -/
@[simp] theorem name_settled (carried : List FieldSpec) (field : FieldSpec) :
    (settled carried field).name = field.name := by
  unfold settled
  split
  · next existing hf =>
    have hn : existing.name = field.name := by simpa using List.find?_some hf
    split
    · exact hn
    · rfl
  · rfl

/-- A settled field is the same as the one declared. -/
theorem same_settled (carried : List FieldSpec) (field : FieldSpec) :
    (settled carried field).same field = true := by
  unfold settled
  split
  · split
    · assumption
    · exact field.same_refl
  · exact field.same_refl

/-- A list of one change is that change. -/
theorem apply_singleton (definition : Definition) (change : Change) :
    definition.apply [change] = definition.step change := by
  rw [apply_cons]
  cases definition.step change <;> rfl

/-- The revision of the first field comes before those of the rest. -/
theorem revisions_cons (carried : List FieldSpec) (field : FieldSpec) (rest : List FieldSpec)
    (position : Nat) :
    ((field :: rest).zipIdx position).filterMap (fun entry => revision carried entry.1 entry.2) =
      (revision carried field position).toList ++
        (rest.zipIdx (position + 1)).filterMap fun entry => revision carried entry.1 entry.2 := by
  rw [List.zipIdx_cons, List.filterMap_cons]
  cases revision carried field position <;> rfl

/-- The revision of one field settles it and leaves every other name alone. -/
theorem apply_revision {definition : Definition} (hd : definition.Distinct)
    {carried : List FieldSpec} {field : FieldSpec} (position : Nat)
    (hf : definition.field? field.name = carried.find? fun existing => existing.name = field.name) :
    ∃ next, definition.apply (revision carried field position).toList = .ok next ∧
      next = { definition with fields := next.fields } ∧ next.Distinct ∧
      ∀ name, next.field? name =
        if name = field.name then some (settled carried field) else definition.field? name := by
  unfold revision settled
  cases hc : carried.find? fun existing => existing.name = field.name with
  | none =>
    rw [hc, field?_eq_none_iff] at hf
    have hstep : definition.step (.addField field (some position)) = .ok _ :=
      step_addField_eq_ok_iff.mpr ⟨hf, rfl⟩
    exact ⟨_, (apply_singleton _ _).trans hstep, rfl, distinct_of_step hd (by simp) hstep,
      field?_of_step_addField hd hstep⟩
  | some existing =>
    rw [hc] at hf
    by_cases hs : existing.same field = true
    · refine ⟨definition, by simp [hs], rfl, hd, fun name => ?_⟩
      by_cases hn : name = field.name
      · simp [hn, hs, hf]
      · simp [hn]
    · have hm : field.name ∈ definition.fieldNames := by
        rw [← field?_isSome_iff, hf]
        rfl
      have hstep := step_updateField_eq_ok_iff.mpr ⟨hm, rfl⟩
      refine ⟨_, ?_, rfl, distinct_of_step hd (by simp) hstep, fun name => ?_⟩
      · simp only [hs, Bool.false_eq_true, ite_false, Option.toList_some, apply_singleton, hstep]
      · simp only [field?_of_step_updateField hd hstep, hs, Bool.false_eq_true, ite_false]

/-- The revisions settle the fields of the new definition and leave every other name alone. -/
theorem apply_revisions {definition : Definition} (hd : definition.Distinct)
    {carried fields : List FieldSpec} (hn : (fields.map FieldSpec.name).Nodup) (position : Nat)
    (hf : ∀ field ∈ fields, definition.field? field.name =
      carried.find? fun existing => existing.name = field.name) :
    ∃ reached, definition.apply
        ((fields.zipIdx position).filterMap fun entry => revision carried entry.1 entry.2) =
          .ok reached ∧
      reached = { definition with fields := reached.fields } ∧ reached.Distinct ∧
      (∀ field ∈ fields, reached.field? field.name = some (settled carried field)) ∧
      ∀ name, name ∉ fields.map FieldSpec.name → reached.field? name = definition.field? name := by
  induction fields generalizing definition position with
  | nil => exact ⟨definition, rfl, rfl, hd, by simp, fun _ _ => rfl⟩
  | cons field rest ih =>
    rw [List.map_cons, List.nodup_cons] at hn
    have hrest : ∀ other ∈ rest, other.name ≠ field.name := fun other hm he =>
      hn.1 (he ▸ List.mem_map_of_mem hm)
    obtain ⟨next, ha, hnext, hdn, hlook⟩ := apply_revision hd position (hf field List.mem_cons_self)
    have hf' : ∀ other ∈ rest, next.field? other.name =
        carried.find? fun existing => existing.name = other.name := by
      intro other hm
      rw [hlook, if_neg (hrest other hm)]
      exact hf other (List.mem_cons_of_mem _ hm)
    obtain ⟨reached, hr, hreached, hdr, hin, hout⟩ := ih hdn hn.2 (position + 1) hf'
    refine ⟨reached, ?_, ?_, hdr, ?_, ?_⟩
    · rw [revisions_cons, apply_append, ha]
      exact hr
    · rw [hreached, hnext]
    · intro other hm
      rcases List.mem_cons.mp hm with rfl | hm
      · rw [hout _ hn.1, hlook, if_pos rfl]
      · exact hin other hm
    · intro name hm
      rw [List.map_cons, List.mem_cons, not_or] at hm
      rw [hout name hm.2, hlook, if_neg hm.1]

/-- A reordering puts the names in their new order. -/
theorem apply_reordering {reached new : Definition} (hd : reached.Distinct)
    {fields : List FieldSpec} (hn : fields.map FieldSpec.name = new.fieldNames)
    (hf : ∀ field ∈ fields, reached.field? field.name = some field)
    (hl : fields.length = reached.fields.length) :
    reached.apply (reordering reached new) = .ok { reached with fields := fields } := by
  have hlook : new.fieldNames.map reached.field? = fields.map some := by
    rw [← hn, List.map_map]
    exact List.map_congr_left hf
  unfold reordering
  by_cases h : reached.fieldNames = new.fieldNames
  · have hfields : reached.fields = fields := by
      apply List.map_injective_iff.mpr fun _ _ => Option.some.inj
      rw [← map_field?_fieldNames hd, h, hlook]
    rw [if_pos h, apply_nil, ← hfields]
  · rw [if_neg h, apply_singleton]
    exact step_reorderFields_eq_ok_iff.mpr ⟨fields, hlook, hl, rfl⟩

/-- The change of the schema as a whole brings what the new definition says. -/
theorem apply_restatement {old new reached : Definition}
    (hdesc : reached.description = old.description)
    (hdisp : reached.displayField = old.displayField)
    (hpurge : reached.autoPurge = old.autoPurge) :
    reached.apply (restatement old new) = .ok { reached with
      description := new.description
      displayField := new.displayField
      autoPurge := new.autoPurge } := by
  unfold restatement
  by_cases h : old.description = new.description ∧ old.displayField = new.displayField ∧
      old.autoPurge = new.autoPurge
  · rw [if_pos h, apply_nil, ← h.1, ← h.2.1, ← h.2.2, ← hdesc, ← hdisp, ← hpurge]
  · rw [if_neg h, apply_singleton]
    rfl

/-- The old definition with its carried fields, as far as the new definition has their names. -/
def retained (old new : Definition) (renames : List Rename) : Definition :=
  { old with fields := (old.carried renames).filter fun field => field.name ∈ new.fieldNames }

/-- The renames and removals leave the carried fields whose names the new definition has. -/
theorem apply_retained {old new : Definition} (ho : old.Distinct) {renames : List Rename}
    (hfit : RenamesFit old new renames) :
    old.apply (renames.map (fun rename => .renameField rename.source rename.target) ++
        removals (old.carried renames) new) = .ok (old.retained new renames) ∧
      (old.retained new renames).Distinct ∧
      ∀ name, (old.retained new renames).field? name =
        if name ∈ new.fieldNames then
          (old.carried renames).find? fun existing => existing.name = name
        else none := by
  obtain ⟨renamed, hr, hrenamed, hdr⟩ := apply_renames ho hfit.sources_nodup hfit.targets_nodup
    hfit.source_mem_old hfit.target_notMem_old
  have hcarried : renamed.fields = old.carried renames := by rw [hrenamed]
  have hnodup : ((old.carried renames).map FieldSpec.name).Nodup := hcarried ▸ hdr
  refine ⟨?_, hnodup.sublist (List.filter_sublist.map _), fun name => ?_⟩
  · rw [apply_append, hr]
    simp only [Except.bind]
    rw [← hcarried, apply_removals hdr, hrenamed]
    rfl
  · rw [field?, retained, find?_filter_name hnodup]
    cases hfound : (old.carried renames).find? fun existing => existing.name = name with
    | none => simp
    | some existing =>
      have hname : existing.name = name := by simpa using List.find?_some hfound
      simp [Option.filter, hname]

/-- The renames, removals and revisions together: every name of the new definition is settled,
and no other name is left. -/
theorem apply_fieldChanges {old new : Definition} (ho : old.Distinct) (hn : new.Distinct)
    {renames : List Rename} (hfit : RenamesFit old new renames) :
    ∃ reached, old.apply
        (renames.map (fun rename => .renameField rename.source rename.target) ++
          removals (old.carried renames) new ++ revisions (old.carried renames) new) =
            .ok reached ∧
      reached = { old with fields := reached.fields } ∧ reached.Distinct ∧
      (∀ field ∈ new.fields,
        reached.field? field.name = some (settled (old.carried renames) field)) ∧
      reached.fields.length = new.fields.length := by
  obtain ⟨hk, hdk, hlook⟩ := apply_retained ho hfit
  have hf : ∀ field ∈ new.fields, (old.retained new renames).field? field.name =
      (old.carried renames).find? fun existing => existing.name = field.name := fun field hm =>
    (hlook field.name).trans (if_pos (List.mem_map_of_mem hm))
  obtain ⟨reached, hrev, hreached, hdreached, hin, hout⟩ := apply_revisions hdk hn 0 hf
  refine ⟨reached, ?_, hreached, hdreached, hin, ?_⟩
  · rw [apply_append, hk]
    exact hrev
  · have hperm : reached.fieldNames.Perm new.fieldNames := by
      refine (List.perm_ext_iff_of_nodup hdreached hn).mpr fun name => ?_
      rw [← field?_isSome_iff]
      by_cases hm : name ∈ new.fieldNames
      · obtain ⟨field, hfield, rfl⟩ := List.mem_map.mp hm
        simp [hin field hfield, hm]
      · rw [hout name hm, hlook, if_neg hm]
        simp [hm]
    simpa [fieldNames] using hperm.length_eq

/-- Without renames that fit there is no difference, for a fault of a rename. -/
theorem difference_of_not_fit {old new : Definition} {renames : List Rename}
    (h : ¬ RenamesFit old new renames) :
    ∃ fault, difference old new renames = .error (.rename fault) := by
  rw [← checkRenames_eq_ok_iff_fit] at h
  unfold difference
  cases hc : checkRenames old new [] renames with
  | error fault => exact ⟨fault, rfl⟩
  | ok _ => exact absurd hc h

/-- A difference is the changes of fields, a reordering of what they reach and a restatement. -/
theorem difference_eq_ok_iff {old new : Definition} {renames : List Rename}
    {changes : List Change} :
    difference old new renames = .ok changes ↔
      RenamesFit old new renames ∧ ∃ reached,
        old.apply (renames.map (fun rename => .renameField rename.source rename.target) ++
          removals (old.carried renames) new ++ revisions (old.carried renames) new) =
            .ok reached ∧
        changes = renames.map (fun rename => .renameField rename.source rename.target) ++
          removals (old.carried renames) new ++ revisions (old.carried renames) new ++
          reordering reached new ++ restatement old new := by
  by_cases hfit : RenamesFit old new renames
  · have hc := checkRenames_eq_ok_iff_fit.mpr hfit
    unfold difference
    rw [hc]
    dsimp only
    cases old.apply _ with
    | error fault => simp [Except.mapError, bind, Except.bind]
    | ok reached => simp [Except.mapError, bind, Except.bind, pure, Except.pure, hfit, eq_comm]
  · obtain ⟨fault, he⟩ := difference_of_not_fit hfit
    simp [he, hfit]

/-- With renames that fit there is a difference, and it leads to the settled new definition. -/
theorem difference_of_fit {old new : Definition} (hname : old.name = new.name)
    (ho : old.Distinct) (hn : new.Distinct) {renames : List Rename}
    (hfit : RenamesFit old new renames) :
    ∃ changes, difference old new renames = .ok changes ∧
      old.apply changes =
        .ok { new with fields := new.fields.map (settled (old.carried renames)) } := by
  obtain ⟨reached, ha, hreached, hd, hlook, hlen⟩ := apply_fieldChanges ho hn hfit
  have hnames : (new.fields.map (settled (old.carried renames))).map FieldSpec.name =
      new.fieldNames := by
    rw [List.map_map]
    exact List.map_congr_left fun field _ => name_settled _ field
  have hfound : ∀ field ∈ new.fields.map (settled (old.carried renames)),
      reached.field? field.name = some field := by
    intro field hm
    obtain ⟨declared, hdecl, rfl⟩ := List.mem_map.mp hm
    rw [name_settled]
    exact hlook declared hdecl
  have hr := apply_reordering hd hnames hfound (by rw [List.length_map, hlen])
  refine ⟨_, difference_eq_ok_iff.mpr ⟨hfit, reached, ha, rfl⟩, ?_⟩
  rw [apply_append, apply_append, ha]
  simp only [Except.bind]
  rw [hr]
  dsimp only
  rw [apply_restatement (by rw [hreached]) (by rw [hreached]) (by rw [hreached]), hreached, hname]

/-- The changes that may stand in a difference that leads to a definition. -/
inductive Arises (new : Definition) : Change → Prop
  /-- A field gets another name. -/
  | rename (source target : String) : Arises new (.renameField source target)
  /-- A field goes. -/
  | removal (name : String) : Arises new (.removeField name)
  /-- A field of the definition is added where it stands there. -/
  | addition {field : FieldSpec} {position : Nat} (declared : new.fields[position]? = some field) :
    Arises new (.addField field (some position))
  /-- A field of the definition is declared anew. -/
  | update {field : FieldSpec} (declared : field ∈ new.fields) : Arises new (.updateField field)
  /-- The fields are brought into the order of the definition. -/
  | reordering : Arises new (.reorderFields new.fieldNames)
  /-- The schema is described as in the definition. -/
  | restatement :
    Arises new (.updateSchema new.description new.displayField new.autoPurge)

/-- A difference takes all that it brings in from the new definition. -/
theorem arises_of_difference {old new : Definition} {renames : List Rename}
    {changes : List Change} (h : difference old new renames = .ok changes) {change : Change}
    (hm : change ∈ changes) : new.Arises change := by
  obtain ⟨-, reached, -, rfl⟩ := difference_eq_ok_iff.mp h
  simp only [List.mem_append] at hm
  rcases hm with (((hm | hm) | hm) | hm) | hm
  · obtain ⟨rename, -, rfl⟩ := List.mem_map.mp hm
    exact .rename _ _
  · obtain ⟨field, -, rfl⟩ := List.mem_map.mp hm
    exact .removal _
  · obtain ⟨⟨field, position⟩, hin, he⟩ := List.mem_filterMap.mp hm
    unfold revision at he
    split at he
    · split at he <;> cases he
      exact .update (List.fst_mem_of_mem_zipIdx hin)
    · cases he
      exact .addition (List.mem_zipIdx_iff_getElem?.mp hin)
  · unfold Definition.reordering at hm
    split at hm
    · cases hm
    · rw [List.mem_singleton.mp hm]
      exact .reordering
  · unfold Definition.restatement at hm
    split at hm
    · cases hm
    · rw [List.mem_singleton.mp hm]
      exact .restatement

/-- A difference reorders fields once at most, into the order of the new definition. -/
theorem reorder_of_difference {old new : Definition} {renames : List Rename}
    {changes : List Change} (h : difference old new renames = .ok changes) {order : List String}
    (hm : .reorderFields order ∈ changes) : order = new.fieldNames := by
  cases arises_of_difference h hm
  rfl

/-- A difference adds no field but those of the new definition. -/
theorem mem_fields_of_difference {old new : Definition} {renames : List Rename}
    {changes : List Change} (h : difference old new renames = .ok changes) {field : FieldSpec}
    {position : Option Nat} (hm : .addField field position ∈ changes) : field ∈ new.fields := by
  cases arises_of_difference h hm with
  | addition declared => exact List.mem_of_getElem? declared

/-- Settled fields are the same as those declared, one by one. -/
theorem sameFields_map_settled (carried fields : List FieldSpec) :
    sameFields (fields.map (settled carried)) fields = true := by
  induction fields with
  | nil => rfl
  | cons field rest ih =>
    rw [List.map_cons, sameFields, same_settled, ih]
    rfl

/-- Only the default tells a field from the one that is settled for it. -/
theorem settled_eq_self {old new : Definition} {renames : List Rename} {field : FieldSpec}
    (hz : ∀ a ∈ old.fields, ∀ b ∈ new.fields,
      FieldSpec.sameDefault a.default b.default = true → a.default = b.default)
    (hm : field ∈ new.fields) : settled (old.carried renames) field = field := by
  unfold settled
  split
  · next existing hf =>
    by_cases hs : existing.same field = true
    · obtain ⟨a, ha, rfl⟩ := List.mem_map.mp (List.mem_of_find?_eq_some hf)
      rw [if_pos hs]
      simp only [FieldSpec.same, Bool.and_eq_true, beq_iff_eq, decide_eq_true_eq] at hs
      obtain ⟨⟨⟨⟨⟨⟨h1, h2⟩, h3⟩, h4⟩, h5⟩, h6⟩, h7⟩ := hs
      have h8 := hz a ha field hm h6
      cases field
      simp_all
    · rw [if_neg hs]
  · rfl

/-- The changes of a difference lead to the new definition, but for the signs of zeros. -/
theorem reached_of_difference {old new : Definition} (hname : old.name = new.name)
    (ho : old.Distinct) (hn : new.Distinct) {renames : List Rename} {changes : List Change}
    (h : difference old new renames = .ok changes) :
    ∃ reached, old.apply changes = .ok reached ∧ reached.same new = true ∧
      ((∀ a ∈ old.fields, ∀ b ∈ new.fields,
        FieldSpec.sameDefault a.default b.default = true → a.default = b.default) →
          reached = new) := by
  obtain ⟨found, hok, ha⟩ := difference_of_fit hname ho hn (difference_eq_ok_iff.mp h).1
  obtain rfl : changes = found := Except.ok.inj (h.symm.trans hok)
  refine ⟨_, ha, ?_, fun hz => ?_⟩
  · simp [same, sameFields_map_settled]
  · rw [List.map_congr_left fun field hm => settled_eq_self hz hm, List.map_id']

/-- There is a difference exactly when the renames fit, its own trial never fails, and its changes
lead to the new definition; to all of it unless two defaults differ in the sign of a zero. -/
theorem difference_leads_to_new {old new : Definition} (hname : old.name = new.name)
    (ho : old.Distinct) (hn : new.Distinct) (renames : List Rename) :
    ((∃ changes, difference old new renames = .ok changes) ↔ RenamesFit old new renames) ∧
      (∀ fault, difference old new renames ≠ .error (.change fault)) ∧
      ∀ changes, difference old new renames = .ok changes →
        ∃ reached, old.apply changes = .ok reached ∧ reached.same new = true ∧
          ((∀ a ∈ old.fields, ∀ b ∈ new.fields,
            FieldSpec.sameDefault a.default b.default = true → a.default = b.default) →
              reached = new) := by
  refine ⟨⟨fun ⟨changes, h⟩ => (difference_eq_ok_iff.mp h).1, fun hfit => ?_⟩, fun fault => ?_,
    fun changes h => reached_of_difference hname ho hn h⟩
  · obtain ⟨changes, hok, -⟩ := difference_of_fit hname ho hn hfit
    exact ⟨changes, hok⟩
  · by_cases hfit : RenamesFit old new renames
    · obtain ⟨changes, hok, -⟩ := difference_of_fit hname ho hn hfit
      rw [hok]
      exact fun h => by cases h
    · obtain ⟨refusal, he⟩ := difference_of_not_fit hfit
      rw [he]
      exact fun h => by cases h

/-- An article whose text gets another name and moves to the front differs by changes that lead
to exactly that. -/
theorem difference_of_renamed_text :
    ∃ changes,
      difference
        { name := "article"
          fields := [{ name := "title", type := .string }, { name := "text", type := .string }] }
        { name := "article"
          fields := [{ name := "body", type := .html }, { name := "title", type := .string }] }
        [⟨"text", "body"⟩] = .ok changes ∧
      apply
        { name := "article"
          fields := [{ name := "title", type := .string }, { name := "text", type := .string }] }
        changes =
          .ok { name := "article"
                fields := [{ name := "body", type := .html },
                  { name := "title", type := .string }] } := by
  obtain ⟨hiff, -, hall⟩ := @difference_leads_to_new
    { name := "article"
      fields := [{ name := "title", type := .string }, { name := "text", type := .string }] }
    { name := "article"
      fields := [{ name := "body", type := .html }, { name := "title", type := .string }] }
    rfl (by simp [Distinct, fieldNames]) (by simp [Distinct, fieldNames]) [⟨"text", "body"⟩]
  have hfit : RenamesFit
      { name := "article"
        fields := [{ name := "title", type := .string }, { name := "text", type := .string }] }
      { name := "article"
        fields := [{ name := "body", type := .html }, { name := "title", type := .string }] }
      [⟨"text", "body"⟩] := by
    constructor <;> simp [fieldNames]
  obtain ⟨changes, hok⟩ := hiff.mpr hfit
  obtain ⟨reached, ha, -, heq⟩ := hall changes hok
  refine ⟨changes, hok, ha.trans (congrArg Except.ok (heq ?_))⟩
  simp [FieldSpec.sameDefault]

end Definition

end VersionedContent
