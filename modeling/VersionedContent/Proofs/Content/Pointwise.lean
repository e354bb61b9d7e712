import VersionedContent.Proofs.Content.Declared
import VersionedContent.Proofs.Schema.Origin

/-!
# Migrations field by field

The changes between two definitions run one after the other over the same values,
but what they come to can be said of each field of the new definition alone: where
its value comes from, and what becomes of it there. The renames move every value to
its new name, the removals leave the names of the new definition alone, and each
update or addition settles the one name it is about.
-/

namespace VersionedContent

namespace Definition

/-- What becomes of the values that are stored, under a field of the new definition. Without an
origin it gets what stored content gets for it; the value of its origin is kept if the field is
the same, but for the name, and is converted otherwise. -/
def followed (old : Definition) (renames : List Rename) (fields : FieldMap) (field : FieldSpec) :
    Except ConversionError (Option FieldValue) :=
  match old.origin? renames field.name with
  | none => field.initial
  | some before =>
    if FieldSpec.same { before with name := field.name } field then
      .ok (Dict.get? fields before.name)
    else field.revised (Dict.get? fields before.name)

/-- What becomes of the values that are stored, under each of some fields. -/
def followedAll (old : Definition) (renames : List Rename) (fields : FieldMap)
    (declared : List FieldSpec) : Except FieldError (List (Option FieldValue)) :=
  declared.mapM fun field => field.report (old.followed renames fields field)

variable {old new : Definition} {renames : List Rename}

/-- All values follow when each of them does. -/
theorem exists_followedAll_eq_ok_iff {fields : FieldMap} {declared : List FieldSpec} :
    (∃ values, old.followedAll renames fields declared = .ok values) ↔
      ∀ field ∈ declared, ∃ value, old.followed renames fields field = .ok value := by
  simp only [followedAll, exists_mapM_eq_ok_iff, FieldSpec.report_eq_ok_iff]

/-- The first value that does not follow is reported. -/
theorem followedAll_eq_error_iff {fields : FieldMap} {declared : List FieldSpec}
    {error : FieldError} :
    old.followedAll renames fields declared = .error error ↔
      ∃ before field after, declared = before ++ field :: after ∧
        (∀ other ∈ before, ∃ value, old.followed renames fields other = .ok value) ∧
        old.followed renames fields field = .error error.cause ∧ error.field = field.name := by
  simp only [followedAll, mapM_eq_error_iff, FieldSpec.report_eq_ok_iff,
    FieldSpec.report_eq_error_iff]

/-- The renames move each value to its new name. -/
theorem migrate_renames {fields : FieldMap} (hs : (renames.map Rename.source).Nodup)
    (ht : (renames.map Rename.target).Nodup)
    (hd : ∀ a ∈ renames, ∀ b ∈ renames, a.source ≠ b.target)
    (hfree : ∀ rename ∈ renames, Dict.get? fields rename.target = none) :
    ∃ moved, (renames.map fun rename => .renameField rename.source rename.target).foldlM
        Change.migrate fields = .ok moved ∧
      ∀ name, name ∉ renames.map Rename.source →
        Dict.get? moved name = Dict.get? fields (nameBefore renames name) := by
  induction renames generalizing fields with
  | nil => exact ⟨fields, rfl, fun name _ => rfl⟩
  | cons rename rest ih =>
    rw [List.map_cons, List.nodup_cons] at hs ht
    obtain ⟨next, hnext, hlook⟩ :=
      Change.migrate_renameField rename.source (hfree rename List.mem_cons_self)
    have hfree' : ∀ other ∈ rest, Dict.get? next other.target = none := by
      intro other hm
      have hne : other.target ≠ rename.target := fun he => ht.1 (he ▸ List.mem_map_of_mem hm)
      rw [hlook, if_neg hne, hfree other (List.mem_cons_of_mem rename hm), ite_self]
    obtain ⟨moved, hmoved, hall⟩ := ih hs.2 ht.2
      (fun a ha b hb => hd a (List.mem_cons_of_mem rename ha) b (List.mem_cons_of_mem rename hb))
      hfree'
    refine ⟨moved, by rw [List.map_cons, List.foldlM_cons, hnext]; exact hmoved, fun name hn => ?_⟩
    rw [List.map_cons, List.mem_cons, not_or] at hn
    rw [hall name hn.2, nameBefore_cons]
    by_cases he : name = rename.target
    · rw [if_pos he, nameBefore_of_notMem (he ▸ ht.1), hlook, if_pos he]
    · rw [if_neg he, hlook]
      by_cases hm : name ∈ rest.map Rename.target
      · -- A later rename: it takes the value of a field that the first one has not touched.
        obtain ⟨other, ho, rfl⟩ := List.mem_map.mp hm
        rw [nameBefore, find?_key_eq_some ht.2 ho]
        have hsource : other.source ≠ rename.source := fun h => hs.1 (h ▸ List.mem_map_of_mem ho)
        have htarget := hd other (List.mem_cons_of_mem rename ho) rename List.mem_cons_self
        rw [if_neg htarget, if_neg hsource]
      · rw [nameBefore_of_notMem hm, if_neg he, if_neg hn.1]

/-- The removals leave the values under the names of the new definition alone. -/
theorem migrate_removals (carried : List FieldSpec) (new : Definition) (fields : FieldMap) :
    ∃ kept, (removals carried new).foldlM Change.migrate fields = .ok kept ∧
      ∀ name ∈ new.fieldNames, Dict.get? kept name = Dict.get? fields name := by
  obtain ⟨gone, hgone⟩ : ∃ gone, gone = carried.filter fun field =>
      (new.field? field.name).isNone := ⟨_, rfl⟩
  have hnot : ∀ field ∈ gone, field.name ∉ new.fieldNames := by
    intro field hm
    rw [hgone, List.mem_filter, Option.isNone_iff_eq_none, field?_eq_none_iff] at hm
    exact hm.2
  rw [removals, ← hgone]
  clear hgone
  induction gone generalizing fields with
  | nil => exact ⟨fields, rfl, fun name _ => rfl⟩
  | cons field rest ih =>
    obtain ⟨kept, hkept, hall⟩ := ih (Dict.put fields field.name none)
      fun other hm => hnot other (List.mem_cons_of_mem field hm)
    refine ⟨kept, hkept, fun name hm => ?_⟩
    have hne : name ≠ field.name := fun he => hnot field List.mem_cons_self (he ▸ hm)
    rw [hall name hm, Dict.get?_put, if_neg hne]

/-- Whether the name of a field is settled at a result, and no other name is touched; a failure is
reported at the name. -/
def Settles (field : FieldSpec) (fields : FieldMap)
    (result : Except ConversionError (Option FieldValue)) (after : Except FieldError FieldMap) :
    Prop :=
  match result with
  | .ok value => ∃ next, after = .ok next ∧
      ∀ name, Dict.get? next name = if name = field.name then value else Dict.get? fields name
  | .error cause => after = .error ⟨field.name, cause⟩

/-- Putting a result under the name settles it. -/
theorem settles_settle (field : FieldSpec) (fields : FieldMap)
    (result : Except ConversionError (Option FieldValue)) :
    Settles field fields result (field.settle fields result) := by
  cases result with
  | ok value => exact ⟨_, rfl, fun name => Dict.get?_put fields field.name name value⟩
  | error cause => rfl

/-- The name of a field is settled at what it holds when nothing is done. -/
theorem settles_self (field : FieldSpec) (fields : FieldMap) :
    Settles field fields (.ok (Dict.get? fields field.name)) (.ok fields) := by
  refine ⟨fields, rfl, fun name => ?_⟩
  split_ifs with he
  · rw [he]
  · rfl

/-- The revision of a field settles its name at what becomes of the values that were stored, once
the value of its origin stands there. -/
theorem settles_revision {carried : List FieldSpec} {fields current : FieldMap} {field : FieldSpec}
    (position : Nat)
    (hc : carried.find? (fun existing => existing.name = field.name) =
      (old.origin? renames field.name).map fun before => { before with name := field.name })
    (hg : ∀ before, old.origin? renames field.name = some before →
      Dict.get? current field.name = Dict.get? fields before.name) :
    Settles field current (old.followed renames fields field)
      ((revision carried field position).toList.foldlM Change.migrate current) := by
  unfold revision followed
  rw [hc]
  cases ho : old.origin? renames field.name with
  | none =>
    have hadd : [Change.addField field (some position)].foldlM Change.migrate current =
        field.settle current field.initial := by
      rw [List.foldlM_cons, Change.migrate_addField]
      cases field.settle current field.initial <;> rfl
    exact hadd ▸ settles_settle field current field.initial
  | some before =>
    simp only [Option.map_some]
    rw [← hg before ho]
    split_ifs
    · exact settles_self field current
    · have hupdate : [Change.updateField field].foldlM Change.migrate current =
          field.settle current (field.revised (Dict.get? current field.name)) := by
        rw [List.foldlM_cons, Change.migrate_updateField]
        cases field.settle current _ <;> rfl
      exact hupdate ▸ settles_settle field current _

/-- The revisions settle the names of the fields that are declared, in order and until one
fails. -/
theorem migrate_revisions {carried declared : List FieldSpec} {fields current : FieldMap}
    (hn : (declared.map FieldSpec.name).Nodup) (position : Nat)
    (hc : ∀ field ∈ declared, carried.find? (fun existing => existing.name = field.name) =
      (old.origin? renames field.name).map fun before => { before with name := field.name })
    (hg : ∀ field ∈ declared, ∀ before, old.origin? renames field.name = some before →
      Dict.get? current field.name = Dict.get? fields before.name) :
    match old.followedAll renames fields declared with
    | .error error => ((declared.zipIdx position).filterMap fun entry =>
        revision carried entry.1 entry.2).foldlM Change.migrate current = .error error
    | .ok _ => ∃ reached, ((declared.zipIdx position).filterMap fun entry =>
        revision carried entry.1 entry.2).foldlM Change.migrate current = .ok reached ∧
      (∀ field ∈ declared,
        old.followed renames fields field = .ok (Dict.get? reached field.name)) ∧
      ∀ name, name ∉ declared.map FieldSpec.name →
        Dict.get? reached name = Dict.get? current name := by
  induction declared generalizing current position with
  | nil => exact ⟨current, rfl, by simp, fun _ _ => rfl⟩
  | cons field rest ih =>
    rw [List.map_cons, List.nodup_cons] at hn
    have hsettles := settles_revision position (hc field List.mem_cons_self)
      (hg field List.mem_cons_self)
    rw [revisions_cons, List.foldlM_append, followedAll, List.mapM_cons]
    cases hf : old.followed renames fields field with
    | error cause =>
      rw [hf] at hsettles
      simp only [Settles] at hsettles
      rw [hsettles]
      rfl
    | ok value =>
      rw [hf] at hsettles
      obtain ⟨next, hnext, hlook⟩ := hsettles
      have hrest : ∀ other ∈ rest, other.name ≠ field.name := fun other hm he =>
        hn.1 (he ▸ List.mem_map_of_mem hm)
      have hg' : ∀ other ∈ rest, ∀ before, old.origin? renames other.name = some before →
          Dict.get? next other.name = Dict.get? fields before.name := by
        intro other hm before hb
        rw [hlook, if_neg (hrest other hm)]
        exact hg other (List.mem_cons_of_mem field hm) before hb
      have hall := ih hn.2 (position + 1)
        (fun other hm => hc other (List.mem_cons_of_mem field hm)) hg'
      rw [hnext]
      rw [followedAll] at hall
      cases hr : rest.mapM fun field => field.report (old.followed renames fields field) with
      | error error =>
        rw [hr] at hall
        exact hall
      | ok values =>
        rw [hr] at hall
        obtain ⟨reached, hreached, hin, hout⟩ := hall
        refine ⟨reached, hreached, fun other hm => ?_, fun name hm => ?_⟩
        · rcases List.mem_cons.mp hm with rfl | hm
          · rw [hf, hout other.name hn.1, hlook, if_pos rfl]
          · exact hin other hm
        · rw [List.map_cons, List.mem_cons, not_or] at hm
          rw [hout name hm.2, hlook, if_neg hm.1]

/-- Neither the order of the fields nor what is said of the schema as a whole touches a value. -/
theorem migrate_arrangement (reached old new : Definition) (fields : FieldMap) :
    (reordering reached new ++ restatement old new).foldlM Change.migrate fields = .ok fields := by
  unfold reordering restatement
  split <;> split <;> rfl

/-- A difference leads declared values to what becomes of them under each field of the new
definition, and fails where the first of these fails. -/
theorem migrate_difference (hn : new.Distinct) {changes : List Change}
    (hc : old.difference new renames = .ok changes) {fields : FieldMap}
    (hf : old.Declares fields) :
    match old.followedAll renames fields new.fields with
    | .error error => changes.foldlM Change.migrate fields = .error error
    | .ok _ => ∃ reached, changes.foldlM Change.migrate fields = .ok reached ∧
      ∀ field ∈ new.fields,
        old.followed renames fields field = .ok (Dict.get? reached field.name) := by
  obtain ⟨hfit, reached, -, rfl⟩ := difference_eq_ok_iff.mp hc
  have hapart : ∀ a ∈ renames, ∀ b ∈ renames, a.source ≠ b.target :=
    fun a ha b hb he => hfit.source_notMem_new a ha (he ▸ hfit.target_mem_new b hb)
  have hfree : ∀ rename ∈ renames, Dict.get? fields rename.target = none :=
    fun rename hm => hf.get?_eq_none (hfit.target_notMem_old rename hm)
  obtain ⟨moved, hmoved, hmove⟩ :=
    migrate_renames hfit.sources_nodup hfit.targets_nodup hapart hfree
  obtain ⟨kept, hkept, hkeep⟩ := migrate_removals (old.carried renames) new moved
  have hname {field : FieldSpec} (hm : field ∈ new.fields) : field.name ∈ new.fieldNames :=
    List.mem_map_of_mem hm
  have horigin : ∀ field ∈ new.fields, ∀ before, old.origin? renames field.name = some before →
      Dict.get? kept field.name = Dict.get? fields before.name := by
    intro field hm before hb
    have hsource : field.name ∉ renames.map Rename.source := by
      intro hs
      obtain ⟨rename, hr, he⟩ := List.mem_map.mp hs
      exact hfit.source_notMem_new rename hr (he ▸ hname hm)
    rw [hkeep field.name (hname hm), hmove field.name hsource, name_of_field? hb]
  have hall := migrate_revisions hn 0 (fun field hm => find?_carried hfit (hname hm)) horigin
  rw [List.append_assoc, List.foldlM_append, List.foldlM_append, List.foldlM_append, hmoved]
  simp only [bind, Except.bind]
  rw [hkept]
  cases hr : old.followedAll renames fields new.fields with
  | error error =>
    rw [hr] at hall
    dsimp only at hall ⊢
    rw [revisions, hall]
  | ok values =>
    rw [hr] at hall
    obtain ⟨settled, hsettled, hin, -⟩ := hall
    dsimp only
    rw [revisions, hsettled]
    exact ⟨settled, migrate_arrangement reached old new settled, hin⟩

/-- Migrated values hold, under each field of the new definition, what becomes of the values that
were stored, and nothing else. There are none exactly when one of these fails, and the first one
in the order of the new definition is reported. -/
theorem migrateFields_difference (hname : old.name = new.name) (ho : old.Distinct)
    (hn : new.Distinct) (hfit : RenamesFit old new renames) {fields : FieldMap}
    (hf : ∀ name ∈ Dict.keys fields, name ∈ old.fieldNames) :
    ∃ changes, old.difference new renames = .ok changes ∧
      ((∃ migrated, migrateFields fields changes new = .ok migrated) ↔
        ∀ field ∈ new.fields, ∃ value, old.followed renames fields field = .ok value) ∧
      (∀ migrated, migrateFields fields changes new = .ok migrated →
        (∀ field ∈ new.fields,
          old.followed renames fields field = .ok (Dict.get? migrated field.name)) ∧
        ∀ name ∈ Dict.keys migrated, name ∈ new.fieldNames) ∧
      ∀ error, migrateFields fields changes new = .error error ↔
        ∃ before field after, new.fields = before ++ field :: after ∧
          (∀ other ∈ before, ∃ value, old.followed renames fields other = .ok value) ∧
          old.followed renames fields field = .error error.cause ∧ error.field = field.name := by
  obtain ⟨changes, hc, -⟩ := difference_of_fit hname ho hn hfit
  have hall := migrate_difference hn hc hf
  refine ⟨changes, hc, ?_⟩
  rw [← exists_followedAll_eq_ok_iff]
  simp only [← followedAll_eq_error_iff]
  unfold migrateFields
  cases hr : old.followedAll renames fields new.fields with
  | error error =>
    rw [hr] at hall
    dsimp only at hall
    simp [hall, Except.map]
  | ok values =>
    rw [hr] at hall
    obtain ⟨reached, hreached, hin⟩ := hall
    refine ⟨by simp [hreached, Except.map], fun migrated hm => ?_, by simp [hreached, Except.map]⟩
    rw [hreached] at hm
    obtain rfl := Except.ok.inj hm
    refine ⟨fun field hfield => ?_, fun name hk => ?_⟩
    · have hkeep : (new.field? field.name).isSome = true :=
        (field?_isSome_iff ..).mpr (List.mem_map_of_mem hfield)
      rw [Dict.get?_restrict, if_pos hkeep, hin field hfield]
    · exact (field?_isSome_iff ..).mp ((Dict.mem_keys_restrict ..).mp hk).2

/-- A text that gets another name moves there, a draft is marked as one, and of two answers that
cannot be read the one is reported that the new definition asks for first. -/
theorem migrateFields_of_reworked_article :
    let old : Definition :=
      { name := "article"
        fields := [{ name := "title", type := .string }, { name := "text", type := .string },
          { name := "open", type := .string }, { name := "public", type := .string }] }
    let new : Definition :=
      { name := "article"
        fields := [{ name := "body", type := .html }, { name := "public", type := .boolean },
          { name := "open", type := .boolean }, { name := "title", type := .string },
          { name := "draft", type := .boolean, default := some (.bool true) }] }
    let readable : FieldMap := [("open", .string "True"), ("text", .string "Hello")]
    let unreadable : FieldMap := [("open", .string "perhaps"), ("public", .string "later")]
    ∃ changes, old.difference new [⟨"text", "body"⟩] = .ok changes ∧
      (∃ migrated, migrateFields readable changes new = .ok migrated ∧
        Dict.get? migrated "body" = some (.html "Hello") ∧
        Dict.get? migrated "public" = none ∧ Dict.get? migrated "open" = some (.boolean true) ∧
        Dict.get? migrated "title" = none ∧ Dict.get? migrated "draft" = some (.boolean true) ∧
        "text" ∉ Dict.keys migrated) ∧
      migrateFields unreadable changes new = .error ⟨"public", .notBoolean "later"⟩ := by
  intro old new readable unreadable
  have hold : old.Distinct := by simp [old, Distinct, fieldNames]
  have hnew : new.Distinct := by simp [new, Distinct, fieldNames]
  have hfit : RenamesFit old new [⟨"text", "body"⟩] := by
    constructor <;> simp [old, new, fieldNames]
  have hreadable : ∀ name ∈ Dict.keys readable, name ∈ old.fieldNames := by decide
  have hunreadable : ∀ name ∈ Dict.keys unreadable, name ∈ old.fieldNames := by decide
  obtain ⟨changes, hc, hiff, hvalue, -⟩ :=
    migrateFields_difference (show old.name = new.name from rfl) hold hnew hfit hreadable
  obtain ⟨changes', hc', -, -, hfault⟩ :=
    migrateFields_difference (show old.name = new.name from rfl) hold hnew hfit hunreadable
  obtain rfl := Except.ok.inj (hc.symm.trans hc')
  obtain ⟨migrated, hm⟩ := hiff.mpr (by
    simp only [new, List.forall_mem_cons]
    exact ⟨⟨_, rfl⟩, ⟨_, rfl⟩, ⟨_, rfl⟩, ⟨_, rfl⟩, ⟨_, rfl⟩, by simp⟩)
  obtain ⟨hall, hkeys⟩ := hvalue migrated hm
  simp only [new, List.forall_mem_cons] at hall
  obtain ⟨hbody, hpublic, hopen, htitle, hdraft, -⟩ := hall
  refine ⟨changes, hc, ⟨migrated, hm, Except.ok.inj (hbody.symm.trans rfl),
    Except.ok.inj (hpublic.symm.trans rfl), Except.ok.inj (hopen.symm.trans rfl),
    Except.ok.inj (htitle.symm.trans rfl), Except.ok.inj (hdraft.symm.trans rfl),
    fun h => absurd (hkeys _ h) (by simp [new, fieldNames])⟩, ?_⟩
  exact (hfault _).mpr ⟨[_], _, _, rfl, by simpa using ⟨_, rfl⟩, rfl, rfl⟩

end Definition

end VersionedContent
