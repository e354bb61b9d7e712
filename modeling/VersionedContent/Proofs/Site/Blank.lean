import VersionedContent.Proofs.Content.Courses
import VersionedContent.Proofs.Content.Pointwise
import VersionedContent.Proofs.Site.Interval
import VersionedContent.Proofs.Site.Refusals

/-!
# Content without values

Content that holds nothing gets the defaults of the fields that are added on the way, and
nothing else. Each default was read against the version that adds it, but the versions after
that one may declare its field anew and refuse what was read then. That is the one way in
which such content fails to be migrated, and over a single version it cannot come about.
-/

namespace VersionedContent

namespace Change

/-- Whether changes bring a default in and lead it to an update that refuses it. -/
def RefuseDefault (changes : List Change) (error : FieldError) : Prop :=
  ∃ before field position between revised after json value current,
    changes = before ++ .addField field position :: (between ++ .updateField revised :: after) ∧
      field.default = some json ∧ field.read json = .ok value ∧
      leadAll between (field.name, value) = .ok (some (revised.name, current)) ∧
      error.field = revised.name ∧ revised.convert current = .error error.cause

/-- Changes refuse a default exactly when one that they bring in does not pass the rest. -/
theorem refuseDefault_iff {changes : List Change} {error : FieldError} :
    RefuseDefault changes error ↔ Enters changes (.error error) := by
  constructor
  · rintro ⟨before, field, position, between, revised, after, json, value, current, rfl, hd, hread,
      hlead, hrefused⟩
    refine ⟨before, field, position, _, value, rfl, ?_,
      leadAll_eq_error_iff.mpr ⟨between, revised, after, current, rfl, hlead, hrefused⟩⟩
    rw [FieldSpec.initial, hd]
    exact congrArg (Except.map some) hread
  · rintro ⟨before, field, position, rest, value, rfl, hi, hfails⟩
    obtain ⟨between, revised, after, current, rfl, hlead, hrefused⟩ :=
      leadAll_eq_error_iff.mp hfails
    cases hd : field.default with
    | none =>
      rw [FieldSpec.initial, hd] at hi
      cases hi
    | some json =>
      rw [FieldSpec.initial, hd] at hi
      obtain ⟨found, hread, he⟩ := exists_of_map_eq_ok hi
      obtain rfl := Option.some.inj he
      exact ⟨before, field, position, between, revised, after, json, found, current, rfl, hd, hread,
        hlead, hrefused⟩

end Change

namespace Definition

variable {old new : Definition} {renames : List Rename}

/-- No value is declared by every definition. -/
theorem declares_nil (definition : Definition) : definition.Declares [] := by
  intro name hm
  cases hm

/-- A single difference leads no value to the defaults of the new fields, if these read. -/
theorem exists_migrate_nil_of_difference (hn : new.Distinct) {changes : List Change}
    (hc : old.difference new renames = .ok changes)
    (hr : ∀ field ∈ new.fields, ∃ value, field.initial = .ok value) :
    ∃ migrated, changes.foldlM Change.migrate [] = .ok migrated := by
  have hall := migrate_difference hn hc old.declares_nil
  obtain ⟨values, hvalues⟩ : ∃ values, old.followedAll renames [] new.fields = .ok values := by
    refine exists_followedAll_eq_ok_iff.mpr fun field hm => ?_
    unfold followed
    cases old.origin? renames field.name with
    | none => exact hr field hm
    | some before =>
      dsimp only
      split_ifs
      · exact ⟨_, rfl⟩
      · exact ⟨none, rfl⟩
  rw [hvalues] at hall
  obtain ⟨migrated, hmigrated, -⟩ := hall
  exact ⟨migrated, hmigrated⟩

end Definition

namespace Store

variable {store : Store} {issued : Series} {kind : Kind} {name : String}

/-- The orders that a version of a chain prescribes repeat no name. -/
theorem Chained.nodup_reorder (h : Chained store issued) {i : Nat} {version : Version}
    (hv : (store.chainVersions kind name)[i + 1]? = some version) {order : List String}
    (ho : .reorderFields order ∈ version.changes) : order.Nodup := by
  obtain ⟨hi, -⟩ := List.getElem?_eq_some_iff.mp hv
  have hb := List.getElem?_eq_getElem (show i < (store.chainVersions kind name).length by omega)
  obtain ⟨renames, hd⟩ := (h.linked kind name).derived hb hv
  rw [Definition.reorder_of_difference hd ho]
  exact Definition.distinct_of_issues
    (h.valid version (mem_chainVersions.mp (List.mem_of_getElem? hv)).1)

end Store

namespace Site

/-- The changes from one version of a chain to another one lead no value on, unless they refuse a
default. -/
theorem Reachable.foldlM_migrate_nil {site : Site} (h : Reachable site) {source target : Version}
    (hs : source ∈ site.store.chainVersions target.kind target.name)
    (ht : target ∈ site.store.versions.rows) {steps : List Version} {next : Site}
    (ho : outcome (versionsBetween source target) site = (.ok steps, next)) :
    match (steps.flatMap Version.changes).foldlM Change.migrate [] with
    | .ok _ => ∀ error, ¬ Change.RefuseDefault (steps.flatMap Version.changes) error
    | .error error => Change.RefuseDefault (steps.flatMap Version.changes) error := by
  have hsound := h.sound
  have hreads : ∀ field position, .addField field position ∈ steps.flatMap Version.changes →
      ∃ value, field.initial = .ok value := by
    intro field position hm
    obtain ⟨version, hv, hadd⟩ := List.mem_flatMap.mp hm
    rw [FieldSpec.exists_initial_eq_ok_iff]
    exact fun json hd => h.exists_read (hsound.mem_rows_of_between hs ht ho hv) hadd hd
  obtain ⟨i, hi⟩ := List.mem_iff_getElem?.mp hs
  obtain ⟨j, hj⟩ := Store.exists_getElem?_of_mem ht
  obtain ⟨hle, hsteps⟩ := of_outcome_versionsBetween_eq_ok hsound hi hj ho
  have hplace : i + (j - i) = j := by omega
  obtain ⟨reached, happly, -⟩ := hsound.chained.reached_along hi (by rw [hplace, hj])
  rw [← hsteps] at happly
  have horders : ∀ order, .reorderFields order ∈ steps.flatMap Version.changes → order.Nodup := by
    intro order hm
    obtain ⟨version, hv, hin⟩ := List.mem_flatMap.mp hm
    rw [hsteps] at hv
    obtain ⟨k, hk⟩ := List.mem_iff_getElem?.mp (List.mem_of_mem_take hv)
    rw [List.getElem?_drop, Nat.add_right_comm] at hk
    exact hsound.chained.nodup_reorder hk hin
  have hdistinct := Definition.distinct_of_issues
    (hsound.chained.valid source (Store.mem_chainVersions.mp hs).1)
  have hall := source.definition.declares_nil.courses hdistinct horders happly hreads
  cases hmoved : (steps.flatMap Version.changes).foldlM Change.migrate [] with
  | ok moved =>
    rw [hmoved] at hall
    intro error hrefuse
    obtain ⟨place, hplace⟩ := hall.2 _ (Change.refuseDefault_iff.mp hrefuse)
    cases hplace
  | error error =>
    rw [hmoved] at hall
    rcases hall with ⟨entry, hg, -⟩ | hin
    · cases hg
    · exact Change.refuseDefault_iff.mpr hin

/-- Over a single version, or none, content without values can be migrated. -/
theorem Sound.exists_migrate_nil {site : Site} (h : Sound site) {source target : Version}
    (hs : source ∈ site.store.chainVersions target.kind target.name)
    (ht : target ∈ site.store.versions.rows) {steps : List Version} {next : Site}
    (ho : outcome (versionsBetween source target) site = (.ok steps, next))
    (hl : steps.length ≤ 1) :
    ∃ moved, (steps.flatMap Version.changes).foldlM Change.migrate [] = .ok moved := by
  obtain ⟨i, hi⟩ := List.mem_iff_getElem?.mp hs
  obtain ⟨j, hj⟩ := Store.exists_getElem?_of_mem ht
  obtain ⟨hle, rfl⟩ := of_outcome_versionsBetween_eq_ok h hi hj ho
  obtain ⟨hlast, -⟩ := List.getElem?_eq_some_iff.mp hj
  rw [List.length_take, List.length_drop] at hl
  obtain rfl | rfl : j = i ∨ j = i + 1 := by omega
  · exact ⟨[], by simp [pure, Except.pure]⟩
  · have hone : ((site.store.chainVersions target.kind target.name).drop (i + 1)).take
        (i + 1 - i) = [target] := by
      rw [List.drop_eq_getElem?_toList_append, hj]
      simp
    obtain ⟨renames, hd⟩ := (h.chained.linked target.kind target.name).derived hi hj
    have hvalid := h.chained.valid target ht
    rw [hone, List.flatMap_singleton]
    exact Definition.exists_migrate_nil_of_difference (Definition.distinct_of_issues hvalid) hd
      fun field hm => FieldSpec.exists_initial_eq_ok_iff.mpr fun json hdefault =>
        Definition.exists_read_of_issues hvalid hm hdefault

/-- Content without values can be migrated from one version of a chain to a later one exactly when
the changes in between do not refuse a default that they bring in; if they do, one of these is
reported, under the name and with the cause of the update that refuses it. Over a single version
nothing is refused. -/
theorem Reachable.migrateFields_nil_iff {site : Site} (h : Reachable site)
    {source target : Version} (hs : source ∈ site.store.versions.rows)
    (ht : target ∈ site.store.versions.rows) (hk : source.kind = target.kind)
    (hn : source.name = target.name) :
    ((site.store.chainVersions target.kind target.name).length < 4294967296 →
      source.number ≤ target.number →
        ∃ steps, outcome (versionsBetween source target) site = (.ok steps, site)) ∧
      ∀ steps next, outcome (versionsBetween source target) site = (.ok steps, next) →
        ((∃ migrated, migrateFields [] (steps.flatMap Version.changes) target.definition =
            .ok migrated) ↔
          ∀ error, ¬ Change.RefuseDefault (steps.flatMap Version.changes) error) ∧
        (∀ error, migrateFields [] (steps.flatMap Version.changes) target.definition =
            .error error →
          Change.RefuseDefault (steps.flatMap Version.changes) error) ∧
        (steps.length ≤ 1 → ∃ migrated,
          migrateFields [] (steps.flatMap Version.changes) target.definition = .ok migrated) := by
  have hchain : source ∈ site.store.chainVersions target.kind target.name :=
    Store.mem_chainVersions.mpr ⟨hs, hk, hn⟩
  refine ⟨fun hl hle =>
    ⟨_, (outcome_versionsBetween_of_mem h.sound hchain ht hl).trans (if_pos hle)⟩,
    fun steps next ho => ?_⟩
  have hrun := h.foldlM_migrate_nil hchain ht ho
  have hone := h.sound.exists_migrate_nil hchain ht ho
  unfold migrateFields
  cases hm : (steps.flatMap Version.changes).foldlM Change.migrate [] with
  | ok moved =>
    rw [hm] at hrun
    exact ⟨⟨fun _ => hrun, fun _ => ⟨_, rfl⟩⟩, fun error he => (nomatch he), fun _ => ⟨_, rfl⟩⟩
  | error error =>
    rw [hm] at hrun hone
    refine ⟨⟨fun ⟨_, he⟩ => (nomatch he), fun hno => absurd hrun (hno error)⟩, fun fault he => ?_,
      fun hl => ?_⟩
    · obtain rfl := Except.error.inj he
      exact hrun
    · obtain ⟨moved, he⟩ := hone hl
      cases he

/-- When three versions of one chain are all there is, there is a way to the last one from each
other. -/
theorem Sound.exists_ways {site : Site} (h : Sound site) {kind : Kind} {name : String}
    (hplaces : site.store.versions.rows.map (fun version => (version.kind, version.name)) =
      [(kind, name), (kind, name), (kind, name)]) :
    ∃ first middle last, site.store.versions.rows = [first, middle, last] ∧
      first.kind = last.kind ∧ first.name = last.name ∧ middle.kind = last.kind ∧
      middle.name = last.name ∧ first.number ≤ last.number ∧
      outcome (versionsBetween first last) site = (.ok [middle, last], site) ∧
      outcome (versionsBetween middle last) site = (.ok [last], site) := by
  simp only [List.map_eq_cons_iff, List.map_eq_nil_iff, Prod.mk.injEq] at hplaces
  obtain ⟨first, _, hrows, ⟨rfl, rfl⟩, middle, _, rfl, ⟨hkm, hnm⟩, last, _, rfl, ⟨hkl, hnl⟩, rfl⟩ :=
    hplaces
  have hchain : site.store.chainVersions first.kind first.name = [first, middle, last] := by
    simp [Store.chainVersions, Version.inChain, hrows, hkm, hnm, hkl, hnl]
  have hplace (i : Nat) : (site.store.chainVersions first.kind first.name)[i]? =
      [first, middle, last][i]? := by rw [hchain]
  have hnumber {i : Nat} {version : Version} (hi : [first, middle, last][i]? = some version) :
      version.number = i + 1 :=
    h.chained.number_eq (by simp [hchain]) ((hplace i).trans hi)
  have hway (i : Nat) {source : Version} (hi : [first, middle, last][i]? = some source) :=
    outcome_versionsBetween h ((hplace i).trans hi) (hplace 2)
  rw [hchain] at hway
  refine ⟨first, middle, last, hrows, hkl.symm, hnl.symm, hkm.trans hkl.symm, hnm.trans hnl.symm,
    ?_, hway 0 rfl, hway 1 rfl⟩
  rw [hnumber (i := 0) rfl, hnumber (i := 2) rfl]
  decide

/-- The field and the message of a migration that fails. -/
def refusal? : Except FieldError FieldMap → Option (String × String)
  | .ok _ => none
  | .error error => some (error.field, error.cause.message)

/-- A migration with a refusal fails, at its field and with its message. -/
theorem exists_of_refusal?_eq_some {result : Except FieldError FieldMap} {field message : String}
    (h : refusal? result = some (field, message)) :
    ∃ error, result = .error error ∧ error.field = field ∧ error.cause.message = message := by
  cases result with
  | ok migrated => cases h
  | error error =>
    obtain ⟨hf, hm⟩ := Prod.mk.inj (Option.some.inj h)
    exact ⟨error, rfl, hf, hm⟩

/-- A default was read as text when it was brought in, and is no number when its field becomes one
in the version after: content without values cannot be migrated over both. -/
theorem exists_default_refused_later :
    let titled (fields : List FieldSpec) : Definition :=
      { name := "article", fields := { name := "title", type := .string } :: fields }
    let site := Call.afterAll (.empty (.ticking ⟨0, 0⟩) 10 10)
      [.createSchema .schema (titled []),
        .updateSchema .schema "article"
          (titled [{ name := "price", type := .string, default := some (.string "free") }]) [] none,
        .updateSchema .schema "article" (titled [{ name := "price", type := .number }]) [] none]
    ∃ source ∈ site.store.versions.rows, ∃ target ∈ site.store.versions.rows,
      source.kind = target.kind ∧ source.name = target.name ∧ source.number ≤ target.number ∧
        ∃ steps, outcome (versionsBetween source target) site = (.ok steps, site) ∧
          ∃ error, migrateFields [] (steps.flatMap Version.changes) target.definition =
              .error error ∧
            error.field = "price" ∧ error.cause.message = "'free' is not a number" := by
  intro titled site
  have hsound : Sound site :=
    ((Managed.empty (.ticking ⟨0, 0⟩) 10 10).calls (by decide +kernel)).reachable.sound
  have hplaces : site.store.versions.rows.map (fun version => (version.kind, version.name)) =
      [(.schema, "article"), (.schema, "article"), (.schema, "article")] := by decide +kernel
  have hfails : (site.store.versions.rows.getLast?.map fun last => refusal? (migrateFields []
      ((site.store.versions.rows.drop 1).flatMap Version.changes) last.definition)) =
        some (some ("price", "'free' is not a number")) := by decide +kernel
  obtain ⟨first, middle, last, hrows, hk, hn, -, -, hle, hway, -⟩ := hsound.exists_ways hplaces
  rw [hrows] at hfails ⊢
  exact ⟨first, by simp, last, by simp, hk, hn, hle, _, hway,
    exists_of_refusal?_eq_some (Option.some.inj hfails)⟩

/-- A price with a default that is no number is renamed and becomes a number: content without values
fails there over both versions, and passes the second one alone. -/
theorem migrateFields_nil_of_renamed_price :
    let priced (field : FieldSpec) : Definition :=
      { name := "offer", fields := [{ name := "title", type := .string }, field] }
    let site := Call.afterAll (.empty (.ticking ⟨0, 0⟩) 10 10)
      [.createSchema .schema { name := "offer", fields := [{ name := "title", type := .string }] },
        .updateSchema .schema "offer"
          (priced { name := "price", type := .string, default := some (.string "free") }) [] none,
        .updateSchema .schema "offer" (priced { name := "cost", type := .number })
          [⟨"price", "cost"⟩] none]
    ∃ first middle last error, site.store.versions.rows = [first, middle, last] ∧
      error.field = "cost" ∧ error.cause.message = "'free' is not a number" ∧
      Change.RefuseDefault ([middle, last].flatMap Version.changes) error ∧
      (¬ ∃ migrated, migrateFields [] ([middle, last].flatMap Version.changes) last.definition =
        .ok migrated) ∧
      ∃ migrated, migrateFields [] ([last].flatMap Version.changes) last.definition =
        .ok migrated := by
  intro priced site
  have hreach : Reachable site :=
    ((Managed.empty (.ticking ⟨0, 0⟩) 10 10).calls (by decide +kernel)).reachable
  have hplaces : site.store.versions.rows.map (fun version => (version.kind, version.name)) =
      [(.schema, "offer"), (.schema, "offer"), (.schema, "offer")] := by decide +kernel
  have hfails : (site.store.versions.rows.getLast?.map fun last => refusal? (migrateFields []
      ((site.store.versions.rows.drop 1).flatMap Version.changes) last.definition)) =
        some (some ("cost", "'free' is not a number")) := by decide +kernel
  obtain ⟨first, middle, last, hrows, hkf, hnf, hkm, hnm, -, hboth, hsecond⟩ :=
    hreach.sound.exists_ways hplaces
  rw [hrows] at hfails
  obtain ⟨error, herror, hfield, hmessage⟩ :=
    exists_of_refusal?_eq_some (Option.some.inj hfails)
  obtain ⟨hiff, hrefused, -⟩ := (hreach.migrateFields_nil_iff (by simp [hrows]) (by simp [hrows])
    hkf hnf).2 _ _ hboth
  obtain ⟨-, -, hone⟩ := (hreach.migrateFields_nil_iff (by simp [hrows]) (by simp [hrows])
    hkm hnm).2 _ _ hsecond
  have hrefuse := hrefused error herror
  exact ⟨first, middle, last, error, hrows, hfield, hmessage, hrefuse,
    fun hex => hiff.mp hex error hrefuse, hone (Nat.le_refl 1)⟩

end Site

end VersionedContent
