import VersionedContent.Proofs.Content.Declared
import VersionedContent.Proofs.Site.Values

/-!
# Migrations in steps

Values that stand under the names of one version of a chain are migrated to a later
one in one go or by way of any version between the two: the result is the same, and
so is the field that fails and why. What a version on the way does not declare is
dropped there, but there never is any: the changes themselves take it out.
-/

namespace VersionedContent

namespace Site

variable {site : Site} {source middle target : Version}

/-- What change lists keep, the changes on the way between two versions of a chain keep. -/
theorem Sound.follows_between (h : Sound site) {P : Definition → FieldMap → Prop}
    (hf : Definition.Follows P)
    (hs : source ∈ site.store.chainVersions target.kind target.name)
    (ht : target ∈ site.store.versions.rows) {steps : List Version} {next : Site}
    (ho : outcome (versionsBetween source target) site = (.ok steps, next))
    {fields migrated : FieldMap} (hp : P source.definition fields)
    (hm : (steps.flatMap Version.changes).foldlM Change.migrate fields = .ok migrated) :
    P target.definition migrated := by
  obtain ⟨i, hi⟩ := List.mem_iff_getElem?.mp hs
  obtain ⟨j, hj⟩ := Store.exists_getElem?_of_mem ht
  obtain ⟨hle, rfl⟩ := of_outcome_versionsBetween_eq_ok h hi hj ho
  have hplace : i + (j - i) = j := by omega
  exact h.chained.follows_along hf hi (by rw [hplace, hj]) hp hm

/-- The way to a version of a chain and the way on from it are the way past it. -/
theorem Sound.outcome_versionsBetween_append (h : Sound site)
    (hs : source ∈ site.store.chainVersions target.kind target.name)
    (hm : middle ∈ site.store.chainVersions target.kind target.name)
    (ht : target ∈ site.store.versions.rows) {first second : List Version} {next next' : Site}
    (hf : outcome (versionsBetween source middle) site = (.ok first, next))
    (hse : outcome (versionsBetween middle target) site = (.ok second, next')) :
    outcome (versionsBetween source target) site = (.ok (first ++ second), site) := by
  obtain ⟨i, hi⟩ := List.mem_iff_getElem?.mp hs
  obtain ⟨j, hj⟩ := List.mem_iff_getElem?.mp hm
  obtain ⟨k, hk⟩ := Store.exists_getElem?_of_mem ht
  obtain ⟨hij, rfl⟩ := of_outcome_versionsBetween_eq_ok h hi hj hf
  obtain ⟨hjk, rfl⟩ := of_outcome_versionsBetween_eq_ok h hj hk hse
  have hplace : i + 1 + (j - i) = j + 1 := by omega
  have hsteps : k - i = (j - i) + (k - j) := by omega
  rw [outcome_versionsBetween h hi hk, if_pos (hij.trans hjk), hsteps, List.take_add,
    List.drop_drop, hplace]

/-- From one version to another and from there to a third one the changes lead as they do from the
first to the third. -/
theorem Reachable.migrateFields_stepwise {site : Site} (h : Reachable site)
    {source middle target : Version} (hs : source ∈ site.store.versions.rows)
    (hm : middle ∈ site.store.versions.rows) (ht : target ∈ site.store.versions.rows)
    (hsk : source.kind = target.kind) (hsn : source.name = target.name)
    (hmk : middle.kind = target.kind) (hmn : middle.name = target.name) :
    ((site.store.chainVersions target.kind target.name).length < 4294967296 →
      source.number ≤ middle.number → middle.number ≤ target.number →
        (∃ first, outcome (versionsBetween source middle) site = (.ok first, site)) ∧
          ∃ second, outcome (versionsBetween middle target) site = (.ok second, site)) ∧
      ∀ first second next next', outcome (versionsBetween source middle) site = (.ok first, next) →
        outcome (versionsBetween middle target) site = (.ok second, next') →
          outcome (versionsBetween source target) site = (.ok (first ++ second), site) ∧
            ∀ fields, (∀ name ∈ Dict.keys fields, name ∈ source.definition.fieldNames) →
              migrateFields fields ((first ++ second).flatMap Version.changes) target.definition =
                (migrateFields fields (first.flatMap Version.changes) middle.definition).bind
                  fun moved =>
                    migrateFields moved (second.flatMap Version.changes) target.definition := by
  have hfrom : source ∈ site.store.chainVersions middle.kind middle.name :=
    Store.mem_chainVersions.mpr ⟨hs, hsk.trans hmk.symm, hsn.trans hmn.symm⟩
  have hover : middle ∈ site.store.chainVersions target.kind target.name :=
    Store.mem_chainVersions.mpr ⟨hm, hmk, hmn⟩
  constructor
  · intro hl hsm hmt
    have hfirst := outcome_versionsBetween_of_mem h.sound hfrom hm (by rwa [hmk, hmn])
    have hsecond := outcome_versionsBetween_of_mem h.sound hover ht hl
    exact ⟨⟨_, hfirst.trans (if_pos hsm)⟩, ⟨_, hsecond.trans (if_pos hmt)⟩⟩
  · intro first second next next' hf hse
    refine ⟨h.sound.outcome_versionsBetween_append ?_ hover ht hf hse, fun fields hfields => ?_⟩
    · rwa [hmk, hmn] at hfrom
    · rw [List.flatMap_append]
      exact migrateFields_append (fun moved hmove =>
        h.sound.follows_between Definition.follows_declares hfrom hm hf hfields hmove) _ _

/-- A note that an article lost comes back as a number, without the text it held, and the title
gets another name: one step at a time or both at once. -/
theorem migrateFields_of_reused_name :
    let site := Call.afterAll (.empty (.ticking ⟨0, 0⟩) 10 10)
      [.createSchema .schema { name := "article", fields :=
          [{ name := "title", type := .string }, { name := "note", type := .string }] },
        .updateSchema .schema "article"
          { name := "article", fields := [{ name := "title", type := .string }] } [] none,
        .updateSchema .schema "article" { name := "article", fields :=
          [{ name := "headline", type := .html }, { name := "note", type := .number }] }
          [⟨"title", "headline"⟩] none]
    let fields : FieldMap := [("note", .string "draft"), ("title", .string "Hello")]
    ∃ source ∈ site.store.versions.rows, ∃ middle ∈ site.store.versions.rows,
      ∃ target ∈ site.store.versions.rows,
        outcome (versionsBetween source middle) site = (.ok [middle], site) ∧
          outcome (versionsBetween middle target) site = (.ok [target], site) ∧
          (∀ name ∈ Dict.keys fields, name ∈ source.definition.fieldNames) ∧
          migrateFields fields ([middle] ++ [target] |>.flatMap Version.changes)
              target.definition =
            (migrateFields fields middle.changes middle.definition).bind
              (fun moved => migrateFields moved target.changes target.definition) ∧
          migrateFields fields ([middle] ++ [target] |>.flatMap Version.changes)
              target.definition = .ok [("headline", .html "Hello")] := by
  intro site fields
  have hreach : Reachable site :=
    ((Managed.empty (.ticking ⟨0, 0⟩) 10 10).calls (by decide +kernel)).reachable
  have hversions : site.store.versions.rows.map (fun version =>
      (version.kind, version.name, version.number)) =
        [(.schema, "article", 1), (.schema, "article", 2), (.schema, "article", 3)] := by
    decide +kernel
  have hdeclared : ∀ source ∈ site.store.versions.rows.head?, ∀ name ∈ Dict.keys fields,
      name ∈ source.definition.fieldNames := by decide +kernel
  have hmigrated : site.store.versions.rows.getLast?.map (fun target =>
      migrateFields fields ((site.store.versions.rows.drop 1).flatMap Version.changes)
        target.definition) = some (.ok [("headline", .html "Hello")]) := rfl
  -- With its value gone, no step below evaluates the site again.
  clear_value site
  simp only [List.map_eq_cons_iff, List.map_eq_nil_iff, Prod.mk.injEq] at hversions
  obtain ⟨source, _, hrows, ⟨hk₁, hn₁, h₁⟩, middle, _, rfl, ⟨hk₂, hn₂, h₂⟩, target, _, rfl,
    ⟨hk₃, hn₃, h₃⟩, rfl⟩ := hversions
  have hs : source ∈ site.store.versions.rows := by simp [hrows]
  have hm : middle ∈ site.store.versions.rows := by simp [hrows]
  have ht : target ∈ site.store.versions.rows := by simp [hrows]
  have hchain : site.store.chainVersions .schema "article" = [source, middle, target] := by
    simp [Store.chainVersions, Version.inChain, hrows, hk₁, hn₁, hk₂, hn₂, hk₃, hn₃]
  have hfirst : outcome (versionsBetween source middle) site = (.ok [middle], site) := by
    rw [outcome_versionsBetween_of_mem hreach.sound (by simp [hk₂, hn₂, hchain]) hm
      (by simp [hk₂, hn₂, hchain])]
    simp [Store.versionsAfter, hk₂, hn₂, hchain, h₁, h₂, h₃]
  have hsecond : outcome (versionsBetween middle target) site = (.ok [target], site) := by
    rw [outcome_versionsBetween_of_mem hreach.sound (by simp [hk₃, hn₃, hchain]) ht
      (by simp [hk₃, hn₃, hchain])]
    simp [Store.versionsAfter, hk₃, hn₃, hchain, h₁, h₂, h₃]
  rw [hrows] at hdeclared hmigrated
  have hfields : ∀ name ∈ Dict.keys fields, name ∈ source.definition.fieldNames :=
    hdeclared source rfl
  have hall := ((hreach.migrateFields_stepwise hs hm ht (hk₁.trans hk₃.symm)
    (hn₁.trans hn₃.symm) (hk₂.trans hk₃.symm) (hn₂.trans hn₃.symm)).2 _ _ _ _ hfirst hsecond).2
  refine ⟨source, hs, middle, hm, target, ht, hfirst, hsecond, hfields, ?_,
    Option.some.inj hmigrated⟩
  simpa using hall fields hfields

end Site

end VersionedContent
