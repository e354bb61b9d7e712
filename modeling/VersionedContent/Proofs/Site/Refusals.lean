import VersionedContent.Proofs.Content.Refusal
import VersionedContent.Proofs.Site.Reach

/-!
# What fails along a chain

A version adds fields of its own definition only, whose defaults were read when it
was stored. So no default fails when stored values are migrated, however late that
is: along a chain it is always an update that refuses a value.
-/

namespace VersionedContent

namespace Store

variable {store next : Store} {issued issued' : Series}

/-- Whether every version adds fields of its own definition only. -/
def AddsOwn (store : Store) : Prop :=
  ∀ version ∈ store.versions.rows, ∀ field position,
    .addField field position ∈ version.changes → field ∈ version.definition.fields

/-- A version that is stored later adds fields of its own definition only. -/
theorem Extends.addsOwn (h : Chained store issued) (he : Extends store issued next issued')
    (ha : AddsOwn store) : AddsOwn next := by
  cases he with
  | same => exact ha
  | root valid referenced free =>
    intro version hv field position hm
    rcases (Table.mem_insert _ _ _).mp hv with rfl | ⟨hv, -⟩
    · cases hm
    · exact ha version hv field position hm
  | @successor createdAt kind name latest definition renames changes found named valid referenced
      differs =>
    intro version hv field position hm
    rcases (Table.mem_insert _ _ _).mp hv with rfl | ⟨hv, -⟩
    · exact Definition.mem_fields_of_difference differs hm
    · rcases (Table.mem_insert _ _ _).mp hv with rfl | ⟨hv, -⟩
      · obtain ⟨init, hc⟩ := h.latest_eq_concat found
        have hlatest : latest ∈ store.chainVersions kind name := by simp [hc]
        exact ha latest (mem_chainVersions.mp hlatest).1 field position hm
      · exact ha version hv field position hm

end Store

namespace Site

/-- Every call leaves versions that add fields of their own definition only. -/
theorem Sound.addsOwn {site : Site} (h : Sound site) {call : Call} (ha : call.Allowed site)
    (hown : site.store.AddsOwn) : (call.after site).store.AddsOwn := by
  rcases h.registers_or_harmless ha with hr | hs
  · exact hr.store.addsOwn h.chained hown
  · unfold Store.AddsOwn
    rw [hs.versions]
    exact hown

/-- The versions of every reachable site add fields of their own definition only. -/
theorem Reachable.addsOwn {site : Site} (h : Reachable site) : site.store.AddsOwn := by
  induction h with
  | empty clock bucketSize eventBuffer => exact fun _ hv => (List.not_mem_nil hv).elim
  | call reached call allowed ih => exact reached.sound.addsOwn allowed ih

/-- The default of a field that a stored version adds reads. -/
theorem Reachable.exists_read {site : Site} (h : Reachable site) {version : Version}
    (hv : version ∈ site.store.versions.rows) {field : FieldSpec} {position : Option Nat}
    (hm : .addField field position ∈ version.changes) {json : Json}
    (hd : field.default = some json) : ∃ value, field.read json = .ok value :=
  Definition.exists_read_of_issues (h.sound.chained.valid version hv)
    (h.addsOwn version hv field position hm) hd

/-- The versions on the way between two versions of a chain are stored ones. -/
theorem Sound.mem_rows_of_between {site : Site} (h : Sound site) {source target : Version}
    (hs : source ∈ site.store.chainVersions target.kind target.name)
    (ht : target ∈ site.store.versions.rows) {steps : List Version} {next : Site}
    (ho : outcome (versionsBetween source target) site = (.ok steps, next)) {version : Version}
    (hm : version ∈ steps) : version ∈ site.store.versions.rows := by
  obtain ⟨i, hi⟩ := List.mem_iff_getElem?.mp hs
  obtain ⟨j, hj⟩ := Store.exists_getElem?_of_mem ht
  obtain ⟨-, rfl⟩ := of_outcome_versionsBetween_eq_ok h hi hj ho
  exact (Store.mem_chainVersions.mp (List.mem_of_mem_drop (List.mem_of_mem_take hm))).1

/-- No default of a field that a stored version adds fails to read, and whatever values fail to be
migrated from one version of a chain to a later one, it is an update on the way that fails: under
its name the changes before it lead to a value, which the field refuses. -/
theorem Reachable.migrateFields_refused {site : Site} (h : Reachable site) :
    (∀ version ∈ site.store.versions.rows, ∀ field position,
      .addField field position ∈ version.changes → ∀ json, field.default = some json →
        ∃ value, field.read json = .ok value) ∧
      ∀ source ∈ site.store.versions.rows, ∀ target ∈ site.store.versions.rows,
        source.kind = target.kind → source.name = target.name →
          ((site.store.chainVersions target.kind target.name).length < 4294967296 →
            source.number ≤ target.number →
              ∃ steps, outcome (versionsBetween source target) site = (.ok steps, site)) ∧
            ∀ steps next, outcome (versionsBetween source target) site = (.ok steps, next) →
              ∀ fields error,
                migrateFields fields (steps.flatMap Version.changes) target.definition =
                  .error error →
                ∃ before field after moved value,
                  steps.flatMap Version.changes = before ++ .updateField field :: after ∧
                    error.field = field.name ∧
                    before.foldlM Change.migrate fields = .ok moved ∧
                    Dict.get? moved field.name = some value ∧
                    field.convert value = .error error.cause := by
  refine ⟨fun version hv field position hm json hd => h.exists_read hv hm hd,
    fun source hs target ht hk hn => ?_⟩
  have hchain : source ∈ site.store.chainVersions target.kind target.name :=
    Store.mem_chainVersions.mpr ⟨hs, hk, hn⟩
  refine ⟨fun hl hle => ?_, fun steps next ho fields error herror => ?_⟩
  · exact ⟨_, (outcome_versionsBetween_of_mem h.sound hchain ht hl).trans (if_pos hle)⟩
  · refine exists_of_migrateFields_eq_error (fun field position hm => ?_) herror
    obtain ⟨version, hv, hadd⟩ := List.mem_flatMap.mp hm
    rw [FieldSpec.exists_initial_eq_ok_iff]
    exact fun json hd => h.exists_read (h.sound.mem_rows_of_between hchain ht ho hv) hadd hd

/-- A price that is text becomes a number, beside a currency with a default: the default reads, and
content whose price is no number fails at the price. -/
theorem migrateFields_of_priceless_offer :
    let site := Call.afterAll (.empty (.ticking ⟨0, 0⟩) 10 10)
      [.createSchema .schema
          { name := "offer", fields := [{ name := "price", type := .string }] },
        .updateSchema .schema "offer" { name := "offer", fields :=
          [{ name := "currency", type := .string, default := some (.string "EUR") },
            { name := "price", type := .number }] } [] none]
    let fields : FieldMap := [("price", .string "on request")]
    ∃ source ∈ site.store.versions.rows, ∃ target ∈ site.store.versions.rows,
      outcome (versionsBetween source target) site = (.ok [target], site) ∧
        (∃ field position, .addField field position ∈ target.changes ∧
          field.default = some (.string "EUR") ∧
            ∃ value, field.read (.string "EUR") = .ok value) ∧
        migrateFields fields target.changes target.definition =
          .error ⟨"price", .notNumber "on request"⟩ ∧
        ∃ before field after moved value,
          target.changes = before ++ .updateField field :: after ∧ "price" = field.name ∧
            before.foldlM Change.migrate fields = .ok moved ∧
            Dict.get? moved field.name = some value ∧
            field.convert value = .error (.notNumber "on request") := by
  intro site fields
  have hreach : Reachable site :=
    ((Managed.empty (.ticking ⟨0, 0⟩) 10 10).calls (by decide +kernel)).reachable
  have hversions : site.store.versions.rows.map (fun version =>
      (version.kind, version.name, version.number)) =
        [(.schema, "offer", 1), (.schema, "offer", 2)] := by decide +kernel
  have hchanges : site.store.versions.rows.getLast?.map Version.changes =
      some [.addField { name := "currency", type := .string, default := some (.string "EUR") }
        (some 0), .updateField { name := "price", type := .number }] := rfl
  -- With its value gone, no step below evaluates the site again.
  clear_value site
  simp only [List.map_eq_cons_iff, List.map_eq_nil_iff, Prod.mk.injEq] at hversions
  obtain ⟨source, _, hrows, ⟨hk₁, hn₁, h₁⟩, target, _, rfl, ⟨hk₂, hn₂, h₂⟩, rfl⟩ := hversions
  have hs : source ∈ site.store.versions.rows := by simp [hrows]
  have ht : target ∈ site.store.versions.rows := by simp [hrows]
  have hchain : site.store.chainVersions .schema "offer" = [source, target] := by
    simp [Store.chainVersions, Version.inChain, hrows, hk₁, hn₁, hk₂, hn₂]
  have hsteps : outcome (versionsBetween source target) site = (.ok [target], site) := by
    rw [outcome_versionsBetween_of_mem hreach.sound (by simp [hk₂, hn₂, hchain]) ht
      (by simp [hk₂, hn₂, hchain])]
    simp [Store.versionsAfter, hk₂, hn₂, hchain, h₁, h₂]
  rw [hrows] at hchanges
  have hlast : target.changes = _ := Option.some.inj hchanges
  have hfails : migrateFields fields target.changes target.definition =
      .error ⟨"price", .notNumber "on request"⟩ := by
    rw [hlast]
    rfl
  obtain ⟨hreads, hrefused⟩ := hreach.migrateFields_refused
  have hadded : .addField { name := "currency", type := .string, default := some (.string "EUR") }
      (some 0) ∈ target.changes := by simp [hlast]
  obtain ⟨value, hread⟩ := hreads target ht _ _ hadded _ rfl
  have hall := (hrefused source hs target ht (hk₁.trans hk₂.symm) (hn₁.trans hn₂.symm)).2 _ _
    hsteps fields _ (by simpa using hfails)
  exact ⟨source, hs, target, ht, hsteps, ⟨_, _, hadded, rfl, value, hread⟩, hfails,
    by simpa using hall⟩

end Site

end VersionedContent
