import VersionedContent.Proofs.Content.Conforms
import VersionedContent.Proofs.Site.Reach

/-!
# Values along a chain

The changes of the versions of a chain lead values that conform to one of them
to values that conform to a later one.
-/

namespace VersionedContent

namespace Store

variable {store : Store} {issued : Series} {kind : Kind} {name : String}

/-- What change lists keep, the changes of a version keep that lead to it from the one before. -/
theorem Chained.follows_next (h : Chained store issued) {P : Definition → FieldMap → Prop}
    (hf : Definition.Follows P) {i : Nat} {before version : Version}
    (hb : (store.chainVersions kind name)[i]? = some before)
    (hv : (store.chainVersions kind name)[i + 1]? = some version) {fields migrated : FieldMap}
    (hp : P before.definition fields)
    (hm : version.changes.foldlM Change.migrate fields = .ok migrated) :
    P version.definition migrated := by
  obtain ⟨hbrow, -, hbname⟩ := mem_chainVersions.mp (List.mem_of_getElem? hb)
  obtain ⟨hvrow, -, hvname⟩ := mem_chainVersions.mp (List.mem_of_getElem? hv)
  have hbd := Definition.distinct_of_issues (h.valid before hbrow)
  have hvd := Definition.distinct_of_issues (h.valid version hvrow)
  have hname : before.definition.name = version.definition.name := by
    rw [← h.named before hbrow, ← h.named version hvrow, hbname, hvname]
  obtain ⟨renames, hd⟩ := (h.linked kind name).derived hb hv
  obtain ⟨reached, happly, hsame, -⟩ := Definition.reached_of_difference hname hbd hvd hd
  refine hf.same hsame (hf.migrate_all hbd hp (fun order ho => ?_) happly hm)
  rw [Definition.reorder_of_difference hd ho]
  exact hvd

/-- What change lists keep, the changes of the versions after a version up to another one keep. -/
theorem Chained.follows_along (h : Chained store issued) {P : Definition → FieldMap → Prop}
    (hf : Definition.Follows P) {steps i : Nat} {source target : Version}
    (hs : (store.chainVersions kind name)[i]? = some source)
    (ht : (store.chainVersions kind name)[i + steps]? = some target) {fields migrated : FieldMap}
    (hp : P source.definition fields)
    (hm : ((((store.chainVersions kind name).drop (i + 1)).take steps).flatMap
      Version.changes).foldlM Change.migrate fields = .ok migrated) :
    P target.definition migrated := by
  induction steps generalizing i source fields with
  | zero =>
    obtain rfl := Except.ok.inj hm
    obtain rfl := Option.some.inj (hs.symm.trans ht)
    exact hp
  | succ steps ih =>
    obtain ⟨hlast, -⟩ := List.getElem?_eq_some_iff.mp ht
    have hi : i + 1 < (store.chainVersions kind name).length := by omega
    have hnext := List.getElem?_eq_getElem hi
    rw [List.drop_eq_getElem_cons hi, List.take_succ_cons, List.flatMap_cons,
      List.foldlM_append] at hm
    cases hmove : ((store.chainVersions kind name)[i + 1].changes).foldlM Change.migrate fields with
    | error error =>
      rw [hmove] at hm
      cases hm
    | ok moved =>
      rw [hmove] at hm
      have hplace : i + 1 + steps = i + (steps + 1) := by omega
      exact ih hnext (by rw [hplace, ht]) (h.follows_next hf hs hnext hp hmove) hm

/-- The changes of the versions after a version up to another one lead values that conform to the
one to values that conform to the other. -/
theorem Chained.conforms_along (h : Chained store issued) {steps i : Nat} {source target : Version}
    (hs : (store.chainVersions kind name)[i]? = some source)
    (ht : (store.chainVersions kind name)[i + steps]? = some target) {fields migrated : FieldMap}
    (hc : source.definition.Conforms fields)
    (hm : ((((store.chainVersions kind name).drop (i + 1)).take steps).flatMap
      Version.changes).foldlM Change.migrate fields = .ok migrated) :
    target.definition.Conforms migrated :=
  h.follows_along Definition.follows_conforms hs ht hc hm

end Store

namespace Site

/-- Whatever values conform to a stored version, the changes of the versions after it up to a
later one of its chain lead to values that conform to that one. -/
theorem Reachable.migrateFields_conforms {site : Site} (h : Reachable site)
    {source target : Version} (hs : source ∈ site.store.versions.rows)
    (ht : target ∈ site.store.versions.rows) (hk : source.kind = target.kind)
    (hn : source.name = target.name) :
    ((site.store.chainVersions target.kind target.name).length < 4294967296 →
      source.number ≤ target.number →
        ∃ steps, outcome (versionsBetween source target) site = (.ok steps, site) ∧
          steps.map Version.number =
            List.range' (source.number + 1) (target.number - source.number) ∧
          ∀ version ∈ steps, version ∈ site.store.versions.rows ∧ version.kind = target.kind ∧
            version.name = target.name) ∧
      ∀ steps next, outcome (versionsBetween source target) site = (.ok steps, next) →
        ∀ fields migrated, source.definition.Conforms fields →
          migrateFields fields (steps.flatMap Version.changes) target.definition = .ok migrated →
            target.definition.Conforms migrated := by
  have hsound := h.sound
  obtain ⟨i, hi⟩ := Store.exists_getElem?_of_mem hs
  rw [hk, hn] at hi
  obtain ⟨j, hj⟩ := Store.exists_getElem?_of_mem ht
  have hbetween := outcome_versionsBetween hsound hi hj
  constructor
  · intro hl hle
    obtain ⟨hjl, -⟩ := List.getElem?_eq_some_iff.mp hj
    rw [hsound.chained.number_eq hl hi, hsound.chained.number_eq hl hj] at hle ⊢
    refine ⟨_, hbetween.trans (if_pos (by omega)), ?_, fun version hm => ?_⟩
    · refine List.ext_getElem (by simp; omega) fun k hk _ => ?_
      rw [List.length_map] at hk
      have hget := List.getElem?_eq_getElem hk
      rw [List.getElem?_take_of_lt (by simp at hk; omega), List.getElem?_drop] at hget
      rw [List.getElem_map, List.getElem_range', hsound.chained.number_eq hl hget]
      omega
    · exact Store.mem_chainVersions.mp (List.mem_of_mem_drop (List.mem_of_mem_take hm))
  · intro steps next ho fields migrated hc hm
    obtain ⟨moved, hmove, rfl⟩ := exists_of_map_eq_ok hm
    refine Definition.Conforms.restrict ?_ _
    rw [hbetween] at ho
    split at ho
    · next hle =>
      obtain rfl := Except.ok.inj (congrArg Prod.fst ho)
      have hplace : i + (j - i) = j := by omega
      exact hsound.chained.conforms_along hi (by rw [hplace, hj]) hc hmove
    · cases congrArg Prod.fst ho

/-- A title that is text becomes markup when the schema does, and conforms to it. -/
theorem migrateFields_of_edited_schema :
    let site := (Call.updateSchema .schema "article"
      { name := "article", fields := [{ name := "title", type := .html }] } [] none).after
        ((Call.createSchema .schema
          { name := "article", fields := [{ name := "title", type := .string }] }).after
            (.empty (.ticking ⟨0, 0⟩) 10 10))
    ∃ source ∈ site.store.versions.rows, ∃ target ∈ site.store.versions.rows,
      outcome (versionsBetween source target) site = (.ok [target], site) ∧
        source.definition.Conforms [("title", .string "Hello")] ∧
        migrateFields [("title", .string "Hello")] target.changes target.definition =
          .ok [("title", .html "Hello")] ∧
        target.definition.Conforms [("title", .html "Hello")] := by
  intro site
  have hreach : Reachable site :=
    .call (.call (.empty (.ticking ⟨0, 0⟩) 10 10) (.createSchema _ _) trivial)
      (.updateSchema _ _ _ _ _) trivial
  have hlength : site.store.versions.rows.length = 2 := by decide +kernel
  have hs := List.getElem_mem (l := site.store.versions.rows) (n := 0) (by rw [hlength]; decide)
  have ht := List.getElem_mem (l := site.store.versions.rows) (n := 1) (by rw [hlength]; decide)
  have hconforms : (site.store.versions.rows[0]).definition.Conforms
      [("title", .string "Hello")] := by
    intro name value hv
    simp only [Dict.get?] at hv
    split at hv
    · next he =>
      obtain rfl := Option.some.inj hv
      refine ⟨{ name := "title", type := .string }, by rw [he]; rfl, ?_⟩
      exact (FieldSpec.fits_iff_of_single (by decide)).mpr
        (FieldSpec.fitsAs_of_plain rfl (by decide) (by decide))
    · cases hv
  have hsteps : outcome (versionsBetween site.store.versions.rows[0] site.store.versions.rows[1])
      site = (.ok [site.store.versions.rows[1]], site) := rfl
  have hmigrate : migrateFields [("title", .string "Hello")] site.store.versions.rows[1].changes
      site.store.versions.rows[1].definition = .ok [("title", .html "Hello")] := rfl
  have hall := (hreach.migrateFields_conforms hs ht rfl rfl).2
  refine ⟨_, hs, _, ht, hsteps, hconforms, hmigrate, ?_⟩
  exact hall _ _ hsteps _ _ hconforms (by simpa using hmigrate)

end Site

end VersionedContent
