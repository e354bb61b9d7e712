import VersionedContent.Proofs.Schema.Zeros
import VersionedContent.Proofs.Site.Ending

/-!
# The interval between two versions

The way from one version of a chain to another leads over the versions numbered
after the first up to the second, one by one, and the changes of these lead from
the definition of the first to that of the second. There is no way back, and none
from one chain to another.
-/

namespace VersionedContent

/-- Whether no two defaults of two definitions differ in the sign of a zero only. -/
def Definition.SignsAgree (a b : Definition) : Prop :=
  ∀ field ∈ a.fields, ∀ other ∈ b.fields,
    FieldSpec.sameDefault field.default other.default = true → field.default = other.default

namespace Store

variable {store : Store} {issued : Series} {kind : Kind} {name : String}

/-- The changes of the versions after a version up to another one lead from the definition of the
one to that of the other; to all of it unless two defaults differ in the sign of a zero. -/
theorem Chained.reached_along (h : Chained store issued) {steps i : Nat} {source target : Version}
    (hs : (store.chainVersions kind name)[i]? = some source)
    (ht : (store.chainVersions kind name)[i + steps]? = some target) :
    ∃ reached, source.definition.apply
        ((((store.chainVersions kind name).drop (i + 1)).take steps).flatMap Version.changes) =
          .ok reached ∧
      reached.same target.definition = true ∧
      ((∀ a ∈ source :: ((store.chainVersions kind name).drop (i + 1)).take steps,
        ∀ b ∈ ((store.chainVersions kind name).drop (i + 1)).take steps,
          a.definition.SignsAgree b.definition) → reached = target.definition) := by
  induction steps generalizing i source with
  | zero =>
    obtain rfl := Option.some.inj (hs.symm.trans ht)
    exact ⟨source.definition, rfl, Definition.same_iff_withoutSigns.mpr rfl, fun _ => rfl⟩
  | succ steps ih =>
    obtain ⟨hlast, -⟩ := List.getElem?_eq_some_iff.mp ht
    have hi : i + 1 < (store.chainVersions kind name).length := by omega
    have hnext := List.getElem?_eq_getElem hi
    have hplace : i + 1 + steps = i + (steps + 1) := by omega
    obtain ⟨stepped, hstep, hsame, hexact⟩ := h.reached_next hs hnext
    obtain ⟨reached, hrest, hreached, hall⟩ := ih hnext (by rw [hplace, ht])
    obtain ⟨found, hfound, hagrees⟩ := Definition.exists_apply_of_same hsame hrest
    rw [List.drop_eq_getElem_cons hi, List.take_succ_cons, List.flatMap_cons,
      Definition.apply_append, hstep]
    refine ⟨found, hfound, Definition.same_trans hagrees hreached, fun hz => ?_⟩
    -- Without a sign in the way every definition on the way is reached as it is.
    have hthere := hexact (hz source List.mem_cons_self _ List.mem_cons_self)
    rw [hthere, hrest] at hfound
    rw [← Except.ok.inj hfound]
    exact hall fun a ha b hb => hz a (List.mem_cons_of_mem _ ha) b (List.mem_cons_of_mem _ hb)

/-- While a chain can be numbered, the versions after one up to another one are numbered in a
row. -/
theorem Chained.map_number_versionsAfter (h : Chained store issued) {source target : Version}
    (hs : source ∈ store.chainVersions target.kind target.name)
    (ht : target ∈ store.versions.rows)
    (hl : (store.chainVersions target.kind target.name).length < 4294967296) :
    (store.versionsAfter source target).map Version.number =
      List.range' (source.number + 1) (target.number - source.number) := by
  obtain ⟨i, hi⟩ := List.mem_iff_getElem?.mp hs
  obtain ⟨j, hj⟩ := exists_getElem?_of_mem ht
  obtain ⟨hlast, -⟩ := List.getElem?_eq_some_iff.mp hj
  rw [h.versionsAfter_eq hl hi hj, h.number_eq hl hi, h.number_eq hl hj]
  refine List.ext_getElem? fun k => ?_
  rw [List.getElem?_map, List.getElem?_take, List.getElem?_drop]
  split_ifs with hk
  · have hplace := List.getElem?_eq_getElem (show i + 1 + k <
      (store.chainVersions target.kind target.name).length by omega)
    rw [hplace, Option.map_some, h.number_eq hl hplace, List.getElem?_range' (by omega)]
    congr 1
    omega
  · rw [List.getElem?_eq_none (by simp; omega)]
    rfl

end Store

namespace Site

open VersionedContent.Action

/-- There is no way from one chain to another. -/
theorem outcome_versionsBetween_of_apart {source target : Version}
    (h : source.kind ≠ target.kind ∨ source.name ≠ target.name) (site : Site) :
    outcome (versionsBetween source target) site =
      (.error (.validation (.differentChains source.kind source.name target.kind target.name)),
        site) := by
  unfold versionsBetween
  dsimp only
  rw [if_pos h]
  rfl

/-- A way that is found leads over the versions in between, one by one, and its changes lead from
the one definition to the other. -/
theorem Sound.interval_of_between {site : Site} (h : Sound site) {source target : Version}
    (hs : source ∈ site.store.chainVersions target.kind target.name)
    (ht : target ∈ site.store.versions.rows)
    (hl : (site.store.chainVersions target.kind target.name).length < 4294967296)
    {steps : List Version} {next : Site}
    (ho : outcome (versionsBetween source target) site = (.ok steps, next)) :
    steps.map Version.number = List.range' (source.number + 1) (target.number - source.number) ∧
      (∀ version, version ∈ steps ↔ version ∈ site.store.versions.rows ∧
        version.kind = target.kind ∧ version.name = target.name ∧
        source.number < version.number ∧ version.number ≤ target.number) ∧
      ∃ reached, source.definition.apply (steps.flatMap Version.changes) = .ok reached ∧
        reached.same target.definition = true ∧
        ((∀ a ∈ source :: steps, ∀ b ∈ steps, a.definition.SignsAgree b.definition) →
          reached = target.definition) := by
  rw [outcome_versionsBetween_of_mem h hs ht hl] at ho
  split at ho
  · next hle =>
    obtain rfl := Except.ok.inj (congrArg Prod.fst ho)
    refine ⟨h.chained.map_number_versionsAfter hs ht hl, fun version => ?_, ?_⟩
    · simp [Store.versionsAfter, Store.mem_chainVersions, and_assoc]
    · obtain ⟨i, hi⟩ := List.mem_iff_getElem?.mp hs
      obtain ⟨j, hj⟩ := Store.exists_getElem?_of_mem ht
      rw [h.chained.number_eq hl hi, h.chained.number_eq hl hj] at hle
      have hplace : i + (j - i) = j := by omega
      rw [h.chained.versionsAfter_eq hl hi hj]
      exact h.chained.reached_along hi (by rw [hplace, hj])
  · cases congrArg Prod.fst ho

/-- From one stored version to another one there is a way, which is gone to its end, exactly when
the second is of the chain of the first and comes no earlier. It leads over the versions in
between and its changes lead from the one definition to the other. -/
theorem Reachable.versionsBetween_interval {site : Site} (h : Reachable site)
    (hl : ∀ kind name, (site.store.chainVersions kind name).length < 4294967296)
    {source target : Version} (hs : source ∈ site.store.versions.rows)
    (ht : target ∈ site.store.versions.rows) :
    EndsAs (fun limit => versionsBetween source target limit) (versionsBetween source target)
        site ∧
      ((∃ steps, outcome (versionsBetween source target) site = (.ok steps, site)) ↔
        source.kind = target.kind ∧ source.name = target.name ∧ source.number ≤ target.number) ∧
      (∀ steps next, outcome (versionsBetween source target) site = (.ok steps, next) →
        steps.map Version.number =
            List.range' (source.number + 1) (target.number - source.number) ∧
          (∀ version, version ∈ steps ↔ version ∈ site.store.versions.rows ∧
            version.kind = target.kind ∧ version.name = target.name ∧
            source.number < version.number ∧ version.number ≤ target.number) ∧
          ∃ reached, source.definition.apply (steps.flatMap Version.changes) = .ok reached ∧
            reached.same target.definition = true ∧
            ((∀ a ∈ source :: steps, ∀ b ∈ steps, a.definition.SignsAgree b.definition) →
              reached = target.definition)) ∧
      (source.kind ≠ target.kind ∨ source.name ≠ target.name →
        outcome (versionsBetween source target) site =
          (.error (.validation (.differentChains source.kind source.name target.kind
            target.name)), site)) ∧
      (source.kind = target.kind → source.name = target.name → target.number < source.number →
        outcome (versionsBetween source target) site =
          (.error (.conflict (.notAhead target.kind target.name target.number source.number)),
            site)) := by
  have hsound := h.sound
  have hends := endsAs_versionsBetween hsound hs target
  by_cases hchain : source.kind ≠ target.kind ∨ source.name ≠ target.name
  · have hno := outcome_versionsBetween_of_apart hchain site
    refine ⟨hends, ⟨?_, ?_⟩, ?_, fun _ => hno, ?_⟩
    · rintro ⟨steps, ho⟩
      rw [hno] at ho
      cases congrArg Prod.fst ho
    · rintro ⟨hk, hn, -⟩
      exact absurd hchain (by simp [hk, hn])
    · intro steps next ho
      rw [hno] at ho
      cases congrArg Prod.fst ho
    · intro hk hn
      exact absurd hchain (by simp [hk, hn])
  · obtain ⟨hk, hn⟩ := not_or.mp hchain
    rw [not_not] at hk hn
    have hin : source ∈ site.store.chainVersions target.kind target.name :=
      Store.mem_chainVersions.mpr ⟨hs, hk, hn⟩
    have hbetween := outcome_versionsBetween_of_mem hsound hin ht (hl _ _)
    refine ⟨hends, ⟨?_, ?_⟩, ?_, fun hc => absurd hc hchain, ?_⟩
    · rintro ⟨steps, ho⟩
      refine ⟨hk, hn, ?_⟩
      by_contra hlt
      rw [hbetween, if_neg hlt] at ho
      cases congrArg Prod.fst ho
    · rintro ⟨-, -, hle⟩
      exact ⟨_, hbetween.trans (if_pos hle)⟩
    · exact fun steps next => hsound.interval_of_between hin ht (hl _ _)
    · intro _ _ hlt
      exact hbetween.trans (if_neg (Nat.not_le.mpr hlt))

/-- An article that is edited twice, with a quote in between: the way leads past the quote to the
third version, and neither back nor over to the quote. -/
theorem versionsBetween_of_third_article :
    let site := Call.afterAll (.empty (.ticking ⟨0, 0⟩) 10 10)
      [.createSchema .schema
          { name := "article", fields := [{ name := "title", type := .string }] },
        .updateSchema .schema "article"
          { name := "article", fields := [{ name := "title", type := .html }] } [] none,
        .createSchema .microschema
          { name := "quote", fields := [{ name := "text", type := .string }] },
        .updateSchema .schema "article" { name := "article", fields :=
          [{ name := "text", type := .html }, { name := "title", type := .html }] } [] none]
    (∀ kind name, (site.store.chainVersions kind name).length < 4294967296) ∧
      ∃ first ∈ site.store.versions.rows, ∃ second ∈ site.store.versions.rows,
        ∃ quote ∈ site.store.versions.rows, ∃ third ∈ site.store.versions.rows,
          outcome (versionsBetween first third) site = (.ok [second, third], site) ∧
            first.definition.apply (second.changes ++ third.changes) = .ok third.definition ∧
            outcome (versionsBetween third first) site =
              (.error (.conflict (.notAhead .schema "article" 1 3)), site) ∧
            outcome (versionsBetween quote third) site =
              (.error (.validation (.differentChains .microschema "quote" .schema "article")),
                site) := by
  intro site
  have hreach : Reachable site :=
    ((Managed.empty (.ticking ⟨0, 0⟩) 10 10).calls (by decide +kernel)).reachable
  have hversions : site.store.versions.rows.map (fun version =>
      (version.kind, version.name, version.number)) =
        [(.schema, "article", 1), (.schema, "article", 2), (.microschema, "quote", 1),
          (.schema, "article", 3)] := by decide +kernel
  have hdefaults : site.store.versions.rows.all (fun version =>
      version.definition.fields.all fun field => field.default.isNone) = true := by decide +kernel
  -- With its value gone, no step below evaluates the site again.
  clear_value site
  have hlength : site.store.versions.rows.length = 4 := by
    simpa using congrArg List.length hversions
  have hl : ∀ kind name, (site.store.chainVersions kind name).length < 4294967296 :=
    fun kind name => Nat.lt_of_le_of_lt (List.length_filter_le _ _) (by rw [hlength]; decide)
  simp only [List.map_eq_cons_iff, List.map_eq_nil_iff, Prod.mk.injEq] at hversions
  obtain ⟨first, _, hrows, ⟨hk₁, hn₁, h₁⟩, second, _, rfl, ⟨hk₂, hn₂, h₂⟩, quote, _, rfl,
    ⟨hk₃, hn₃, -⟩, third, _, rfl, ⟨hk₄, hn₄, h₄⟩, rfl⟩ := hversions
  have hfirst : first ∈ site.store.versions.rows := by simp [hrows]
  have hsecond : second ∈ site.store.versions.rows := by simp [hrows]
  have hquote : quote ∈ site.store.versions.rows := by simp [hrows]
  have hthird : third ∈ site.store.versions.rows := by simp [hrows]
  have hchain : site.store.chainVersions .schema "article" = [first, second, third] := by
    simp [Store.chainVersions, Version.inChain, hrows, hk₁, hn₁, hk₂, hn₂, hk₃, hk₄, hn₄]
  have hsteps : outcome (versionsBetween first third) site = (.ok [second, third], site) := by
    rw [outcome_versionsBetween_of_mem hreach.sound (by simp [hk₄, hn₄, hchain]) hthird (hl _ _)]
    simp [Store.versionsAfter, hk₄, hn₄, hchain, h₁, h₂, h₄]
  have hsigns : ∀ a ∈ site.store.versions.rows, ∀ b ∈ site.store.versions.rows,
      a.definition.SignsAgree b.definition := by
    intro a ha b hb field hf other ho _
    simp only [List.all_eq_true, Option.isNone_iff_eq_none] at hdefaults
    rw [hdefaults a ha field hf, hdefaults b hb other ho]
  obtain ⟨-, -, hway, -, -⟩ := hreach.versionsBetween_interval hl hfirst hthird
  obtain ⟨-, -, reached, happly, -, hexact⟩ := hway _ _ hsteps
  obtain ⟨-, -, -, -, hback⟩ := hreach.versionsBetween_interval hl hthird hfirst
  obtain ⟨-, -, -, hover, -⟩ := hreach.versionsBetween_interval hl hquote hthird
  refine ⟨hl, first, hfirst, second, hsecond, quote, hquote, third, hthird, hsteps, ?_, ?_, ?_⟩
  · rw [← hexact fun a ha b hb => hsigns a ?_ b ?_]
    · simpa using happly
    · simp only [List.mem_cons, List.not_mem_nil, or_false] at ha
      rcases ha with rfl | rfl | rfl <;> assumption
    · simp only [List.mem_cons, List.not_mem_nil, or_false] at hb
      rcases hb with rfl | rfl <;> assumption
  · rw [hback (hk₄.trans hk₁.symm) (hn₄.trans hn₁.symm) (by rw [h₁, h₄]; decide), hk₁, hn₁, h₁, h₄]
  · rw [hover (.inl (by rw [hk₃, hk₄]; decide)), hk₃, hn₃, hk₄, hn₄]

end Site

end VersionedContent
