import VersionedContent.Proofs.Schema.Compiled
import VersionedContent.Proofs.Site.Reach

/-!
# Compiled versions and the store

What is kept compiled never expires, and it may have been made of a version that
was read long ago. It agrees with the store all the same: a stored version only
ever changes in its link, which nothing of a compiled version but that link shows.
So the version of a place is had compiled exactly when it is stored, and a look-up
that fails keeps nothing.
-/

namespace VersionedContent.Site

open VersionedContent.Action

variable {site : Site} {lent : List Version}

/-- Whether a call is one of the registry, and compiles of given versions only those that have been
read. -/
def Call.Consults (lent : List Version) : Call → Prop
  | createSchema _ _ => True
  | updateSchema _ _ _ _ _ => True
  | createVersion _ _ _ => True
  | compiledAt _ => True
  | compiledForVersion version => version ∈ lent
  | invalidateCompiled _ => True
  | clearCompiled => True
  | _ => False

/-- The sites that calls of the registry lead to, with the versions that have been read on the
way. -/
inductive Consulted : Site → List Version → Prop
  /-- Nothing has been compiled or read at first. -/
  | start {site : Site} (reached : Reachable site) (bare : site.cache = []) : Consulted site []
  /-- A stored version may be read. -/
  | read {site : Site} {lent : List Version} (reached : Consulted site lent) {version : Version}
      (stored : version ∈ site.store.versions.rows) : Consulted site (version :: lent)
  /-- A call of the registry may follow. -/
  | call {site : Site} {lent : List Version} (reached : Consulted site lent) (call : Call)
      (consults : call.Consults lent) : Consulted (call.after site) lent

/-- Whether a compiled version is that of a place: it reflects a stored version there, which is the
only one while its chain can be numbered. -/
def Backs (site : Site) (key : CacheKey) (kept : Compiled) : Prop :=
  ∃ stored ∈ site.store.versions.rows, CacheKey.ofVersion stored = key ∧ kept.Reflects stored ∧
    ((site.store.chainVersions key.kind key.name).length < 4294967296 →
      ∀ other ∈ site.store.versions.rows, CacheKey.ofVersion other = key → other = stored)

/-- What the kept compiled versions and the versions that have been read have to do with the
store. -/
structure Lends (site : Site) (lent : List Version) : Prop where
  /-- What is kept under a place reflects a stored version there. -/
  cache : ∀ entry ∈ site.cache, ∃ stored ∈ site.store.versions.rows,
    CacheKey.ofVersion stored = entry.1 ∧ entry.2.Reflects stored
  /-- What has been read is stored, apart from the link to the next version. -/
  lent : ∀ version ∈ lent, ∃ stored ∈ site.store.versions.rows,
    stored.unlinked = version.unlinked

/-- Stored versions stay, so that what is kept and read goes on to agree with them. -/
theorem Lends.of_persists {next : Site} (h : Lends site lent)
    (hv : ∀ version ∈ site.store.versions.rows, ∃ link,
      { version with next := link } ∈ next.store.versions.rows)
    (hc : ∀ entry ∈ next.cache, entry ∈ site.cache) : Lends next lent where
  cache entry hm := by
    obtain ⟨stored, hs, hkey, hreflects⟩ := h.cache entry (hc entry hm)
    obtain ⟨link, hlinked⟩ := hv stored hs
    exact ⟨_, hlinked, hkey, hreflects.of_unlinked_eq rfl⟩
  lent version hm := by
    obtain ⟨stored, hs, hsame⟩ := h.lent version hm
    obtain ⟨link, hlinked⟩ := hv stored hs
    exact ⟨_, hlinked, hsame⟩

/-- With the same versions, nothing more need be kept. -/
theorem Lends.of_subset {next : Site} (h : Lends site lent) (hv : next.store = site.store)
    (hc : ∀ entry ∈ next.cache, entry ∈ site.cache) : Lends next lent :=
  h.of_persists (fun version hm => ⟨version.next, by rw [hv]; exact hm⟩) hc

/-- What reflects a stored version may be kept under its place. -/
theorem Lends.insert (h : Lends site lent) {stored : Version}
    (hs : stored ∈ site.store.versions.rows) {compiled : Compiled}
    (hr : compiled.Reflects stored) :
    Lends { site with cache := site.cache.insert (.ofVersion stored) compiled } lent where
  cache entry hm := by
    rcases List.mem_cons.mp hm with rfl | hm
    · exact ⟨stored, hs, rfl, hr⟩
    · exact h.cache entry (mem_of_mem_invalidate hm)
  lent := h.lent

/-- What reflects a stored version is that of its place. -/
theorem Sound.backs (h : Sound site) {stored : Version} (hs : stored ∈ site.store.versions.rows)
    {kept : Compiled} (hr : kept.Reflects stored) : Backs site (.ofVersion stored) kept :=
  ⟨stored, hs, rfl, hr, fun hl _ ho he => eq_of_place_eq h.chained hs ho hl he⟩

/-- What is kept under a place is that of the place. -/
theorem Lends.backs_of_get? (h : Lends site lent) (hs : Sound site) {key : CacheKey}
    {kept : Compiled} (hk : site.cache.get? key = some kept) : Backs site key kept := by
  obtain ⟨before, after, he, -⟩ := List.lookup_eq_some_iff.mp hk
  obtain ⟨stored, hm, rfl, hr⟩ := h.cache (key, kept) (by rw [he]; simp)
  exact hs.backs hm hr

/-- Compiling a version keeps it under a place, or keeps nothing. -/
theorem outcome_compileAs (key : CacheKey) (version : Version) (site : Site) :
    outcome (compileAs key version) site =
      match Compiled.ofVersion version with
      | .error issues =>
        (.error (.validation (.definition version.kind version.definition.name issues)), site)
      | .ok compiled =>
        (.ok compiled, { site with cache := site.cache.insert key compiled }) := by
  unfold compileAs
  cases Compiled.ofVersion version <;> rfl

/-- A given version is had compiled as what is kept for its place, else it is compiled itself. -/
theorem outcome_compiledForVersion_eq (version : Version) (site : Site) :
    outcome (compiledForVersion version) site =
      match site.cache.get? (.ofVersion version) with
      | some kept => (.ok kept, site)
      | none => outcome (compileAs (.ofVersion version) version) site := by
  unfold compiledForVersion
  rw [outcome_bind_of_ok (outcome_get site)]
  cases site.cache.get? (.ofVersion version) <;> rfl

/-- The version of a place is had compiled if one is stored, and else the look-up fails without
keeping anything. -/
theorem Lends.outcome_compiledAt (h : Lends site lent) (hs : Sound site) (key : CacheKey) :
    (∃ kept cache, outcome (compiledAt key) site = (.ok kept, { site with cache := cache }) ∧
      Backs site key kept ∧ Lends { site with cache := cache } lent) ∨
    (∃ failure, outcome (compiledAt key) site = (.error failure, site)) ∧
      ∀ stored ∈ site.store.versions.rows, CacheKey.ofVersion stored ≠ key := by
  have hcompiled := Site.outcome_compiledAt key site
  cases hk : site.cache.get? key with
  | some kept =>
    rw [hk] at hcompiled
    exact .inl ⟨kept, site.cache, hcompiled, h.backs_of_get? hs hk, h⟩
  | none =>
    rw [hk] at hcompiled
    cases hf : site.store.findVersion? key.kind key.name key.number with
    | none =>
      rw [hf] at hcompiled
      refine .inr ⟨⟨_, hcompiled⟩, fun stored hm he => ?_⟩
      subst he
      have hnone := List.find?_eq_none.mp hf stored (Store.mem_chainVersions.mpr ⟨hm, rfl, rfl⟩)
      simp [CacheKey.ofVersion] at hnone
    | some stored =>
      obtain ⟨hm, rfl⟩ := of_findVersion? hf
      obtain ⟨compiled, hc⟩ := Compiled.exists_ofVersion (hs.chained.valid stored hm)
      have hr := Compiled.reflects_of_ofVersion hc
      simp only [hf, hc] at hcompiled
      exact .inl ⟨compiled, _, hcompiled, hs.backs hm hr, h.insert hm hr⟩

/-- A version that has been read is had compiled, however long ago that was. -/
theorem Lends.outcome_compiledForVersion (h : Lends site lent) (hs : Sound site)
    {version : Version} (hl : version ∈ lent) :
    ∃ kept cache, outcome (compiledForVersion version) site =
      (.ok kept, { site with cache := cache }) ∧
      Backs site (.ofVersion version) kept ∧ Lends { site with cache := cache } lent := by
  have hcompiled := outcome_compiledForVersion_eq version site
  cases hk : site.cache.get? (.ofVersion version) with
  | some kept =>
    rw [hk] at hcompiled
    exact ⟨kept, site.cache, hcompiled, h.backs_of_get? hs hk, h⟩
  | none =>
    obtain ⟨stored, hm, hsame⟩ := h.lent version hl
    have hplace : CacheKey.ofVersion stored = .ofVersion version :=
      (congrArg CacheKey.ofVersion hsame :)
    have hvalid : version.definition.issues version.kind = [] := by
      have hdefinition : stored.definition = version.definition :=
        (congrArg Version.definition hsame :)
      have hkind : stored.kind = version.kind := (congrArg Version.kind hsame :)
      rw [← hdefinition, ← hkind]
      exact hs.chained.valid stored hm
    obtain ⟨compiled, hc⟩ := Compiled.exists_ofVersion hvalid
    have hr := (Compiled.reflects_of_ofVersion hc).of_unlinked_eq hsame
    simp only [hk, outcome_compileAs, hc] at hcompiled
    rw [← hplace] at hcompiled ⊢
    exact ⟨compiled, _, hcompiled, hs.backs hm hr, h.insert hm hr⟩

/-- A given version that cannot be had compiled leaves what is kept as it is. -/
theorem outcome_compiledForVersion_of_error {version : Version} {failure : Failure} {next : Site}
    (h : outcome (compiledForVersion version) site = (.error failure, next)) : next = site := by
  rw [outcome_compiledForVersion_eq] at h
  cases hk : site.cache.get? (.ofVersion version) with
  | some kept =>
    rw [hk] at h
    cases h
  | none =>
    rw [hk] at h
    dsimp only at h
    rw [outcome_compileAs] at h
    cases hc : Compiled.ofVersion version with
    | ok compiled =>
      rw [hc] at h
      cases h
    | error issues =>
      rw [hc] at h
      exact (Prod.mk.inj h).2.symm

/-- Sites that calls of the registry lead to are reachable. -/
theorem Consulted.reachable (h : Consulted site lent) : Reachable site := by
  induction h with
  | start reached bare => exact reached
  | read reached stored ih => exact ih
  | call reached call consults ih =>
    refine ih.call call ?_
    cases call with
    | addContent branchId nodeId language schemaVersionId fields types => exact consults.elim
    | _ => trivial

/-- Calls of the registry made one after another lead on. -/
theorem Consulted.calls (h : Consulted site lent) {calls : List Call}
    (hc : ∀ call ∈ calls, call.Consults lent) : Consulted (Call.afterAll site calls) lent := by
  induction calls generalizing site with
  | nil => exact h
  | cons call calls ih =>
    exact ih (h.call call (hc call List.mem_cons_self))
      fun other hm => hc other (List.mem_cons_of_mem _ hm)

/-- Calls of the registry keep what is compiled and what has been read in agreement with the
store. -/
theorem Lends.after (h : Lends site lent) (hs : Sound site) {call : Call}
    (hc : call.Consults lent) : Lends (call.after site) lent := by
  have hregisters {next : Site} (hr : Registers site next) : Lends next lent :=
    h.of_persists (fun version hm => by
      obtain ⟨link, hlinked, -⟩ := hr.store.persists hs.chained hm
      exact ⟨link, hlinked⟩) hr.cache
  cases call with
  | createSchema kind definition =>
    exact hregisters (registers_createSchema hs.outages kind definition)
  | updateSchema kind name definition renames expected =>
    exact hregisters (registers_updateSchema hs.outages kind name definition renames expected)
  | createVersion kind definition renames =>
    exact hregisters (registers_createVersion hs.outages kind definition renames)
  | compiledAt key =>
    rw [Call.after]
    rcases h.outcome_compiledAt hs key with ⟨kept, cache, ho, -, hnext⟩ | ⟨⟨failure, ho⟩, -⟩
    · rw [ho]
      exact hnext
    · rw [ho]
      exact h
  | compiledForVersion version =>
    obtain ⟨kept, cache, ho, -, hnext⟩ := h.outcome_compiledForVersion hs hc
    rw [Call.after, ho]
    exact hnext
  | invalidateCompiled key => exact h.of_subset rfl fun _ hm => mem_of_mem_invalidate hm
  | clearCompiled => exact h.of_subset rfl fun _ hm => absurd hm List.not_mem_nil
  | _ => exact hc.elim

/-- What is compiled and what has been read agrees with the store all along. -/
theorem Consulted.lends (h : Consulted site lent) : Lends site lent := by
  induction h with
  | start reached bare =>
    exact ⟨fun _ hm => absurd (bare ▸ hm) List.not_mem_nil, fun _ hm => absurd hm List.not_mem_nil⟩
  | read reached stored ih =>
    refine ⟨ih.cache, fun version hm => ?_⟩
    rcases List.mem_cons.mp hm with rfl | hm
    · exact ⟨version, stored, rfl⟩
    · exact ih.lent version hm
  | call reached call consults ih => exact ih.after reached.reachable.sound consults

/-- After any calls of the registry and reads of versions, the version of a place is had compiled
exactly when the store has it; what is had is that of the place, whether a place is asked for or a
version that has been read; and what fails leaves all that is kept as it is. -/
theorem Consulted.compiled_agrees (h : Consulted site lent) :
    (∀ key, (∃ kept next, outcome (compiledAt key) site = (.ok kept, next)) ↔
      ∃ stored ∈ site.store.versions.rows, CacheKey.ofVersion stored = key) ∧
    (∀ key kept next, outcome (compiledAt key) site = (.ok kept, next) → Backs site key kept) ∧
    (∀ version ∈ lent, ∃ kept next,
      outcome (compiledForVersion version) site = (.ok kept, next) ∧
        Backs site (.ofVersion version) kept) ∧
    (∀ key failure next, outcome (compiledAt key) site = (.error failure, next) → next = site) ∧
    (∀ version failure next,
      outcome (compiledForVersion version) site = (.error failure, next) → next = site) := by
  have hs := h.reachable.sound
  refine ⟨fun key => ?_, fun key kept next ho => ?_, fun version hl => ?_,
    fun key failure next ho => ?_, fun _ _ _ => outcome_compiledForVersion_of_error⟩
  · rcases h.lends.outcome_compiledAt hs key with
      ⟨kept, cache, ho, ⟨stored, hm, hkey, -, -⟩, -⟩ | ⟨⟨failure, ho⟩, hnone⟩
    · exact ⟨fun _ => ⟨stored, hm, hkey⟩, fun _ => ⟨kept, _, ho⟩⟩
    · constructor
      · rintro ⟨kept, next, hanswer⟩
        rw [ho] at hanswer
        cases hanswer
      · rintro ⟨stored, hm, hkey⟩
        exact absurd hkey (hnone stored hm)
  · rcases h.lends.outcome_compiledAt hs key with
      ⟨found, cache, hanswer, hbacks, -⟩ | ⟨⟨failure, hanswer⟩, -⟩
    · rw [hanswer] at ho
      cases ho
      exact hbacks
    · rw [hanswer] at ho
      cases ho
  · obtain ⟨kept, cache, ho, hbacks, -⟩ := h.lends.outcome_compiledForVersion hs hl
    exact ⟨kept, _, ho, hbacks⟩
  · rcases h.lends.outcome_compiledAt hs key with
      ⟨found, cache, hanswer, -, -⟩ | ⟨⟨failure, hanswer⟩, -⟩
    · rw [hanswer] at ho
      cases ho
    · rw [hanswer] at ho
      exact (Prod.mk.inj ho).2.symm

/-- A version that was read before its chain went on, and looked for when there was none, is had
compiled as the one that is stored, and a place that is still free is not. -/
theorem compiled_agrees_of_lent_version :
    let titled (fields : List FieldSpec) : Definition :=
      { name := "article", fields := { name := "title", type := .string } :: fields }
    let early := Call.afterAll (.empty (.ticking ⟨0, 0⟩) 10 10)
      [.compiledAt ⟨.schema, "article", 2⟩, .createSchema .schema (titled [])]
    ∃ first ∈ early.store.versions.rows,
      let site := Call.afterAll early
        [.updateSchema .schema "article" (titled [{ name := "lead", type := .html }]) [] none,
          .compiledForVersion first, .invalidateCompiled ⟨.schema, "article", 2⟩,
          .compiledAt ⟨.schema, "article", 3⟩]
      first ∉ site.store.versions.rows ∧
      (∃ kept next, outcome (compiledForVersion first) site = (.ok kept, next) ∧
        Backs site (.ofVersion first) kept) ∧
      (∃ kept next, outcome (compiledAt ⟨.schema, "article", 2⟩) site = (.ok kept, next) ∧
        Backs site ⟨.schema, "article", 2⟩ kept) ∧
      ¬∃ kept next, outcome (compiledAt ⟨.schema, "article", 3⟩) site = (.ok kept, next) := by
  intro titled early
  have hearly : Consulted early [] :=
    Consulted.calls (.start (.empty (.ticking ⟨0, 0⟩) 10 10) rfl) (by simp [Call.Consults])
  let first := early.store.versions.rows.head (by decide +kernel)
  have hfirst : first ∈ early.store.versions.rows :=
    @List.head_mem _ early.store.versions.rows (by decide +kernel)
  refine ⟨first, hfirst, ?_⟩
  intro site
  have hsite : Consulted site [first] := (hearly.read hfirst).calls (by simp [Call.Consults])
  obtain ⟨hstored, hbacks, hlent, -, -⟩ := hsite.compiled_agrees
  have htwo : ∃ stored ∈ site.store.versions.rows,
      CacheKey.ofVersion stored = ⟨.schema, "article", 2⟩ := by decide +kernel
  have hthree : ¬∃ stored ∈ site.store.versions.rows,
      CacheKey.ofVersion stored = ⟨.schema, "article", 3⟩ := by decide +kernel
  have hstale : ∀ stored ∈ site.store.versions.rows, stored.id = first.id →
      stored.next ≠ first.next := by decide +kernel
  obtain ⟨kept, next, hkept⟩ := (hstored ⟨.schema, "article", 2⟩).mpr htwo
  exact ⟨fun hm => hstale first hm rfl rfl, hlent first List.mem_cons_self,
    ⟨kept, next, hkept, hbacks _ _ _ hkept⟩,
    fun hfree => hthree ((hstored ⟨.schema, "article", 3⟩).mp hfree)⟩

end VersionedContent.Site
