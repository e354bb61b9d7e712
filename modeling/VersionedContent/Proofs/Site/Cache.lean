import VersionedContent.Proofs.Schema.Compiled
import VersionedContent.Proofs.Site.Action
import VersionedContent.Proofs.Store.Chain

/-!
# The compiled versions that are kept

A site is coherent when every compiled version that it keeps is a stored version
of that place. Compiling the version of a place keeps it so, and so does dropping
compiled versions. While chains can be numbered, a place names one version, so
that a coherent site answers for a version with the definition of that version.
-/

namespace VersionedContent.Site

open VersionedContent.Action

/-- Whether what is kept compiled under a place is a stored version of that place. -/
def Coherent (site : Site) : Prop :=
  ∀ entry ∈ site.cache, ∃ version ∈ site.store.versions.rows,
    CacheKey.ofVersion version = entry.1 ∧ entry.2.version.definition = version.definition

/-- Sites that keep no more compiled, with the same versions, are as coherent. -/
theorem Coherent.of_subset {site next : Site} (h : Coherent site)
    (hv : next.store.versions = site.store.versions)
    (hc : ∀ entry ∈ next.cache, entry ∈ site.cache) : Coherent next := by
  intro entry hm
  rw [hv]
  exact h entry (hc entry hm)

/-- What is kept after something was dropped was kept before. -/
theorem mem_of_mem_invalidate {cache : Cache} {key : CacheKey} {entry : CacheKey × Compiled}
    (h : entry ∈ cache.invalidate key) : entry ∈ cache :=
  (List.mem_filter.mp h).1

/-- What is compiled has the definition of the version. -/
theorem version_of_ofVersion {version : Version} {compiled : Compiled}
    (h : Compiled.ofVersion version = .ok compiled) : compiled.version = version := by
  unfold Compiled.ofVersion at h
  cases hi : version.definition.issues version.kind with
  | nil =>
    rw [hi] at h
    obtain rfl := Except.ok.inj h
    rfl
  | cons issue rest =>
    rw [hi] at h
    cases h

/-- A stored version may be kept compiled. -/
theorem Coherent.insert {site : Site} (h : Coherent site) {version : Version}
    (hm : version ∈ site.store.versions.rows) {compiled : Compiled}
    (hc : Compiled.ofVersion version = .ok compiled) :
    Coherent { site with cache := site.cache.insert (.ofVersion version) compiled } := by
  intro entry he
  rcases List.mem_cons.mp he with rfl | he
  · exact ⟨version, hm, rfl, by rw [version_of_ofVersion hc]⟩
  · exact h entry (mem_of_mem_invalidate he)

/-- A version that is found by a place has it. -/
theorem of_findVersion? {store : Store} {key : CacheKey} {version : Version}
    (h : store.findVersion? key.kind key.name key.number = some version) :
    version ∈ store.versions.rows ∧ CacheKey.ofVersion version = key := by
  obtain ⟨hm, hk, hn⟩ := Store.mem_chainVersions.mp (List.mem_of_find?_eq_some h)
  have hnumber : version.number = key.number := by simpa using List.find?_some h
  exact ⟨hm, by rw [CacheKey.ofVersion, hk, hn, hnumber]⟩

/-- A version is found by the place of a stored one. -/
theorem exists_findVersion? {store : Store} {version : Version}
    (hm : version ∈ store.versions.rows) :
    ∃ found ∈ store.versions.rows,
      store.findVersion? version.kind version.name version.number = some found ∧
        CacheKey.ofVersion found = .ofVersion version := by
  cases hf : store.findVersion? version.kind version.name version.number with
  | none =>
    have hnone := List.find?_eq_none.mp hf version (Store.mem_chainVersions.mpr ⟨hm, rfl, rfl⟩)
    simp at hnone
  | some found =>
    obtain ⟨hs, hkey⟩ := @of_findVersion? _ (.ofVersion version) _ hf
    exact ⟨found, hs, rfl, hkey⟩

/-- The compiled version of a place is the one that is kept, else the stored version of the place,
which is kept from then on. -/
theorem outcome_compiledAt (key : CacheKey) (site : Site) :
    outcome (compiledAt key) site =
      match site.cache.get? key with
      | some kept => (.ok kept, site)
      | none =>
        match site.store.findVersion? key.kind key.name key.number with
        | none =>
          (.error (.notFound key.kind.name (key.name ++ "@" ++ toString key.number)), site)
        | some version =>
          match Compiled.ofVersion version with
          | .error issues =>
            (.error (.validation (.definition version.kind version.definition.name issues)), site)
          | .ok compiled =>
            (.ok compiled, { site with cache := site.cache.insert key compiled }) := by
  unfold compiledAt
  rw [outcome_bind_of_ok (outcome_get site)]
  cases site.cache.get? key with
  | some kept => rfl
  | none =>
    unfold findVersion
    rw [bind_assoc, outcome_bind_of_ok (outcome_query _ site)]
    cases site.store.findVersion? key.kind key.name key.number with
    | none => rfl
    | some version =>
      rw [outcome_bind_of_ok (outcome_orNotFound_some _ _ version site)]
      unfold compileAs
      dsimp only
      cases Compiled.ofVersion version <;> rfl

/-- What is kept under a place is found there, and nothing else changes. -/
theorem cache_get?_insert (cache : Cache) (key other : CacheKey) (compiled : Compiled) :
    (cache.insert key compiled).get? other =
      if other = key then some compiled else cache.get? other := by
  unfold Cache.insert Cache.get? Cache.invalidate
  by_cases he : other = key
  · simp [he]
  · rw [if_neg he, List.lookup_cons, beq_eq_false_iff_ne.mpr he]
    induction cache with
    | nil => rfl
    | cons entry rest ih =>
      by_cases hk : entry.1 = key
      · rw [List.filter_cons_of_neg (by simpa using hk), List.lookup_cons,
          beq_eq_false_iff_ne.mpr (hk ▸ he)]
        exact ih
      · rw [List.filter_cons_of_pos (by simpa using hk), List.lookup_cons, List.lookup_cons]
        cases other == entry.1 with
        | true => rfl
        | false => exact ih

/-- Whether compiled versions are kept and made as before: what is kept is still that of stored
versions, and every place is answered for alike. -/
structure Compiles (site next : Site) : Prop where
  /-- What is kept compiled is still stored. -/
  coherent : Coherent site → Coherent next
  /-- The answer for each place is the same. -/
  answers : ∀ key, (outcome (compiledAt key) next).1 = (outcome (compiledAt key) site).1

/-- With the same versions and the same kept, all is as before. -/
theorem Compiles.of_eq {site next : Site} (hv : next.store.versions = site.store.versions)
    (hc : next.cache = site.cache) : Compiles site next where
  coherent h := h.of_subset hv fun _ hm => hc ▸ hm
  answers key := by
    have hfound : next.store.findVersion? key.kind key.name key.number =
        site.store.findVersion? key.kind key.name key.number := by
      rw [Store.findVersion?, Store.chainVersions, hv]
      rfl
    rw [outcome_compiledAt, outcome_compiledAt, hc, hfound]
    cases site.cache.get? key with
    | some kept => rfl
    | none =>
      cases site.store.findVersion? key.kind key.name key.number with
      | none => rfl
      | some version =>
        dsimp only
        cases Compiled.ofVersion version <;> rfl

/-- What is as before may go on so. -/
theorem Compiles.trans {a b c : Site} (hab : Compiles a b) (hbc : Compiles b c) :
    Compiles a c where
  coherent := hbc.coherent ∘ hab.coherent
  answers key := (hbc.answers key).trans (hab.answers key)

/-- The version of a place may be kept compiled once it has been asked for. -/
theorem Compiles.insert {site : Site} {version : Version}
    (hm : version ∈ site.store.versions.rows) {compiled : Compiled}
    (hc : Compiled.ofVersion version = .ok compiled)
    (ho : outcome (compiledAt (.ofVersion version)) site =
      (.ok compiled, { site with cache := site.cache.insert (.ofVersion version) compiled })) :
    Compiles site { site with cache := site.cache.insert (.ofVersion version) compiled } where
  coherent h := h.insert hm hc
  answers key := by
    by_cases hk : key = .ofVersion version
    · rw [hk, outcome_compiledAt, cache_get?_insert, if_pos rfl, ho]
    · rw [outcome_compiledAt, outcome_compiledAt, cache_get?_insert, if_neg hk]
      cases site.cache.get? key with
      | some kept => rfl
      | none =>
        dsimp only
        cases site.store.findVersion? key.kind key.name key.number with
        | none => rfl
        | some found =>
          dsimp only
          cases Compiled.ofVersion found <;> rfl

/-- Compiling the version of a place goes as far as keeping a stored version compiled. -/
theorem within_compiledAt {I : Site → Prop} {R : Site → Site → Prop} [Std.Refl R]
    (h : ∀ site version compiled, I site → version ∈ site.store.versions.rows →
      Compiled.ofVersion version = .ok compiled →
      outcome (compiledAt (.ofVersion version)) site =
        (.ok compiled, { site with cache := site.cache.insert (.ofVersion version) compiled }) →
        I { site with cache := site.cache.insert (.ofVersion version) compiled } ∧
          R site { site with cache := site.cache.insert (.ofVersion version) compiled })
    (key : CacheKey) : Within I R (fun _ => True) (compiledAt key) := by
  intro site hi
  have hcompiled := outcome_compiledAt key site
  rw [hcompiled]
  cases hk : site.cache.get? key with
  | some kept => exact ⟨hi, refl site, fun _ _ => trivial⟩
  | none =>
    cases hf : site.store.findVersion? key.kind key.name key.number with
    | none => exact ⟨hi, refl site, fun _ _ => trivial⟩
    | some version =>
      dsimp only
      cases hc : Compiled.ofVersion version with
      | error issues => exact ⟨hi, refl site, fun _ _ => trivial⟩
      | ok compiled =>
        obtain ⟨hm, rfl⟩ := of_findVersion? hf
        simp only [hk, hf, hc] at hcompiled
        obtain ⟨hnext, hr⟩ := h site version compiled hi hm hc hcompiled
        exact ⟨hnext, hr, fun _ _ => trivial⟩

/-- Only one version has the place of a version whose chain can be numbered. -/
theorem eq_of_place_eq {store : Store} {issued : Series} (h : store.Chained issued)
    {version other : Version} (hm : version ∈ store.versions.rows)
    (ho : other ∈ store.versions.rows)
    (hl : (store.chainVersions version.kind version.name).length < 4294967296)
    (he : CacheKey.ofVersion other = .ofVersion version) : other = version := by
  simp only [CacheKey.ofVersion, CacheKey.mk.injEq] at he
  obtain ⟨hkind, hname, hnumber⟩ := he
  obtain ⟨i, hi⟩ := Store.exists_getElem?_of_mem hm
  obtain ⟨j, hj⟩ := Store.exists_getElem?_of_mem ho
  rw [hkind, hname] at hj
  rw [h.number_eq hl hi, h.number_eq hl hj] at hnumber
  obtain rfl : j = i := by omega
  exact Option.some.inj (hj.symm.trans hi)

/-- A coherent site answers for a valid version with its definition when no other version has its
place, and stays coherent. -/
theorem Coherent.outcome_compiled {site : Site} (h : Coherent site) {version : Version}
    (hm : version ∈ site.store.versions.rows)
    (hi : version.definition.issues version.kind = [])
    (hone : ∀ other ∈ site.store.versions.rows, CacheKey.ofVersion other = .ofVersion version →
      other = version) :
    ∃ kept cache, outcome (compiled version) site = (.ok kept, { site with cache := cache }) ∧
      kept.version.definition = version.definition ∧ Coherent { site with cache := cache } := by
  unfold compiled
  rw [outcome_compiledAt]
  cases hkept : site.cache.get? (.ofVersion version) with
  | some kept =>
    obtain ⟨before, after, he, -⟩ := List.lookup_eq_some_iff.mp hkept
    obtain ⟨stored, hs, hkey, hd⟩ := h (.ofVersion version, kept) (by rw [he]; simp)
    obtain rfl := hone stored hs hkey
    exact ⟨kept, site.cache, rfl, hd, h⟩
  | none =>
    obtain ⟨found, hs, hf, hkey⟩ := exists_findVersion? hm
    obtain rfl := hone found hs hkey
    obtain ⟨compiled, hc⟩ := Compiled.exists_ofVersion hi
    simp only [CacheKey.ofVersion, hf, hc]
    exact ⟨compiled, _, rfl, by rw [version_of_ofVersion hc], h.insert hs hc⟩

end VersionedContent.Site
