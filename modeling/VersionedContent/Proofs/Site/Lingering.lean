import Mathlib.Data.List.Induction
import VersionedContent.Proofs.Site.Compiling

/-!
# The links that compiled versions show

Storing a version writes two records: the version, and the version before it, which gets its
link. What is kept compiled is dropped for the first only. So what was compiled of the latest
version of a chain lingers: it goes on to show no link, however many versions follow, until
it is dropped for another reason. Whatever else is had compiled shows the link of the
stored version.
-/

namespace VersionedContent

namespace Store

variable {store : Store}

/-- A version that is found by its place is found there ever after; its link is set once. -/
theorem Extends.findVersion? {issued issued' : Series} {next : Store} (h : Chained store issued)
    (he : Extends store issued next issued') {kind : Kind} {name : String} {number : Nat}
    {version : Version} (hf : store.findVersion? kind name number = some version) :
    ∃ link, next.findVersion? kind name number = some { version with next := link } ∧
      (link = version.next ∨ version.next = none) := by
  cases he with
  | same => exact ⟨version.next, hf, .inl rfl⟩
  | @root createdAt first definition valid referenced free =>
    refine ⟨version.next, ?_, .inl rfl⟩
    have hinsert := @chainVersions_insert store
      (.root issued.next createdAt first definition) h.next_notMem kind name
    rw [Store.findVersion?] at hf ⊢
    rw [hinsert, List.find?_append, hf]
    rfl
  | @successor createdAt kind' name' latest definition renames changes found =>
    obtain ⟨init, hc⟩ := h.latest_eq_concat found
    obtain ⟨-, rfl, rfl⟩ := mem_chainVersions.mp
      (show latest ∈ store.chainVersions kind' name' by simp [hc])
    have hlatest : latest.next = none := by simpa [Version.isLatest] using List.find?_some found
    have hextend := @chainVersions_extend store latest
      (latest.successor issued.next createdAt definition changes) init hc h.next_notMem rfl
      rfl kind name
    rw [Store.findVersion?] at hf ⊢
    by_cases hin : kind = latest.kind ∧ name = latest.name
    · obtain ⟨rfl, rfl⟩ := hin
      rw [if_pos ⟨rfl, rfl⟩] at hextend
      rw [hc, List.find?_append] at hf
      have hnext := congrArg (List.find? fun version => version.number = number) hextend
      rw [List.find?_append, List.find?_append] at hnext
      cases hinit : init.find? fun version => version.number = number with
      | some earlier =>
        rw [hinit] at hf hnext
        obtain rfl := Option.some.inj hf
        exact ⟨earlier.next, hnext, .inl rfl⟩
      | none =>
        -- Only the latest version is left to have the number, and it gets its link.
        rw [hinit, Option.none_or, List.find?_singleton] at hf
        split at hf
        · rename_i hnumber
          obtain rfl := Option.some.inj hf
          rw [hinit, Option.none_or, List.find?_singleton, if_pos hnumber] at hnext
          exact ⟨_, hnext, .inr hlatest⟩
        · cases hf
    · rw [if_neg hin] at hextend
      exact ⟨version.next, hextend ▸ hf, .inl rfl⟩

end Store

namespace Site

open VersionedContent.Action

variable {site next : Site} {key : CacheKey}

/-- The stored version of a place. -/
def storedAt (site : Site) (key : CacheKey) : Option Version :=
  site.store.findVersion? key.kind key.name key.number

/-- What a call does to stored versions and to what is kept compiled. -/
structure Keeps (site next : Site) : Prop where
  /-- The version of a place stays, and its link is set once. -/
  stored : ∀ key version, site.storedAt key = some version →
    ∃ link, next.storedAt key = some { version with next := link } ∧
      (link = version.next ∨ version.next = none)
  /-- What is kept was kept before, or is compiled of the stored version when nothing was kept. -/
  cache : ∀ key kept, (key, kept) ∈ next.cache → (key, kept) ∈ site.cache ∨
    site.cache.get? key = none ∧
      ∃ version, next.storedAt key = some version ∧ Compiled.ofVersion version = .ok kept

/-- With the same versions, nothing more need be kept. -/
theorem Keeps.of_subset (hv : next.store = site.store)
    (hc : ∀ entry ∈ next.cache, entry ∈ site.cache) : Keeps site next where
  stored key version hf := ⟨version.next, by rw [storedAt, hv]; exact hf, .inl rfl⟩
  cache key kept hm := .inl (hc (key, kept) hm)

/-- A call of the registry that may store a version compiles none. -/
theorem Registers.keeps (h : Registers site next) (hs : Sound site) : Keeps site next where
  stored _ _ hf := h.store.findVersion? hs.chained hf
  cache key kept hm := .inl (h.cache (key, kept) hm)

/-- Having a place compiled keeps the stored version compiled at most. -/
theorem keeps_compiledAt (site : Site) (key : CacheKey) :
    Keeps site (outcome (compiledAt key) site).2 := by
  rw [outcome_compiledAt]
  cases hk : site.cache.get? key with
  | some kept => exact .of_subset rfl fun _ => id
  | none =>
    cases hf : site.store.findVersion? key.kind key.name key.number with
    | none => exact .of_subset rfl fun _ => id
    | some version =>
      dsimp only
      cases hc : Compiled.ofVersion version with
      | error issues => exact .of_subset rfl fun _ => id
      | ok compiled =>
        refine ⟨fun _ found hfound => ⟨found.next, hfound, .inl rfl⟩, fun other kept hm => ?_⟩
        rcases List.mem_cons.mp hm with he | hm
        · obtain ⟨rfl, rfl⟩ := Prod.mk.inj he
          exact .inr ⟨hk, version, hf, hc⟩
        · exact .inl (mem_of_mem_invalidate hm)

/-- What the calls of the registry do to stored versions and to what is kept compiled. -/
theorem Sound.keeps (h : Sound site) {call : Call} (hc : call.Consults []) :
    Keeps site (call.after site) := by
  cases call with
  | createSchema kind definition =>
    exact (registers_createSchema h.outages kind definition).keeps h
  | updateSchema kind name definition renames expected =>
    exact (registers_updateSchema h.outages kind name definition renames expected).keeps h
  | createVersion kind definition renames =>
    exact (registers_createVersion h.outages kind definition renames).keeps h
  | compiledAt key => exact keeps_compiledAt site key
  | compiledForVersion version => exact absurd hc List.not_mem_nil
  | invalidateCompiled key => exact .of_subset rfl fun _ hm => mem_of_mem_invalidate hm
  | clearCompiled => exact .of_subset rfl fun _ hm => absurd hm List.not_mem_nil
  | _ => exact hc.elim

/-- What is found kept is kept. -/
theorem mem_of_get?_eq_some {cache : Cache} {kept : Compiled} (h : cache.get? key = some kept) :
    (key, kept) ∈ cache := by
  obtain ⟨before, after, rfl, -⟩ := List.lookup_eq_some_iff.mp h
  simp

/-- Something is found for what is kept. -/
theorem isSome_get?_of_mem {cache : Cache} {kept : Compiled} (h : (key, kept) ∈ cache) :
    (cache.get? key).isSome = true := by
  cases hk : cache.get? key with
  | some other => rfl
  | none => exact absurd (List.lookup_eq_none_iff.mp hk (key, kept) h) (by simp)

/-- Whether, of some calls, one left the latest version of a chain compiled under its place, and
something has been kept there ever since. -/
def Lingers (site : Site) (calls : List Call) (key : CacheKey) : Prop :=
  ∃ front back, calls = front ++ back ∧
    (∃ version, (Call.afterAll site front).storedAt key = some version ∧
      version.isLatest = true) ∧
    ∀ middle, middle <+: back →
      ((Call.afterAll site (front ++ middle)).cache.get? key).isSome = true

/-- What lingers is kept. -/
theorem Lingers.isSome {calls : List Call} (h : Lingers site calls key) :
    ((Call.afterAll site calls).cache.get? key).isSome = true := by
  obtain ⟨front, back, rfl, -, hkept⟩ := h
  exact hkept back List.prefix_rfl

/-- After one more call, what is kept lingers if it did before, or if the version is the latest
now. -/
theorem lingers_concat {calls : List Call} {call : Call} :
    Lingers site (calls ++ [call]) key ↔
      ((Call.afterAll site (calls ++ [call])).cache.get? key).isSome = true ∧
        (Lingers site calls key ∨ ∃ version,
          (Call.afterAll site (calls ++ [call])).storedAt key = some version ∧
            version.isLatest = true) := by
  constructor
  · intro h
    refine ⟨h.isSome, ?_⟩
    obtain ⟨front, back, he, hlatest, hkept⟩ := h
    rcases List.eq_nil_or_concat back with rfl | ⟨rest, last, rfl⟩
    · rw [List.append_nil] at he
      exact .inr (he ▸ hlatest)
    · rw [List.concat_eq_append, ← List.append_assoc] at he
      obtain ⟨rfl, -⟩ := List.append_inj' he rfl
      exact .inl ⟨front, rest, rfl, hlatest, fun middle hm =>
        hkept middle (hm.trans (List.concat_eq_append ▸ List.prefix_append rest [_]))⟩
  · rintro ⟨hkept, ⟨front, back, rfl, hlatest, hbefore⟩ | hlatest⟩
    · refine ⟨front, back ++ [call], List.append_assoc .., hlatest, fun middle hm => ?_⟩
      rcases List.prefix_concat_iff.mp hm with rfl | hm
      · rw [← List.append_assoc]
        exact hkept
      · exact hbefore middle hm
    · refine ⟨calls ++ [call], [], (List.append_nil _).symm, hlatest, fun middle hm => ?_⟩
      rw [List.prefix_nil.mp hm, List.append_nil]
      exact hkept

/-- Whether what is kept after some calls is the stored version of its place with the link it has
now, or with no link if and only if it lingers. -/
def Shows (site : Site) (calls : List Call) : Prop :=
  ∀ key kept, (key, kept) ∈ (Call.afterAll site calls).cache →
    ∃ stored, (Call.afterAll site calls).storedAt key = some stored ∧
      kept.version = { stored with next := kept.version.next } ∧
      (kept.version.next = stored.next ∨ kept.version.next = none) ∧
      (Lingers site calls key ↔ kept.version.next = none)

/-- One more call keeps what is shown. -/
theorem Shows.concat {calls : List Call} {call : Call} (h : Shows site calls)
    (hk : Keeps (Call.afterAll site calls) (Call.afterAll site (calls ++ [call]))) :
    Shows site (calls ++ [call]) := by
  intro key kept hm
  have hsome := isSome_get?_of_mem hm
  rcases hk.cache key kept hm with hold | ⟨hnone, version, hv, hc⟩
  · obtain ⟨stored, hs, hversion, hlink, hlingers⟩ := h key kept hold
    obtain ⟨link, hnext, hset⟩ := hk.stored key stored hs
    have hbare : link = none → kept.version.next = none := by
      rintro rfl
      rcases hset with hset | hset <;> simpa [← hset, or_self] using hlink
    refine ⟨_, hnext, hversion, ?_, ?_⟩
    · rcases hset with rfl | hset
      · exact hlink
      · exact .inr (by simpa [hset] using hlink)
    · rw [lingers_concat, hlingers, hnext]
      simp only [hsome, true_and, Option.some.injEq, exists_eq_left', Version.isLatest,
        Option.isNone_iff_eq_none]
      exact ⟨fun hor => hor.elim id hbare, .inl⟩
  · have hversion := version_of_ofVersion hc
    have hfresh : ¬ Lingers site calls key := fun hl => by simpa [hnone] using hl.isSome
    refine ⟨version, hv, by rw [hversion], .inl (by rw [hversion]), ?_⟩
    rw [lingers_concat, hv, hversion]
    simp [hsome, hfresh, Version.isLatest]

/-- An answer that is there is one. -/
theorem exists_of_isSome_toOption {α : Type} {action : Action α}
    (h : (outcome action site).1.toOption.isSome = true) :
    ∃ answer next, outcome action site = (.ok answer, next) := by
  cases ho : outcome action site with
  | mk result next =>
    cases result with
    | ok answer => exact ⟨answer, next, rfl⟩
    | error failure =>
      rw [ho] at h
      cases h

/-- Calls of the registry keep what is shown. -/
theorem Reachable.shows (h : Reachable site) (hb : site.cache = []) {calls : List Call}
    (hc : ∀ call ∈ calls, call.Consults []) : Shows site calls := by
  induction calls using List.reverseRecOn with
  | nil => exact fun key kept hm => absurd (hb ▸ hm) List.not_mem_nil
  | append_singleton calls call ih =>
    have hbefore := fun other hm => hc other (List.mem_append_left _ hm)
    have hreached := (Consulted.start h hb).calls hbefore
    refine (ih hbefore).concat ?_
    rw [Call.afterAll, Call.afterAll, List.foldl_append]
    exact hreached.reachable.sound.keeps (hc call (by simp))

/-- After any calls of the registry a compiled version is the stored version of its place but for
the link to the next one. That is missing if something compiled of the latest version of the chain
lingers there, and else it is the stored one; so being the latest is shown right exactly when what
lingers is still the latest. -/
theorem Reachable.link_of_compiled (h : Reachable site) (hb : site.cache = []) {calls : List Call}
    (hc : ∀ call ∈ calls, call.Consults []) {kept : Compiled}
    (ho : outcome (compiledAt key) (Call.afterAll site calls) = (.ok kept, next)) :
    ∃ stored, (Call.afterAll site calls).storedAt key = some stored ∧
      kept.version = { stored with next := kept.version.next } ∧
      (Lingers site calls key → kept.version.next = none) ∧
      (¬ Lingers site calls key → kept.version.next = stored.next) ∧
      (kept.version.isLatest = stored.isLatest ↔
        (Lingers site calls key → stored.isLatest = true)) := by
  suffices hshown : ∃ stored, (Call.afterAll site calls).storedAt key = some stored ∧
      kept.version = { stored with next := kept.version.next } ∧
      (Lingers site calls key → kept.version.next = none) ∧
      (¬ Lingers site calls key → kept.version.next = stored.next) by
    obtain ⟨stored, hs, hversion, hstale, hfresh⟩ := hshown
    refine ⟨stored, hs, hversion, hstale, hfresh, ?_⟩
    by_cases hl : Lingers site calls key
    · rw [Version.isLatest, hstale hl]
      exact ⟨fun he _ => he.symm, fun he => (he hl).symm⟩
    · rw [Version.isLatest, hfresh hl]
      exact ⟨fun _ hno => absurd hno hl, fun _ => rfl⟩
  rw [outcome_compiledAt] at ho
  cases hk : (Call.afterAll site calls).cache.get? key with
  | some found =>
    rw [hk] at ho
    cases ho
    obtain ⟨stored, hs, hversion, hlink, hlingers⟩ :=
      h.shows hb hc key kept (mem_of_get?_eq_some hk)
    exact ⟨stored, hs, hversion, hlingers.mp, fun hno =>
      hlink.resolve_right fun hnone => hno (hlingers.mpr hnone)⟩
  | none =>
    have hno : ¬ Lingers site calls key := fun hl => by simpa [hk] using hl.isSome
    rw [hk] at ho
    cases hf : (Call.afterAll site calls).store.findVersion? key.kind key.name key.number with
    | none =>
      rw [hf] at ho
      cases ho
    | some stored =>
      rw [hf] at ho
      dsimp only at ho
      cases hcompiled : Compiled.ofVersion stored with
      | error issues =>
        rw [hcompiled] at ho
        cases ho
      | ok compiled =>
        rw [hcompiled] at ho
        cases ho
        have hversion := version_of_ofVersion hcompiled
        exact ⟨stored, hf, by rw [hversion], fun hl => absurd hl hno, fun _ => by rw [hversion]⟩

/-- An article that was compiled at its first version shows no link once the second one is stored,
and shows it as soon as it has been dropped. -/
theorem link_of_compiled_of_article :
    let titled (fields : List FieldSpec) : Definition :=
      { name := "article", fields := { name := "title", type := .string } :: fields }
    let first : CacheKey := ⟨.schema, "article", 1⟩
    let calls : List Call := [.createSchema .schema (titled []), .compiledAt first,
      .updateSchema .schema "article" (titled [{ name := "lead", type := .html }]) [] none]
    let start : Site := .empty (.ticking ⟨0, 0⟩) 10 10
    let site := Call.afterAll start calls
    let dropped := Call.afterAll start (calls ++ [.invalidateCompiled first])
    (∃ kept next stored, outcome (compiledAt first) site = (.ok kept, next) ∧
      site.storedAt first = some stored ∧ stored.next = some "@v2" ∧
        kept.version = { stored with next := none }) ∧
      ∃ kept next, outcome (compiledAt first) dropped = (.ok kept, next) ∧
        dropped.storedAt first = some kept.version := by
  intro titled first calls start site dropped
  have hstart : Reachable start := .empty (.ticking ⟨0, 0⟩) 10 10
  have hcalls : ∀ call ∈ calls ++ [.invalidateCompiled first], call.Consults [] := by
    simp [calls, Call.Consults]
  have hbefore : ∀ call ∈ calls, call.Consults [] := fun call hm =>
    hcalls call (List.mem_append_left _ hm)
  constructor
  · obtain ⟨kept, next, ho⟩ := exists_of_isSome_toOption
      (show (outcome (compiledAt first) site).1.toOption.isSome = true by decide +kernel)
    have hlingers : Lingers start calls first := by
      obtain ⟨version, hv, hlatest⟩ := Option.map_eq_some_iff.mp
        (show ((Call.afterAll start (calls.take 2)).storedAt first).map Version.isLatest = some true
          by decide +kernel)
      refine ⟨calls.take 2, calls.drop 2, rfl, ⟨version, hv, hlatest⟩, fun middle hm => ?_⟩
      rcases List.prefix_concat_iff.mp (show middle <+: [] ++ calls.drop 2 from hm) with rfl | hm
      · decide +kernel
      · rw [List.prefix_nil.mp hm]
        decide +kernel
    have hnext : (site.storedAt first).bind Version.next = some "@v2" := by decide +kernel
    obtain ⟨stored, hs, hversion, hlink, -, -⟩ := hstart.link_of_compiled rfl hbefore ho
    rw [hs] at hnext
    exact ⟨kept, next, stored, ho, hs, hnext, by rw [hversion, hlink hlingers]⟩
  · obtain ⟨kept, next, ho⟩ := exists_of_isSome_toOption
      (show (outcome (compiledAt first) dropped).1.toOption.isSome = true by decide +kernel)
    obtain ⟨stored, hs, hversion, -, hlink, -⟩ := hstart.link_of_compiled rfl hcalls ho
    rw [hlink fun hlingers => absurd hlingers.isSome (by decide +kernel)] at hversion
    exact ⟨kept, next, ho, by rw [hs, hversion]⟩

end Site

end VersionedContent
