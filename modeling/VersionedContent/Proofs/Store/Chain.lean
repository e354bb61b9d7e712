import Mathlib.Data.List.Nodup
import Mathlib.Tactic.SplitIfs
import VersionedContent.Proofs.Collection.Rows
import VersionedContent.Proofs.Schema.Linked
import VersionedContent.Proofs.Store.Outcome
import VersionedContent.Site.Site

/-!
# Chains in the store

The versions of each kind and name that a store holds are one chain. `Chained`
says so of a whole store, together with what every stored version is known to
satisfy; storing a first version or a successor of a latest one keeps it.
-/

namespace VersionedContent

namespace Version

/-- The chain of a version. -/
theorem inChain_iff {version : Version} {kind : Kind} {name : String} :
    version.inChain kind name = true ↔ version.kind = kind ∧ version.name = name := by
  simp [inChain]

end Version

namespace Store

variable {store : Store} {version : Version}

/-- The versions of a chain are the stored ones of its kind and name. -/
theorem mem_chainVersions {kind : Kind} {name : String} :
    version ∈ store.chainVersions kind name ↔
      version ∈ store.versions.rows ∧ version.kind = kind ∧ version.name = name := by
  rw [chainVersions, List.mem_filter, Version.inChain_iff]

/-- A stored version has a place in its chain. -/
theorem exists_getElem?_of_mem (hm : version ∈ store.versions.rows) :
    ∃ i : Nat, (store.chainVersions version.kind version.name)[i]? = some version :=
  List.mem_iff_getElem?.mp (mem_chainVersions.mpr ⟨hm, rfl, rfl⟩)

/-- A stored version is found by its identifier. -/
theorem version?_eq_some_iff {id : Id} :
    store.version? id = some version ↔ version ∈ store.versions.rows ∧ version.id = id :=
  store.versions.find?_eq_some_iff

/-- A version of a chain is found by its identifier. -/
theorem version?_of_mem_chainVersions {kind : Kind} {name : String}
    (h : version ∈ store.chainVersions kind name) : store.version? version.id = some version :=
  version?_eq_some_iff.mpr ⟨(mem_chainVersions.mp h).1, rfl⟩

/-- The identifiers along a chain are distinct. -/
theorem nodup_chainVersions (store : Store) (kind : Kind) (name : String) :
    ((store.chainVersions kind name).map Version.id).Nodup :=
  store.versions.nodup_map_key.sublist (List.filter_sublist.map _)

/-- The links of a version to the one stored after it. -/
def relink (latest : Version) (id : Id) (version : Version) : Version :=
  if version.id = latest.id then { latest with next := some id } else version

/-- The chains after a version under a new identifier was stored. -/
theorem chainVersions_insert (h : version.id ∉ store.versions.keys) (kind : Kind) (name : String) :
    ({ store with versions := store.versions.insert version } : Store).chainVersions kind name =
      store.chainVersions kind name ++ if version.inChain kind name then [version] else [] := by
  rw [chainVersions, Table.rows_insert_of_notMem h, List.filter_append, chainVersions]
  by_cases hc : version.inChain kind name = true <;> simp [hc]

/-- Relinking a version leaves it in its chain. -/
theorem inChain_relink {latest : Version} (hl : latest ∈ store.versions.rows) (id : Id)
    (hv : version ∈ store.versions.rows) (kind : Kind) (name : String) :
    (relink latest id version).inChain kind name = version.inChain kind name := by
  unfold relink
  by_cases h : version.id = latest.id
  · rw [if_pos h, store.versions.eq_of_key_eq hv hl h]
    rfl
  · rw [if_neg h]

/-- The chains after a stored version was linked to the one after it. -/
theorem chainVersions_relink {latest : Version} (hl : latest ∈ store.versions.rows) (id : Id)
    (kind : Kind) (name : String) :
    ({ store with versions := store.versions.insert { latest with next := some id } } :
        Store).chainVersions kind name =
      (store.chainVersions kind name).map (relink latest id) := by
  have hrows : (store.versions.insert { latest with next := some id }).rows =
      store.versions.rows.map (relink latest id) :=
    Table.rows_insert_of_mem hl rfl
  rw [chainVersions, hrows, chainVersions, List.filter_map]
  congr 1
  exact List.filter_congr fun version hv => inChain_relink hl id hv kind name

/-- Relinking its last version changes nothing before it in a chain. -/
theorem map_relink_concat {init : List Version} {latest : Version}
    (hn : ((init ++ [latest]).map Version.id).Nodup) (id : Id) :
    (init ++ [latest]).map (relink latest id) = init ++ [{ latest with next := some id }] := by
  rw [List.map_append, List.map_singleton, relink, if_pos rfl]
  congr 1
  refine (List.map_congr_left fun version hv => ?_).trans (List.map_id' init)
  rw [relink, if_neg]
  intro he
  rw [List.map_append, List.nodup_append] at hn
  exact hn.2.2 version.id (List.mem_map_of_mem hv) latest.id (by simp) he

/-- Storing a first version. -/
theorem outcome_appendVersion_of_root (h : version.previous = none) :
    outcome (appendVersion version) store =
      if store.chainVersions version.kind version.name = [] then
        (.ok true, { store with versions := store.versions.insert version })
      else (.ok false, store) := by
  unfold appendVersion
  rw [outcome_bind, outcome_get, h]
  by_cases hc : store.chainVersions version.kind version.name = []
  · simp [hc, Except.map]
  · simp [hc]

/-- Storing a version after another one. -/
theorem outcome_appendVersion_of_successor {id : Id} (h : version.previous = some id) :
    outcome (appendVersion version) store =
      match store.version? id with
      | none => (.error (.versionMissing id), store)
      | some previous =>
        if previous.next.isSome then (.ok false, store)
        else (.ok true, { store with
          versions := (store.versions.insert { previous with next := some version.id }).insert
            version }) := by
  unfold appendVersion
  rw [outcome_bind, outcome_get, h]
  dsimp only
  cases store.version? id with
  | none => rfl
  | some previous =>
    by_cases hn : previous.next.isSome = true
    · simp [hn]
    · simp [hn, outcome_bind, Except.map]

/-- What holds of all stored versions, whose identifiers a series has given out. -/
structure Chained (store : Store) (issued : Series) : Prop where
  /-- Identifiers are those that have been given out. -/
  fresh : ∀ id ∈ store.versions.keys, issued.HasGiven id
  /-- The versions of one kind and name follow each other. -/
  linked : ∀ kind name, Version.Linked (store.chainVersions kind name)
  /-- A version has the name of its definition. -/
  named : ∀ version ∈ store.versions.rows, version.name = version.definition.name
  /-- A definition has no issues. -/
  valid : ∀ version ∈ store.versions.rows, version.definition.issues version.kind = []
  /-- The microschemas that a definition allows exist. -/
  referenced : ∀ version ∈ store.versions.rows,
    ∀ name ∈ version.definition.microschemaReferences, store.chainVersions .microschema name ≠ []

/-- Chains are made of versions only. -/
theorem Chained.of_versions_eq {issued : Series} {next : Store} (h : Chained store issued)
    (hv : next.versions = store.versions) : Chained next issued := by
  have hc (kind : Kind) (name : String) :
      next.chainVersions kind name = store.chainVersions kind name := by
    rw [chainVersions, hv, chainVersions]
  constructor
  · rw [hv]
    exact h.fresh
  · intro kind name
    rw [hc]
    exact h.linked kind name
  · rw [hv]
    exact h.named
  · rw [hv]
    exact h.valid
  · intro version hm name hn
    rw [hv] at hm
    rw [hc]
    exact h.referenced version hm name hn

/-- Without versions there is nothing to keep. -/
theorem chained_of_slots_eq_nil (issued : Series) (hs : store.versions.slots = []) :
    Chained store issued := by
  have hrows : store.versions.rows = [] := by rw [Table.rows, hs, List.filterMap_nil]
  have hchain (kind : Kind) (name : String) : store.chainVersions kind name = [] := by
    simp [chainVersions, hrows]
  exact {
    fresh := by simp [Table.keys, hs]
    linked := fun kind name => by
      rw [hchain]
      constructor <;> simp
    named := by simp [hrows]
    valid := by simp [hrows]
    referenced := by simp [hrows] }

/-- The next identifier has not been stored under. -/
theorem Chained.next_notMem {issued : Series} (h : Chained store issued) :
    issued.next ∉ store.versions.keys :=
  fun hm => issued.not_hasGiven_next (h.fresh _ hm)

/-- A number is a place, counted from one, while a chain can be numbered. -/
theorem Chained.number_eq {issued : Series} (h : Chained store issued) {kind : Kind} {name : String}
    (hl : (store.chainVersions kind name).length < 4294967296) {i : Nat}
    (hv : (store.chainVersions kind name)[i]? = some version) : version.number = i + 1 :=
  (h.linked kind name).joined.number_eq hl hv

/-- What holds of all stored versions holds with one more that has been checked, once the chains are
known to be linked. -/
theorem Chained.of_added {issued : Series} {next : Store} {added : Version}
    (h : Chained store issued) (hid : added.id = issued.next)
    (hkeys : ∀ id ∈ next.versions.keys, id = added.id ∨ id ∈ store.versions.keys)
    (hrows : ∀ version ∈ next.versions.rows, version = added ∨
      ∃ old ∈ store.versions.rows, ∃ link, version = { old with next := link })
    (hkeep : ∀ kind name, store.chainVersions kind name ≠ [] → next.chainVersions kind name ≠ [])
    (hlinked : ∀ kind name, Version.Linked (next.chainVersions kind name))
    (hnamed : added.name = added.definition.name)
    (hvalid : added.definition.issues added.kind = [])
    (hreferenced : ∀ name ∈ added.definition.microschemaReferences,
      store.chainVersions .microschema name ≠ []) : Chained next (issued.advance 1) where
  fresh id hm := by
    rcases hkeys id hm with rfl | hm
    · exact hid ▸ issued.hasGiven_next
    · exact (h.fresh id hm).advance 1
  linked := hlinked
  named version hv := by
    rcases hrows version hv with rfl | ⟨old, ho, link, rfl⟩
    · exact hnamed
    · exact h.named old ho
  valid version hv := by
    rcases hrows version hv with rfl | ⟨old, ho, link, rfl⟩
    · exact hvalid
    · exact h.valid old ho
  referenced version hv name hn := by
    rcases hrows version hv with rfl | ⟨old, ho, link, rfl⟩
    · exact hkeep _ _ (hreferenced name hn)
    · exact hkeep _ _ (h.referenced old ho name hn)

/-- A first version of a new chain can be stored. -/
theorem Chained.insert_root {issued : Series} (h : Chained store issued) {createdAt : Instant}
    {kind : Kind} {definition : Definition} (hi : definition.issues kind = [])
    (hr : ∀ name ∈ definition.microschemaReferences, store.chainVersions .microschema name ≠ [])
    (hc : store.chainVersions kind definition.name = []) :
    Chained { store with
      versions := store.versions.insert (.root issued.next createdAt kind definition) }
      (issued.advance 1) := by
  obtain ⟨root, hroot⟩ : ∃ root, root = Version.root issued.next createdAt kind definition :=
    ⟨_, rfl⟩
  rw [← hroot]
  have hid : root.id = issued.next := by rw [hroot]; rfl
  have hkind : root.kind = kind := by rw [hroot]; rfl
  have hname : root.name = definition.name := by rw [hroot]; rfl
  have hdefinition : root.definition = definition := by rw [hroot]; rfl
  have hnew : root.id ∉ store.versions.keys := hid ▸ h.next_notMem
  have hchains := chainVersions_insert hnew
  refine h.of_added hid (fun id hm => Table.mem_keys_insert.mp hm) ?_ ?_ ?_
    (by rw [hname, hdefinition]) (by rw [hdefinition, hkind, hi]) (by rw [hdefinition]; exact hr)
  · intro version hv
    rcases (Table.mem_insert _ _ _).mp hv with rfl | ⟨hv, -⟩
    · exact .inl rfl
    · exact .inr ⟨version, hv, version.next, rfl⟩
  · intro kind name hne
    rw [hchains]
    exact List.append_ne_nil_of_left_ne_nil hne _
  · intro k name
    rw [hchains]
    by_cases hin : root.inChain k name = true
    · obtain ⟨rfl, rfl⟩ := Version.inChain_iff.mp hin
      have hempty : store.chainVersions root.kind root.name = [] := by rw [hkind, hname, hc]
      rw [if_pos hin, hempty, List.nil_append]
      exact Version.linked_singleton (by rw [hroot]; rfl) (by rw [hroot]; rfl) (by rw [hroot]; rfl)
    · rw [if_neg hin, List.append_nil]
      exact h.linked k name

/-- The latest version of a chain stands at its end. -/
theorem Chained.latest_eq_concat {issued : Series} (h : Chained store issued) {kind : Kind}
    {name : String} {latest : Version} (hl : store.latestVersion? kind name = some latest) :
    ∃ init, store.chainVersions kind name = init ++ [latest] := by
  rw [latestVersion?, (h.linked kind name).find?_isLatest] at hl
  exact List.getLast?_eq_some_iff.mp hl

/-- The chains after the latest version of one of them got a successor. -/
theorem chainVersions_extend {latest successor : Version} {init : List Version}
    (hc : store.chainVersions latest.kind latest.name = init ++ [latest])
    (hn : successor.id ∉ store.versions.keys) (hk : successor.kind = latest.kind)
    (hm : successor.name = latest.name) (kind : Kind) (name : String) :
    ({ store with
      versions := (store.versions.insert { latest with next := some successor.id }).insert
        successor } : Store).chainVersions kind name =
      if kind = latest.kind ∧ name = latest.name then
        init ++ [{ latest with next := some successor.id }] ++ [successor]
      else store.chainVersions kind name := by
  have hl : latest ∈ store.versions.rows := by
    have hin : latest ∈ store.chainVersions latest.kind latest.name := by simp [hc]
    exact (mem_chainVersions.mp hin).1
  have hnew : successor.id ∉
      (store.versions.insert { latest with next := some successor.id }).keys := by
    intro hm
    rcases Table.mem_keys_insert.mp hm with he | hm
    · have hid : latest.id ∈ store.versions.keys := Table.mem_keys hl
      rw [he] at hn
      exact hn hid
    · exact hn hm
  have hinsert := @chainVersions_insert { store with
    versions := store.versions.insert { latest with next := some successor.id } } _ hnew kind name
  apply hinsert.trans
  rw [chainVersions_relink hl]
  by_cases hin : kind = latest.kind ∧ name = latest.name
  · obtain ⟨rfl, rfl⟩ := hin
    have hnodup := store.nodup_chainVersions latest.kind latest.name
    rw [hc] at hnodup ⊢
    rw [map_relink_concat hnodup, if_pos (Version.inChain_iff.mpr ⟨hk, hm⟩), if_pos ⟨rfl, rfl⟩]
  · have hout : successor.inChain kind name ≠ true := by
      intro hs
      obtain ⟨rfl, rfl⟩ := Version.inChain_iff.mp hs
      exact hin ⟨hk, hm⟩
    rw [if_neg hout, if_neg hin, List.append_nil]
    refine (List.map_congr_left fun version hv => ?_).trans (List.map_id' _)
    rw [relink, if_neg]
    intro he
    obtain ⟨hrow, rfl, rfl⟩ := mem_chainVersions.mp hv
    obtain rfl := store.versions.eq_of_key_eq hrow hl he
    exact hin ⟨rfl, rfl⟩

/-- A successor of the latest version of a chain can be stored. -/
theorem Chained.insert_successor {issued : Series} (h : Chained store issued) {createdAt : Instant}
    {kind : Kind} {name : String} {latest : Version} {definition : Definition}
    {renames : List Rename} {changes : List Change}
    (hl : store.latestVersion? kind name = some latest) (hname : definition.name = name)
    (hi : definition.issues kind = [])
    (hr : ∀ name ∈ definition.microschemaReferences, store.chainVersions .microschema name ≠ [])
    (hd : latest.definition.difference definition renames = .ok changes) :
    Chained { store with
      versions := (store.versions.insert { latest with next := some issued.next }).insert
        (latest.successor issued.next createdAt definition changes) } (issued.advance 1) := by
  obtain ⟨init, hc⟩ := h.latest_eq_concat hl
  obtain ⟨hrow, rfl, rfl⟩ := mem_chainVersions.mp
    (show latest ∈ store.chainVersions kind name by simp [hc])
  obtain ⟨successor, hs⟩ : ∃ successor, successor =
      latest.successor issued.next createdAt definition changes := ⟨_, rfl⟩
  have hid : issued.next = successor.id := by
    rw [hs]
    rfl
  rw [← hs, hid]
  have hnew : successor.id ∉ store.versions.keys := hid ▸ h.next_notMem
  have hchains := chainVersions_extend hc hnew (by rw [hs]; rfl) (by rw [hs]; rfl)
  refine h.of_added hid.symm ?_ ?_ ?_ ?_ (by rw [hs]; exact hname.symm) (by rw [hs]; exact hi)
    (by rw [hs]; exact hr)
  · intro id hm
    rcases Table.mem_keys_insert.mp hm with rfl | hm
    · exact .inl rfl
    · rcases Table.mem_keys_insert.mp hm with rfl | hm
      · have hin : latest.id ∈ store.versions.keys := Table.mem_keys hrow
        exact .inr hin
      · exact .inr hm
  · intro version hv
    rcases (Table.mem_insert _ _ _).mp hv with rfl | ⟨hv, -⟩
    · exact .inl rfl
    · rcases (Table.mem_insert _ _ _).mp hv with rfl | ⟨hv, -⟩
      · exact .inr ⟨latest, hrow, _, rfl⟩
      · exact .inr ⟨version, hv, version.next, rfl⟩
  · intro kind name hne
    rw [hchains]
    split_ifs
    · simp
    · exact hne
  · intro k n
    rw [hchains]
    split_ifs with hin
    · have hlinked := h.linked latest.kind latest.name
      rw [hc] at hlinked
      exact hlinked.concat (by rw [hs]; rfl) (by rw [hs]; rfl) (by rw [hs]; rfl)
        ⟨renames, by rw [hs]; exact hd⟩
    · exact h.linked k n

/-- What a call may do to the versions, given how many identifiers have been given out: nothing,
or one more version of a chain, with all that is checked of it. -/
inductive Extends (store : Store) (issued : Series) : Store → Series → Prop
  /-- The versions stay as they are. -/
  | same : Extends store issued store issued
  /-- A chain begins. -/
  | root {createdAt : Instant} {kind : Kind} {definition : Definition}
      (valid : definition.issues kind = [])
      (referenced : ∀ name ∈ definition.microschemaReferences,
        store.chainVersions .microschema name ≠ [])
      (free : store.chainVersions kind definition.name = []) :
      Extends store issued
        { store with
          versions := store.versions.insert (.root issued.next createdAt kind definition) }
        (issued.advance 1)
  /-- A chain goes on. -/
  | successor {createdAt : Instant} {kind : Kind} {name : String} {latest : Version}
      {definition : Definition} {renames : List Rename} {changes : List Change}
      (found : store.latestVersion? kind name = some latest) (named : definition.name = name)
      (valid : definition.issues kind = [])
      (referenced : ∀ name ∈ definition.microschemaReferences,
        store.chainVersions .microschema name ≠ [])
      (differs : latest.definition.difference definition renames = .ok changes) :
      Extends store issued
        { store with
          versions := (store.versions.insert { latest with next := some issued.next }).insert
            (latest.successor issued.next createdAt definition changes) }
        (issued.advance 1)

/-- What holds of all versions goes on to hold. -/
theorem Chained.extends {issued issued' : Series} {store' : Store} (h : Chained store issued)
    (he : Extends store issued store' issued') : Chained store' issued' := by
  cases he with
  | same => exact h
  | root valid referenced free => exact h.insert_root valid referenced free
  | successor found named valid referenced differs =>
    exact h.insert_successor found named valid referenced differs

/-- Identifiers are given out of one series. -/
theorem Extends.issued_le {issued issued' : Series} {next : Store}
    (he : Extends store issued next issued') : issued ≤ issued' := by
  cases he with
  | same => exact issued.le_refl
  | root => exact issued.le_advance 1
  | successor => exact issued.le_advance 1

/-- Only versions are written. -/
theorem Extends.eq {issued issued' : Series} {next : Store}
    (he : Extends store issued next issued') :
    next = { store with versions := next.versions } := by
  cases he <;> rfl

/-- A stored version stays as it is, but that a latest one may be linked to its successor. -/
theorem Extends.persists {issued issued' : Series} {next : Store} (h : Chained store issued)
    (he : Extends store issued next issued') (hm : version ∈ store.versions.rows) :
    ∃ link, { version with next := link } ∈ next.versions.rows ∧
      (link = version.next ∨ version.next = none ∧ ∃ successor ∈ next.versions.rows,
        link = some successor.id ∧ successor.previous = some version.id ∧
          successor.id ∉ store.versions.keys) := by
  have hne : version.id ≠ issued.next := fun he => h.next_notMem (he ▸ Table.mem_keys hm)
  cases he with
  | same => exact ⟨version.next, hm, .inl rfl⟩
  | root valid referenced free =>
    exact ⟨version.next, (Table.mem_insert _ _ _).mpr (.inr ⟨hm, hne⟩), .inl rfl⟩
  | @successor createdAt kind name latest definition renames changes found named valid referenced
      differs =>
    obtain ⟨init, hc⟩ := h.latest_eq_concat found
    obtain ⟨hrow, -, -⟩ := mem_chainVersions.mp
      (show latest ∈ store.chainVersions kind name by simp [hc])
    have hlatest : latest.next = none := by
      simpa [Version.isLatest] using List.find?_some found
    by_cases hid : version.id = latest.id
    · obtain rfl := store.versions.eq_of_key_eq hm hrow hid
      refine ⟨some issued.next, ?_, .inr ⟨hlatest,
        version.successor issued.next createdAt definition changes, ?_, rfl, rfl,
        h.next_notMem⟩⟩
      · refine (Table.mem_insert _ _ _).mpr (.inr ⟨?_, hne⟩)
        exact (Table.mem_insert _ _ _).mpr (.inl rfl)
      · exact (Table.mem_insert _ _ _).mpr (.inl rfl)
    · refine ⟨version.next, ?_, .inl rfl⟩
      refine (Table.mem_insert _ _ _).mpr (.inr ⟨?_, hne⟩)
      exact (Table.mem_insert _ _ _).mpr (.inr ⟨hm, hid⟩)

end Store

end VersionedContent
