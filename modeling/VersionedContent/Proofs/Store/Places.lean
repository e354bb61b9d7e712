import Mathlib.Data.List.Nodup
import VersionedContent.Proofs.Store.Chain

/-!
# Places in chains

A version has its place among the identifiers of its chain. Places never change:
a version that is stored later comes at the end. While a chain can be numbered,
its numbers are in the order of the places.
-/

namespace VersionedContent.Store

variable {store : Store} {issued : Series} {kind : Kind} {name : String}

/-- The identifiers of a chain, from the first version to the latest. -/
def chainIds (store : Store) (kind : Kind) (name : String) : List Id :=
  (store.chainVersions kind name).map Version.id

/-- A version of one chain is in no other chain. -/
theorem chain_eq_of_mem_chainIds {version : Version} (hm : version ∈ store.versions.rows)
    (h : version.id ∈ store.chainIds kind name) : version.kind = kind ∧ version.name = name := by
  obtain ⟨other, ho, hid⟩ := List.mem_map.mp h
  obtain ⟨hrow, hk, hn⟩ := mem_chainVersions.mp ho
  obtain rfl := store.versions.eq_of_key_eq hrow hm hid
  exact ⟨hk, hn⟩

/-- A version has its place among the identifiers of its chain. -/
theorem idxOf_chainIds {i : Nat} {version : Version}
    (hv : (store.chainVersions kind name)[i]? = some version) :
    (store.chainIds kind name).idxOf version.id = i := by
  obtain ⟨hi, rfl⟩ := List.getElem?_eq_some_iff.mp hv
  have hn : (store.chainIds kind name).Nodup := store.nodup_chainVersions kind name
  have hget := hn.idxOf_getElem i (by rw [chainIds, List.length_map]; exact hi)
  simpa only [chainIds, List.getElem_map] using hget

/-- Numbers are in the order of places while a chain can be numbered. -/
theorem Chained.number_lt_iff (h : Chained store issued)
    (hl : (store.chainVersions kind name).length < 4294967296) {a b : Version}
    (ha : a ∈ store.chainVersions kind name) (hb : b ∈ store.chainVersions kind name) :
    a.number < b.number ↔
      (store.chainIds kind name).idxOf a.id < (store.chainIds kind name).idxOf b.id := by
  obtain ⟨i, hi⟩ := List.mem_iff_getElem?.mp ha
  obtain ⟨j, hj⟩ := List.mem_iff_getElem?.mp hb
  rw [idxOf_chainIds hi, idxOf_chainIds hj, h.number_eq hl hi, h.number_eq hl hj]
  omega

/-- The versions of a chain after one version up to another one. -/
def versionsAfter (store : Store) (source target : Version) : List Version :=
  (store.chainVersions target.kind target.name).filter fun version =>
    source.number < version.number && version.number ≤ target.number

/-- Of the places of a chain, those after one up to another one hold the versions that are numbered
so. -/
theorem Chained.versionsAfter_eq (h : Chained store issued) {source target : Version}
    (hl : (store.chainVersions target.kind target.name).length < 4294967296) {i j : Nat}
    (hi : (store.chainVersions target.kind target.name)[i]? = some source)
    (hj : (store.chainVersions target.kind target.name)[j]? = some target) :
    store.versionsAfter source target =
      ((store.chainVersions target.kind target.name).drop (i + 1)).take (j - i) := by
  have hnumber : ∀ (k : Nat) version,
      (store.chainVersions target.kind target.name)[k]? = some version →
        ((source.number < version.number && version.number ≤ target.number) = true ↔
          i < k ∧ k ≤ j) := by
    intro k version hv
    rw [h.number_eq hl hi, h.number_eq hl hj, h.number_eq hl hv]
    simp
  have hsplit : store.chainVersions target.kind target.name =
      (store.chainVersions target.kind target.name).take (i + 1) ++
        (((store.chainVersions target.kind target.name).drop (i + 1)).take (j - i) ++
          ((store.chainVersions target.kind target.name).drop (i + 1)).drop (j - i)) := by
    rw [List.take_append_drop, List.take_append_drop]
  rw [versionsAfter]
  conv =>
    lhs
    rw [hsplit]
  rw [List.filter_append, List.filter_append, List.filter_eq_nil_iff.mpr,
    List.filter_eq_self.mpr, List.filter_eq_nil_iff.mpr, List.nil_append, List.append_nil]
  · intro version hm
    obtain ⟨k, hk⟩ := List.mem_iff_getElem?.mp hm
    rw [List.getElem?_drop, List.getElem?_drop] at hk
    rw [hnumber _ version hk]
    omega
  · intro version hm
    obtain ⟨k, hk⟩ := List.mem_iff_getElem?.mp hm
    rw [List.getElem?_take] at hk
    split at hk
    · rw [List.getElem?_drop] at hk
      rw [hnumber _ version hk]
      omega
    · cases hk
  · intro version hm
    obtain ⟨k, hk⟩ := List.mem_iff_getElem?.mp hm
    rw [List.getElem?_take] at hk
    split at hk
    · rw [hnumber _ version hk]
      omega
    · cases hk

/-- A version that is stored later comes at the end of its chain, under a new identifier. -/
theorem Extends.chainIds_eq {issued' : Series} {next : Store} (h : Chained store issued)
    (he : Extends store issued next issued') (kind : Kind) (name : String) :
    ∃ added, next.chainIds kind name = store.chainIds kind name ++ added ∧
      ∀ id ∈ added, id = issued.next := by
  cases he with
  | same => exact ⟨[], (List.append_nil _).symm, by simp⟩
  | @root createdAt first definition valid referenced free =>
    obtain ⟨root, hroot⟩ : ∃ root,
      root = Version.root issued.next createdAt first definition := ⟨_, rfl⟩
    have hid : root.id = issued.next := by
      rw [hroot]
      rfl
    rw [← hroot]
    unfold chainIds
    rw [chainVersions_insert (by rw [hid]; exact h.next_notMem), List.map_append]
    refine ⟨_, rfl, fun id hm => ?_⟩
    split at hm
    · rw [List.map_singleton, List.mem_singleton] at hm
      exact hm.trans hid
    · cases hm
  | @successor createdAt kind' name' latest definition renames changes found =>
    obtain ⟨init, hc⟩ := h.latest_eq_concat found
    obtain ⟨-, rfl, rfl⟩ := mem_chainVersions.mp
      (show latest ∈ store.chainVersions kind' name' by simp [hc])
    have hextend := @chainVersions_extend store latest
      (latest.successor issued.next createdAt definition changes) init hc h.next_notMem rfl
      rfl kind name
    unfold chainIds
    refine ⟨if kind = latest.kind ∧ name = latest.name then [issued.next] else [], ?_, ?_⟩
    · apply (congrArg (List.map Version.id) hextend).trans
      by_cases hkn : kind = latest.kind ∧ name = latest.name
      · obtain ⟨rfl, rfl⟩ := hkn
        simp only [and_self, ite_true, hc, List.map_append, List.map_singleton]
        rfl
      · simp only [hkn, ite_false, List.append_nil]
    · intro id hm
      split at hm
      · exact List.mem_singleton.mp hm
      · cases hm

/-- No identifier is lost. -/
theorem Extends.mem_keys {issued' : Series} {next : Store} (he : Extends store issued next issued')
    {id : Id} (hm : id ∈ store.versions.keys) : id ∈ next.versions.keys := by
  cases he with
  | same => exact hm
  | root => exact Table.mem_keys_insert.mpr (.inr hm)
  | successor => exact Table.mem_keys_insert.mpr (.inr (Table.mem_keys_insert.mpr (.inr hm)))

end VersionedContent.Store
