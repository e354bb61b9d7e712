import Mathlib.Data.List.Nodup
import Mathlib.Data.List.Sort
import Mathlib.Data.String.Basic
import Mathlib.Tactic.Tauto
import VersionedContent.Proofs.Store.Content

/-!
# Pages of content

The edges of a branch and type are listed in the order of their cursors, each
before all that come later. Whatever stands at a version past a cursor is on the
first page after it or past the last place of that page.
-/

namespace VersionedContent

namespace Cursor

variable {a b c : Cursor}

/-- Places are ordered by node, then by language. -/
theorem precedes_iff :
    a.precedes b = true ↔ a.nodeId < b.nodeId ∨ a.nodeId = b.nodeId ∧ a.language < b.language := by
  simp [precedes]

/-- No place comes before itself. -/
theorem precedes_irrefl (a : Cursor) : a.precedes a = false := by
  rw [Bool.eq_false_iff]
  intro h
  rcases precedes_iff.mp h with h | ⟨-, h⟩
  · exact lt_irrefl _ h
  · exact lt_irrefl _ h

/-- What comes before an earlier place comes before a later one. -/
theorem precedes_trans (hab : a.precedes b = true) (hbc : b.precedes c = true) :
    a.precedes c = true := by
  rw [precedes_iff] at *
  rcases hab with hab | ⟨hab, hab'⟩ <;> rcases hbc with hbc | ⟨hbc, hbc'⟩
  · exact .inl (lt_trans hab hbc)
  · exact .inl (hbc ▸ hab)
  · exact .inl (hab ▸ hbc)
  · exact .inr ⟨hab.trans hbc, lt_trans hab' hbc'⟩

/-- What comes before a place does not come after it. -/
theorem precedes_asymm (hab : a.precedes b = true) : b.precedes a = false := by
  rw [Bool.eq_false_iff]
  intro hba
  exact Bool.false_ne_true (a.precedes_irrefl.symm.trans (precedes_trans hab hba))

/-- Of two places that are not the same one comes first. -/
theorem precedes_or_precedes (hne : a ≠ b) : a.precedes b = true ∨ b.precedes a = true := by
  rw [precedes_iff, precedes_iff]
  rcases lt_trichotomy a.nodeId b.nodeId with hn | hn | hn
  · exact .inl (.inl hn)
  · rcases lt_trichotomy a.language b.language with hl | hl | hl
    · exact .inl (.inr ⟨hn, hl⟩)
    · refine absurd ?_ hne
      obtain ⟨node, language⟩ := a
      obtain ⟨node', language'⟩ := b
      simp_all
    · exact .inr (.inr ⟨hn.symm, hl⟩)
  · exact .inr (.inl hn)

end Cursor

/-- The place of an edge with a key. -/
def EdgeKey.cursor (key : EdgeKey) : Cursor := ⟨key.nodeId, key.language⟩

/-- Keys of one branch and type at one place are one key. -/
theorem EdgeKey.eq_of_cursor_eq {a b : EdgeKey} (hb : a.branchId = b.branchId)
    (ht : a.type = b.type) (hc : a.cursor = b.cursor) : a = b := by
  obtain ⟨branch, node, language, type⟩ := a
  obtain ⟨branch', node', language', type'⟩ := b
  simp only [cursor, Cursor.mk.injEq] at hb ht hc
  simp [hb, ht, hc]

namespace Store

variable {store : Store} {kind : Kind} {branchId versionId : Id} {type : ContainerType}
  {after : Option Cursor}

/-- An edge stands at a version when the container behind it follows the version. -/
theorem standing?_eq_some_iff {key : EdgeKey} :
    store.standing? key = some versionId ↔
      ∃ edge container, edge ∈ store.edges.rows ∧ edge.key = key ∧
        store.container? edge.containerId = some container ∧
          container.schemaVersionId = versionId := by
  simp only [standing?, follows?, Option.bind_eq_some_iff, Option.map_eq_some_iff]
  constructor
  · rintro ⟨edge, he, container, hc, hv⟩
    obtain ⟨hm, hk⟩ := store.edges.find?_eq_some_iff.mp he
    exact ⟨edge, container, hm, hk, hc, hv⟩
  · rintro ⟨edge, container, hm, hk, hc, hv⟩
    exact ⟨edge, store.edges.find?_eq_some_iff.mpr ⟨hm, hk⟩, container, hc, hv⟩

/-- The edges of a branch and type past a place whose container follows a version, in cursor order,
each with its container. -/
def following (store : Store) (kind : Kind) (versionId branchId : Id) (type : ContainerType)
    (after : Option Cursor) : List (Edge × Container) :=
  ((store.orderedEdges branchId type after).filterMap store.withContainer).filter fun entry =>
    followsVersion kind versionId entry.2

/-- The edges past a place, one by one. -/
theorem mem_orderedEdges {edge : Edge} :
    edge ∈ store.orderedEdges branchId type after ↔
      edge ∈ store.edges.rows ∧ edge.branchId = branchId ∧ edge.type = type ∧
        edge.cursor.isAfter after = true := by
  rw [orderedEdges, List.mem_mergeSort, List.mem_filter]
  simp [and_assoc]

/-- Edges are listed in the order of their places, no two at one place. -/
theorem pairwise_orderedEdges (store : Store) (branchId : Id) (type : ContainerType)
    (after : Option Cursor) :
    (store.orderedEdges branchId type after).Pairwise fun a b =>
      a.cursor.precedes b.cursor = true := by
  have hsorted : (store.orderedEdges branchId type after).Pairwise fun a b =>
      (!b.cursor.precedes a.cursor) = true := by
    refine List.pairwise_mergeSort (fun a b c hab hbc => ?_) (fun a b => ?_) _
    · simp only [Bool.not_eq_true', Bool.eq_false_iff] at hab hbc ⊢
      intro hca
      by_cases he : a.cursor = b.cursor
      · exact hbc (he ▸ hca)
      · rcases Cursor.precedes_or_precedes he with h | h
        · exact hbc (Cursor.precedes_trans hca h)
        · exact hab h
    · cases hba : b.cursor.precedes a.cursor with
      | false => simp
      | true =>
        cases hab : a.cursor.precedes b.cursor with
        | false => simp
        | true =>
          have h := Cursor.precedes_irrefl a.cursor
          rw [Cursor.precedes_trans hab hba] at h
          cases h
  have hnodup : (store.orderedEdges branchId type after).Nodup := by
    have hrows : store.edges.rows.Nodup := store.edges.nodup_map_key.of_map _
    exact (List.mergeSort_perm _ _).nodup_iff.mpr (hrows.filter _)
  refine (hsorted.and hnodup).imp_of_mem fun {a b} ha hb hab => ?_
  obtain ⟨hma, hba, hta, -⟩ := mem_orderedEdges.mp ha
  obtain ⟨hmb, hbb, htb, -⟩ := mem_orderedEdges.mp hb
  have hne : a.cursor ≠ b.cursor := by
    intro hc
    have hkey : a.key = b.key :=
      EdgeKey.eq_of_cursor_eq (hba.trans hbb.symm) (hta.trans htb.symm) hc
    exact hab.2 (store.edges.eq_of_key_eq hma hmb hkey)
  rcases Cursor.precedes_or_precedes hne with h | h
  · exact h
  · simp [h] at hab

/-- Of a list in order, what comes after the last item of a page is what is left without it. -/
theorem filter_eq_drop {α : Type} (before : α → α → Bool) (hirrefl : ∀ a, before a a = false)
    (hasymm : ∀ a b, before a b = true → before b a = false) {list : List α}
    (hsorted : list.Pairwise fun a b => before a b = true) {size : Nat} {last : α}
    (hl : (list.take size).getLast? = some last) :
    list.filter (before last) = list.drop size := by
  obtain ⟨init, hpage⟩ := List.getLast?_eq_some_iff.mp hl
  have hsplit := List.take_append_drop size list
  rw [hpage] at hsplit
  rw [← hsplit, List.append_assoc, List.pairwise_append, List.singleton_append,
    List.pairwise_cons] at hsorted
  obtain ⟨-, ⟨hrest, -⟩, hinit⟩ := hsorted
  conv =>
    lhs
    rw [← hsplit]
  rw [List.filter_append, List.filter_append, List.filter_eq_nil_iff.mpr, List.filter_cons,
    hirrefl, List.filter_nil, List.filter_eq_self.mpr hrest]
  · rfl
  · intro a ha
    rw [hasymm a last (hinit a ha last List.mem_cons_self)]
    exact Bool.false_ne_true

/-- Two lists of the same items, both in the order of their places, are one. -/
theorem eq_of_mem_iff {α : Type} (cursorOf : α → Cursor) {a b : List α}
    (ha : a.Pairwise fun x y => (cursorOf x).precedes (cursorOf y) = true)
    (hb : b.Pairwise fun x y => (cursorOf x).precedes (cursorOf y) = true)
    (h : ∀ item, item ∈ a ↔ item ∈ b) : a = b := by
  have hirrefl : Std.Irrefl fun x y => (cursorOf x).precedes (cursorOf y) = true :=
    ⟨fun x => by simp [Cursor.precedes_irrefl]⟩
  have hanti : Std.Antisymm fun x y => (cursorOf x).precedes (cursorOf y) = true :=
    ⟨fun x y hxy hyx => absurd (Cursor.precedes_trans hxy hyx) (by simp [Cursor.precedes_irrefl])⟩
  exact ha.eq_of_mem_iff hb h

/-- Edges past a place of a listing are those of the listing that come after it. -/
theorem orderedEdges_some {cursor : Cursor} (hc : cursor.isAfter after = true) :
    store.orderedEdges branchId type (some cursor) =
      (store.orderedEdges branchId type after).filter fun edge => cursor.precedes edge.cursor := by
  refine eq_of_mem_iff Edge.cursor (store.pairwise_orderedEdges branchId type (some cursor))
    ((store.pairwise_orderedEdges branchId type after).filter _) fun edge => ?_
  rw [List.mem_filter, mem_orderedEdges, mem_orderedEdges]
  have hafter : cursor.precedes edge.cursor = true → edge.cursor.isAfter after = true := by
    intro hp
    cases after with
    | none => rfl
    | some bound => exact Cursor.precedes_trans hc hp
  constructor
  · rintro ⟨hm, hb, ht, hp⟩
    exact ⟨⟨hm, hb, ht, hafter hp⟩, hp⟩
  · rintro ⟨⟨hm, hb, ht, -⟩, hp⟩
    exact ⟨hm, hb, ht, hp⟩

/-- Past the last edge of a page stand the edges that are not on it. -/
theorem orderedEdges_past {size : Nat} {last : Edge}
    (hl : ((store.orderedEdges branchId type after).take size).getLast? = some last) :
    store.orderedEdges branchId type (some last.cursor) =
      (store.orderedEdges branchId type after).drop size := by
  have hlast := mem_orderedEdges.mp (List.mem_of_mem_take (List.mem_of_getLast? hl))
  rw [orderedEdges_some hlast.2.2.2]
  exact filter_eq_drop (fun a b => a.cursor.precedes b.cursor)
    (fun a => a.cursor.precedes_irrefl) (fun a b => Cursor.precedes_asymm)
    (store.pairwise_orderedEdges branchId type after) hl

/-- The edges of a branch, drafts before published content. -/
def edgesOf (store : Store) (branchId : Id) : List Edge :=
  store.orderedEdges branchId .draft none ++ store.orderedEdges branchId .published none

/-- The edges of a branch, one by one. -/
theorem mem_edgesOf {edge : Edge} :
    edge ∈ store.edgesOf branchId ↔ edge ∈ store.edges.rows ∧ edge.branchId = branchId := by
  have hall : edge.type = .draft ∨ edge.type = .published := by cases edge.type <;> simp
  have hafter : edge.cursor.isAfter none = true := rfl
  rw [edgesOf, List.mem_append, mem_orderedEdges, mem_orderedEdges]
  tauto

/-- There is no more to list than there are edges. -/
theorem length_orderedEdges_le (store : Store) (branchId : Id) (type : ContainerType)
    (after : Option Cursor) :
    (store.orderedEdges branchId type after).length ≤ store.edges.size := by
  rw [orderedEdges, List.length_mergeSort]
  exact List.length_filter_le _ _

/-- What follows a version, one by one. -/
theorem mem_following {entry : Edge × Container} :
    entry ∈ store.following kind versionId branchId type after ↔
      (entry.1 ∈ store.edges.rows ∧ entry.1.branchId = branchId ∧ entry.1.type = type ∧
        entry.1.cursor.isAfter after = true) ∧
        store.container? entry.1.containerId = some entry.2 ∧
          followsVersion kind versionId entry.2 = true := by
  rw [following, List.mem_filter, List.mem_filterMap]
  constructor
  · rintro ⟨⟨edge, hm, hw⟩, hv⟩
    obtain ⟨container, hc, rfl⟩ := Option.map_eq_some_iff.mp hw
    exact ⟨mem_orderedEdges.mp hm, hc, hv⟩
  · rintro ⟨hm, hc, hv⟩
    refine ⟨⟨entry.1, mem_orderedEdges.mpr hm, ?_⟩, hv⟩
    rw [withContainer, hc, Option.map_some]

/-- What follows a version is listed in the order of its places. -/
theorem pairwise_following (store : Store) (kind : Kind) (versionId branchId : Id)
    (type : ContainerType) (after : Option Cursor) :
    (store.following kind versionId branchId type after).Pairwise fun a b =>
      a.1.cursor.precedes b.1.cursor = true := by
  refine List.Pairwise.filter _ ((store.pairwise_orderedEdges branchId type after).filterMap _ ?_)
  intro a b hab c hc d hd
  obtain ⟨-, -, rfl⟩ := Option.map_eq_some_iff.mp hc
  obtain ⟨-, -, rfl⟩ := Option.map_eq_some_iff.mp hd
  exact hab

/-- What follows a version is listed once. -/
theorem nodup_map_key_following (store : Store) (kind : Kind) (versionId branchId : Id)
    (type : ContainerType) (after : Option Cursor) :
    ((store.following kind versionId branchId type after).map fun entry => entry.1.key).Nodup := by
  refine List.pairwise_map.mpr
    ((store.pairwise_following kind versionId branchId type after).imp ?_)
  intro a b hab hk
  have hc : a.1.cursor = b.1.cursor := congrArg EdgeKey.cursor hk
  rw [hc, Cursor.precedes_irrefl] at hab
  cases hab

/-- There is no more to list than there are edges. -/
theorem length_following_le (store : Store) (kind : Kind) (versionId branchId : Id)
    (type : ContainerType) (after : Option Cursor) :
    (store.following kind versionId branchId type after).length ≤ store.edges.size := by
  exact Nat.le_trans (List.length_filter_le _ _) (Nat.le_trans (List.length_filterMap_le _ _)
    (store.length_orderedEdges_le branchId type after))

/-- The edges of a branch whose container follows a version, drafts before published content, each
with its container. -/
def contentOf (store : Store) (kind : Kind) (versionId branchId : Id) : List (Edge × Container) :=
  store.following kind versionId branchId .draft none ++
    store.following kind versionId branchId .published none

/-- The content of a branch that follows a version, one by one. -/
theorem mem_contentOf {entry : Edge × Container} :
    entry ∈ store.contentOf kind versionId branchId ↔
      entry.1 ∈ store.edges.rows ∧ entry.1.branchId = branchId ∧
        store.container? entry.1.containerId = some entry.2 ∧
          followsVersion kind versionId entry.2 = true := by
  have hall : entry.1.type = .draft ∨ entry.1.type = .published := by cases entry.1.type <;> simp
  have hafter : entry.1.cursor.isAfter none = true := rfl
  rw [contentOf, List.mem_append, mem_following, mem_following]
  tauto

/-- Of the content of a branch, that of one type is listed from its first place. -/
theorem mem_following_none {entry : Edge × Container} :
    entry ∈ store.following kind versionId branchId type none ↔
      entry ∈ store.contentOf kind versionId branchId ∧ entry.1.type = type := by
  have hafter : entry.1.cursor.isAfter none = true := rfl
  rw [mem_following, mem_contentOf]
  tauto

/-- The content of a branch that follows a version is listed once. -/
theorem nodup_map_key_contentOf (store : Store) (kind : Kind) (versionId branchId : Id) :
    ((store.contentOf kind versionId branchId).map fun entry => entry.1.key).Nodup := by
  rw [contentOf, List.map_append, List.nodup_append]
  refine ⟨store.nodup_map_key_following .., store.nodup_map_key_following .., ?_⟩
  intro draft hd published hp he
  obtain ⟨a, ha, rfl⟩ := List.mem_map.mp hd
  obtain ⟨b, hb, rfl⟩ := List.mem_map.mp hp
  have htype : a.1.type = b.1.type := congrArg EdgeKey.type he
  rw [(mem_following.mp ha).1.2.2.1, (mem_following.mp hb).1.2.2.1] at htype
  cases htype

/-- Past the last item of a page stands what is not on it. -/
theorem following_past {size : Nat} {last : Edge × Container}
    (hl : ((store.following kind versionId branchId type after).take size).getLast? = some last) :
    store.following kind versionId branchId type (some last.1.cursor) =
      (store.following kind versionId branchId type after).drop size := by
  have hlast := mem_following.mp (List.mem_of_mem_take (List.mem_of_getLast? hl))
  have hpast : store.following kind versionId branchId type (some last.1.cursor) =
      (store.following kind versionId branchId type after).filter fun entry =>
        last.1.cursor.precedes entry.1.cursor := by
    simp only [following, orderedEdges_some hlast.1.2.2.2, List.filterMap_filter,
      List.filter_filterMap]
    congr 1
    funext edge
    cases hw : store.withContainer edge with
    | none => simp
    | some entry =>
      obtain ⟨container, -, rfl⟩ := Option.map_eq_some_iff.mp hw
      cases hp : last.1.cursor.precedes edge.cursor <;>
        cases hk : followsVersion kind versionId container <;>
          simp [Option.filter_some, hp, hk]
  rw [hpast]
  exact filter_eq_drop (fun a b => a.1.cursor.precedes b.1.cursor)
    (fun a => a.1.cursor.precedes_irrefl) (fun a b => Cursor.precedes_asymm)
    (store.pairwise_following kind versionId branchId type after) hl

/-- Stores with the same edges of a branch and type past a place list the same ones. -/
theorem orderedEdges_congr {other : Store}
    (h : ∀ key : EdgeKey, key.branchId = branchId → key.type = type →
      key.cursor.isAfter after = true → other.edge? key = store.edge? key) :
    other.orderedEdges branchId type after = store.orderedEdges branchId type after := by
  refine eq_of_mem_iff Edge.cursor (other.pairwise_orderedEdges branchId type after)
    (store.pairwise_orderedEdges branchId type after) fun edge => ?_
  rw [mem_orderedEdges, mem_orderedEdges]
  refine and_congr_left fun ⟨hb, ht, ha⟩ => ?_
  have hfind (table : Table Edge Edge.key) :
      edge ∈ table.rows ↔ table.find? edge.key = some edge := by
    rw [Table.find?_eq_some_iff, and_iff_left rfl]
  rw [hfind, hfind]
  exact iff_of_eq (congrArg (· = some edge) (h edge.key hb ht ha))

/-- Links do not matter for what a container follows. -/
theorem followsVersion_unlinked (kind : Kind) (versionId : Id) (container : Container) :
    followsVersion kind versionId container.unlinked = followsVersion kind versionId container := by
  cases kind <;> rfl

/-- What is listed, without the links of the containers. -/
theorem map_unlinked_following (store : Store) (kind : Kind) (versionId branchId : Id)
    (type : ContainerType) (after : Option Cursor) :
    (store.following kind versionId branchId type after).map
        (fun entry => (entry.1, entry.2.unlinked)) =
      ((store.orderedEdges branchId type after).filterMap fun edge =>
        ((store.container? edge.containerId).map Container.unlinked).map (edge, ·)).filter
          fun entry => followsVersion kind versionId entry.2 := by
  rw [following, List.filter_filterMap, List.filter_filterMap, List.map_filterMap]
  congr 1
  funext edge
  rw [withContainer]
  cases store.container? edge.containerId with
  | none => rfl
  | some container =>
    simp only [Option.map_some, Option.filter_some, followsVersion_unlinked]
    cases followsVersion kind versionId container <;> rfl

/-- Edges of a branch are counted at a version exactly when one of them points at a container that
follows it. -/
theorem countEdges_ne_zero_iff {kind : Kind} :
    store.countEdges kind branchId versionId ≠ 0 ↔
      ∃ edge ∈ store.edges.rows, edge.branchId = branchId ∧
        ∃ container, store.container? edge.containerId = some container ∧
          followsVersion kind versionId container = true := by
  rw [countEdges, ← Nat.pos_iff_ne_zero, List.countP_pos_iff]
  constructor
  · rintro ⟨entry, hm, hv⟩
    obtain ⟨edge, he, hw⟩ := List.mem_filterMap.mp hm
    obtain ⟨container, hc, rfl⟩ := Option.map_eq_some_iff.mp hw
    obtain ⟨hrow, hb⟩ := List.mem_filter.mp he
    exact ⟨edge, hrow, of_decide_eq_true hb, container, hc, hv⟩
  · rintro ⟨edge, hrow, hb, container, hc, hv⟩
    refine ⟨(edge, container), List.mem_filterMap.mpr ⟨edge, ?_, ?_⟩, hv⟩
    · exact List.mem_filter.mpr ⟨hrow, decide_eq_true hb⟩
    · rw [withContainer, hc, Option.map_some]

/-- No edge of a branch is counted at a version exactly when none stands there. -/
theorem countEdges_eq_zero_iff :
    store.countEdges .schema branchId versionId = 0 ↔
      ∀ key : EdgeKey, key.branchId = branchId → store.standing? key ≠ some versionId := by
  rw [← not_iff_not, ← ne_eq, countEdges_ne_zero_iff]
  push Not
  constructor
  · rintro ⟨edge, hrow, hb, container, hc, hv⟩
    refine ⟨edge.key, hb, standing?_eq_some_iff.mpr ?_⟩
    exact ⟨edge, container, hrow, rfl, hc, by simpa [followsVersion] using hv⟩
  · rintro ⟨key, hb, hv⟩
    obtain ⟨edge, container, hrow, rfl, hc, hv⟩ := standing?_eq_some_iff.mp hv
    exact ⟨edge, hrow, hb, container, hc, by simpa [followsVersion] using hv⟩

end Store

end VersionedContent
