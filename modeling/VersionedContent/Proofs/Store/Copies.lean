import VersionedContent.Proofs.Store.Pages

/-!
# Copies of edges

A fork gets a copy of the edges of its base: an edge of its own, at the same
place, to the same container. Where it has an edge already that one stays, and no
edge of another branch changes.
-/

namespace VersionedContent

/-- The edge of another branch to the same container. -/
def Edge.onBranch (edge : Edge) (branchId : Id) : Edge := { edge with branchId := branchId }

/-- Edges of one branch whose copies have one key have one key. -/
theorem Edge.key_eq_of_onBranch {a b : Edge} {branchId : Id} (hb : a.branchId = b.branchId)
    (hk : (a.onBranch branchId).key = (b.onBranch branchId).key) : a.key = b.key := by
  simp only [onBranch, key, EdgeKey.mk.injEq] at hk ⊢
  exact ⟨hb, hk.2⟩

namespace Store

variable {origin store : Store} {branchId : Id}

/-- Whether a branch has got a copy of each of some edges, where it had no edge of its own, and
nothing else has changed. -/
structure Copied (origin store : Store) (branchId : Id) (edges : List Edge) : Prop where
  /-- Only edges are set. -/
  aside : store = { origin with edges := store.edges }
  /-- An edge that was there stays. -/
  own : ∀ key edge, origin.edge? key = some edge → store.edge? key = some edge
  /-- Where the branch had no edge it has a copy. -/
  copied : ∀ edge ∈ edges, origin.edge? (edge.onBranch branchId).key = none →
    store.edge? (edge.onBranch branchId).key = some (edge.onBranch branchId)
  /-- Other places stay as they are. -/
  kept : ∀ key, key ∉ edges.map (fun edge => (edge.onBranch branchId).key) →
    store.edge? key = origin.edge? key

/-- Without edges nothing is copied. -/
theorem Copied.nil (store : Store) (branchId : Id) : Copied store store branchId [] where
  aside := rfl
  own _ _ h := h
  copied _ hm := (List.not_mem_nil hm).elim
  kept _ _ := rfl

/-- No edge of another branch changes. -/
theorem Copied.kept_of_ne {edges : List Edge} (h : Copied origin store branchId edges)
    {key : EdgeKey} (hk : key.branchId ≠ branchId) : store.edge? key = origin.edge? key := by
  refine h.kept key fun hm => ?_
  obtain ⟨edge, -, rfl⟩ := List.mem_map.mp hm
  exact hk rfl

/-- A place where the branch has an edge already is passed over. -/
theorem Copied.pass {edges : List Edge} (h : Copied origin store branchId edges) {edge : Edge}
    (hs : ∀ other ∈ edges, (other.onBranch branchId).key = (edge.onBranch branchId).key →
      other = edge)
    (he : store.edge? (edge.onBranch branchId).key ≠ none) :
    Copied origin store branchId (edges ++ [edge]) where
  aside := h.aside
  own := h.own
  copied other hm hnone := by
    rcases List.mem_append.mp hm with hm | hm
    · exact h.copied other hm hnone
    · obtain rfl := List.mem_singleton.mp hm
      by_cases hin : (other.onBranch branchId).key ∈
          edges.map fun edge => (edge.onBranch branchId).key
      · obtain ⟨done, hd, hk⟩ := List.mem_map.mp hin
        exact h.copied other (hs done hd hk ▸ hd) hnone
      · exact absurd ((h.kept _ hin).trans hnone) he
  kept key hk := by
    rw [List.map_append, List.mem_append, not_or] at hk
    exact h.kept key hk.1

/-- At a free place the copy is stored. -/
theorem Copied.insert {edges : List Edge} (h : Copied origin store branchId edges) {edge : Edge}
    (he : store.edge? (edge.onBranch branchId).key = none) :
    Copied origin { store with edges := store.edges.insert (edge.onBranch branchId) } branchId
      (edges ++ [edge]) := by
  have hfind (key : EdgeKey) :
      edge? { store with edges := store.edges.insert (edge.onBranch branchId) } key =
        if key = (edge.onBranch branchId).key then some (edge.onBranch branchId)
        else store.edge? key := store.edges.find?_insert (edge.onBranch branchId) key
  have hfree : ∀ key, store.edge? key ≠ none → key ≠ (edge.onBranch branchId).key := by
    rintro _ hk rfl
    exact hk he
  refine { aside := ?_, own := fun key found hf => ?_, copied := fun other hm hnone => ?_,
           kept := fun key hk => ?_ }
  · exact congrArg (fun other : Store =>
      { other with edges := store.edges.insert (edge.onBranch branchId) }) h.aside
  · have hstays := h.own key found hf
    rw [hfind, if_neg (hfree key (by simp [hstays]))]
    exact hstays
  · rw [hfind]
    rcases List.mem_append.mp hm with hm | hm
    · have hdone := h.copied other hm hnone
      rw [if_neg (hfree _ (by simp [hdone]))]
      exact hdone
    · obtain rfl := List.mem_singleton.mp hm
      rw [if_pos rfl]
  · rw [List.map_append, List.mem_append, not_or] at hk
    rw [hfind, if_neg (by simpa using hk.2)]
    exact h.kept key hk.1

/-- A branch that has got a copy of each edge of its base has its own edge at each place, or else
that of the base; no edge of another branch has changed. -/
theorem Copied.edge?_eq {baseId : Id} (h : Copied origin store branchId (origin.edgesOf baseId))
    (key : EdgeKey) :
    store.edge? key =
      if key.branchId = branchId then
        (origin.edge? key).or ((origin.edge? { key with branchId := baseId }).map
          fun edge => edge.onBranch branchId)
      else origin.edge? key := by
  split_ifs with hk
  · subst hk
    cases hown : origin.edge? key with
    | some edge => exact h.own key edge hown
    | none =>
      rw [Option.none_or]
      cases hbase : origin.edge? { key with branchId := baseId } with
      | some edge =>
        obtain ⟨hm, hkey⟩ := origin.edges.find?_eq_some_iff.mp hbase
        have hplace : (edge.onBranch key.branchId).key = key :=
          congrArg (fun other : EdgeKey => { other with branchId := key.branchId }) hkey
        have hcopied := h.copied edge
          (mem_edgesOf.mpr ⟨hm, congrArg EdgeKey.branchId hkey⟩) (hplace.symm ▸ hown)
        rw [hplace] at hcopied
        exact hcopied
      | none =>
        refine (h.kept key fun hm => ?_).trans hown
        obtain ⟨edge, hm, hkey⟩ := List.mem_map.mp hm
        obtain ⟨hrow, rfl⟩ := mem_edgesOf.mp hm
        have hplace : edge.key = { key with branchId := edge.branchId } := by
          rw [← hkey]
          rfl
        have hfound : origin.edge? edge.key = some edge :=
          origin.edges.find?_eq_some_iff.mpr ⟨hrow, rfl⟩
        rw [← hplace, hfound] at hbase
        cases hbase
  · exact h.kept_of_ne hk

/-- A branch that had no edges has just the copies. -/
theorem Copied.edges_of_vacant {edges : List Edge} (h : Copied origin store branchId edges)
    (hv : ∀ edge ∈ origin.edges.rows, edge.branchId ≠ branchId) {edge : Edge} :
    edge ∈ store.edges.rows ∧ edge.branchId = branchId ↔
      ∃ source ∈ edges, edge = source.onBranch branchId := by
  have hnone : ∀ key : EdgeKey, key.branchId = branchId → origin.edge? key = none := by
    intro key hk
    by_contra hne
    obtain ⟨found, hf⟩ := Option.ne_none_iff_exists'.mp hne
    obtain ⟨hm, rfl⟩ := origin.edges.find?_eq_some_iff.mp hf
    exact hv found hm hk
  constructor
  · rintro ⟨hm, hb⟩
    have hfound : store.edge? edge.key = some edge :=
      store.edges.find?_eq_some_iff.mpr ⟨hm, rfl⟩
    have hin : edge.key ∈ edges.map fun edge => (edge.onBranch branchId).key := by
      by_contra hout
      rw [h.kept _ hout, hnone _ hb] at hfound
      cases hfound
    obtain ⟨source, hs, hk⟩ := List.mem_map.mp hin
    have hcopied := h.copied source hs (hnone _ rfl)
    rw [hk, hfound] at hcopied
    exact ⟨source, hs, Option.some.inj hcopied⟩
  · rintro ⟨source, hs, rfl⟩
    exact ⟨(store.edges.find?_eq_some_iff.mp (h.copied source hs (hnone _ rfl))).1, rfl⟩

/-- Edges of a branch whose copies are at one place are one. -/
theorem eq_of_onBranch_key_eq {source : Id} {a b : Edge} (ha : a ∈ store.edgesOf source)
    (hb : b ∈ store.edgesOf source)
    (hk : (a.onBranch branchId).key = (b.onBranch branchId).key) : a = b := by
  obtain ⟨hma, hba⟩ := mem_edgesOf.mp ha
  obtain ⟨hmb, hbb⟩ := mem_edgesOf.mp hb
  exact store.edges.eq_of_key_eq hma hmb (Edge.key_eq_of_onBranch (hba.trans hbb.symm) hk)

/-- Counting the edges of a branch by the containers that they point at. -/
theorem countEdges_eq_countP (store : Store) (kind : Kind) (branchId versionId : Id) :
    store.countEdges kind branchId versionId =
      (store.edges.rows.filter fun edge => edge.branchId = branchId).countP fun edge =>
        (store.container? edge.containerId).any (followsVersion kind versionId) := by
  rw [countEdges, List.countP_filterMap]
  refine List.countP_congr fun edge _ => ?_
  unfold withContainer
  cases store.container? edge.containerId <;> simp

/-- A branch that had no edges has as many copies at a version as there are edges to copy. -/
theorem Copied.countEdges_eq {baseId : Id}
    (h : Copied origin store branchId (origin.edgesOf baseId))
    (hv : ∀ edge ∈ origin.edges.rows, edge.branchId ≠ branchId) (kind : Kind) (versionId : Id) :
    store.countEdges kind branchId versionId = origin.countEdges kind baseId versionId := by
  have hperm : (store.edges.rows.filter fun edge => edge.branchId = branchId).Perm
      ((origin.edges.rows.filter fun edge => edge.branchId = baseId).map
        fun edge => edge.onBranch branchId) := by
    refine (List.perm_ext_iff_of_nodup (store.edges.nodup_map_key.of_map.filter _) ?_).mpr ?_
    · refine List.Nodup.map_on (fun a ha b hb hab => ?_)
        (origin.edges.nodup_map_key.of_map.filter _)
      simp only [List.mem_filter, decide_eq_true_eq] at ha hb
      exact origin.eq_of_onBranch_key_eq (mem_edgesOf.mpr ha) (mem_edgesOf.mpr hb)
        (congrArg Edge.key hab)
    · intro edge
      rw [List.mem_filter, decide_eq_true_eq, h.edges_of_vacant hv, List.mem_map]
      simp only [mem_edgesOf, List.mem_filter, decide_eq_true_eq, @eq_comm _ edge]
  have hcontainers : store.containers = origin.containers := by rw [h.aside]
  rw [countEdges_eq_countP, countEdges_eq_countP, hperm.countP_eq, List.countP_map]
  refine List.countP_congr fun edge _ => ?_
  simp [container?, hcontainers, Edge.onBranch]

end Store

end VersionedContent
