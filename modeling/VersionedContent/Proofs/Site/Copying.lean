import VersionedContent.Proofs.Site.Paging
import VersionedContent.Proofs.Site.Pinning
import VersionedContent.Proofs.Site.Sound
import VersionedContent.Proofs.Store.Copies

/-!
# What a branch job leaves

The job of a fork that is not migrated yet gives the fork a copy of every edge
that its base has at the time, wherever the pages begin and end, and marks it
migrated. It looks neither at whether the base is migrated nor at what the fork
pins.
-/

namespace VersionedContent.Site

open VersionedContent.Action

variable {versions : Table Version Version.id} {given : Series} {origin : Store} {site : Site}
  {branchId baseId : Id}

/-- Whether a branch is being given copies of the edges of its base. -/
structure Copying (origin : Store) (baseId branchId : Id) (site : Site) : Prop where
  /-- No outage is planned. -/
  outages : site.outages = []
  /-- An edge of the origin points at a stored container. -/
  held : ∀ edge ∈ origin.edges.rows, origin.containers.contains edge.containerId = true
  /-- The branch has copies of some edges of the base. -/
  copied : ∃ edges, (∀ edge ∈ edges, edge ∈ origin.edgesOf baseId) ∧
    origin.Copied site.store branchId edges

/-- The base lists the edges that it had; a branch that were its own base would have them all. -/
theorem Copying.orderedEdges_eq (h : Copying origin baseId branchId site) (type : ContainerType)
    (after : Option Cursor) :
    site.store.orderedEdges baseId type after = origin.orderedEdges baseId type after := by
  obtain ⟨edges, hedges, hc⟩ := h.copied
  refine Store.orderedEdges_congr fun key hb _ _ => ?_
  by_cases hin : key ∈ edges.map fun edge => (edge.onBranch branchId).key
  · obtain ⟨edge, he, rfl⟩ := List.mem_map.mp hin
    obtain ⟨hrow, hbase⟩ := Store.mem_edgesOf.mp (hedges edge he)
    have hown : edge.onBranch branchId = edge := by
      rw [show branchId = edge.branchId from hb.trans hbase.symm]
      rfl
    have hfound : origin.edge? edge.key = some edge :=
      origin.edges.find?_eq_some_iff.mpr ⟨hrow, rfl⟩
    rw [hown, hc.own _ _ hfound, hfound]
  · exact hc.kept key hin

/-- An edge at a free place is copied, any other one is passed over. -/
theorem outcome_copyEdge (ho : site.outages = []) {edge : Edge}
    (hc : site.store.containers.contains edge.containerId = true) (branchId : Id) :
    outcome (copyEdge branchId edge) site = (.ok (),
      if site.store.edge? (edge.onBranch branchId).key = none then
        { site with store := { site.store with
          edges := site.store.edges.insert (edge.onBranch branchId) } }
      else site) := by
  unfold copyEdge
  dsimp only
  rw [outcome_bind_of_ok (outcome_query _ site)]
  have hset : outcome (setEdge (edge.onBranch branchId)) site =
      (.ok (), { site with store := { site.store with
        edges := site.store.edges.insert (edge.onBranch branchId) } }) := by
    unfold setEdge
    rw [outcome_unlessOut ho, outcome_transact, Store.outcome_setEdge,
      if_pos (show site.store.containers.contains (edge.onBranch branchId).containerId = true
        from hc)]
    rfl
  change outcome (if (site.store.edge? (edge.onBranch branchId).key).isNone = true then
    setEdge (edge.onBranch branchId) else pure ()) site = _
  cases hf : site.store.edge? (edge.onBranch branchId).key with
  | none => exact hset
  | some found => rfl

/-- Edges of the base are copied one after the other. -/
theorem Copying.outcome_mapM (h : Copying origin baseId branchId site) (done list : List Edge)
    (hdone : ∀ edge ∈ done, edge ∈ origin.edgesOf baseId)
    (hc : origin.Copied site.store branchId done)
    (hlist : ∀ edge ∈ list, edge ∈ origin.edgesOf baseId) :
    ∃ answers next, outcome (list.mapM (copyEdge branchId)) site =
        (.ok answers, { site with store := next }) ∧
      Copying origin baseId branchId { site with store := next } ∧
      origin.Copied next branchId (done ++ list) := by
  induction list generalizing done site with
  | nil => exact ⟨[], site.store, rfl, h, by rw [List.append_nil]; exact hc⟩
  | cons edge rest ih =>
    have hedge := hlist edge List.mem_cons_self
    have hcontainers : site.store.containers = origin.containers := by rw [hc.aside]
    have hheld : site.store.containers.contains edge.containerId = true := by
      rw [hcontainers]
      exact h.held edge (Store.mem_edgesOf.mp hedge).1
    obtain ⟨store, hstore, hcopied⟩ : ∃ store,
        outcome (copyEdge branchId edge) site = (.ok (), { site with store := store }) ∧
          origin.Copied store branchId (done ++ [edge]) := by
      rw [outcome_copyEdge h.outages hheld branchId]
      by_cases hf : site.store.edge? (edge.onBranch branchId).key = none
      · rw [if_pos hf]
        exact ⟨_, rfl, hc.insert hf⟩
      · rw [if_neg hf]
        exact ⟨site.store, rfl, hc.pass (fun other hm hk =>
          Store.eq_of_onBranch_key_eq (hdone other hm) hedge hk) hf⟩
    have hmore : ∀ other ∈ done ++ [edge], other ∈ origin.edgesOf baseId := by
      intro other hm
      rcases List.mem_append.mp hm with hm | hm
      · exact hdone other hm
      · obtain rfl := List.mem_singleton.mp hm
        exact hedge
    have hcopying : Copying origin baseId branchId { site with store := store } :=
      ⟨h.outages, h.held, _, hmore, hcopied⟩
    obtain ⟨answers, next, hrun, hnext, hall⟩ := ih hcopying _ hmore hcopied
      fun other hm => hlist other (List.mem_cons_of_mem _ hm)
    refine ⟨() :: answers, next, ?_, hnext, ?_⟩
    · rw [List.mapM_cons, outcome_bind_of_ok hstore, outcome_bind_of_ok hrun]
      rfl
    · rw [List.append_assoc, List.singleton_append] at hall
      exact hall

/-- The edges of a base may be read in pages while they are copied. -/
theorem paged_copyEdge {bucket : Nat} (hb : 0 < bucket) :
    Paged (Copying origin baseId branchId) bucket
      (fun type cursor store => store.orderedEdges baseId type cursor) Edge.cursor id
      (fun page => page.mapM (copyEdge branchId)) := by
  have hvisit : ∀ (site : Site) (type : ContainerType) (cursor : Option Cursor) (size : Nat),
      Copying origin baseId branchId site → Copying origin baseId branchId (outcome
        (((site.store.orderedEdges baseId type cursor).take size).mapM
          (copyEdge branchId)) site).2 := by
    intro site type cursor size h
    obtain ⟨done, hdone, hc⟩ := h.copied
    obtain ⟨answers, next, hrun, hnext, -⟩ := h.outcome_mapM done
      ((site.store.orderedEdges baseId type cursor).take size) hdone hc (by
        intro edge hm
        rw [h.orderedEdges_eq] at hm
        obtain ⟨hrow, hbase, -⟩ := Store.mem_orderedEdges.mp (List.mem_of_mem_take hm)
        exact Store.mem_edgesOf.mpr ⟨hrow, hbase⟩)
    rw [hrun]
    exact hnext
  exact {
    positive := hb
    nil := rfl
    append := fun a b => List.mapM_append
    congr := fun a b hab => by
      rw [List.map_id, List.map_id] at hab
      rw [hab]
    past := fun _ _ _ _ _ hl => Store.orderedEdges_past hl
    keeps := hvisit
    frame := fun site type cursor last h _ => by
      rw [(hvisit site type cursor bucket h).orderedEdges_eq, h.orderedEdges_eq] }

/-- Copying may begin on a steady site. -/
theorem Steady.copying (h : Steady versions given site) (baseId branchId : Id) :
    Copying site.store baseId branchId site where
  outages := h.outages
  held edge hm := by
    have hheld := h.housed.held edge.key edge (site.store.edges.find?_eq_some_iff.mpr ⟨hm, rfl⟩)
    rw [ne_eq, Store.follows?_eq_none_iff] at hheld
    simpa using hheld
  copied := ⟨[], by simp, .nil ..⟩

/-- Copying the edges of the base in pages comes to copying all of them in a row. -/
theorem outcome_gatherAll_copyEdge_eq (h : Steady versions given site) (hb : 0 < site.bucketSize)
    (baseId branchId : Id) :
    outcome (gatherAll .ample
        (fun type cursor size => query fun store => store.edgePage baseId type cursor size)
        Edge.cursor (fun page => page.mapM (copyEdge branchId))) site =
      outcome ((site.store.edgesOf baseId).mapM (copyEdge branchId)) site := by
  have hcopying := h.copying baseId branchId
  have hpaged := @paged_copyEdge site.store branchId baseId _ hb
  exact hpaged.outcome_gatherAll hcopying (fun _ => site.store.length_orderedEdges_le ..)
    (by rw [(hpaged.keeps_all hcopying .draft none).orderedEdges_eq])

/-- All edges of the base are copied. -/
theorem outcome_gatherAll_copyEdge (h : Steady versions given site) (hb : 0 < site.bucketSize)
    (baseId branchId : Id) :
    ∃ answers next, outcome (gatherAll .ample
        (fun type cursor size => query fun store => store.edgePage baseId type cursor size)
        Edge.cursor (fun page => page.mapM (copyEdge branchId))) site =
          (.ok answers, { site with store := next }) ∧
      site.store.Copied next branchId (site.store.edgesOf baseId) := by
  obtain ⟨answers, next, hrun, -, hc⟩ := (h.copying baseId branchId).outcome_mapM []
    (site.store.edgesOf baseId) (by simp) (.nil ..) fun _ hm => hm
  exact ⟨answers, next, (outcome_gatherAll_copyEdge_eq h hb baseId branchId).trans hrun, hc⟩

/-- The job of a fork that is not migrated copies all edges of its base and marks it migrated. -/
theorem outcome_copyBaseBranch (h : Steady versions given site) (hb : 0 < site.bucketSize)
    {branch : Branch} (hfound : site.store.branch? branchId = some branch)
    (hm : branch.migrated = false) (hbase : branch.baseId = some baseId) :
    ∃ copied, outcome (copyBaseBranch branchId) site =
        (.ok (), { site with store := { copied with
          branches := site.store.branches.insert { branch with migrated := true } } }) ∧
      site.store.Copied copied branchId (site.store.edgesOf baseId) := by
  obtain ⟨answers, copied, hrun, hc⟩ := outcome_gatherAll_copyEdge h hb baseId branchId
  refine ⟨copied, ?_, hc⟩
  have hbranches : copied.branches = site.store.branches := by rw [hc.aside]
  have hstill : outcome (Site.branch branchId) { site with store := copied } =
      (.ok branch, { site with store := copied }) := outcome_branch (by
    rw [Store.branch?, hbranches]
    exact hfound)
  unfold copyBaseBranch
  rw [outcome_bind_of_ok (outcome_branch hfound)]
  simp only [hm, hbase, Bool.false_eq_true, ite_false]
  rw [outcome_bind_of_ok hrun,
    outcome_bind_of_ok hstill, @outcome_upsertBranch { site with store := copied } h.outages]
  dsimp only
  rw [hbranches, hbase]

/-- Without both versions there is nothing to move after the copying. -/
theorem execute_branch_eq {source target : Option Id} (hnone : source = none ∨ target = none) :
    execute (.branch branchId source target) = execute (.branch branchId none none) := by
  rcases hnone with rfl | rfl
  · rfl
  · cases source <;> rfl

/-- What the job of a fork comes to: it fails for a branch that is not stored or has no base, does
nothing for one that is migrated, and copies the edges of the base otherwise. -/
theorem outcome_execute_branch (h : Steady versions given site) (hb : 0 < site.bucketSize)
    (branchId : Id) :
    ((∃ failure, outcome (execute (.branch branchId none none)) site = (.error failure, site)) ∧
      ∀ branch, site.store.branch? branchId = some branch →
        branch.migrated = false ∧ branch.baseId = none) ∨
    (outcome (execute (.branch branchId none none)) site = (.ok [], site) ∧
      ∃ branch, site.store.branch? branchId = some branch ∧ branch.migrated = true) ∨
    ∃ branch baseId copied, site.store.branch? branchId = some branch ∧
      branch.migrated = false ∧ branch.baseId = some baseId ∧
      outcome (execute (.branch branchId none none)) site =
        (.ok [], { site with store := { copied with
          branches := site.store.branches.insert { branch with migrated := true } } }) ∧
      site.store.Copied copied branchId (site.store.edgesOf baseId) := by
  cases hfound : site.store.branch? branchId with
  | none =>
    obtain ⟨failure, hmissing⟩ := outcome_branch_of_none hfound
    exact .inl ⟨⟨failure, outcome_bind_of_error (outcome_bind_of_error hmissing _) _⟩, by simp⟩
  | some branch =>
    cases hm : branch.migrated with
    | true =>
      refine .inr (.inl ⟨?_, branch, rfl, hm⟩)
      have hcopy : outcome (copyBaseBranch branchId) site = (.ok (), site) := by
        unfold copyBaseBranch
        rw [outcome_bind_of_ok (outcome_branch hfound)]
        simp [hm]
      exact outcome_bind_of_ok hcopy _
    | false =>
      cases hbase : branch.baseId with
      | none =>
        have hcopy : outcome (copyBaseBranch branchId) site =
            (.error (.execution (.noBase branchId)), site) := by
          unfold copyBaseBranch
          rw [outcome_bind_of_ok (outcome_branch hfound)]
          simp [hm, hbase]
        refine .inl ⟨⟨_, outcome_bind_of_error hcopy _⟩, fun other ho => ?_⟩
        obtain rfl := Option.some.inj ho
        exact ⟨hm, hbase⟩
      | some baseId =>
        obtain ⟨copied, hcopy, hc⟩ := outcome_copyBaseBranch h hb hfound hm hbase
        exact .inr (.inr ⟨branch, baseId, copied, rfl, hm, hbase,
          outcome_bind_of_ok hcopy _, hc⟩)

end VersionedContent.Site
