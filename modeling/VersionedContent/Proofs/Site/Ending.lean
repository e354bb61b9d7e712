import VersionedContent.Proofs.Site.Buckets
import VersionedContent.Proofs.Site.Limits

/-!
# Jobs end

Whatever job is executed on a site that can be worked on, its loops end by themselves:
links lead to the end of a chain, each page of a listing starts past the one before,
and a history leads to containers made earlier. So none of them is cut short when it may
go round often enough, and as often as the site tells is enough.
-/

namespace VersionedContent.Site

open VersionedContent.Action

variable {site : Site} {versions : Table Version Version.id} {given issued : Series}
  {origin : Store}

/-- Links lead to the end of their chain. -/
theorem endsAs_stepsTo (h : Sound site) (target : Id) (kind : Kind) (name : String)
    (more : Limit → Nat) {fuel i : Nat}
    (hf : (site.store.chainVersions kind name).length < i + fuel) :
    EndsAs
      (fun limit => stepsTo limit target (more limit + fuel)
        ((site.store.chainVersions kind name)[i]?.map Version.id))
      (stepsTo .ample target fuel ((site.store.chainVersions kind name)[i]?.map Version.id))
      site := by
  induction fuel generalizing i with
  | zero =>
    rw [List.getElem?_eq_none (by omega), Option.map_none]
    simp only [stepsTo]
    exact endsAs_const _ site
  | succ fuel ih =>
    cases hv : (site.store.chainVersions kind name)[i]? with
    | none =>
      simp only [Option.map_none, stepsTo]
      exact endsAs_const _ site
    | some step =>
      have hfound := Store.version?_of_mem_chainVersions (List.mem_of_getElem? hv)
      simp only [Option.map_some, stepsTo]
      refine (endsAs_const _ site).bind_of_ok (outcome_version hfound) ?_
      split_ifs
      · exact endsAs_const _ site
      · rw [(h.chained.linked kind name).next hv]
        exact (ih (by omega)).bind fun _ _ _ => endsAs_const _ _

/-- The way from a stored version to another one is gone to its end. -/
theorem endsAs_versionsBetween (h : Sound site) {source : Version}
    (hs : source ∈ site.store.versions.rows) (target : Version) :
    EndsAs (fun limit => versionsBetween source target limit) (versionsBetween source target)
      site := by
  unfold versionsBetween
  dsimp only
  by_cases hchain : source.kind ≠ target.kind ∨ source.name ≠ target.name
  · simp only [if_pos hchain]
    exact endsAs_throw_bind _ _ _ site
  · simp only [if_neg hchain]
    by_cases hid : source.id = target.id
    · simp only [if_pos hid]
      exact endsAs_const _ site
    · simp only [if_neg hid]
      obtain ⟨i, hi⟩ := Store.exists_getElem?_of_mem hs
      have hsize : (site.store.chainVersions source.kind source.name).length ≤
          site.store.versions.size := List.length_filter_le _ _
      refine (endsAs_const _ site).bind_of_ok (outcome_query _ site) ?_
      rw [(h.chained.linked source.kind source.name).next hi, Limit.rounds_ample]
      refine EndsAs.bind (.of_rounds (fun limit rounds => stepsTo limit _ rounds _)
        (endsAs_stepsTo h target.id source.kind source.name _ (by omega))) fun steps next _ => ?_
      cases steps with
      | none => exact endsAs_const _ _
      | some steps => exact endsAs_const _ _

/-- A plan is made in finitely many steps. -/
theorem endsAs_plan (h : Sound site) (kind : Kind) (sourceId targetId : Id) :
    EndsAs (fun limit => plan kind sourceId targetId limit) (plan kind sourceId targetId)
      site := by
  unfold plan
  cases hs : site.store.version? sourceId with
  | none =>
    obtain ⟨failure, hmissing⟩ := outcome_version_of_none hs
    exact (endsAs_const _ site).bind_of_error hmissing
  | some source =>
    refine (endsAs_const _ site).bind_of_ok (outcome_version hs) ?_
    cases ht : site.store.version? targetId with
    | none =>
      obtain ⟨failure, hmissing⟩ := outcome_version_of_none ht
      exact (endsAs_const _ site).bind_of_error hmissing
    | some target =>
      refine (endsAs_const _ site).bind_of_ok (outcome_version ht) ?_
      dsimp only
      by_cases hk : source.kind ≠ kind ∨ target.kind ≠ kind
      · simp only [if_pos hk]
        exact endsAs_throw_bind _ _ _ site
      · simp only [if_neg hk]
        have hrow := (Store.version?_eq_some_iff.mp hs).1
        refine (endsAs_versionsBetween h hrow target).bind fun steps between _ => ?_
        refine (endsAs_const _ between).bind fun _ lent _ => ?_
        exact (endsAs_const _ lent).bind fun _ _ _ => endsAs_const _ _

section Pages

variable {α β γ : Type} {I : Site → Prop} {bucket : Nat}
  {list : ContainerType → Option Cursor → Store → List α} {cursorOf : α → Cursor} {view : α → γ}
  {visit : List α → Action (List β)} {run : Limit → List α → Action (List β)}

/-- Each page starts past the one before, so that there is a last one. -/
theorem endsAs_gather (h : Paged I bucket list cursorOf view visit)
    (hrun : ∀ site type cursor, I site →
      EndsAs (fun limit => run limit ((list type cursor site.store).take bucket))
        (visit ((list type cursor site.store).take bucket)) site)
    (type : ContainerType) (more : Limit → Nat) (fuel : Nat) {cursor : Option Cursor} (hi : I site)
    (hf : (list type cursor site.store).length < fuel) :
    EndsAs
      (fun limit => gather limit bucket (fun cursor => query fun store =>
        (list type cursor store).take bucket) cursorOf (run limit) (more limit + fuel) cursor)
      (gather .ample bucket (fun cursor => query fun store =>
        (list type cursor store).take bucket) cursorOf visit fuel cursor) site := by
  induction fuel generalizing cursor site with
  | zero => exact absurd hf (Nat.not_lt_zero _)
  | succ fuel ih =>
    simp only [gather]
    refine (endsAs_const _ site).bind_of_ok (outcome_query _ site) ?_
    cases hlast : ((list type cursor site.store).take bucket).getLast? with
    | none => exact endsAs_const _ site
    | some last =>
      refine (hrun site type cursor hi).bind fun found next hvisit => ?_
      obtain ⟨hnext, -, hless⟩ := h.past_page hi hlast hvisit
      split_ifs
      · exact (ih hnext (by omega)).bind fun _ _ _ => endsAs_const _ _
      · exact endsAs_const _ next

/-- Drafts and published content are gone through to the end. -/
theorem endsAs_gatherAll (h : Paged I site.bucketSize list cursorOf view visit)
    (hrun : ∀ other type cursor, I other →
      EndsAs (fun limit => run limit ((list type cursor other.store).take site.bucketSize))
        (visit ((list type cursor other.store).take site.bucketSize)) other)
    (hi : I site) (hf : ∀ type, (list type none site.store).length ≤ site.store.edges.size)
    (happart : (list .published none
        (outcome (visit (list .draft none site.store)) site).2.store).map view =
      (list .published none site.store).map view) :
    EndsAs
      (fun limit => gatherAll limit (fun type cursor size => query fun store =>
        (list type cursor store).take size) cursorOf (run limit))
      (gatherAll .ample (fun type cursor size => query fun store =>
        (list type cursor store).take size) cursorOf visit) site := by
  have hall : ContainerType.all = [.draft, .published] := rfl
  unfold gatherAll
  refine (endsAs_const _ site).bind_of_ok (outcome_get site) ?_
  simp only [hall, List.mapM_cons, List.mapM_nil, bind_assoc, pure_bind, Limit.rounds_ample]
  have hdrafts := h.outcome_gather .draft _ hi (Nat.lt_succ_of_le (hf .draft))
  refine EndsAs.bind (.of_rounds (fun limit rounds => gather limit _ _ _ (run limit) rounds none)
    (endsAs_gather h hrun .draft _ _ hi (Nat.lt_succ_of_le (hf .draft))))
    fun drafts between hbetween => ?_
  have hnext := h.keeps_all hi .draft none
  rw [← hdrafts, hbetween] at hnext
  rw [← hdrafts, hbetween] at happart
  have hshort : (list .published none between.store).length < site.store.edges.size + 1 := by
    have hsame := congrArg List.length happart
    rw [List.length_map, List.length_map] at hsame
    exact Nat.lt_succ_of_le (hsame ▸ hf .published)
  exact EndsAs.bind (.of_rounds (fun limit rounds => gather limit _ _ _ (run limit) rounds none)
    (endsAs_gather h hrun .published _ _ hnext hshort)) fun _ _ _ => endsAs_const _ _

end Pages

/-- The content of a branch is gone through to the end while it is moved. -/
theorem endsAs_migrateBranchContent (h : Steady versions given site) (hsize : 0 < site.bucketSize)
    {plan : MigrationPlan} (hp : given.IsPast plan.target.id) (branchId : Id) :
    EndsAs (fun limit => migrateBranchContent branchId plan limit)
      (migrateBranchContent branchId plan) site := by
  unfold migrateBranchContent
  cases hfound : site.store.branch? branchId with
  | none =>
    obtain ⟨failure, hmissing⟩ := outcome_branch_of_none hfound
    exact (endsAs_const _ site).bind_of_error hmissing
  | some found =>
    refine (endsAs_const _ site).bind_of_ok (outcome_branch hfound) ?_
    exact endsAs_gatherAll
      (paged_migrateContainer hp hsize plan.source.kind plan.source.id branchId)
      (fun other _ _ _ => endsAs_const _ other) h (fun _ => site.store.length_following_le ..)
      (map_unlinked_published hp h plan.source.kind plan.source.id branchId)

/-- The edges of a base are gone through to the end while they are copied. -/
theorem endsAs_copyBaseBranch (h : Steady versions given site) (hsize : 0 < site.bucketSize)
    (branchId : Id) :
    EndsAs (fun limit => copyBaseBranch branchId limit) (copyBaseBranch branchId) site := by
  unfold copyBaseBranch
  cases hfound : site.store.branch? branchId with
  | none =>
    obtain ⟨failure, hmissing⟩ := outcome_branch_of_none hfound
    exact (endsAs_const _ site).bind_of_error hmissing
  | some forked =>
    refine (endsAs_const _ site).bind_of_ok (outcome_branch hfound) ?_
    split_ifs
    · exact endsAs_const _ site
    · cases forked.baseId with
      | none => exact endsAs_const _ site
      | some baseId =>
        have hcopying := h.copying baseId branchId
        have hpaged := @paged_copyEdge site.store branchId baseId _ hsize
        refine EndsAs.bind (endsAs_gatherAll hpaged (fun other _ _ _ => endsAs_const _ other)
          hcopying (fun _ => site.store.length_orderedEdges_le ..)
          (by rw [(hpaged.keeps_all hcopying .draft none).orderedEdges_eq])) fun _ copied _ => ?_
        exact (endsAs_const _ copied).bind fun _ marked _ => endsAs_const _ marked

/-- A migration between two versions is carried out to the end. -/
theorem endsAs_migration (h : Sound site) (kind : Kind) (branchId source target : Id) :
    EndsAs (fun limit => do
        migrateBranchContent branchId (← plan kind source target limit) limit)
      (do migrateBranchContent branchId (← plan kind source target)) site := by
  obtain ⟨hrecached, hfound⟩ := recached_plan h kind source target
  refine (endsAs_plan h kind source target).bind fun plan planned hplan => ?_
  rw [hplan] at hrecached hfound
  obtain ⟨cache, rfl⟩ : ∃ cache, planned = { site with cache := cache } := ⟨_, hrecached⟩
  have hsteady : Steady site.store.versions site.issued.versions { site with cache := cache } :=
    ⟨h.outages, rfl, rfl, h.housed⟩
  exact endsAs_migrateBranchContent hsteady h.bucketSize (hfound plan rfl).2 branchId

/-- A history is gone back along to its first container. -/
theorem endsAs_purgeHistory (before : Option Instant) (ho : origin.Historied issued)
    {line : List Id} (more : Limit → Nat) (fuel : Nat) (hfuel : line.length ≤ fuel)
    {start : Option Id} (hi : Purging origin issued site) (hl : site.store.Lineage start line) :
    EndsAs (fun limit => purgeHistory limit before (more limit + fuel) start)
      (purgeHistory .ample before fuel start) site := by
  induction line generalizing fuel start site with
  | nil =>
    cases hl
    simp only [purgeHistory]
    exact endsAs_const _ site
  | cons id rest ih =>
    cases hl with
    | @cons _ container _ found back =>
      rw [List.length_cons] at hfuel
      obtain ⟨fuel, rfl⟩ := Nat.exists_eq_add_one_of_ne_zero (show fuel ≠ 0 by omega)
      have hid := Store.id_of_container? found
      simp only [purgeHistory]
      refine (endsAs_const _ site).bind_of_ok (outcome_query _ site) ?_
      rw [found]
      dsimp only
      rw [hid]
      have hkept := ih fuel (by omega) hi back
      by_cases hold : (before.all fun before => container.createdAt.before before) = true
      · simp only [if_pos hold]
        refine (endsAs_const _ site).bind_of_ok (outcome_query _ site) ?_
        cases hr : site.store.isReferenced id with
        | true => exact hkept
        | false =>
          have hp := (hi.pruned.purgeable_iff found before).mpr ⟨hold, hr⟩
          obtain ⟨between, hdelete, hbetween, hc⟩ := purges_deleteContainerVersion ho hp hi found
          have hnot := hi.historied.notMem_lineage found back
          refine (endsAs_const _ site).bind_of_ok hdelete (ih fuel (by omega) hbetween ?_)
          exact hi.historied.entwined.lineage_delete_of_notMem found hc back hnot
      · simp only [if_neg hold]
        exact hkept

/-- The history behind an edge is gone back along to its first container. -/
theorem endsAs_purgeBehind (before : Option Instant) (ho : origin.Historied issued) {edge : Edge}
    (he : edge ∈ origin.edges.rows) (hi : Purging origin issued site) :
    EndsAs (fun limit => purgeBehind before edge limit) (purgeBehind before edge) site := by
  obtain ⟨head, hhead⟩ := Option.ne_none_iff_exists'.mp (hi.pruned.held edge he)
  obtain ⟨line, hl⟩ := hi.historied.exists_lineage_previous hhead
  have hlength := hi.historied.length_lineage_le hl
  unfold purgeBehind
  refine (endsAs_const _ site).bind_of_ok (outcome_get site) ?_
  dsimp only
  rw [hhead]
  exact .of_rounds (fun limit rounds => purgeHistory limit before rounds _)
    (endsAs_purgeHistory before ho _ _ (Nat.le_succ_of_le hlength) hi hl)

/-- The edges of a branch are gone through to the end while a purge goes behind them. -/
theorem endsAs_purgeBranch (before : Option Instant) (ho : origin.Historied issued)
    (branch : Branch) (hi : Purging origin issued site) :
    EndsAs (fun limit => purgeBranch before branch limit) (purgeBranch before branch) site := by
  have hpaged := paged_purgeBehind before ho branch.id hi.bucketSize
  unfold purgeBranch
  refine EndsAs.bind (endsAs_gatherAll hpaged (fun other type cursor hother => ?_) hi
    (fun _ => site.store.length_orderedEdges_le ..) ?_) fun _ purged _ => endsAs_const _ purged
  · refine endsAs_mapM (fun edge hm between hbetween => ?_) hother
    rw [hother.pruned.orderedEdges_eq] at hm
    have he := (Store.mem_orderedEdges.mp (List.mem_of_mem_take hm)).1
    exact ⟨endsAs_purgeBehind before ho he hbetween, (purges_purgeBehind ho he).purging hbetween⟩
  · rw [(hpaged.keeps_all hi .draft none).pruned.orderedEdges_eq, hi.pruned.orderedEdges_eq]

/-- A purge goes through all branches of its project. -/
theorem endsAs_purgeVersions (projectId : Id) (before : Option Instant)
    (ho : origin.Historied issued) (hi : Purging origin issued site) :
    EndsAs (fun limit => purgeVersions projectId before limit) (purgeVersions projectId before)
      site := by
  unfold purgeVersions
  refine (endsAs_const _ site).bind_of_ok (outcome_query _ site) ?_
  refine endsAs_forM (fun branch _ between hbetween => ?_) hi
  exact ⟨endsAs_purgeBranch before ho branch hbetween,
    (purges_purgeBranch before ho branch).purging hbetween⟩

/-- The work of any job comes to an end on a site where jobs may be executed. -/
theorem endsAs_execute (h : Workable site) (kind : JobKind) :
    EndsAs (fun limit => execute kind limit) (execute kind) site := by
  cases kind with
  | schema branchId source target => exact endsAs_migration h.sound .schema branchId source target
  | microschema branchId source target =>
    exact endsAs_migration h.sound .microschema branchId source target
  | branch branchId source target =>
    refine (endsAs_copyBaseBranch h.sound.steady h.sound.bucketSize branchId).bind
      fun _ copied hcopied => ?_
    cases source with
    | none => exact endsAs_const _ copied
    | some source =>
      cases target with
      | none => exact endsAs_const _ copied
      | some target =>
        obtain ⟨hsteady, hworks, -⟩ := @within_copyBaseBranch _ _ (· = branchId) branchId rfl site
          h.sound.steady
        rw [hcopied] at hsteady hworks
        exact endsAs_migration (h.sound.of_works hsteady hworks) .schema branchId source target
  | versionPurge projectId before =>
    exact (endsAs_purgeVersions projectId before h.historied
      (h.sound.purging h.historied)).bind fun _ purged _ => endsAs_const _ purged

/-- A job is run to its end. -/
theorem endsAs_process (h : Workable site) (job : Job) :
    EndsAs (fun limit => process job limit) (process job) site := by
  simp only [process_eq]
  exact (endsAs_execute h job.kind).attempt.bind fun _ next _ => endsAs_const _ next

end VersionedContent.Site
