import VersionedContent.Proofs.Jobs.Log
import VersionedContent.Proofs.Site.Branches
import VersionedContent.Proofs.Store.Copies

/-!
# How content spreads to forks

A branch covers its base when it has an edge wherever the base has one, to the
same container. While content spreads, every branch that is marked migrated
covers its base, and every other one waits for a job that has not ended well.
Storing a new branch, changing a job in place and copying the edges of a base
that is migrated itself keep it so.
-/

namespace VersionedContent

namespace JobLog

variable {log : JobLog} {issued : Series}

/-- A job that is changed in place is logged, and so are all others as they were. -/
theorem mem_replace_of_mem {entry : JobEntry} (hm : entry ∈ log.entries) (sequence : Nat)
    (job : Job) :
    (if entry.sequence = sequence then ⟨sequence, job⟩ else entry) ∈
      (log.replace sequence job).entries :=
  List.mem_map_of_mem hm

/-- What is logged after a job was changed in place is that job, or was logged before. -/
theorem eq_or_mem_of_mem_replace {entry : JobEntry} {sequence : Nat} {job : Job}
    (hm : entry ∈ (log.replace sequence job).entries) :
    entry = ⟨sequence, job⟩ ∨ entry ∈ log.entries := by
  obtain ⟨old, ho, rfl⟩ := List.mem_map.mp hm
  split
  · exact .inl rfl
  · exact .inr ho

end JobLog

namespace Store

/-- Whether a branch is stored and marked migrated. -/
def isMigrated (store : Store) (branchId : Id) : Bool :=
  (store.branch? branchId).any Branch.migrated

/-- Whether a branch has an edge wherever its base has one, to the same container. -/
def Covers (store : Store) (branchId baseId : Id) : Prop :=
  ∀ edge ∈ store.edges.rows, edge.branchId = baseId →
    store.edge? (edge.onBranch branchId).key = some (edge.onBranch branchId)

/-- Whether branches cover their bases or wait for the jobs that make them do so. -/
structure Spreading (store : Store) : Prop where
  /-- Jobs that wait or run copy the content of a base and do nothing else. -/
  copying : ∀ entry ∈ store.jobs.entries, entry.job.status.isTerminal = false →
    ∃ branchId, entry.job.kind = .branch branchId none none
  /-- A branch that is not migrated has a job that has not ended well. -/
  awaited : ∀ branchId, store.branch? branchId ≠ none → store.isMigrated branchId = false →
    ∃ entry ∈ store.jobs.entries, entry.job.kind = .branch branchId none none ∧
      entry.job.status ≠ .completed
  /-- Only branches that are migrated have edges. -/
  owned : ∀ edge ∈ store.edges.rows, store.isMigrated edge.branchId = true
  /-- A branch that is migrated covers its base, and that is migrated as well. -/
  covered : ∀ branchId branch baseId, store.branch? branchId = some branch →
    branch.migrated = true → branch.baseId = some baseId →
      store.isMigrated baseId = true ∧ store.Covers branchId baseId

variable {store next : Store} {branchId baseId : Id} {branch : Branch} {issued : Series}

/-- Whether a branch is migrated does not depend on the mark of the newest one. -/
theorem isMigrated_eq_of_map_unmarked
    (h : (next.branch? branchId).map Branch.unmarked =
      (store.branch? branchId).map Branch.unmarked) :
    next.isMigrated branchId = store.isMigrated branchId := by
  have hmap (store : Store) :
      store.isMigrated branchId = ((store.branch? branchId).map Branch.unmarked).any
        Branch.migrated := by
    unfold isMigrated
    cases store.branch? branchId <;> rfl
  rw [hmap, hmap, h]

/-- When a branch is marked migrated it is, and so are those that were. -/
theorem isMigrated_mark (hb : store.branch? branchId = some branch) (id : Id) :
    isMigrated { next with branches := store.branches.insert { branch with migrated := true } } id =
      (decide (id = branchId) || store.isMigrated id) := by
  have hid : branch.id = branchId := (store.branches.find?_eq_some_iff.mp hb).2
  rw [isMigrated, branch?, Table.find?_insert]
  by_cases he : id = branchId
  · rw [if_pos (he.trans hid.symm)]
    simp [he]
  · rw [if_neg fun h => he (h.trans hid)]
    simp [he, isMigrated, branch?]

/-- Stores where no job waits, no branch has a base and only stored branches have edges have
nothing to spread. -/
theorem spreading_of_roots (hjobs : ∀ job ∈ store.jobs.jobs, job.status.isTerminal = true)
    (hroots : ∀ branch ∈ store.branches.rows, branch.migrated = true ∧ branch.baseId = none)
    (hedges : ∀ edge ∈ store.edges.rows, store.isMigrated edge.branchId = true) :
    Spreading store where
  copying entry hm ht := by
    rw [hjobs entry.job (List.mem_map_of_mem hm)] at ht
    cases ht
  awaited branchId hs hmig := by
    obtain ⟨branch, hb⟩ := Option.ne_none_iff_exists'.mp hs
    have hmigrated := (hroots branch (store.branches.find?_eq_some_iff.mp hb).1).1
    rw [isMigrated, hb, Option.any_some, hmigrated] at hmig
    cases hmig
  owned := hedges
  covered branchId branch baseId hb _ hbase := by
    rw [(hroots branch (store.branches.find?_eq_some_iff.mp hb).1).2] at hbase
    cases hbase

/-- A job that copies the content of a base may be queued. -/
theorem Spreading.queue (h : Spreading store) {job : Job}
    (hk : job.kind = .branch branchId none none) :
    Spreading { store with jobs := store.jobs.append job } := by
  refine { h with copying := fun entry hm ht => ?_, awaited := fun id hs hmig => ?_ }
  · rcases List.mem_append.mp hm with hm | hm
    · exact h.copying entry hm ht
    · rw [List.mem_singleton.mp hm]
      exact ⟨branchId, hk⟩
  · obtain ⟨entry, hm, hentry⟩ := h.awaited id hs hmig
    exact ⟨entry, List.mem_append_left _ hm, hentry⟩

/-- A new branch may be stored: a first one, or a fork that a job waits for. -/
theorem Spreading.grow (h : Spreading store) (hnew : store.branch? branch.id = none)
    (hedges : next.edges = store.edges) (hjobs : next.jobs = store.jobs)
    (hbranch : ∀ id, (next.branch? id).map Branch.unmarked =
      if id = branch.id then some branch.unmarked else (store.branch? id).map Branch.unmarked)
    (hborn : branch.migrated = true ∧ branch.baseId = none ∨
      branch.migrated = false ∧ ∃ entry ∈ store.jobs.entries,
        entry.job.kind = .branch branch.id none none ∧ entry.job.status ≠ .completed) :
    Spreading next := by
  have hown (found : Branch) (hf : next.branch? branch.id = some found) :
      found.unmarked = branch.unmarked := by
    have hsame := hbranch branch.id
    rw [hf, if_pos rfl] at hsame
    exact Option.some.inj hsame
  have hother (id : Id) (hne : id ≠ branch.id) : next.isMigrated id = store.isMigrated id :=
    isMigrated_eq_of_map_unmarked (by rw [hbranch, if_neg hne])
  have hkept (id : Id) (hm : store.isMigrated id = true) : next.isMigrated id = true := by
    rw [hother id, hm]
    rintro rfl
    rw [isMigrated, hnew] at hm
    cases hm
  refine { copying := fun entry hm ht => h.copying entry (hjobs ▸ hm) ht,
           awaited := fun id hs hmig => ?_, owned := fun edge hm => ?_,
           covered := fun id found base hf hmig hbase => ?_ }
  · rw [hjobs]
    by_cases hid : id = branch.id
    · obtain ⟨found, hf⟩ := Option.ne_none_iff_exists'.mp hs
      have hsame : found.migrated = branch.migrated :=
        (congrArg Branch.migrated (hown found (hid ▸ hf)) :)
      rw [isMigrated, hf, Option.any_some, hsame] at hmig
      rcases hborn with ⟨hm, -⟩ | ⟨-, hwaits⟩
      · exact absurd (hm.symm.trans hmig) (by decide)
      · exact hid ▸ hwaits
    · have hstored : store.branch? id ≠ none := by
        intro hnone
        have hsame := hbranch id
        rw [if_neg hid, hnone] at hsame
        exact hs (Option.map_eq_none_iff.mp hsame)
      exact h.awaited id hstored (hother id hid ▸ hmig)
  · exact hkept _ (h.owned edge (hedges ▸ hm))
  · by_cases hid : id = branch.id
    · have hsame := hown found (hid ▸ hf)
      have hm : found.migrated = branch.migrated := (congrArg Branch.migrated hsame :)
      have hb : found.baseId = branch.baseId := (congrArg Branch.baseId hsame :)
      rcases hborn with ⟨-, hnone⟩ | ⟨hunmigrated, -⟩
      · exact absurd ((hbase.symm.trans hb).trans hnone) (Option.some_ne_none _)
      · exact absurd ((hmig.symm.trans hm).trans hunmigrated) (by decide)
    · have hsame := hbranch id
      rw [hf, if_neg hid] at hsame
      obtain ⟨old, ho, he⟩ := Option.map_eq_some_iff.mp hsame.symm
      have hm : old.migrated = found.migrated := (congrArg Branch.migrated he :)
      have hb : old.baseId = found.baseId := (congrArg Branch.baseId he :)
      obtain ⟨hbasemig, hcovers⟩ := h.covered id old base ho (hm.trans hmig) (hb.trans hbase)
      refine ⟨hkept _ hbasemig, fun edge hin hon => ?_⟩
      rw [edge?, hedges]
      exact hcovers edge (hedges ▸ hin) hon

/-- A job may be changed in place. It may end well when its branch is migrated. -/
theorem Spreading.replace (h : Spreading store) (hlog : store.jobs.Sound issued) {entry : JobEntry}
    (hm : entry ∈ store.jobs.entries) (ht : entry.job.status.isTerminal = false) {job : Job}
    (hk : job.kind = entry.job.kind)
    (hend : job.status = .completed → ∀ branchId, entry.job.kind = .branch branchId none none →
      store.branch? branchId ≠ none → store.isMigrated branchId = true) :
    Spreading { store with jobs := store.jobs.replace entry.sequence job } := by
  refine { h with copying := fun other ho hother => ?_, awaited := fun branchId hs hmig => ?_ }
  · rcases JobLog.eq_or_mem_of_mem_replace ho with rfl | ho
    · obtain ⟨branchId, hkind⟩ := h.copying entry hm ht
      exact ⟨branchId, hk.trans hkind⟩
    · exact h.copying other ho hother
  · obtain ⟨other, ho, hkind, hstatus⟩ := h.awaited branchId hs hmig
    have hin := JobLog.mem_replace_of_mem ho entry.sequence job
    by_cases hsame : other.sequence = entry.sequence
    · obtain rfl := hlog.eq_of_sequence_eq ho hm hsame
      rw [if_pos rfl] at hin
      refine ⟨_, hin, hk.trans hkind, fun hc => ?_⟩
      exact absurd ((hend hc branchId hkind hs).symm.trans hmig) (by decide)
    · rw [if_neg hsame] at hin
      exact ⟨other, hin, hkind, hstatus⟩

/-- The edges of a base that is migrated may be copied to a fork, which is migrated then. -/
theorem Spreading.copy (h : Spreading store) (hb : store.branch? branchId = some branch)
    (hm : branch.migrated = false) (hbase : branch.baseId = some baseId)
    (hready : store.isMigrated baseId = true)
    (hc : store.Copied next branchId (store.edgesOf baseId)) :
    Spreading { next with
      branches := store.branches.insert { branch with migrated := true } } := by
  have hid : branch.id = branchId := (store.branches.find?_eq_some_iff.mp hb).2
  have hunmigrated : store.isMigrated branchId = false := by
    rw [isMigrated, hb, Option.any_some, hm]
  have hne (id : Id) (hmig : store.isMigrated id = true) : id ≠ branchId := by
    rintro rfl
    exact absurd (hmig.symm.trans hunmigrated) (by decide)
  have hfind (id : Id) : (store.branches.insert { branch with migrated := true }).find? id =
      if id = branchId then some { branch with migrated := true } else store.branch? id := by
    rw [← hid]
    exact store.branches.find?_insert { branch with migrated := true } id
  have hold (edge : Edge) (hin : edge ∈ next.edges.rows) (hon : edge.branchId ≠ branchId) :
      edge ∈ store.edges.rows := by
    have hfound : next.edge? edge.key = some edge :=
      next.edges.find?_eq_some_iff.mpr ⟨hin, rfl⟩
    rw [hc.kept_of_ne (show edge.key.branchId ≠ branchId from hon)] at hfound
    exact (store.edges.find?_eq_some_iff.mp hfound).1
  have hjobs : next.jobs = store.jobs := by rw [hc.aside]
  refine { copying := fun entry hin ht => h.copying entry (hjobs ▸ hin) ht,
           awaited := fun id hs hmig => ?_, owned := fun edge hin => ?_,
           covered := fun id found base hf hmig hfrom => ?_ }
  · rw [isMigrated_mark hb, Bool.or_eq_false_iff, decide_eq_false_iff_not] at hmig
    have hstored : store.branch? id ≠ none := by
      rw [branch?, hfind, if_neg hmig.1] at hs
      exact hs
    obtain ⟨entry, hin, hentry⟩ := h.awaited id hstored hmig.2
    exact ⟨entry, hjobs ▸ hin, hentry⟩
  · rw [isMigrated_mark hb, Bool.or_eq_true, decide_eq_true_eq]
    by_cases hon : edge.branchId = branchId
    · exact .inl hon
    · exact .inr (h.owned edge (hold edge hin hon))
  · rw [branch?, hfind] at hf
    rw [isMigrated_mark hb, Bool.or_eq_true]
    split at hf
    · next he =>
      obtain rfl := Option.some.inj hf
      obtain rfl : baseId = base := Option.some.inj (hbase.symm.trans hfrom)
      refine ⟨.inr hready, fun edge hin hon => ?_⟩
      rw [he]
      have hsource : edge ∈ store.edgesOf baseId :=
        mem_edgesOf.mpr ⟨hold edge hin (hon ▸ hne baseId hready), hon⟩
      refine hc.copied edge hsource ?_
      by_contra hsome
      obtain ⟨own, ho⟩ := Option.ne_none_iff_exists'.mp hsome
      obtain ⟨hrow, hkey⟩ := store.edges.find?_eq_some_iff.mp ho
      have hon : own.branchId = branchId := congrArg EdgeKey.branchId hkey
      exact hne _ (h.owned own hrow) hon
    · next he =>
      obtain ⟨hbasemig, hcovers⟩ := h.covered id found base hf hmig hfrom
      refine ⟨.inr hbasemig, fun edge hin hon => ?_⟩
      have hcopy := hcovers edge (hold edge hin (hon ▸ hne base hbasemig)) hon
      exact (hc.kept_of_ne (show (edge.onBranch id).key.branchId ≠ branchId from he)).trans hcopy

end Store

end VersionedContent
