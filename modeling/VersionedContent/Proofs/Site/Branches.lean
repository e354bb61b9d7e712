import VersionedContent.Proofs.Collection.Rows
import VersionedContent.Proofs.Site.Action

/-!
# What is done to branches

Creating a branch fails and leaves the site as it is, or it stores one branch
more under the next identifier. A first branch has no base and is migrated from the
start; a fork has the pins of its base, is yet to be migrated, and its job is
queued. Of the other branches of the project at most the mark of the newest one
changes. Pinning a version first finds the versions that it is about, and moves
the pin only then.
-/

namespace VersionedContent

/-- A branch apart from whether it is the newest of its project. -/
def Branch.unmarked (branch : Branch) : Branch := { branch with latest := false }

/-- A table of branches where one has lost the mark of the newest branch. -/
def Table.unmark (branches : Table Branch Branch.id) (id : Id) : Table Branch Branch.id :=
  match branches.find? id with
  | none => branches
  | some current => branches.insert current.unmarked

/-- A table of branches where some have lost the mark of the newest branch. -/
def Table.unmarkAll (branches : Table Branch Branch.id) (list : List Branch) :
    Table Branch Branch.id :=
  list.foldl (fun branches other => branches.unmark other.id) branches

/-- What taking the mark of the newest branch from one does to any. -/
theorem Table.find?_unmark (branches : Table Branch Branch.id) (marked id : Id) :
    (branches.unmark marked).find? id =
      if id = marked then (branches.find? id).map Branch.unmarked else branches.find? id := by
  unfold unmark
  cases hc : branches.find? marked with
  | none =>
    dsimp only
    split
    · next he => rw [he, hc, Option.map_none]
    · rfl
  | some current =>
    have hid : current.id = marked := (branches.find?_eq_some_iff.mp hc).2
    have hsame : current.unmarked.id = marked := hid
    dsimp only
    rw [find?_insert, hsame]
    split
    · next he => rw [he, hc, Option.map_some]
    · rfl

/-- What taking the mark of the newest branch from some does to any. -/
theorem Table.find?_unmarkAll (branches : Table Branch Branch.id) (list : List Branch) (id : Id) :
    (branches.unmarkAll list).find? id =
      if id ∈ list.map Branch.id then (branches.find? id).map Branch.unmarked
      else branches.find? id := by
  induction list generalizing branches with
  | nil => simp [unmarkAll]
  | cons other rest ih =>
    have htwice (found : Option Branch) :
        (found.map Branch.unmarked).map Branch.unmarked = found.map Branch.unmarked := by
      cases found <;> rfl
    change ((branches.unmark other.id).unmarkAll rest).find? id = _
    rw [ih, find?_unmark, List.map_cons]
    by_cases he : id = other.id
    · simp only [he, ite_true, htwice, ite_self, List.mem_cons, true_or]
    · simp only [he, ite_false, List.mem_cons, false_or]

/-- Branches that lose the mark of the newest one keep everything else. -/
theorem Table.map_unmarked_unmarkAll (branches : Table Branch Branch.id) (list : List Branch)
    (id : Id) : ((branches.unmarkAll list).find? id).map Branch.unmarked =
      (branches.find? id).map Branch.unmarked := by
  rw [find?_unmarkAll]
  cases branches.find? id <;> simp only [Option.map_none, Option.map_some, ite_self]
  split <;> rfl

/-- Pinning a version changes nothing of a branch but its pins. -/
theorem Branch.pin_aside (branch : Branch) (version : Version) :
    { branch.pin version with
      schemaVersions := branch.schemaVersions
      microschemaVersions := branch.microschemaVersions } = branch := by
  unfold pin
  cases version.kind <;> rfl

/-- Pins stay under the identifier of their branch. -/
@[simp] theorem Branch.pin_id (branch : Branch) (version : Version) :
    (branch.pin version).id = branch.id :=
  (congrArg Branch.id (branch.pin_aside version) :)

/-- A branch that is listed is stored. -/
theorem Store.branch?_of_mem_listBranches {store : Store} {projectId : Option Id} {branch : Branch}
    (hm : branch ∈ store.listBranches projectId) : store.branch? branch.id = some branch := by
  rw [listBranches, List.mem_mergeSort, List.mem_filter] at hm
  exact store.branches.find?_eq_some_iff.mpr ⟨hm.1, rfl⟩

/-- Branches of one project that are stored in listing order are listed as they are stored. -/
theorem Store.listBranches_eq_rows {store : Store} {projectId : Id}
    (hall : ∀ branch ∈ store.branches.rows, branch.projectId = projectId)
    (hsorted : store.branches.rows.Pairwise fun a b => a.listedBefore b = true) :
    store.listBranches (some projectId) = store.branches.rows := by
  have hrows : (store.branches.rows.filter fun branch =>
      (some projectId).all (branch.projectId = ·)) = store.branches.rows :=
    List.filter_eq_self.mpr fun branch hm => decide_eq_true (hall branch hm)
  rw [listBranches, hrows]
  exact List.mergeSort_of_pairwise hsorted

namespace Site

open VersionedContent.Action

variable {site : Site} {branchId : Id}

/-- A branch that is stored is found. -/
theorem outcome_branch {branch : Branch} (hb : site.store.branch? branchId = some branch) :
    outcome (Site.branch branchId) site = (.ok branch, site) := by
  unfold Site.branch
  rw [outcome_bind_of_ok (outcome_query _ site), hb]
  rfl

/-- A branch that is not stored is not found. -/
theorem outcome_branch_of_none (hb : site.store.branch? branchId = none) :
    ∃ failure, outcome (Site.branch branchId) site = (.error failure, site) := by
  unfold Site.branch
  rw [outcome_bind_of_ok (outcome_query _ site), hb]
  exact ⟨_, rfl⟩

/-- A branch is stored in place of the one with its identifier. -/
theorem outcome_upsertBranch (ho : site.outages = []) (branch : Branch) :
    outcome (upsertBranch branch) site =
      (.ok (), { site with
        store := { site.store with branches := site.store.branches.insert branch } }) := by
  rw [upsertBranch, outcome_unlessOut ho, outcome_transact]
  rfl

/-- A new branch is stored and counted. -/
theorem outcome_addBranch (ho : site.outages = []) (branch : Branch) :
    outcome (addBranch branch) site =
      (.ok (), { site with
        store := { site.store with branches := site.store.branches.insert branch }
        issued := { site.issued with branches := site.issued.branches.advance 1 } }) := by
  rw [addBranch, outcome_unlessOut ho]
  rfl

/-- A site with one more job, queued under the next identifier. -/
def queueing (site : Site) (kind : JobKind) (retryOf : Option Id) : Site :=
  { ticked site with
    store := { site.store with
      jobs := site.store.jobs.append (.queue site.issued.jobs.next
        (site.clock.reading site.clock.reads) kind retryOf) }
    issued := { site.issued with jobs := site.issued.jobs.advance 1 } }

/-- A job that is queued is logged under the next identifier. -/
theorem outcome_enqueueJob (ho : site.outages = []) (kind : JobKind) (retryOf : Option Id) :
    outcome (enqueueJob kind retryOf) site =
      (.ok (.queue site.issued.jobs.next (site.clock.reading site.clock.reads) kind retryOf),
        site.queueing kind retryOf) := by
  have hadd := @outcome_unlessOut _ .insertJob () (do
      transact (Store.insertJob (.queue site.issued.jobs.next
        (site.clock.reading site.clock.reads) kind retryOf))
      countJob) (ticked site) ho
  unfold enqueueJob addJob
  rw [outcome_bind_of_ok (show outcome nextJobId site =
      (.ok site.issued.jobs.next, site) from rfl), outcome_bind_of_ok (outcome_now site)]
  dsimp only
  rw [outcome_bind, hadd]
  rfl

/-- Queues the job that follows from a pin that has moved up from a former version, if one does. -/
def queueBelow (branchId : Id) (version : Version) : Option Version → Action (Option Job)
  | none => return none
  | some former => do
    if former.number < version.number then
      if (← pendingBelow branchId version) = 0 then return none
      return some (← enqueueMigration branchId former version)
    else return none

/-- What pinning does once the version to pin and the one that is pinned are known. -/
def repin (branchId : Id) (branch : Branch) (version : Version) (former : Option Version) :
    Action (Option Job) := do
  upsertBranch (branch.pin version)
  if version.kind = .microschema then forgetUsage branchId
  queueBelow branchId version former

/-- Pinning a version moves the pin once the versions are known. -/
theorem pinVersion_eq (branchId : Id) (requested : Version) (force : Bool) :
    pinVersion branchId requested force = (do
      let branch ← branch branchId
      let version ← version requested.id
      match branch.pinned? version.kind version.name with
      | none => repin branchId branch version none
      | some current =>
        if current = version.id then return none
        let former ← Site.version current
        if !force then let _ ← versionsBetween former version
        repin branchId branch version (some former)) := rfl

section Assigning

variable {I : Site → Prop} {R : Site → Site → Prop} [Std.Refl R] [IsTrans Site R]

omit [IsTrans Site R] in
/-- Where pinning a version leads, pinning it as one of a kind leads. -/
theorem within_assignOfKind {version : Version} {force : Bool}
    (h : Within I R (fun _ => True) (pinVersion branchId version force)) (kind : Kind) :
    Within I R (fun _ => True) (assignOfKind kind branchId version force) := by
  unfold assignOfKind
  dsimp only
  split
  · exact within_throw_bind _ _
  · exact h

/-- Where pinning any version leads, pinning the latest one of a chain leads. -/
theorem within_assignLatest
    (h : ∀ version, Within I R (fun _ => True) (pinVersion branchId version false)) (kind : Kind)
    (name : String) : Within I R (fun _ => True) (assignLatest branchId kind name) := by
  unfold assignLatest latestVersion
  rw [bind_assoc]
  refine within_bind (P := fun _ => True) (within_query fun _ _ => trivial) fun answer _ => ?_
  refine within_bind (within_orNotFound (P := fun _ => True) fun _ _ => trivial) fun version _ => ?_
  exact within_assignOfKind (h version) version.kind

end Assigning

/-- Each of some branches loses the mark of the newest one. -/
theorem outcome_forM_unmarkLatest (ho : site.outages = []) (list : List Branch)
    (hl : ∀ other ∈ list, site.store.branch? other.id ≠ none) :
    outcome (list.forM unmarkLatest) site =
      (.ok (), { site with store := { site.store with
        branches := site.store.branches.unmarkAll list } }) := by
  induction list generalizing site with
  | nil => rfl
  | cons other rest ih =>
    obtain ⟨current, hc⟩ := Option.ne_none_iff_exists'.mp (hl other List.mem_cons_self)
    have hunmark : site.store.branches.unmark other.id =
        site.store.branches.insert current.unmarked := by
      rw [Table.unmark, show site.store.branches.find? other.id = some current from hc]
    have hstep : outcome (unmarkLatest other) site = (.ok (), { site with
        store := { site.store with branches := site.store.branches.unmark other.id } }) := by
      unfold unmarkLatest
      rw [outcome_bind_of_ok (outcome_branch hc), hunmark]
      exact outcome_upsertBranch ho _
    have hrest := @ih { site with
        store := { site.store with branches := site.store.branches.unmark other.id } } ho
      fun next hm hnone => hl next (List.mem_cons_of_mem _ hm) (by
        have hstill := Table.find?_unmark site.store.branches other.id next.id
        rw [show (site.store.branches.unmark other.id).find? next.id = none from hnone] at hstill
        split at hstill
        · exact Option.map_eq_none_iff.mp hstill.symm
        · exact hstill.symm)
    exact (outcome_bind_of_ok hstep _).trans hrest

/-- The branch that a site may get next. -/
inductive Newborn (site : Site) (projectId : Id) (name : String) : Option Id → Branch → Prop
  /-- The first branch of the project. -/
  | initial : Newborn site projectId name none
      (.initial site.issued.branches.next (site.clock.reading site.clock.reads) projectId
        name)
  /-- A fork of another branch of the project. -/
  | fork {base : Branch} (found : site.store.branch? base.id = some base)
      (own : base.projectId = projectId) : Newborn site projectId name (some base.id)
      (base.fork site.issued.branches.next (site.clock.reading site.clock.reads) name)

/-- A new branch has the next identifier. -/
theorem Newborn.id_eq {projectId : Id} {name : String} {baseId : Option Id} {branch : Branch}
    (h : Newborn site projectId name baseId branch) :
    branch.id = site.issued.branches.next := by
  cases h <;> rfl

/-- A new branch has the base that was asked for. -/
theorem Newborn.baseId_eq {projectId : Id} {name : String} {baseId : Option Id} {branch : Branch}
    (h : Newborn site projectId name baseId branch) : branch.baseId = baseId := by
  cases h <;> rfl

/-- A new branch is migrated unless it is a fork. -/
theorem Newborn.migrated_eq {projectId : Id} {name : String} {baseId : Option Id} {branch : Branch}
    (h : Newborn site projectId name baseId branch) : branch.migrated = baseId.isNone := by
  cases h <;> rfl

/-- A new branch may be a fork of one that the project has. -/
theorem outcome_newBranch_of_base {base : Branch} {id : Id} (hb : site.store.branch? id = some base)
    (name : String) (existing : List Branch) :
    outcome (newBranch base.projectId name (some id) existing) site =
      (.ok (base.fork site.issued.branches.next (site.clock.reading site.clock.reads) name),
        ticked site) := by
  unfold newBranch
  dsimp only
  rw [outcome_bind_of_ok (outcome_branch hb)]
  simp only [ne_eq, not_true_eq_false, ite_false]
  rfl

/-- The new branch of a project is the first one, or a fork of one that is stored, or there is
none. -/
theorem outcome_newBranch (projectId : Id) (name : String) (baseId : Option Id)
    (existing : List Branch) (site : Site) :
    (∃ failure, outcome (newBranch projectId name baseId existing) site = (.error failure, site)) ∨
      ∃ branch, outcome (newBranch projectId name baseId existing) site =
        (.ok branch, ticked site) ∧ Newborn site projectId name baseId branch := by
  cases baseId with
  | none =>
    unfold newBranch
    by_cases he : existing.isEmpty = true
    · refine .inr ⟨_, ?_, .initial⟩
      simp only [he, Bool.not_true, Bool.false_eq_true, ite_false]
      rfl
    · refine .inl ⟨.validation .baseRequired, ?_⟩
      simp only [Bool.not_eq_true] at he
      simp only [he, Bool.not_false, ite_true]
      rfl
  | some id =>
    cases hb : site.store.branch? id with
    | none =>
      obtain ⟨failure, hmissing⟩ := outcome_branch_of_none hb
      exact .inl ⟨failure, outcome_bind_of_error hmissing _⟩
    | some base =>
      obtain rfl : base.id = id := (site.store.branches.find?_eq_some_iff.mp hb).2
      by_cases hp : base.projectId = projectId
      · subst hp
        exact .inr ⟨_, outcome_newBranch_of_base hb name existing, .fork hb rfl⟩
      · refine .inl ⟨.validation (.foreignBase base.id), ?_⟩
        unfold newBranch
        dsimp only
        rw [outcome_bind_of_ok (outcome_branch hb)]
        simp only [hp, ne_eq, not_false_eq_true, ite_true]
        rfl

/-- The branches of a site without the mark of the newest one of a project. -/
def unmarked (site : Site) (projectId : Id) : Table Branch Branch.id :=
  site.store.branches.unmarkAll
    ((site.store.listBranches (some projectId)).filter Branch.latest)

/-- A site with one more branch of a project, which is the newest one now. -/
def growing (site : Site) (projectId : Id) (branch : Branch) : Site :=
  { ticked site with
    store := { site.store with branches := (site.unmarked projectId).insert branch }
    issued := { site.issued with branches := site.issued.branches.advance 1 } }

/-- A branch of a site that has grown is the new one, or one that it had but for the mark of the
newest one. -/
theorem branch?_growing (site : Site) (projectId : Id) (branch : Branch) (id : Id) :
    ((site.growing projectId branch).store.branch? id).map Branch.unmarked =
      if id = branch.id then some branch.unmarked
      else (site.store.branch? id).map Branch.unmarked := by
  have hfind : (site.growing projectId branch).store.branch? id =
      if id = branch.id then some branch else (site.unmarked projectId).find? id :=
    Table.find?_insert _ branch id
  rw [hfind]
  split
  · rfl
  · exact Table.map_unmarked_unmarkAll ..

/-- A site after a branch with a given base was created. -/
def creating (site : Site) (projectId : Id) (branch : Branch) : Option Id → Site
  | none => site.growing projectId branch
  | some _ => (site.growing projectId branch).queueing (.branch branch.id none none) none

/-- The new branch of a project is stored under a name that is free, and the job of a fork is
queued. -/
theorem outcome_createBranch_of_free (ho : site.outages = []) {projectId : Id} {name : String}
    {baseId : Option Id} {branch : Branch} (hname : (Text.trim name).isEmpty = false)
    (hfree : ((site.store.listBranches (some projectId)).any
      fun other => other.name = name) = false)
    (hnew : outcome (newBranch projectId name baseId (site.store.listBranches (some projectId)))
      site = (.ok branch, ticked site)) :
    ∃ job, outcome (createBranch projectId name baseId) site =
      (.ok (branch, job), site.creating projectId branch baseId) := by
  have hmark := @outcome_forM_unmarkLatest (ticked site) ho
    ((site.store.listBranches (some projectId)).filter Branch.latest) fun other hin => by
      rw [show (ticked site).store = site.store from rfl,
        Store.branch?_of_mem_listBranches (List.mem_filter.mp hin).1]
      simp
  have hadd := @outcome_addBranch { ticked site with
    store := { site.store with branches := site.unmarked projectId } } ho branch
  unfold createBranch
  simp only [hname, Bool.false_eq_true, ite_false]
  rw [outcome_bind_of_ok (outcome_query _ site)]
  simp only [hfree, Bool.false_eq_true, ite_false]
  rw [outcome_bind_of_ok hnew, outcome_bind_of_ok hmark]
  cases baseId with
  | none => exact ⟨none, outcome_bind_of_ok hadd _⟩
  | some id =>
    have hqueue := @outcome_enqueueJob (site.growing projectId branch) ho
      (.branch branch.id none none) none
    exact ⟨_, (outcome_bind_of_ok hadd _).trans (outcome_bind_of_ok hqueue _)⟩

/-- Creating a branch fails and leaves the site as it is, or stores the new branch, and queues the
job of a fork. -/
theorem outcome_createBranch (ho : site.outages = []) (projectId : Id) (name : String)
    (baseId : Option Id) :
    (∃ failure, outcome (createBranch projectId name baseId) site = (.error failure, site)) ∨
      ∃ branch job, Newborn site projectId name baseId branch ∧
        outcome (createBranch projectId name baseId) site =
          (.ok (branch, job), site.creating projectId branch baseId) := by
  cases hname : (Text.trim name).isEmpty with
  | true => exact .inl ⟨.validation .emptyBranchName, by simp [createBranch, hname]⟩
  | false =>
    cases hfree : (site.store.listBranches (some projectId)).any fun other => other.name = name with
    | true =>
      refine .inl ⟨.conflict (.branchExists name projectId), ?_⟩
      unfold createBranch
      simp only [hname, Bool.false_eq_true, ite_false]
      rw [outcome_bind_of_ok (outcome_query _ site)]
      simp only [hfree, ite_true]
      rfl
    | false =>
      rcases outcome_newBranch projectId name baseId (site.store.listBranches (some projectId))
        site with ⟨failure, hn⟩ | ⟨branch, hn, hnew⟩
      · refine .inl ⟨failure, ?_⟩
        unfold createBranch
        simp only [hname, Bool.false_eq_true, ite_false]
        rw [outcome_bind_of_ok (outcome_query _ site)]
        simp only [hfree, Bool.false_eq_true, ite_false]
        exact outcome_bind_of_error hn _
      · obtain ⟨job, hcreate⟩ := outcome_createBranch_of_free ho hname hfree hn
        exact .inr ⟨branch, job, hnew, hcreate⟩

end Site

end VersionedContent
