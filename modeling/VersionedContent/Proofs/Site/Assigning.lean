import VersionedContent.Proofs.Site.Pinning
import VersionedContent.Proofs.Site.Reach

/-!
# What an assignment comes to

A version that a branch pins already is not assigned again, and one that lies
behind the pin is refused unless the step is forced. In all other cases the pin
moves and nothing else of the branch does, nor any other branch, version,
container or edge. One job is logged at the end exactly when the pin moves up
past content of the branch.

Assigning follows links and counts over the chain; that the numbers of the
versions decide the same is what a sound site gives.
-/

namespace VersionedContent

/-- Whether a branch pins a version in the chain of another one. -/
structure Store.PinnedFor (store : Store) (branch : Branch) (version former : Version) : Prop where
  /-- The versions are of one chain. -/
  chain : former ∈ store.chainVersions version.kind version.name
  /-- The branch pins it. -/
  pinned : branch.pinned? version.kind version.name = some former.id

/-- A branch pins one version of a chain at most. -/
theorem Store.PinnedFor.unique {store : Store} {branch : Branch} {version former other : Version}
    (h : store.PinnedFor branch version former) (ho : store.PinnedFor branch version other) :
    former = other :=
  store.versions.eq_of_key_eq (Store.mem_chainVersions.mp h.chain).1
    (Store.mem_chainVersions.mp ho.chain).1 (Option.some.inj (h.pinned.symm.trans ho.pinned))

/-- Whether records differ in what a branch pins for the kind and name of a version, which it pins
now, and in jobs at most. -/
structure Store.Assigned (store : Store) (branch : Branch) (version : Version) (next : Store) :
    Prop where
  /-- The versions stay. -/
  versions_eq : next.versions = store.versions
  /-- The containers stay. -/
  containers_eq : next.containers = store.containers
  /-- The edges stay. -/
  edges_eq : next.edges = store.edges
  /-- Other branches stay. -/
  others : ∀ id, id ≠ branch.id → next.branch? id = store.branch? id
  /-- The branch pins the version, its other pins stay, and so does what it holds beside pins. -/
  moved : ∃ pinned, next.branch? branch.id = some pinned ∧
    pinned.pinned? version.kind version.name = some version.id ∧
    (∀ kind name, ¬(kind = version.kind ∧ name = version.name) →
      pinned.pinned? kind name = branch.pinned? kind name) ∧
    { pinned with
      schemaVersions := branch.schemaVersions
      microschemaVersions := branch.microschemaVersions } = branch

/-- A branch that is stored with a pin is assigned the version. -/
theorem Store.assigned_insert (store : Store) (branch : Branch) (version : Version)
    (jobs : JobLog) :
    store.Assigned branch version
      { store with branches := store.branches.insert (branch.pin version), jobs := jobs } := by
  have hfind := store.branches.find?_insert (branch.pin version)
  rw [branch.pin_id] at hfind
  refine ⟨rfl, rfl, rfl, fun id hne => (hfind id).trans (if_neg hne), branch.pin version,
    (hfind branch.id).trans (if_pos rfl), ?_, fun kind name hne => ?_, branch.pin_aside version⟩
  · rw [Branch.pinned?_pin, if_pos ⟨rfl, rfl⟩]
  · rw [Branch.pinned?_pin, if_neg hne]

namespace Site

open VersionedContent.Action

variable {site : Site} {branch : Branch} {version : Version}

/-- Assigning a version looks at what the branch pins for its name. -/
theorem outcome_assign (hb : site.store.branch? branch.id = some branch)
    (hv : version ∈ site.store.versions.rows) (force : Bool) :
    outcome (assign branch.id version force) site =
      outcome (match branch.pinned? version.kind version.name with
        | none => repin branch.id branch version none
        | some current => do
          if current = version.id then return none
          let former ← Site.version current
          if !force then let _ ← versionsBetween former version
          repin branch.id branch version (some former)) site := by
  have hpins : assign branch.id version force = pinVersion branch.id version force := by
    unfold assign assignOfKind
    dsimp only
    rw [if_neg (not_not.mpr rfl)]
  rw [hpins, pinVersion_eq, outcome_bind_of_ok (outcome_branch hb)]
  exact outcome_bind_of_ok (outcome_version (Store.version?_eq_some_iff.mpr ⟨hv, rfl⟩)) _

/-- A version that is pinned already is not pinned again. -/
theorem outcome_assign_of_pinned (hb : site.store.branch? branch.id = some branch)
    (hv : version ∈ site.store.versions.rows) (force : Bool)
    (hp : branch.pinned? version.kind version.name = some version.id) :
    outcome (assign branch.id version force) site = (.ok none, site) := by
  rw [outcome_assign hb hv, hp]
  dsimp only
  rw [if_pos rfl]
  rfl

/-- A version takes the place of another one, unless that one is later and nothing forces the
step. -/
theorem outcome_assign_of_pinnedFor (h : Sound site)
    (hb : site.store.branch? branch.id = some branch)
    (hv : version ∈ site.store.versions.rows) {force : Bool}
    (hl : force = false →
      (site.store.chainVersions version.kind version.name).length < 4294967296)
    {former : Version} (hf : site.store.PinnedFor branch version former)
    (hne : former.id ≠ version.id) :
    outcome (assign branch.id version force) site =
      if version.number < former.number ∧ force = false then
        (.error (.conflict (.notAhead version.kind version.name version.number former.number)),
          site)
      else outcome (repin branch.id branch version (some former)) site := by
  have hfound := Store.version?_of_mem_chainVersions hf.chain
  rw [outcome_assign hb hv, hf.pinned]
  dsimp only
  rw [if_neg hne, outcome_bind_of_ok (outcome_version hfound)]
  cases force with
  | true => exact (if_neg (by simp)).symm
  | false =>
    have hbetween := outcome_versionsBetween_of_mem h hf.chain hv (hl rfl)
    by_cases hlt : version.number < former.number
    · rw [if_neg (Nat.not_le.mpr hlt)] at hbetween
      exact (outcome_bind_of_error hbetween _).trans (if_pos ⟨hlt, rfl⟩).symm
    · rw [if_pos (Nat.not_lt.mp hlt)] at hbetween
      exact (outcome_bind_of_ok hbetween _).trans (if_neg fun hboth => hlt hboth.1).symm

/-- Unless the branch pins the version already, or a later one from which nothing forces it back,
assigning a version pins it in place of the one that the branch pins, if there is one. -/
theorem outcome_assign_of_free (h : Sound site) (hb : site.store.branch? branch.id = some branch)
    (hv : version ∈ site.store.versions.rows) {force : Bool}
    (hl : force = false →
      (site.store.chainVersions version.kind version.name).length < 4294967296)
    (hne : branch.pinned? version.kind version.name ≠ some version.id)
    (hfree : ∀ former, site.store.PinnedFor branch version former →
      version.number < former.number → force = true) :
    ∃ former : Option Version,
      (∀ old, former = some old ↔ site.store.PinnedFor branch version old) ∧
      outcome (assign branch.id version force) site =
        outcome (repin branch.id branch version former) site := by
  cases hp : branch.pinned? version.kind version.name with
  | none =>
    refine ⟨none, fun old => ⟨nofun, fun hold => ?_⟩, ?_⟩
    · cases hp.symm.trans hold.pinned
    · rw [outcome_assign hb hv, hp]
  | some current =>
    obtain ⟨former, hchain, rfl⟩ := h.exists_of_pinned? hb hp
    have hpins : site.store.PinnedFor branch version former := ⟨hchain, hp⟩
    refine ⟨some former, fun old => ⟨?_, fun hold => congrArg some (hpins.unique hold)⟩, ?_⟩
    · rintro ⟨⟩
      exact hpins
    · have hother : former.id ≠ version.id := fun he => hne (hp.trans (congrArg some he))
      rw [outcome_assign_of_pinnedFor h hb hv hl hpins hother, if_neg]
      rintro ⟨hlt, hforce⟩
      rw [hfree former hpins hlt] at hforce
      cases hforce

/-- What moving a pin leaves is the records with the version assigned, and one more job exactly
when content stands below a pin that has moved up. -/
theorem outcome_repin_assigned (h : Sound site) (hb : site.store.branch? branch.id = some branch)
    (hv : version ∈ site.store.versions.rows) (former : Option Version) :
    ∃ answer next, outcome (repin branch.id branch version former) site = (.ok answer, next) ∧
      site.store.Assigned branch version next.store ∧
      ((∃ old, former = some old ∧ old.number < version.number ∧
          site.store.Lags branch.id version ∧
          ∃ job, answer = some job ∧ next.store.jobs = site.store.jobs.append job ∧
            job.kind = .migration version.kind branch.id old.id version.id ∧
            job.status = .queued) ∨
        ((∀ old ∈ former, old.number < version.number → ¬site.store.Lags branch.id version) ∧
          answer = none ∧ next.store.jobs = site.store.jobs)) := by
  obtain ⟨pinned, hsound, hstore, ho⟩ := outcome_repin h hb hv former
  have hlags : pinned.store.Lags branch.id version ↔ site.store.Lags branch.id version := by
    rw [hstore]
    rfl
  rw [ho]
  rcases outcome_queueBelow hsound branch.id version former with
    ⟨old, hold, hlt, hbelow, job, hq, hqueued, hkind, hstatus⟩ | ⟨hnone, hq⟩
  · rw [hstore] at hqueued
    refine ⟨_, _, hq, ?_, .inl ⟨old, hold, hlt, hlags.mp hbelow, job, rfl, ?_, hkind, hstatus⟩⟩
    · rw [hqueued]
      exact site.store.assigned_insert branch version _
    · rw [hqueued]
  · refine ⟨_, _, hq, ?_, .inr ⟨fun old ho hlt => hlags.not.mp (hnone old ho hlt), rfl, ?_⟩⟩
    · rw [hstore]
      exact site.store.assigned_insert branch version _
    · rw [hstore]

/-- On every reachable site, assigning a stored version to a stored branch with or without force has
one of three outcomes. Nothing changes and nothing is answered when the branch pins the version.
Nothing changes and the step is refused when the branch pins a later version of the chain and the
step is not forced. Otherwise the step succeeds and changes the pin alone, and when the pin was on
an earlier version and content of the branch stands below the version, one job that waits is
logged at the end and answered, from the earlier version to this one; when not, no job is. -/
theorem Reachable.assign_exact (h : Reachable site) (hb : branch ∈ site.store.branches.rows)
    (hv : version ∈ site.store.versions.rows) (force : Bool)
    (hl : force = false →
      (site.store.chainVersions version.kind version.name).length < 4294967296) :
    (branch.pinned? version.kind version.name = some version.id →
      outcome (assign branch.id version force) site = (.ok none, site)) ∧
    (∀ former, site.store.PinnedFor branch version former → version.number < former.number →
      force = false →
        outcome (assign branch.id version force) site =
          (.error (.conflict (.notAhead version.kind version.name version.number former.number)),
            site)) ∧
    (branch.pinned? version.kind version.name ≠ some version.id →
      (∀ former, site.store.PinnedFor branch version former → version.number < former.number →
        force = true) →
      ∃ answer next, outcome (assign branch.id version force) site = (.ok answer, next) ∧
        site.store.Assigned branch version next.store ∧
        (∀ former, site.store.PinnedFor branch version former → former.number < version.number →
          site.store.Lags branch.id version →
            ∃ job, answer = some job ∧ next.store.jobs = site.store.jobs.append job ∧
              next.store.jobs.jobs = site.store.jobs.jobs ++ [job] ∧ job.status = .queued ∧
              job.kind = .migration version.kind branch.id former.id version.id) ∧
        ((∀ former, site.store.PinnedFor branch version former → former.number < version.number →
          ¬site.store.Lags branch.id version) →
            answer = none ∧ next.store.jobs = site.store.jobs)) := by
  have hfound : site.store.branch? branch.id = some branch :=
    site.store.branches.find?_eq_some_iff.mpr ⟨hb, rfl⟩
  refine ⟨outcome_assign_of_pinned hfound hv force, fun former hf hlt hforce => ?_,
    fun hne hfree => ?_⟩
  · have hother : former.id ≠ version.id := by
      intro he
      rw [site.store.versions.eq_of_key_eq (Store.mem_chainVersions.mp hf.chain).1 hv he] at hlt
      exact Nat.lt_irrefl _ hlt
    rw [outcome_assign_of_pinnedFor h.sound hfound hv hl hf hother, if_pos ⟨hlt, hforce⟩]
  · obtain ⟨former, hformer, ho⟩ := outcome_assign_of_free h.sound hfound hv hl hne hfree
    obtain ⟨answer, next, hrepin, hassigned, hjobs⟩ :=
      outcome_repin_assigned h.sound hfound hv former
    refine ⟨answer, next, ho.trans hrepin, hassigned, fun old hold hlt hlags => ?_,
      fun hnone => ?_⟩
    · rcases hjobs with ⟨other, hother, -, -, job, ha, hlog, hkind, hstatus⟩ | ⟨hclear, -⟩
      · obtain rfl := hold.unique ((hformer other).mp hother)
        refine ⟨job, ha, hlog, ?_, hstatus, hkind⟩
        rw [hlog]
        simp [JobLog.jobs, JobLog.append]
      · exact absurd hlags (hclear old ((hformer old).mpr hold) hlt)
    · rcases hjobs with ⟨other, hother, hlt, hlags, -⟩ | ⟨-, hquiet⟩
      · exact absurd hlags (hnone other ((hformer other).mp hother) hlt)
      · exact hquiet

/-- The job of a pin that has moved up has not run when the pin is to move again: it may not go
back, and going on it leaves a second job behind. -/
theorem assign_exact_of_waiting_content :
    let titled (fields : List FieldSpec) : Definition :=
      { name := "article", fields := { name := "title", type := .string } :: fields }
    let site := Call.afterAll (.empty (.ticking ⟨0, 0⟩) 10 10)
      [.createSchema .schema (titled []), .createBranch "p1" "main" none,
        .assignLatest "@b1" .schema "article",
        .addContent "@b1" "n1" "en" "@v1" [("title", .string "Hello")] [.draft],
        .updateSchema .schema "article" (titled [{ name := "lead", type := .html }]) [] none,
        .assignLatest "@b1" .schema "article",
        .updateSchema .schema "article" (titled [{ name := "lead", type := .string }]) [] none]
    ∃ branch ∈ site.store.branches.rows, ∃ first ∈ site.store.versions.rows,
      ∃ second ∈ site.store.versions.rows, ∃ third ∈ site.store.versions.rows,
        site.store.PinnedFor branch third second ∧ site.store.Lags branch.id third ∧
        outcome (assign branch.id first false) site =
          (.error (.conflict (.notAhead .schema "article" 1 2)), site) ∧
        ∃ job next, outcome (assign branch.id third false) site = (.ok (some job), next) ∧
          next.store.jobs.jobs = site.store.jobs.jobs ++ [job] ∧
          site.store.jobs.jobs.map Job.kind = [.schema "@b1" "@v1" "@v2"] ∧
          job.kind = .schema "@b1" "@v2" "@v3" := by
  intro titled site
  have hreach : Reachable site :=
    ((Managed.empty (.ticking ⟨0, 0⟩) 10 10).calls (by decide +kernel)).reachable
  have hbranches : site.store.branches.rows.map (fun branch =>
      (branch.id, branch.pinned? .schema "article")) = [("@b1", some "@v2")] := by decide +kernel
  have hversions : site.store.versions.rows.map (fun version =>
      (version.id, version.kind, version.name, version.number)) =
        [("@v1", .schema, "article", 1), ("@v2", .schema, "article", 2),
          ("@v3", .schema, "article", 3)] := by decide +kernel
  have hlength : (site.store.chainVersions .schema "article").length < 4294967296 := by
    decide +kernel
  have hstands : site.store.countEdges .schema "@b1" "@v1" ≠ 0 := by decide +kernel
  have hjobs : site.store.jobs.jobs.map Job.kind = [.schema "@b1" "@v1" "@v2"] := by decide +kernel
  -- With its value gone, no step below evaluates the site again.
  clear_value site
  simp only [List.map_eq_cons_iff, List.map_eq_nil_iff, Prod.mk.injEq] at hbranches hversions
  obtain ⟨branch, _, hbranch, ⟨hid, hpin⟩, -⟩ := hbranches
  obtain ⟨first, _, hrows, ⟨hid₁, hk₁, hn₁, h₁⟩, second, _, rfl, ⟨hid₂, hk₂, hn₂, h₂⟩, third, _,
    rfl, ⟨hid₃, hk₃, hn₃, h₃⟩, rfl⟩ := hversions
  have hb : branch ∈ site.store.branches.rows := by simp [hbranch]
  have hfirst : first ∈ site.store.versions.rows := by simp [hrows]
  have hsecond : second ∈ site.store.versions.rows := by simp [hrows]
  have hthird : third ∈ site.store.versions.rows := by simp [hrows]
  have hback : site.store.PinnedFor branch first second :=
    ⟨Store.mem_chainVersions.mpr ⟨hsecond, by rw [hk₁, hk₂], by rw [hn₁, hn₂]⟩,
      by rw [hk₁, hn₁, hid₂, hpin]⟩
  have hon : site.store.PinnedFor branch third second :=
    ⟨Store.mem_chainVersions.mpr ⟨hsecond, by rw [hk₂, hk₃], by rw [hn₂, hn₃]⟩,
      by rw [hk₃, hn₃, hid₂, hpin]⟩
  have hlags : site.store.Lags branch.id third := by
    refine Store.lags_iff.mpr ⟨first, ?_, by rw [h₁, h₃]; decide, ?_⟩
    · exact Store.mem_chainVersions.mpr ⟨hfirst, by rw [hk₁, hk₃], by rw [hn₁, hn₃]⟩
    · rwa [hk₃, hid, hid₁]
  obtain ⟨-, hrefused, -⟩ := hreach.assign_exact hb hfirst false fun _ => by rwa [hk₁, hn₁]
  have hconflict := hrefused second hback (by rw [h₁, h₂]; decide) rfl
  rw [hk₁, hn₁, h₁, h₂] at hconflict
  obtain ⟨-, -, hmoved⟩ := hreach.assign_exact hb hthird false fun _ => by rwa [hk₃, hn₃]
  obtain ⟨answer, next, ho, -, hqueued, -⟩ := hmoved (by simp [hk₃, hn₃, hid₃, hpin])
    fun former hformer hlt => by
      obtain rfl := hon.unique hformer
      rw [h₂, h₃] at hlt
      exact absurd hlt (by decide)
  obtain ⟨job, rfl, -, hlog, -, hkind⟩ := hqueued second hon (by rw [h₂, h₃]; decide) hlags
  rw [hk₃, hid, hid₂, hid₃] at hkind
  exact ⟨branch, hb, first, hfirst, second, hsecond, third, hthird, hon, hlags, hconflict, job,
    next, ho, hlog, hjobs, hkind⟩

end Site

end VersionedContent
