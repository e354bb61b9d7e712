import Mathlib.Algebra.GroupWithZero.Nat
import VersionedContent.Proofs.Site.Walk
import VersionedContent.Proofs.Store.Pages
import VersionedContent.Proofs.Store.Places

/-!
# What pinning a version does

A pin that moves forward on a branch leaves a job behind whenever content of the
branch stands below the version that is pinned. Nothing else is queued, and a pin
that may not move stays.
-/

namespace VersionedContent

/-- The version of a chain that a branch pins. -/
def Store.pin? (store : Store) (branchId : Id) (kind : Kind) (name : String) : Option Id :=
  (store.branch? branchId).bind fun branch => branch.pinned? kind name

/-- A branch pins the version that it was given a pin for. -/
theorem Store.pin?_insert {store : Store} {branchId : Id} {branch : Branch}
    (hb : store.branch? branchId = some branch) (version : Version) :
    ({ store with branches := store.branches.insert (branch.pin version) } : Store).pin? branchId
      version.kind version.name = some version.id := by
  have hid : branchId = (branch.pin version).id := by
    rw [branch.pin_id, (store.branches.find?_eq_some_iff.mp hb).2]
  have hfound := store.branches.find?_insert (branch.pin version) branchId
  rw [if_pos hid] at hfound
  unfold Store.pin? Store.branch?
  rw [hfound, Option.bind_some, Branch.pinned?_pin, if_pos ⟨rfl, rfl⟩]

/-- What pinning a version of a schema on a branch may do to the records. -/
inductive Store.Repins (store : Store) (branchId : Id) (name : String) : Store → Prop
  /-- The pin stays. -/
  | kept : Repins store branchId name store
  /-- The pin moves forward, or is the first, and no content stands below it. -/
  | clear {branch : Branch} {version : Version} (found : store.branch? branchId = some branch)
      (stored : version ∈ store.chainVersions .schema name)
      (ahead : ∀ former, branch.pinned? .schema name = some former →
        (store.chainIds .schema name).idxOf former <
            (store.chainIds .schema name).idxOf version.id ∧
          ∀ older ∈ store.chainVersions .schema name, older.number < version.number →
            store.countEdges .schema branchId older.id = 0) :
      Repins store branchId name
        { store with branches := store.branches.insert (branch.pin version) }
  /-- The pin moves forward, and a job is queued that moves content from the former one. -/
  | queued {branch : Branch} {version : Version} {former : Id} {job : Job}
      (found : store.branch? branchId = some branch)
      (stored : version ∈ store.chainVersions .schema name)
      (pinned : branch.pinned? .schema name = some former)
      (ahead : (store.chainIds .schema name).idxOf former <
        (store.chainIds .schema name).idxOf version.id)
      (kind_eq : job.kind = .schema branchId former version.id)
      (status_eq : job.status = .queued) :
      Repins store branchId name { store with
        branches := store.branches.insert (branch.pin version), jobs := store.jobs.append job }

/-- Whether an edge of a branch points at content that follows a version of the chain numbered
below another one. -/
def Store.Lags (store : Store) (branchId : Id) (version : Version) : Prop :=
  ∃ edge ∈ store.edges.rows, edge.branchId = branchId ∧
    ∃ container, store.container? edge.containerId = some container ∧
      ∃ older ∈ store.versions.rows, older.kind = version.kind ∧ older.name = version.name ∧
        older.number < version.number ∧
        Store.followsVersion version.kind older.id container = true

/-- Content that stands below a version is counted at one of the versions below it. -/
theorem Store.lags_iff {store : Store} {branchId : Id} {version : Version} :
    store.Lags branchId version ↔
      ∃ older ∈ store.chainVersions version.kind version.name, older.number < version.number ∧
        store.countEdges version.kind branchId older.id ≠ 0 := by
  constructor
  · rintro ⟨edge, he, hb, container, hc, older, hm, hk, hn, hlt, hf⟩
    exact ⟨older, mem_chainVersions.mpr ⟨hm, hk, hn⟩, hlt,
      countEdges_ne_zero_iff.mpr ⟨edge, he, hb, container, hc, hf⟩⟩
  · rintro ⟨older, hm, hlt, hne⟩
    obtain ⟨hrow, hk, hn⟩ := mem_chainVersions.mp hm
    obtain ⟨edge, he, hb, container, hc, hf⟩ := countEdges_ne_zero_iff.mp hne
    exact ⟨edge, he, hb, container, hc, older, hrow, hk, hn, hlt, hf⟩

/-- What moving a pin of a branch from a former version, if there is one, does to the records. -/
inductive Store.PinMoves (store : Store) (branchId : Id) (branch : Branch) (version : Version) :
    Option Version → Store → Prop
  /-- Nothing is queued when the pin does not move up or no content stands below it. -/
  | clear {former : Option Version}
      (vacant : ∀ old ∈ former, old.number < version.number →
        ∀ older ∈ store.chainVersions version.kind version.name, older.number < version.number →
          store.countEdges version.kind branchId older.id = 0) :
      PinMoves store branchId branch version former
        { store with branches := store.branches.insert (branch.pin version) }
  /-- A job is queued when content stands below the pin. -/
  | queued {old : Version} {job : Job}
      (kind_eq : job.kind = .migration version.kind branchId old.id version.id)
      (status_eq : job.status = .queued)
      (pending : ∃ older ∈ store.chainVersions version.kind version.name,
        older.number < version.number ∧ store.countEdges version.kind branchId older.id ≠ 0) :
      PinMoves store branchId branch version (some old) { store with
        branches := store.branches.insert (branch.pin version), jobs := store.jobs.append job }

namespace Site

open VersionedContent.Action

variable {site : Site} {branchId : Id}

/-- Counting content touches nothing. -/
theorem outcome_pendingTotal (branchId : Id) (list : List Version) (site : Site) :
    outcome (pendingTotal branchId list) site =
      (.ok (list.map fun version =>
        site.store.countEdges version.kind branchId version.id).sum, site) := by
  induction list with
  | nil => rfl
  | cons version rest ih =>
    rw [pendingTotal, pendingCount, outcome_bind_of_ok (outcome_query _ site),
      outcome_bind_of_ok ih]
    rfl

/-- No content is counted below a version exactly when none stands at a version below it. -/
theorem pendingBelow_eq_zero_iff {store : Store} {pinned : Version} :
    (((store.chainVersions pinned.kind pinned.name).filter fun older =>
      older.number < pinned.number).map fun older =>
        store.countEdges older.kind branchId older.id).sum = 0 ↔
      ∀ older ∈ store.chainVersions pinned.kind pinned.name, older.number < pinned.number →
        store.countEdges pinned.kind branchId older.id = 0 := by
  rw [List.sum_eq_zero_iff_forall_eq_nat, List.forall_mem_map]
  refine ⟨fun hall older hm hbelow => ?_, fun hall older hm => ?_⟩
  · have hzero := hall older (List.mem_filter.mpr ⟨hm, decide_eq_true hbelow⟩)
    rwa [(Store.mem_chainVersions.mp hm).2.1] at hzero
  · obtain ⟨hchain, hbelow⟩ := List.mem_filter.mp hm
    rw [(Store.mem_chainVersions.mp hchain).2.1]
    exact hall older hchain (of_decide_eq_true hbelow)

/-- The content below a pinned version is counted over its chain. -/
theorem outcome_pendingBelow (h : Sound site) (branchId : Id) (pinned : Version) :
    outcome (pendingBelow branchId pinned) site =
      (.ok (((site.store.chainVersions pinned.kind pinned.name).filter fun older =>
        older.number < pinned.number).map fun version =>
          site.store.countEdges version.kind branchId version.id).sum, site) := by
  unfold pendingBelow
  rw [outcome_bind_of_ok (outcome_versions h _ _), outcome_pendingTotal]

variable {name : String}

/-- Of two versions of a chain the one is behind the other, or there is no way from it to the
other. -/
theorem outcome_versionsBetween_or (h : Sound site) {kind : Kind} {source target : Version}
    (hs : source ∈ site.store.chainVersions kind name)
    (ht : target ∈ site.store.chainVersions kind name) (hne : source.id ≠ target.id) :
    (∃ steps, outcome (versionsBetween source target) site = (.ok steps, site) ∧
      (site.store.chainIds kind name).idxOf source.id <
        (site.store.chainIds kind name).idxOf target.id) ∨
      ∃ failure, outcome (versionsBetween source target) site = (.error failure, site) := by
  obtain ⟨i, hi⟩ := List.mem_iff_getElem?.mp hs
  obtain ⟨j, hj⟩ := List.mem_iff_getElem?.mp ht
  have hbetween := outcome_versionsBetween h hi hj
  have hplace : i ≠ j := by
    rintro rfl
    rw [Option.some.inj (hi.symm.trans hj)] at hne
    exact hne rfl
  by_cases hle : i ≤ j
  · rw [if_pos hle] at hbetween
    refine .inl ⟨_, hbetween, ?_⟩
    rw [Store.idxOf_chainIds hi, Store.idxOf_chainIds hj]
    omega
  · rw [if_neg hle] at hbetween
    exact .inr ⟨_, hbetween⟩

/-- What a branch pins is a version of the chain. -/
theorem Sound.exists_of_pinned? (h : Sound site) {branch : Branch}
    (hb : site.store.branch? branchId = some branch) {kind : Kind} {id : Id}
    (hp : branch.pinned? kind name = some id) :
    ∃ version ∈ site.store.chainVersions kind name, version.id = id := by
  have hmem : branch ∈ site.store.branches.rows := (site.store.branches.find?_eq_some_iff.mp hb).1
  obtain ⟨version, hv, hid, hk, hn⟩ := (h.pinned branch hmem).stored kind name id hp
  exact ⟨version, Store.mem_chainVersions.mpr ⟨hv, hk, hn⟩, hid⟩

/-- A sound site stays so when a stored version is pinned. -/
theorem Sound.insert_pin (h : Sound site) {branch : Branch}
    (hb : site.store.branch? branchId = some branch) {version : Version}
    (hv : version ∈ site.store.versions.rows) {pinned : Site}
    (hp : pinned = { site with store := { site.store with
      branches := site.store.branches.insert (branch.pin version) } }) : Sound pinned := by
  have hmem : branch ∈ site.store.branches.rows := (site.store.branches.find?_eq_some_iff.mp hb).1
  have hi : SoundWith site.store.versions site.issued.versions site := ⟨h, rfl, rfl⟩
  rw [hp]
  exact (hi.insertBranch ((h.pinned branch hmem).pin hv)).sound

/-- Whether a version may take the place of the one that a branch pins, if there is one. -/
structure MayPin (site : Site) (branchId : Id) (force : Bool) (branch : Branch) (version : Version)
    (former : Option Version) : Prop where
  /-- The branch is stored. -/
  found : site.store.branch? branchId = some branch
  /-- The version is stored. -/
  stored : version ∈ site.store.versions.rows
  /-- The branch pins the former version. -/
  pinned : branch.pinned? version.kind version.name = former.map Version.id
  /-- The former version is stored, and another one. -/
  other : ∀ old ∈ former, old ∈ site.store.versions.rows ∧ old.id ≠ version.id
  /-- Without force the version lies ahead of the former one. -/
  ahead : force = false → ∀ old ∈ former, ∃ steps,
    outcome (versionsBetween old version) site = (.ok steps, site)

/-- Finding the versions between two others leaves the site as it is. -/
theorem outcome_versionsBetween_eq (source target : Version) (site : Site) :
    (outcome (versionsBetween source target) site).2 = site := by
  have hwithin : Within (fun _ => True) Eq (fun _ => True) (versionsBetween source target) :=
    within_versionsBetween source target
  exact (hwithin site trivial).2.1.symm

/-- Pinning a version leaves the site as it is, or moves a pin that may move. -/
theorem outcome_pinVersion (site : Site) (branchId : Id) (requested : Version) (force : Bool) :
    (∃ answer, outcome (pinVersion branchId requested force) site = (answer, site)) ∨
      ∃ branch version former, site.store.version? requested.id = some version ∧
        site.MayPin branchId force branch version former ∧
        outcome (pinVersion branchId requested force) site =
          outcome (repin branchId branch version former) site := by
  rw [pinVersion_eq]
  cases hb : site.store.branch? branchId with
  | none =>
    obtain ⟨failure, hmissing⟩ := outcome_branch_of_none hb
    exact .inl ⟨_, outcome_bind_of_error hmissing _⟩
  | some branch =>
    rw [outcome_bind_of_ok (outcome_branch hb)]
    cases hv : site.store.version? requested.id with
    | none =>
      obtain ⟨failure, hmissing⟩ := outcome_version_of_none hv
      exact .inl ⟨_, outcome_bind_of_error hmissing _⟩
    | some version =>
      have hrow := (Store.version?_eq_some_iff.mp hv).1
      rw [outcome_bind_of_ok (outcome_version hv)]
      cases hp : branch.pinned? version.kind version.name with
      | none =>
        dsimp only
        exact .inr ⟨branch, version, none, rfl, ⟨hb, hrow, hp, by simp, by simp⟩, rfl⟩
      | some current =>
        dsimp only
        by_cases hne : current = version.id
        · rw [if_pos hne]
          exact .inl ⟨_, rfl⟩
        · rw [if_neg hne]
          cases hc : site.store.version? current with
          | none =>
            obtain ⟨failure, hmissing⟩ := outcome_version_of_none hc
            exact .inl ⟨_, outcome_bind_of_error hmissing _⟩
          | some former =>
            obtain ⟨hold, rfl⟩ := Store.version?_eq_some_iff.mp hc
            have hformer : ∀ old ∈ some former,
                old ∈ site.store.versions.rows ∧ old.id ≠ version.id := by
              rintro old ⟨⟩
              exact ⟨hold, hne⟩
            rw [outcome_bind_of_ok (outcome_version hc)]
            cases force with
            | false =>
              have hsame := outcome_versionsBetween_eq former version site
              rcases hbetween : outcome (versionsBetween former version) site with
                ⟨failure | steps, next⟩ <;> rw [hbetween] at hsame <;> obtain rfl := hsame
              · exact .inl ⟨_, outcome_bind_of_error hbetween _⟩
              · refine .inr ⟨branch, version, some former, rfl, ⟨hb, hrow, hp, hformer, ?_⟩,
                  outcome_bind_of_ok hbetween _⟩
                rintro - old ⟨⟩
                exact ⟨steps, hbetween⟩
            | true =>
              exact .inr ⟨branch, version, some former, rfl, ⟨hb, hrow, hp, hformer, by simp⟩, rfl⟩

/-- A job follows from a pin that has moved up when content stands below it, and nothing follows
otherwise. -/
theorem outcome_queueBelow (h : Sound site) (branchId : Id) (version : Version)
    (former : Option Version) :
    (∃ old, former = some old ∧ old.number < version.number ∧ site.store.Lags branchId version ∧
      ∃ job, outcome (queueBelow branchId version former) site = (.ok (some job),
        site.queueing (.migration version.kind branchId old.id version.id) none) ∧
        (site.queueing (.migration version.kind branchId old.id version.id) none).store =
          { site.store with jobs := site.store.jobs.append job } ∧
        job.kind = .migration version.kind branchId old.id version.id ∧ job.status = .queued) ∨
      ((∀ old ∈ former, old.number < version.number → ¬site.store.Lags branchId version) ∧
        outcome (queueBelow branchId version former) site = (.ok none, site)) := by
  cases former with
  | none => exact .inr ⟨by simp, rfl⟩
  | some old =>
    dsimp only [queueBelow]
    split
    · next hlt =>
      have hcount := @pendingBelow_eq_zero_iff branchId site.store version
      rw [outcome_bind_of_ok (outcome_pendingBelow h branchId version)]
      split
      · next hzero =>
        refine .inr ⟨fun _ _ _ hlags => ?_, rfl⟩
        obtain ⟨older, hm, hbelow, hne⟩ := Store.lags_iff.mp hlags
        exact hne (hcount.mp hzero older hm hbelow)
      · next hsome =>
        rw [hcount] at hsome
        push Not at hsome
        rw [enqueueMigration, enqueue, outcome_bind, outcome_enqueueJob h.outages]
        exact .inl ⟨old, rfl, hlt, Store.lags_iff.mpr hsome, _, rfl, rfl, rfl, rfl⟩
    · next hge =>
      refine .inr ⟨fun other ho hlt => absurd hlt ?_, rfl⟩
      rwa [← Option.some.inj ho]

/-- A pin that moves is stored, and what follows from it is done on a site with nothing else but
usage hashes gone. -/
theorem outcome_repin (h : Sound site) {branch : Branch}
    (hb : site.store.branch? branchId = some branch) {version : Version}
    (hv : version ∈ site.store.versions.rows) (former : Option Version) :
    ∃ pinned : Site, Sound pinned ∧
      pinned.store = { site.store with
        branches := site.store.branches.insert (branch.pin version) } ∧
      outcome (repin branchId branch version former) site =
        outcome (queueBelow branchId version former) pinned := by
  obtain ⟨pinned, hpinned⟩ : ∃ pinned : Site, pinned = { site with
      store := { site.store with branches := site.store.branches.insert (branch.pin version) } } :=
    ⟨_, rfl⟩
  have hstore := congrArg Site.store hpinned
  have hsound : Sound pinned := h.insert_pin hb hv hpinned
  unfold repin
  rw [outcome_bind_of_ok (outcome_upsertBranch h.outages _), ← hpinned]
  dsimp only
  split
  · have hforgot : SoundWith pinned.store.versions pinned.issued.versions
        { pinned with memo := pinned.memo.forget branchId } :=
      SoundWith.of_eq ⟨hsound, rfl, rfl⟩ rfl rfl rfl rfl
    have hforget : outcome (forgetUsage branchId) pinned =
        (.ok (), { pinned with memo := pinned.memo.forget branchId }) := rfl
    exact ⟨_, hforgot.sound, hstore, outcome_bind_of_ok hforget _⟩
  · exact ⟨pinned, hsound, hstore, rfl⟩

/-- A pin that moves is stored, and a job follows when content stands below it. -/
theorem repin_spec (h : Sound site) {branch : Branch}
    (hb : site.store.branch? branchId = some branch) {version : Version}
    (hv : version ∈ site.store.versions.rows) (former : Option Version) :
    site.store.PinMoves branchId branch version former
      (outcome (repin branchId branch version former) site).2.store := by
  obtain ⟨pinned, hsound, hstore, ho⟩ := outcome_repin h hb hv former
  have hlags : pinned.store.Lags branchId version ↔ site.store.Lags branchId version := by
    rw [hstore]
    rfl
  rw [ho]
  rcases outcome_queueBelow hsound branchId version former with
    ⟨old, rfl, hlt, hbelow, job, hq, hqueued, hkind, hstatus⟩ | ⟨hnone, hq⟩
  · rw [hq, hqueued, hstore]
    exact .queued hkind hstatus (Store.lags_iff.mp (hlags.mp hbelow))
  · rw [hq, hstore]
    refine .clear fun old ho hlt older hm hbelow => ?_
    by_contra hne
    exact hnone old ho hlt (hlags.mpr (Store.lags_iff.mpr ⟨older, hm, hbelow, hne⟩))

/-- Without force a version may only be pinned in place of one behind it. -/
theorem MayPin.behind {branch : Branch} {version old : Version}
    (h : site.MayPin branchId false branch version (some old)) (hs : Sound site) :
    old ∈ site.store.chainVersions version.kind version.name ∧
      (site.store.chainIds version.kind version.name).idxOf old.id <
        (site.store.chainIds version.kind version.name).idxOf version.id := by
  have hchain : version ∈ site.store.chainVersions version.kind version.name :=
    Store.mem_chainVersions.mpr ⟨h.stored, rfl, rfl⟩
  obtain ⟨hrow, hne⟩ := h.other old rfl
  obtain ⟨other, hother, hid⟩ := hs.exists_of_pinned? h.found h.pinned
  have hsame := Store.version?_of_mem_chainVersions hother
  rw [hid, Store.version?_eq_some_iff.mpr ⟨hrow, rfl⟩] at hsame
  obtain rfl := Option.some.inj hsame
  refine ⟨hother, ?_⟩
  obtain ⟨steps, hsteps⟩ := h.ahead rfl old rfl
  rcases outcome_versionsBetween_or hs hother hchain hne with ⟨_, -, hlt⟩ | ⟨failure, hbetween⟩
  · exact hlt
  · rw [hsteps] at hbetween
    cases hbetween

/-- Pinning a version of a schema without force moves the pin forward or not at all, and queues a
job for the content below. -/
theorem pinVersion_spec (h : Sound site) (branchId : Id) {requested : Version}
    (hr : ∀ found, site.store.version? requested.id = some found →
      found.kind = .schema ∧ found.name = name)
    (hl : (site.store.chainVersions .schema name).length < 4294967296) :
    site.store.Repins branchId name
      (outcome (pinVersion branchId requested false) site).2.store := by
  rcases outcome_pinVersion site branchId requested false with
    ⟨answer, ho⟩ | ⟨branch, version, former, hv, hmay, ho⟩
  · rw [ho]
    exact .kept
  · rw [ho]
    obtain ⟨hk, hn⟩ := hr version hv
    have hchain : version ∈ site.store.chainVersions .schema name :=
      Store.mem_chainVersions.mpr ⟨hmay.stored, hk, hn⟩
    have hpinned := hmay.pinned
    rw [hk, hn] at hpinned
    have hahead : ∀ old, former = some old → old ∈ site.store.chainVersions .schema name ∧
        (site.store.chainIds .schema name).idxOf old.id <
          (site.store.chainIds .schema name).idxOf version.id := by
      rintro old rfl
      have hbehind := hmay.behind h
      rwa [hk, hn] at hbehind
    have hmoves := repin_spec h hmay.found hmay.stored former
    generalize (outcome (repin branchId branch version former) site).2.store = next at hmoves ⊢
    cases hmoves with
    | clear hnone =>
      refine .clear hmay.found hchain fun id hid => ?_
      obtain ⟨old, rfl, rfl⟩ := Option.map_eq_some_iff.mp (hpinned.symm.trans hid)
      obtain ⟨hold, hlt⟩ := hahead old rfl
      refine ⟨hlt, fun older hm hbelow => ?_⟩
      have hcount := hnone old rfl ((h.chained.number_lt_iff hl hold hchain).mpr hlt) older
      rw [hk, hn] at hcount
      exact hcount hm hbelow
    | @queued old job hkind hstatus =>
      obtain ⟨-, hlt⟩ := hahead old rfl
      rw [hk] at hkind
      exact .queued hmay.found hchain hpinned hlt hkind hstatus

/-- Pinning a version that must be of a kind leaves the site as it is, or pins the version. -/
theorem outcome_assignOfKind (kind : Kind) (branchId : Id) (version : Version) (force : Bool)
    (site : Site) :
    (∃ answer, outcome (assignOfKind kind branchId version force) site = (answer, site)) ∨
      outcome (assignOfKind kind branchId version force) site =
        outcome (pinVersion branchId version force) site := by
  unfold assignOfKind
  dsimp only
  split
  · exact .inl ⟨_, rfl⟩
  · exact .inr rfl

/-- Pinning the latest version of a chain leaves the site as it is, or pins that version. -/
theorem outcome_assignLatest (branchId : Id) (kind : Kind) (name : String) (site : Site) :
    (∃ answer, outcome (assignLatest branchId kind name) site = (answer, site)) ∨
      ∃ latest, site.store.latestVersion? kind name = some latest ∧
        outcome (assignLatest branchId kind name) site =
          outcome (pinVersion branchId latest false) site := by
  unfold assignLatest latestVersion
  rw [bind_assoc, outcome_bind_of_ok (outcome_query _ site)]
  cases site.store.latestVersion? kind name with
  | none => exact .inl ⟨_, rfl⟩
  | some latest =>
    rw [outcome_bind_of_ok (outcome_orNotFound_some _ _ latest site)]
    rcases outcome_assignOfKind latest.kind branchId latest false site with hkept | hpins
    · exact .inl hkept
    · exact .inr ⟨latest, rfl, hpins⟩

/-- Versions of a schema may be pinned as versions of a kind. -/
theorem assignOfKind_spec (h : Sound site) (kind : Kind) {requested : Version}
    (hr : ∀ found, site.store.version? requested.id = some found →
      found.kind = .schema ∧ found.name = name)
    (hl : (site.store.chainVersions .schema name).length < 4294967296) :
    site.store.Repins branchId name
      (outcome (assignOfKind kind branchId requested false) site).2.store := by
  rcases outcome_assignOfKind kind branchId requested false site with ⟨answer, ho⟩ | ho <;> rw [ho]
  · exact .kept
  · exact pinVersion_spec h branchId hr hl

/-- The latest version of a schema may be pinned. -/
theorem assignLatest_spec (h : Sound site) (branchId : Id)
    (hl : (site.store.chainVersions .schema name).length < 4294967296) :
    site.store.Repins branchId name
      (outcome (assignLatest branchId .schema name) site).2.store := by
  rcases outcome_assignLatest branchId .schema name site with ⟨answer, ho⟩ | ⟨latest, hv, ho⟩ <;>
    rw [ho]
  · exact .kept
  · obtain ⟨hrow, hk, hn, -⟩ := of_latestVersion? hv
    refine pinVersion_spec h branchId (fun found hf => ?_) hl
    rw [Store.version?_eq_some_iff.mpr ⟨hrow, rfl⟩] at hf
    obtain rfl := Option.some.inj hf
    exact ⟨hk, hn⟩

end Site

end VersionedContent
