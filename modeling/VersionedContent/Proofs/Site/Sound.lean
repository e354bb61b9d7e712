import VersionedContent.Proofs.Collection.Keys
import VersionedContent.Proofs.Site.Logging
import VersionedContent.Proofs.Site.Registry
import VersionedContent.Site.Content

/-!
# Sound sites

A site is sound when its versions form chains, its branches pin stored versions,
its log is in order and its content is housed. Every call leaves a sound site
sound. Calls of the registry may add a version; all other calls leave the
versions as they are.
-/

namespace VersionedContent

/-- Whether everything that a branch pins is a stored version of the right chain, listed once. -/
structure Branch.PinsStored (branch : Branch) (versions : Table Version Version.id) : Prop where
  /-- What is pinned is stored. -/
  stored : ∀ kind name id, branch.pinned? kind name = some id →
    ∃ version ∈ versions.rows, version.id = id ∧ version.kind = kind ∧ version.name = name
  /-- Pins are listed in the order of their names. -/
  sorted : ∀ kind, (branch.pins kind).Sorted

/-- Pinning a stored version keeps what is pinned stored. -/
theorem Branch.PinsStored.pin {branch : Branch} {versions : Table Version Version.id}
    (h : branch.PinsStored versions) {version : Version} (hv : version ∈ versions.rows) :
    (branch.pin version).PinsStored versions where
  stored kind name id hp := by
    rw [Branch.pinned?_pin] at hp
    split at hp
    · next hkn =>
      obtain rfl := Option.some.inj hp
      exact ⟨version, hv, rfl, hkn.1.symm, hkn.2.symm⟩
    · exact h.stored kind name id hp
  sorted kind := by
    have hs := h.sorted .schema
    have hm := h.sorted .microschema
    cases hv : version.kind <;> cases kind <;> simp only [Branch.pin, hv, Branch.pins] at hs hm ⊢
    · exact hs.insert _ _
    · exact hm
    · exact hs
    · exact hm.insert _ _

/-- What is pinned stays stored when every version that was stored is. -/
theorem Branch.PinsStored.mono {branch : Branch} {versions next : Table Version Version.id}
    (h : branch.PinsStored versions)
    (hv : ∀ version ∈ versions.rows, ∃ link, { version with next := link } ∈ next.rows) :
    branch.PinsStored next where
  stored kind name id hp := by
    obtain ⟨version, hm, rfl, rfl, rfl⟩ := h.stored kind name id hp
    obtain ⟨link, hkept⟩ := hv version hm
    exact ⟨_, hkept, rfl, rfl, rfl⟩
  sorted := h.sorted

/-- Branches with the same pins pin stored versions alike. -/
theorem Branch.PinsStored.of_pins_eq {branch other : Branch} {versions : Table Version Version.id}
    (h : branch.PinsStored versions) (hp : other.pins = branch.pins) :
    other.PinsStored versions where
  stored kind name id hpin := by
    rw [Branch.pinned?, hp] at hpin
    exact h.stored kind name id hpin
  sorted kind := by
    rw [hp]
    exact h.sorted kind

namespace Site

open VersionedContent.Action

/-- What holds of every site that is reached. -/
structure Sound (site : Site) : Prop where
  /-- No outage is planned. -/
  outages : site.outages = []
  /-- Jobs handle some containers at a time. -/
  bucketSize : 0 < site.bucketSize
  /-- The versions form chains. -/
  chained : site.store.Chained site.issued.versions
  /-- Branches pin stored versions. -/
  pinned : ∀ branch ∈ site.store.branches.rows, branch.PinsStored site.store.versions
  /-- The log is in order. -/
  logged : site.store.jobs.Sound site.issued.jobs
  /-- The content is in order. -/
  housed : site.store.Housed site.issued

/-- A sound site is sound whatever number of containers jobs handle at a time. -/
theorem Sound.resized {site : Site} (h : Sound site) (bucket : Nat) :
    Sound { site with bucketSize := max bucket 1 } :=
  { h with bucketSize := Nat.lt_of_lt_of_le Nat.one_pos (Nat.le_max_right _ _) }

/-- A site without records is sound. -/
theorem sound_empty (clock : Clock) (bucketSize eventBuffer : Nat) (issued : Issued) :
    Sound (empty clock bucketSize eventBuffer issued) where
  outages := rfl
  bucketSize := Nat.lt_of_lt_of_le Nat.one_pos (Nat.le_max_right _ _)
  chained := Store.chained_of_slots_eq_nil _ rfl
  pinned branch h := by simp [empty, Table.rows] at h
  logged := JobLog.sound_nil 0 _
  housed := by
    constructor
    · intro key edge h
      simp [empty, Store.edge?, Table.find?, Table.rows] at h
    · intro id version h
      simp [empty, Store.follows?, Store.container?, Table.find?, Table.rows] at h
    · intro id version h
      simp [empty, Store.follows?, Store.container?, Table.find?, Table.rows] at h

/-- A call of the registry leaves a sound site sound. -/
theorem Sound.of_registers {site next : Site} (h : Sound site) (hr : Registers site next) :
    Sound next := by
  have hstore := hr.store.eq
  have hle := hr.store.issued_le
  constructor
  · exact hr.outages.trans h.outages
  · rw [hr.bucketSize]
    exact h.bucketSize
  · exact h.chained.extends hr.store
  · intro branch hb
    rw [hstore] at hb
    refine (h.pinned branch hb).mono fun version hm => ?_
    obtain ⟨link, hkept, -⟩ := hr.store.persists h.chained hm
    exact ⟨link, hkept⟩
  · rw [hstore, hr.issued]
    exact h.logged
  · rw [hstore, hr.issued]
    exact {
      held := h.housed.held
      fresh := h.housed.fresh
      seen := fun id version hf k hk =>
        have hbefore := h.housed.seen id version hf k (hk.trans (congrFun hle.1.symm k))
        Nat.lt_of_lt_of_le hbefore hle.2 }

/-- A sound site is steady. -/
theorem Sound.steady {site : Site} (h : Sound site) :
    Steady site.store.versions site.issued.versions site :=
  ⟨h.outages, rfl, rfl, h.housed⟩

/-- Work on content leaves a sound site sound. -/
theorem Sound.of_works {site next : Site} {touched : Id → Prop} (h : Sound site)
    (hs : Steady site.store.versions site.issued.versions next) (hw : Works touched site next) :
    Sound next where
  outages := hs.outages
  bucketSize := by
    rw [hw.bucketSize]
    exact h.bucketSize
  chained := by
    rw [hs.issued]
    exact h.chained.of_versions_eq hs.versions
  pinned branch hb := by
    have hfound : next.store.branch? branch.id = some branch :=
      next.store.branches.find?_eq_some_iff.mpr ⟨hb, rfl⟩
    have hpins := hw.pins branch.id
    rw [hfound, Option.map_some] at hpins
    obtain ⟨old, ho, he⟩ := Option.map_eq_some_iff.mp hpins.symm
    rw [hs.versions]
    exact (h.pinned old (site.store.branches.find?_eq_some_iff.mp ho).1).of_pins_eq he.symm
  logged := by
    rw [hw.jobs, hw.issued]
    exact h.logged
  housed := hs.housed

/-- A sound site with given versions. -/
structure SoundWith (versions : Table Version Version.id) (issued : Series) (site : Site) :
    Prop where
  /-- The site is sound. -/
  sound : Sound site
  /-- The versions are the given ones. -/
  versions : site.store.versions = versions
  /-- The version identifiers are given out by the given series. -/
  issued : site.issued.versions = issued

/-- Whether the branches of a site are named by the identifiers that have been given out. -/
def Named (site : Site) : Prop :=
  ∀ id, site.store.branch? id ≠ none → site.issued.branches.HasGiven id

/-- What a call that is none of the registry may do to the content and the branches of a site and
to what it keeps compiled. -/
structure Proceeds (site next : Site) : Prop where
  /-- The content is edited. -/
  edits : Edits site next
  /-- What is kept compiled is still stored. -/
  coherent : Coherent site → Coherent next
  /-- No branch goes. -/
  stays : ∀ id, site.store.branch? id ≠ none → next.store.branch? id ≠ none
  /-- A branch that comes has the next identifier. -/
  named : Named site → Named next

instance : Std.Refl Proceeds := ⟨fun _ => ⟨.refl, id, fun _ => id, id⟩⟩

instance : IsTrans Site Proceeds where
  trans _ _ _ hab hbc := {
    edits := hab.edits.trans hbc.edits
    coherent := hbc.coherent ∘ hab.coherent
    stays := fun id hs => hbc.stays id (hab.stays id hs)
    named := hbc.named ∘ hab.named }

/-- Sites with the same branches are named alike. -/
theorem Named.of_eq {site next : Site} (h : Named site)
    (hb : ∀ id, next.store.branch? id = none ↔ site.store.branch? id = none)
    (hi : next.issued.branches = site.issued.branches) : Named next := by
  intro id hs
  rw [hi]
  exact h id fun hnone => hs ((hb id).mpr hnone)

/-- What leaves branches alone may edit content and change what is kept compiled. -/
theorem Proceeds.beside {site next : Site} (he : Edits site next)
    (hc : Coherent site → Coherent next)
    (hb : ∀ id, next.store.branch? id = none ↔ site.store.branch? id = none)
    (hi : next.issued.branches = site.issued.branches) : Proceeds site next where
  edits := he
  coherent := hc
  stays id hs := fun hnone => hs ((hb id).mp hnone)
  named h := h.of_eq hb hi

/-- What leaves all records but jobs and what is kept compiled alone may be done. -/
theorem Proceeds.aside {site next : Site} (hs : next.store = { site.store with
      jobs := next.store.jobs })
    (hi : next.issued = { site.issued with jobs := next.issued.jobs })
    (hc : next.cache = site.cache) : Proceeds site next :=
  .beside (.aside (by rw [hs]) (by rw [hs]) (by rw [hi]))
    (fun h => h.of_subset (by rw [hs]) (by simp [hc])) (fun id => by rw [hs]; rfl) (by rw [hi])

/-- Branches may be stored anew, and those with the identifiers given out on the way may be
added. -/
theorem Proceeds.branches {site next : Site} {fresh : Nat}
    (hs : next.store = { site.store with branches := next.store.branches })
    (hi : next.issued = { site.issued with branches := site.issued.branches.advance fresh })
    (hc : next.cache = site.cache)
    (hstays : ∀ id, site.store.branch? id ≠ none → next.store.branch? id ≠ none)
    (hcomes : ∀ id, next.store.branch? id ≠ none → site.store.branch? id ≠ none ∨
      (site.issued.branches.advance fresh).HasGiven id) :
    Proceeds site next where
  edits := .aside (by rw [hs]) (by rw [hs]) (by rw [hi])
  coherent h := h.of_subset (by rw [hs]) (by simp [hc])
  stays := hstays
  named h id hid := by
    rw [hi]
    rcases hcomes id hid with hold | hnew
    · exact (h id hold).advance fresh
    · exact hnew

section Calls

variable {versions : Table Version Version.id} {given : Series}

/-- Whether an action leaves sound sites sound, and their versions as they are. -/
abbrev Harmless {α : Type} (versions : Table Version Version.id) (given : Series) (P : α → Prop)
    (action : Action α) : Prop :=
  Within (SoundWith versions given) Proceeds P action

/-- What does not touch the records is harmless. -/
theorem SoundWith.of_eq {site next : Site} (h : SoundWith versions given site)
    (hs : next.store = site.store) (hi : next.issued = site.issued)
    (ho : next.outages = site.outages) (hb : next.bucketSize = site.bucketSize) :
    SoundWith versions given next where
  sound := {
    outages := ho.trans h.sound.outages
    bucketSize := by
      rw [hb]
      exact h.sound.bucketSize
    chained := by
      rw [hs, hi]
      exact h.sound.chained
    pinned := by
      rw [hs]
      exact h.sound.pinned
    logged := by
      rw [hs, hi]
      exact h.sound.logged
    housed := by
      rw [hs, hi]
      exact h.sound.housed }
  versions := by
    rw [hs]
    exact h.versions
  issued := by
    rw [hi]
    exact h.issued

/-- The log may be written to. -/
theorem harmless_of_keepsLog {α : Type} {transaction : Transaction α}
    (h : transaction.KeepsLog) :
    Harmless versions given (fun _ => True) (transact transaction) := by
  intro site hi
  rw [outcome_transact]
  obtain ⟨answer, log, hout, hlog⟩ := h site.store
  rw [hout]
  refine ⟨⟨?_, hi.versions, hi.issued⟩, .aside rfl rfl rfl, fun _ _ => trivial⟩
  exact {
    outages := hi.sound.outages
    bucketSize := hi.sound.bucketSize
    chained := hi.sound.chained.of_versions_eq rfl
    pinned := hi.sound.pinned
    logged := hlog _ hi.sound.logged
    housed := ⟨hi.sound.housed.held, hi.sound.housed.fresh, hi.sound.housed.seen⟩ }

/-- Jobs may be queued. -/
theorem harmless_enqueueJob (kind : JobKind) (retryOf : Option Id) :
    Harmless versions given (fun _ => True) (enqueueJob kind retryOf) := by
  intro site hi
  rw [outcome_enqueueJob hi.sound.outages]
  refine ⟨⟨?_, hi.versions, hi.issued⟩, .aside rfl rfl rfl, fun _ _ => trivial⟩
  exact {
    outages := hi.sound.outages
    bucketSize := hi.sound.bucketSize
    chained := hi.sound.chained.of_versions_eq rfl
    pinned := hi.sound.pinned
    logged := hi.sound.logged.append rfl
    housed := ⟨hi.sound.housed.held, hi.sound.housed.fresh, hi.sound.housed.seen⟩ }

/-- Calls on the log are harmless. -/
theorem harmless_logs : Logs (SoundWith versions given) Proceeds where
  outages _ hi := hi.sound.outages
  clock _ hi := ⟨hi.of_eq rfl rfl rfl rfl, .aside rfl rfl rfl, fun _ _ => trivial⟩
  log := harmless_of_keepsLog
  enqueue := harmless_enqueueJob
  beside f hf _ := within_modify fun site hi => by
    rw [hf]
    exact ⟨hi.of_eq rfl rfl rfl rfl, .aside rfl rfl rfl⟩

/-- Branches that pin stored versions may be stored. -/
theorem SoundWith.storeBranches {site : Site} (hi : SoundWith versions given site) (next : Site)
    (hp : ∀ branch ∈ next.store.branches.rows, branch.PinsStored versions)
    (hs : next.store = { site.store with branches := next.store.branches })
    (hv : next.issued.versions = site.issued.versions) (hj : next.issued.jobs = site.issued.jobs)
    (hc : next.issued.containers = site.issued.containers) (ho : next.outages = site.outages)
    (hb : next.bucketSize = site.bucketSize) : SoundWith versions given next := by
  have hsound := hi.sound
  have hversions : next.store.versions = versions := by
    rw [hs]
    exact hi.versions
  refine ⟨?_, hversions, hv.trans hi.issued⟩
  constructor
  · exact ho.trans hsound.outages
  · rw [hb]
    exact hsound.bucketSize
  · rw [hv]
    exact hsound.chained.of_versions_eq (hversions.trans hi.versions.symm)
  · rw [hversions]
    exact hp
  · rw [hj, hs]
    exact hsound.logged
  · constructor
    · rw [hs]
      exact hsound.housed.held
    · rw [hs, hc]
      exact hsound.housed.fresh
    · rw [hs, hv]
      exact hsound.housed.seen

/-- A branch that pins stored versions may be stored. -/
theorem SoundWith.insertBranch {site : Site} (hi : SoundWith versions given site) {branch : Branch}
    (hp : branch.PinsStored versions) : SoundWith versions given { site with
      store := { site.store with branches := site.store.branches.insert branch } } := by
  refine hi.storeBranches _ (fun other hm => ?_) rfl rfl rfl rfl rfl rfl
  rcases (Table.mem_insert _ _ _).mp hm with rfl | ⟨hm, -⟩
  · exact hp
  · rw [← hi.versions]
    exact hi.sound.pinned other hm

/-- Whether an action leaves sound sites with a certain branch sound, and their versions as they
are. -/
abbrev HarmlessOn {α : Type} (versions : Table Version Version.id) (given : Series) (branchId : Id)
    (P : α → Prop) (action : Action α) : Prop :=
  Within (fun site => SoundWith versions given site ∧ site.store.branch? branchId ≠ none) Proceeds P
    action

/-- What is harmless on any site is harmless on one with a certain branch. -/
theorem Harmless.on {α : Type} {P : α → Prop} {action : Action α}
    (h : Harmless versions given P action) (branchId : Id) :
    HarmlessOn versions given branchId P action := by
  intro site hi
  obtain ⟨hs, hp, ha⟩ := h site hi.1
  exact ⟨⟨hs, hp.stays branchId hi.2⟩, hp, ha⟩

/-- A branch may be stored in place of another one. -/
theorem harmless_upsertBranch {branch : Branch} (hp : branch.PinsStored versions) :
    HarmlessOn versions given branch.id (fun _ => True) (upsertBranch branch) := by
  intro site hi
  have hfind (id : Id) : (site.store.branches.insert branch).find? id =
      if id = branch.id then some branch else site.store.branch? id :=
    site.store.branches.find?_insert branch id
  have hproceeds : Proceeds site { site with
      store := { site.store with branches := site.store.branches.insert branch } } := by
    refine @Proceeds.branches site _ 0 rfl rfl rfl (fun id hs => ?_) fun id hs => .inl ?_
    · change (site.store.branches.insert branch).find? id ≠ none
      rw [hfind]
      split
      · exact Option.some_ne_none _
      · exact hs
    · change (site.store.branches.insert branch).find? id ≠ none at hs
      rw [hfind] at hs
      split at hs
      · next he => exact he ▸ hi.2
      · exact hs
  rw [outcome_upsertBranch hi.1.sound.outages]
  exact ⟨⟨hi.1.insertBranch hp, hproceeds.stays _ hi.2⟩, hproceeds, fun _ _ => trivial⟩

/-- What follows for a branch that is found follows after looking it up. -/
theorem harmless_branch_bind {β : Type} {P : β → Prop} {f : Branch → Action β} (id : Id)
    (hf : ∀ found : Branch, found.PinsStored versions → found.id = id →
      HarmlessOn versions given id P (f found)) : Harmless versions given P (branch id >>= f) := by
  intro site hi
  cases hb : site.store.branch? id with
  | none =>
    obtain ⟨failure, hmissing⟩ := outcome_branch_of_none hb
    rw [outcome_bind_of_error hmissing]
    exact ⟨hi, refl site, fun _ h => by cases h⟩
  | some found =>
    obtain ⟨hm, hid⟩ := site.store.branches.find?_eq_some_iff.mp hb
    have hpins := hi.sound.pinned found hm
    rw [hi.versions] at hpins
    rw [outcome_bind_of_ok (outcome_branch hb)]
    obtain ⟨hs, hp, ha⟩ := hf found hpins hid site ⟨hi, by simp [hb]⟩
    exact ⟨hs.1, hp, ha⟩

/-- A version that is found is stored. -/
theorem harmless_version (id : Id) :
    Harmless versions given (fun found => found ∈ versions.rows) (version id) :=
  within_version fun _ hi _ hf => hi.versions ▸ (Store.version?_eq_some_iff.mp hf).1

/-- A pin may be moved. -/
theorem harmless_repin {branchId : Id} {branch : Branch} (hid : branch.id = branchId)
    {version : Version} (hb : (branch.pin version).PinsStored versions) (former : Option Version) :
    HarmlessOn versions given branchId (fun _ => True) (repin branchId branch version former) := by
  have hpin : HarmlessOn versions given branchId (fun _ => True)
      (upsertBranch (branch.pin version)) := by
    rw [← hid, ← branch.pin_id version]
    exact harmless_upsertBranch hb
  have hqueue : HarmlessOn versions given branchId (fun _ => True)
      (queueBelow branchId version former) :=
    Harmless.on (within_queueBelow harmless_logs branchId version former) _
  refine within_bind hpin fun _ _ => ?_
  dsimp only
  split
  · exact within_bind (Harmless.on (within_forgetUsage harmless_logs branchId) _) fun _ _ => hqueue
  · exact hqueue

/-- Versions may be pinned. -/
theorem harmless_pinVersion (branchId : Id) (requested : Version) (force : Bool) :
    Harmless versions given (fun _ => True) (pinVersion branchId requested force) := by
  rw [pinVersion_eq]
  refine harmless_branch_bind branchId fun branch hb hid => ?_
  refine within_bind ((harmless_version requested.id).on _) fun version hv => ?_
  have hrepin (former : Option Version) :
      HarmlessOn versions given branchId (fun _ => True) (repin branchId branch version former) :=
    harmless_repin hid (hb.pin hv) former
  cases branch.pinned? version.kind version.name with
  | none => exact hrepin none
  | some current =>
    dsimp only
    split
    · exact within_pure trivial
    · refine within_bind ((harmless_version current).on _) fun former _ => ?_
      cases force with
      | false =>
        exact within_bind (within_versionsBetween former version) fun _ _ => hrepin (some former)
      | true => exact hrepin (some former)

/-- The first branch of a project pins nothing. -/
theorem pinsStored_initial (id : Id) (createdAt : Instant) (projectId : Id) (name : String) :
    (Branch.initial id createdAt projectId name).PinsStored versions where
  stored kind name id h := by
    cases kind <;> simp [Branch.pinned?, Branch.pins, Branch.initial] at h
  sorted kind := by
    cases kind <;> exact List.Pairwise.nil

/-- A new branch pins stored versions. -/
theorem SoundWith.pinsStored_newborn {site : Site} (hi : SoundWith versions given site)
    {projectId : Id} {name : String} {baseId : Option Id} {branch : Branch}
    (h : Newborn site projectId name baseId branch) : branch.PinsStored versions := by
  cases h with
  | initial => exact pinsStored_initial ..
  | @fork base found own =>
    have hpins := hi.sound.pinned base (site.store.branches.find?_eq_some_iff.mp found).1
    rw [hi.versions] at hpins
    exact hpins.of_pins_eq (by funext kind; cases kind <;> rfl)

/-- A new branch may be stored. -/
theorem SoundWith.growing {site : Site} (hi : SoundWith versions given site) {projectId : Id}
    {name : String} {baseId : Option Id} {branch : Branch}
    (hnew : Newborn site projectId name baseId branch) :
    SoundWith versions given (site.growing projectId branch) ∧
      Proceeds site (site.growing projectId branch) := by
  have hfind := branch?_growing site projectId branch
  refine ⟨hi.storeBranches _ (fun other hm => ?_) rfl rfl rfl rfl rfl rfl,
    @Proceeds.branches site _ 1 rfl rfl rfl (fun id hs hnone => ?_) fun id hs => ?_⟩
  · have hsame := hfind other.id
    rw [show (site.growing projectId branch).store.branch? other.id = some other from
      (Table.find?_eq_some_iff _).mpr ⟨hm, rfl⟩, Option.map_some] at hsame
    split at hsame
    · have hpins := congrArg Branch.pins (Option.some.inj hsame)
      exact (hi.pinsStored_newborn hnew).of_pins_eq hpins
    · obtain ⟨old, ho, he⟩ := Option.map_eq_some_iff.mp hsame.symm
      have hstored := hi.sound.pinned old (site.store.branches.find?_eq_some_iff.mp ho).1
      rw [hi.versions] at hstored
      have hpins := congrArg Branch.pins he
      exact hstored.of_pins_eq hpins.symm
  · have hsame := hfind id
    rw [hnone] at hsame
    split at hsame
    · cases hsame
    · exact hs (Option.map_eq_none_iff.mp hsame.symm)
  · have hsame := hfind id
    split at hsame
    · next he =>
      rw [he, hnew.id_eq]
      exact .inr site.issued.branches.hasGiven_next
    · refine .inl fun hnone => hs ?_
      rw [hnone] at hsame
      exact Option.map_eq_none_iff.mp hsame

/-- Branches may be created. -/
theorem harmless_createBranch (projectId : Id) (name : String) (baseId : Option Id) :
    Harmless versions given (fun _ => True) (createBranch projectId name baseId) := by
  intro site hi
  rcases outcome_createBranch hi.sound.outages projectId name baseId with
    ⟨failure, ho⟩ | ⟨branch, job, hnew, ho⟩
  · rw [ho]
    exact ⟨hi, refl site, fun _ _ => trivial⟩
  · obtain ⟨hgrown, hproceeds⟩ := hi.growing hnew
    rw [ho]
    cases baseId with
    | none => exact ⟨hgrown, hproceeds, fun _ _ => trivial⟩
    | some baseId =>
      have hqueue := harmless_enqueueJob (.branch branch.id none none) none _ hgrown
      rw [outcome_enqueueJob hgrown.sound.outages] at hqueue
      exact ⟨hqueue.1, IsTrans.trans _ _ _ hproceeds hqueue.2.1, fun _ _ => trivial⟩

/-- Usage hashes may be computed. -/
theorem harmless_computeHash (versionId branchId : Id) (replacements : Dict Id) :
    Harmless versions given (fun _ => True) (computeHash versionId branchId replacements) :=
  within_computeHash (fun _ _ hi => ⟨hi.of_eq rfl rfl rfl rfl, .aside rfl rfl rfl⟩) versionId
    branchId replacements

/-- Work on content is harmless. -/
theorem harmless_of_works {α : Type} {touched : Id → Prop} {action : Action α}
    (h : ∀ site, Sound site → Within (Steady site.store.versions site.issued.versions)
      (Works touched) (fun _ => True) action) : Harmless versions given (fun _ => True) action := by
  intro site hi
  obtain ⟨hs, hw, -⟩ := h site hi.sound site hi.sound.steady
  have hbranch (id : Id) : (outcome action site).2.store.branch? id = none ↔
      site.store.branch? id = none := by
    rw [← Option.map_eq_none_iff, hw.pins, Option.map_eq_none_iff]
  refine ⟨⟨hi.sound.of_works hs hw, ?_, ?_⟩,
    .beside hw.edits hw.compiles.coherent hbranch (by rw [hw.issued]), fun _ _ => trivial⟩
  · exact hs.versions.trans hi.versions
  · exact hs.issued.trans hi.issued

/-- A job may be executed. -/
theorem harmless_execute (kind : JobKind) :
    Harmless versions given (fun _ => True) (execute kind) :=
  harmless_of_works fun _ h => within_execute h.chained.fresh kind

/-- Edges to stored containers may be set. -/
theorem harmless_setEdge (edge : Edge) : Harmless versions given (fun _ => True) (setEdge edge) :=
  harmless_of_works fun _ _ => @within_setEdge _ _ (· = edge.branchId) edge rfl

/-- How a job ends, by what its work came to. -/
def verdict : Except Failure (List ContainerError) → JobStatus × Option JobError
  | .ok [] => (.completed, none)
  | .ok errors => (.failed, some (.ofContainerErrors errors))
  | .error failure => (.failed, some { message := failure.message })

/-- Ends a job and announces that it has ended, if that can be written. -/
def record (job : Job) (status : JobStatus) (error : Option JobError) : Action (Option Job) := do
  match ← (finish job.id status error).attempt with
  | .error _ => return none
  | .ok finished =>
    announce finished
    return some finished

/-- A job is executed, and recorded as its work came out. -/
theorem process_eq (job : Job) (limit : Limit) :
    process job limit = (do
      let answer ← (execute job.kind limit).attempt
      record job (verdict answer).1 (verdict answer).2) := by
  unfold process
  congr 1
  funext answer
  rcases answer with failure | errors
  · rfl
  · cases errors <;> rfl

/-- The end of a job may be recorded. -/
theorem within_record {I : Site → Prop} {R : Site → Site → Prop} [Std.Refl R] [IsTrans Site R]
    (h : Logs I R) (job : Job) (status : JobStatus) (error : Option JobError) :
    Within I R (fun _ => True) (record job status error) := by
  refine within_bind (P := fun _ => True)
    ((within_attempt (within_finish h job.id status error)).imp fun _ _ => trivial)
    fun recorded _ => ?_
  cases recorded with
  | error failure => exact within_pure trivial
  | ok finished => exact within_bind (within_announce h finished) fun _ _ => within_pure trivial

section Running

variable {I : Site → Prop} {R : Site → Site → Prop} [Std.Refl R] [IsTrans Site R]

/-- Where starting and running one job lead, running those that wait leads. -/
theorem within_runPending (hclaim : Within I R (fun _ => True) claimNext)
    (hrun : ∀ job, Within I R (fun _ => True) (process job)) :
    Within I R (fun _ => True) runPending := by
  have hdrain : ∀ fuel, Within I R (fun _ => True) (drain .ample fuel) := by
    intro fuel
    induction fuel with
    | zero => exact within_pure trivial
    | succ fuel ih =>
      rw [drain]
      refine within_bind hclaim fun claimed _ => ?_
      cases claimed with
      | none => exact within_pure trivial
      | some job =>
        refine within_bind (hrun job) fun finished _ => ?_
        exact within_bind ih fun rest _ => within_pure trivial
  unfold runPending
  exact within_bind (P := fun _ => True) (within_query fun _ _ => trivial) fun _ _ => hdrain _

/-- What a worker does with what it has claimed. -/
def serve (backoff : Backoff) : Except Failure (Option Job) → Action (Poll × Backoff)
  | .ok (some job) => do
    let finished ← process job
    return (.ran finished, backoff.reset)
  | _ => return idle backoff

/-- Where starting and running one job lead, a worker that looks for work leads. -/
theorem within_poll (hclaim : Within I R (fun _ => True) claimNext)
    (hrun : ∀ job, Within I R (fun _ => True) (process job)) (guard : WriteGuard)
    (backoff : Backoff) : Within I R (fun _ => True) (poll guard backoff) := by
  have hserve (claimed : Except Failure (Option Job)) :
      Within I R (fun _ => True) (serve backoff claimed) := by
    rcases claimed with failure | _ | job
    · exact within_pure trivial
    · exact within_pure trivial
    · exact within_bind (hrun job) fun finished _ => within_pure trivial
  unfold poll
  dsimp only
  split
  · exact within_bind ((within_attempt hclaim).imp fun _ _ => trivial) fun claimed _ =>
      hserve claimed
  · exact within_bind (within_pure (P := fun _ => True) trivial) fun claimed _ => hserve claimed

/-- Where looking for work once leads, a worker leads. -/
theorem within_runWorker {guard : WriteGuard}
    (hpoll : ∀ backoff, Within I R (fun _ => True) (poll guard backoff))
    (settings : MigrationSettings) : Within I R (fun _ => True) (runWorker guard settings) := by
  have hwork : ∀ fuel backoff, Within I R (fun _ => True) (work guard fuel backoff) := by
    intro fuel
    induction fuel with
    | zero => exact fun _ => within_pure trivial
    | succ fuel ih =>
      intro backoff
      rw [work]
      refine within_bind (P := fun _ => True) (within_query fun _ _ => trivial) fun busy _ => ?_
      split
      · refine within_bind (hpoll backoff) fun polled _ => ?_
        rcases polled with ⟨_ | _ | _, next⟩
        · exact ih next
        · exact ih next
        · exact within_pure trivial
      · exact within_pure trivial
  unfold runWorker
  exact within_get_bind fun site hi => hwork _ _ site hi

end Running

/-- A job may be run. -/
theorem harmless_process (job : Job) : Harmless versions given (fun _ => True) (process job) := by
  rw [process_eq]
  refine within_bind (P := fun _ => True)
    ((within_attempt (harmless_execute job.kind)).imp fun _ _ => trivial) fun answer _ => ?_
  exact within_record harmless_logs job (verdict answer).1 (verdict answer).2

/-- Waiting jobs may be run. -/
theorem harmless_runPending : Harmless versions given (fun _ => True) runPending :=
  within_runPending (within_claimNext harmless_logs) harmless_process

/-- A worker may run. -/
theorem harmless_runWorker (guard : WriteGuard) (settings : MigrationSettings) :
    Harmless versions given (fun _ => True) (runWorker guard settings) :=
  within_runWorker (within_poll (within_claimNext harmless_logs) harmless_process guard) settings

/-- The version of a place may be compiled. -/
theorem harmless_compiledAt (key : CacheKey) :
    Harmless versions given (fun _ => True) (compiledAt key) :=
  within_compiledAt (fun _ _ _ hi hm hc _ => ⟨hi.of_eq rfl rfl rfl rfl,
    .beside (.aside rfl rfl rfl) (fun h => h.insert hm hc) (fun _ => Iff.rfl) rfl⟩) key

/-- Compiling a version that is given changes what is kept compiled only. -/
theorem outcome_compiledForVersion (version : Version) (site : Site) :
    ∃ cache, (outcome (compiledForVersion version) site).2 = { site with cache := cache } := by
  unfold compiledForVersion
  rw [outcome_bind_of_ok (outcome_get site)]
  cases site.cache.get? (.ofVersion version) with
  | some kept => exact ⟨_, rfl⟩
  | none =>
    unfold compileAs
    dsimp only
    cases Compiled.ofVersion version <;> exact ⟨_, rfl⟩

/-- A new container is stored under the next identifier and counted. -/
theorem SoundWith.insertContainer {site : Site} (hi : SoundWith versions given site)
    {container : Container} (hid : container.id = site.issued.containers.next)
    (hv : given.IsPast container.schemaVersionId) (next : Site)
    (hs : next.store = { site.store with
      containers := site.store.containers.insert container })
    (hissued : next.issued = { site.issued with containers := site.issued.containers.advance 1 })
    (ho : next.outages = site.outages) (hb : next.bucketSize = site.bucketSize) :
    SoundWith versions given next := by
  have hsound := hi.sound
  obtain ⟨hhoused, -⟩ := hsound.housed.insertContainer hid (by rw [hi.issued]; exact hv)
  refine ⟨?_, by rw [hs]; exact hi.versions, by rw [hissued]; exact hi.issued⟩
  constructor
  · exact ho.trans hsound.outages
  · rw [hb]
    exact hsound.bucketSize
  · rw [hissued, hs]
    exact hsound.chained.of_versions_eq rfl
  · rw [hs]
    exact hsound.pinned
  · rw [hissued, hs]
    exact hsound.logged
  · rw [hissued, hs]
    exact hhoused

/-- New content is stored and counted before its edges are set. -/
theorem outcome_addContent (site : Site) (branchId nodeId : Id) (language : String)
    (schemaVersionId : Id) (fields : FieldMap) (types : List ContainerType) :
    ∃ container : Container, container.id = site.issued.containers.next ∧
      container.schemaVersionId = schemaVersionId ∧
      container.previous = none ∧ container.next = [] ∧
      outcome (addContent branchId nodeId language schemaVersionId fields types) site =
        outcome (do
          types.forM fun type => setEdge (.toContainer branchId container type)
          return container.id) { ticked site with
            store := { site.store with containers := site.store.containers.insert container }
            issued := { site.issued with containers := site.issued.containers.advance 1 } } := by
  refine ⟨Container.create site.issued.containers.next
    (site.clock.reading site.clock.reads) nodeId language schemaVersionId fields, rfl, rfl, rfl,
      rfl, ?_⟩
  unfold addContent
  rw [outcome_bind_of_ok (show outcome nextContainerId site =
    (.ok site.issued.containers.next, site) from rfl), outcome_bind_of_ok (outcome_now site)]
  rfl

/-- Where storing a container under the next identifier and setting edges to it lead, adding content
leads. -/
theorem within_addContent {I : Site → Prop} {R : Site → Site → Prop} [Std.Refl R] [IsTrans Site R]
    {branchId nodeId : Id} {language : String} {schemaVersionId : Id} {fields : FieldMap}
    {types : List ContainerType}
    (hstore : ∀ site (container : Container), I site →
      container.id = site.issued.containers.next →
      container.schemaVersionId = schemaVersionId → container.previous = none →
      container.next = [] → ∀ stored : Site, stored = { ticked site with
        store := { site.store with containers := site.store.containers.insert container }
        issued := { site.issued with containers := site.issued.containers.advance 1 } } →
      I stored ∧ R site stored)
    (hset : ∀ edge : Edge, edge.branchId = branchId →
      Within I R (fun _ => True) (setEdge edge)) :
    Within I R (fun _ => True)
      (addContent branchId nodeId language schemaVersionId fields types) := by
  intro site hi
  obtain ⟨container, hid, hversion, hp, hn, ho⟩ :=
    outcome_addContent site branchId nodeId language schemaVersionId fields types
  obtain ⟨hstored, hr⟩ := hstore site container hi hid hversion hp hn _ rfl
  obtain ⟨hlast, hrest, -⟩ := within_bind
    (within_forM fun type _ => hset (.toContainer branchId container type) rfl)
    (fun _ _ => within_pure (P := fun _ => True) trivial) _ hstored
  rw [ho]
  exact ⟨hlast, IsTrans.trans _ _ _ hr hrest, fun _ _ => trivial⟩

/-- New content may be stored that follows a version given out before. -/
theorem harmless_addContent (branchId nodeId : Id) (language : String) {schemaVersionId : Id}
    (hv : given.IsPast schemaVersionId) (fields : FieldMap) (types : List ContainerType) :
    Harmless versions given (fun _ => True)
      (addContent branchId nodeId language schemaVersionId fields types) := by
  refine within_addContent (fun site container hi hid hversion hp hn stored hstored => ?_)
    fun edge _ => harmless_setEdge edge
  refine ⟨hi.insertContainer hid (by rw [hversion]; exact hv) stored
    (by rw [hstored]) (by rw [hstored]) (by rw [hstored]; rfl) (by rw [hstored]; rfl), ?_⟩
  rw [hstored]
  exact .beside (.single (.insert hid hp hn rfl rfl rfl))
    (fun h => h.of_subset rfl fun _ hm => hm) (fun _ => Iff.rfl) rfl

end Calls

end Site

end VersionedContent
