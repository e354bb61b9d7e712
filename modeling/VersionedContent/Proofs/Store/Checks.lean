import VersionedContent.Proofs.Jobs.Log
import VersionedContent.Proofs.Store.Content

/-!
# What a write looks for

A write that may be refused looks before it writes. What it looks for is stated
here as a property of the store, in terms of what can be looked up, so that it
has a meaning in a store whose links lead nowhere as well. A store with the
property takes the write. A store without it refuses, and is left as it was:
whatever has been refused has written nothing.
-/

namespace VersionedContent

namespace Transaction

variable {α : Type} {transaction : Transaction α} {declines : α → Prop} {store : Store}

/-- Whether a store refuses a write: the write fails, or it answers that it declines. -/
def IsRefused (transaction : Transaction α) (declines : α → Prop) (store : Store) : Prop :=
  ∀ a, (outcome transaction store).1 = .ok a → declines a

/-- The ways in which a write goes that looks whether it is welcome before it writes. -/
inductive Goes (transaction : Transaction α) (declines : α → Prop) (store : Store)
    (welcome : Prop) : Prop
  /-- It fails and has written nothing. -/
  | fails (failure : StoreFault) (unwelcome : ¬welcome)
      (left : outcome transaction store = (.error failure, store))
  /-- It declines and has written nothing. -/
  | declines (answer : α) (unwelcome : ¬welcome) (no : declines answer)
      (left : outcome transaction store = (.ok answer, store))
  /-- It is taken. -/
  | taken (answer : α) (next : Store) (welcomed : welcome) (yes : ¬declines answer)
      (left : outcome transaction store = (.ok answer, next))

/-- A write is refused just where it is not welcome. -/
theorem Goes.isRefused_iff {welcome : Prop} (h : Goes transaction declines store welcome) :
    IsRefused transaction declines store ↔ ¬welcome := by
  cases h with
  | fails failure unwelcome left =>
    simp [IsRefused, left, unwelcome]
  | declines answer unwelcome no left =>
    simp [IsRefused, left, unwelcome, no]
  | taken answer next welcomed yes left =>
    simp [IsRefused, left, welcomed, yes]

/-- What is not welcome writes nothing. -/
theorem Goes.unchanged {welcome : Prop} (h : Goes transaction declines store welcome)
    (unwelcome : ¬welcome) : (outcome transaction store).2 = store := by
  cases h with
  | fails failure _ left => rw [left]
  | declines answer _ no left => rw [left]
  | taken answer next welcomed yes left => exact absurd welcomed unwelcome

/-- Whether a write looks for a property of the store before it writes. -/
structure LooksFor (transaction : Transaction α) (declines : α → Prop)
    (property : Store → Prop) : Prop where
  /-- It is refused by the stores without the property, and by no other. -/
  isRefused_iff : ∀ store, IsRefused transaction declines store ↔ ¬property store
  /-- A store that refuses it is left as it was. -/
  unchanged : ∀ store, IsRefused transaction declines store → (outcome transaction store).2 = store

/-- What goes one of the three ways from every store looks before it writes. -/
theorem LooksFor.of_goes {property : Store → Prop}
    (h : ∀ store, Goes transaction declines store (property store)) :
    LooksFor transaction declines property where
  isRefused_iff store := (h store).isRefused_iff
  unchanged store refused := (h store).unchanged ((h store).isRefused_iff.mp refused)

end Transaction

namespace Store

open Transaction

/-- Whether a version has a place at the end of its chain: the version before it is stored and has
no successor, or it is a first version and its chain is empty. -/
def HasPlaceFor (version : Version) (store : Store) : Prop :=
  match version.previous with
  | some id => ∃ previous, store.version? id = some previous ∧ previous.next = none
  | none => store.chainVersions version.kind version.name = []

/-- Whether the container that an edge points at is stored. -/
def HoldsTarget (edge : Edge) (store : Store) : Prop :=
  ∃ container, store.container? edge.containerId = some container

/-- Whether a job waits while no job of its scope runs. -/
def HasEligible (store : Store) : Prop :=
  ∃ entry ∈ store.jobs.entries,
    entry.job.status = .queued ∧ store.jobs.isBusy entry.job.scope = false

/-- Whether the job that an identifier leads to runs, and the status is an end. -/
def CanFinish (id : Id) (status : JobStatus) (store : Store) : Prop :=
  ∃ sequence entry, Dict.get? store.jobs.index id = some sequence ∧
    store.jobs.entry? sequence = some entry ∧ entry.job.status = .started ∧
    status.isTerminal = true

/-- Whether an identifier is known and leads to no running job. -/
def CanDrop (id : Id) (store : Store) : Prop :=
  ∃ sequence, Dict.get? store.jobs.index id = some sequence ∧
    ∀ entry, store.jobs.entry? sequence = some entry → entry.job.status ≠ .started

/-- Whether no job runs. -/
def IsIdle (store : Store) : Prop := ∀ entry ∈ store.jobs.entries, entry.job.status ≠ .started

/-- Whether a container may follow what an edge points at: the edge is stored and points at the
container before it, which is stored as well, and its own identifier is not taken. -/
def CanSucceed (key : EdgeKey) (successor : Container) (store : Store) : Prop :=
  ∃ edge previous, store.edge? key = some edge ∧
    successor.previous = some edge.containerId ∧
    store.container? edge.containerId = some previous ∧ store.container? successor.id = none

/-- Whether a container is stored and no edge points at it. -/
def CanRemove (id : Id) (store : Store) : Prop :=
  (∃ container, store.container? id = some container) ∧
    ∀ edge ∈ store.edges.rows, edge.containerId ≠ id

/-- A version is appended where it has a place. -/
theorem goes_appendVersion (version : Version) (store : Store) :
    Goes (appendVersion version) (· = false) store (HasPlaceFor version store) := by
  cases hp : version.previous with
  | none =>
    have hleft := @outcome_appendVersion_of_root store version hp
    have hplace : HasPlaceFor version store ↔
        store.chainVersions version.kind version.name = [] := by
      rw [HasPlaceFor, hp]
    by_cases hc : store.chainVersions version.kind version.name = []
    · rw [if_pos hc] at hleft
      exact .taken true _ (hplace.mpr hc) (by simp) hleft
    · rw [if_neg hc] at hleft
      exact .declines false (fun h => hc (hplace.mp h)) rfl hleft
  | some id =>
    have hleft := @outcome_appendVersion_of_successor store version id hp
    have hplace : HasPlaceFor version store ↔
        ∃ previous, store.version? id = some previous ∧ previous.next = none := by
      rw [HasPlaceFor, hp]
    cases hv : store.version? id with
    | none =>
      rw [hv] at hleft
      exact .fails _ (by simp [hplace, hv]) hleft
    | some previous =>
      simp only [hv] at hleft
      cases hn : previous.next with
      | none =>
        rw [hn] at hleft
        exact .taken true _ (hplace.mpr ⟨previous, hv, hn⟩) (by simp) hleft
      | some next =>
        rw [hn] at hleft
        exact .declines false (by simp [hplace, hv, hn]) rfl hleft

/-- An edge is stored where the container that it points at is. -/
theorem goes_setEdge (edge : Edge) (store : Store) :
    Goes (setEdge edge) (fun _ => False) store (HoldsTarget edge store) := by
  have hleft := outcome_setEdge edge store
  have htarget : HoldsTarget edge store ↔ store.containers.contains edge.containerId = true :=
    Option.isSome_iff_exists.symm
  by_cases hc : store.containers.contains edge.containerId = true
  · rw [if_pos hc] at hleft
    exact .taken _ _ (htarget.mpr hc) id hleft
  · rw [if_neg hc] at hleft
    exact .fails _ (fun h => hc (htarget.mp h)) hleft

/-- A job is started where one may start. -/
theorem goes_claimNextJob (startedAt : Instant) (store : Store) :
    Goes (claimNextJob startedAt) (· = none) store store.HasEligible := by
  have hleft := outcome_claimNextJob startedAt store
  have hnext : store.HasEligible ↔ ∃ entry, store.jobs.nextEligible? = some entry := by
    rw [← Option.isSome_iff_exists, JobLog.nextEligible?, List.find?_isSome]
    simp [HasEligible, JobLog.isEligible]
  cases he : store.jobs.nextEligible? with
  | none =>
    rw [he] at hleft
    exact .declines none (by simp [hnext, he]) rfl hleft
  | some entry =>
    rw [he] at hleft
    exact .taken _ _ (hnext.mpr ⟨entry, he⟩) (Option.some_ne_none _) hleft

/-- A running job is ended by an end. -/
theorem goes_finishJob (id : Id) (status : JobStatus) (error : Option JobError)
    (stoppedAt : Instant) (store : Store) :
    Goes (finishJob id status error stoppedAt) (· = none) store (CanFinish id status store) := by
  have hleft := outcome_finishJob id status error stoppedAt store
  cases he : (Dict.get? store.jobs.index id).bind store.jobs.entry? with
  | none =>
    rw [he] at hleft
    refine .declines none ?_ rfl hleft
    rintro ⟨sequence, entry, hs, hentry, -⟩
    rw [hs, Option.bind_some, hentry] at he
    cases he
  | some entry =>
    obtain ⟨sequence, hs, hentry⟩ := Option.bind_eq_some_iff.mp he
    have hfinish : CanFinish id status store ↔
        (!entry.job.status.canBecome status || entry.job.status != .started) = false := by
      rw [JobStatus.canEnd_iff]
      simp [CanFinish, hs, hentry]
    simp only [he] at hleft
    split at hleft
    · rename_i hc
      exact .declines none (by simp [hfinish, hc]) rfl hleft
    · rename_i hc
      exact .taken _ _ (hfinish.mpr (by simpa using hc)) (Option.some_ne_none _) hleft

/-- A job that does not run is dropped. -/
theorem goes_deleteJob (id : Id) (store : Store) :
    Goes (deleteJob id) (· = false) store (CanDrop id store) := by
  have hleft := outcome_deleteJob id store
  cases hs : Dict.get? store.jobs.index id with
  | none =>
    rw [hs] at hleft
    exact .declines false (by simp [CanDrop, hs]) rfl hleft
  | some sequence =>
    have hdrop : CanDrop id store ↔ ¬((store.jobs.entry? sequence).any fun entry =>
        entry.job.status = .started) = true := by
      simp [CanDrop, hs, Option.any_eq_true]
    simp only [hs] at hleft
    split at hleft
    · rename_i hr
      exact .declines false (fun h => hdrop.mp h hr) rfl hleft
    · rename_i hr
      exact .taken true _ (hdrop.mpr hr) (by simp) hleft

/-- The log is cleared where no job runs. -/
theorem goes_clearJobs (store : Store) : Goes clearJobs (· = none) store store.IsIdle := by
  have hleft := outcome_clearJobs store
  have hidle : store.IsIdle ↔ ¬store.jobs.isRunning = true := by
    simp [IsIdle, JobLog.isRunning, JobLog.jobs]
  by_cases hr : store.jobs.isRunning = true
  · rw [if_pos hr] at hleft
    exact .declines none (fun h => hidle.mp h hr) rfl hleft
  · rw [if_neg hr] at hleft
    exact .taken _ _ (hidle.mpr hr) (Option.some_ne_none _) hleft

/-- A successor is stored where it may follow. -/
theorem goes_commitSuccessor (key : EdgeKey) (successor : Container) (store : Store) :
    Goes (commitSuccessor key successor) (· = false) store (CanSucceed key successor store) := by
  by_cases hw : CanSucceed key successor store
  · obtain ⟨edge, previous, he, hs, hp, hn⟩ := id hw
    exact .taken true _ hw (by simp) (outcome_commitSuccessor_eq successor he hp hs hn)
  · rcases outcome_commitSuccessor key successor store with
      ⟨failure | answer, hne, hleft⟩ | ⟨edge, previous, he, hp, hs, hn, -⟩
    · exact .fails failure hw hleft
    · exact .declines answer hw (by simpa using hne) hleft
    · exact absurd ⟨edge, previous, he, hs, hp, Option.map_eq_none_iff.mp hn⟩ hw

/-- A container is taken out where it is stored and no edge points at it. -/
theorem goes_deleteContainerVersion (id : Id) (store : Store) :
    Goes (deleteContainerVersion id) (· = false) store (CanRemove id store) := by
  have hleft := outcome_deleteContainerVersion id store
  have hfree : store.isReferenced id = true ↔ ∃ edge ∈ store.edges.rows, edge.containerId = id := by
    simp [isReferenced]
  by_cases hr : store.isReferenced id = true
  · rw [if_pos hr] at hleft
    obtain ⟨edge, hm, he⟩ := hfree.mp hr
    exact .fails _ (fun h => h.2 edge hm he) hleft
  · rw [if_neg hr] at hleft
    cases hc : store.container? id with
    | none =>
      rw [hc] at hleft
      exact .declines false (by simp [CanRemove, hc]) rfl hleft
    | some removed =>
      rw [hc] at hleft
      have hunpointed : ∀ edge ∈ store.edges.rows, edge.containerId ≠ id :=
        fun edge hm he => hr (hfree.mpr ⟨edge, hm, he⟩)
      exact .taken true _ ⟨⟨removed, hc⟩, hunpointed⟩ (by simp) hleft

/-- Every write that may be refused looks for something before it writes: where it finds that it is
taken, and where it does not it is refused and the store is left as it was. Nothing is asked of the
store, nor of the records that are to be written. -/
theorem writes_look_first :
    (∀ version, LooksFor (appendVersion version) (· = false) (HasPlaceFor version)) ∧
    (∀ edge, LooksFor (setEdge edge) (fun _ => False) (HoldsTarget edge)) ∧
    (∀ startedAt, LooksFor (claimNextJob startedAt) (· = none) HasEligible) ∧
    (∀ id status error stoppedAt,
      LooksFor (finishJob id status error stoppedAt) (· = none) (CanFinish id status)) ∧
    (∀ id, LooksFor (deleteJob id) (· = false) (CanDrop id)) ∧
    LooksFor clearJobs (· = none) IsIdle ∧
    (∀ key successor, LooksFor (commitSuccessor key successor) (· = false)
      (CanSucceed key successor)) ∧
    ∀ id, LooksFor (deleteContainerVersion id) (· = false) (CanRemove id) := by
  refine ⟨fun version => ?append, fun edge => ?edge, fun startedAt => ?claim,
    fun id status error stoppedAt => ?finish, fun id => ?drop, ?clear,
    fun key successor => ?commit, fun id => ?remove⟩
  case append => exact .of_goes (goes_appendVersion version)
  case edge => exact .of_goes (goes_setEdge edge)
  case claim => exact .of_goes (goes_claimNextJob startedAt)
  case finish => exact .of_goes (goes_finishJob id status error stoppedAt)
  case drop => exact .of_goes (goes_deleteJob id)
  case clear => exact .of_goes goes_clearJobs
  case commit => exact .of_goes (goes_commitSuccessor key successor)
  case remove => exact .of_goes (goes_deleteContainerVersion id)

end Store

end VersionedContent
