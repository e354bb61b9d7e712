import VersionedContent.Jobs.Event
import VersionedContent.Schema.Compiled
import VersionedContent.Site.Failure
import VersionedContent.Site.Outage
import VersionedContent.Site.UsageHash
import VersionedContent.Store.Transaction

/-!
# Sites

A site is a store with what a running service keeps beside it: compiled
versions, usage hashes, the events nobody has taken yet, a clock, and how many
identifiers have been given out. An action is a call on a site; one that fails
keeps what it had done to the site before.

Identifiers come in a series for each sort of record, in the order in which
records are stored. Nothing is known of a series but that it never repeats an
identifier. A number of it is used up only when the record is stored.
-/

namespace VersionedContent

/-- A clock, as the readings it shows one after the other. -/
structure Clock where
  /-- The readings. -/
  reading : Nat → Instant
  /-- How often it has been read. -/
  reads : Nat := 0

namespace Clock

/-- A clock that goes on by a microsecond from one reading to the next. -/
def ticking (start : Instant) : Clock where
  reading := fun n =>
    let nanos := start.nanos + 1000 * n
    ⟨start.seconds + (nanos / 1000000000 : Nat), nanos % 1000000000⟩

end Clock

/-- The identifiers that records of one sort get, one after the other. -/
structure Series where
  /-- The identifier with a number. -/
  label : Nat → Id
  /-- No two numbers have one identifier. -/
  label_inj : ∀ {i j}, label i = label j → i = j
  /-- How many identifiers have been used up. -/
  used : Nat := 0

/-- The label with a number of the sort that a letter stands for. -/
def label (letter : String) (used : Nat) : Id := "@" ++ letter ++ toString (used + 1)

/-- A label is numbered uniquely. -/
theorem label_inj {letter : String} {a b : Nat} (h : label letter a = label letter b) : a = b := by
  have htext : Nat.repr (a + 1) = Nat.repr (b + 1) := (String.append_right_inj _).mp h
  have hdigits : Nat.toDigits 10 (a + 1) = Nat.toDigits 10 (b + 1) := String.ofList_injective htext
  have hnumber (n : Nat) : Nat.ofDigitChars 10 (Nat.toDigits 10 n) 0 = n :=
    Nat.ofDigitChars_toDigits (by decide) (by decide)
  rw [← Nat.add_right_cancel_iff, ← hnumber (a + 1), hdigits, hnumber]

namespace Series

/-- The identifier of the next record. -/
def next (series : Series) : Id := series.label series.used

/-- The series when so many more identifiers have been used up. -/
def advance (series : Series) (more : Nat) : Series := { series with used := series.used + more }

/-- A series counts the identifiers that have been used up. -/
instance : Coe Series Nat where
  coe := used

/-- Whether an identifier has been given out. -/
def HasGiven (series : Series) (id : Id) : Prop := ∃ k < (series : Nat), id = series.label k

/-- Whether an identifier is none of those that are still to be given out. -/
def IsPast (series : Series) (id : Id) : Prop := ∀ k, id = series.label k → k < (series : Nat)

/-- What has been given out is not given out again. -/
theorem HasGiven.isPast {series : Series} {id : Id} (h : series.HasGiven id) :
    series.IsPast id := by
  obtain ⟨j, hj, he⟩ := h
  intro k hk
  exact series.label_inj (hk.symm.trans he) ▸ hj

/-- The next identifier has not been given out. -/
theorem not_hasGiven_next (series : Series) : ¬ series.HasGiven series.next :=
  fun ⟨_, hk, he⟩ => Nat.ne_of_gt hk (series.label_inj he)

/-- The next identifier has been given out once it is used up. -/
theorem hasGiven_next (series : Series) : (series.advance 1).HasGiven series.next :=
  ⟨series.used, Nat.lt_succ_self _, rfl⟩

/-- What has been given out stays so. -/
theorem HasGiven.advance {series : Series} {id : Id} (h : series.HasGiven id) (more : Nat) :
    (series.advance more).HasGiven id := by
  obtain ⟨k, hk, he⟩ := h
  exact ⟨k, Nat.lt_add_right more hk, he⟩

@[simp] theorem label_advance (series : Series) (more : Nat) :
    (series.advance more).label = series.label := rfl

@[simp] theorem used_advance (series : Series) (more : Nat) :
    (series.advance more).used = series.used + more := rfl

/-- A series goes on to another one when more of the same identifiers have been used up there. -/
instance : LE Series where
  le a b := a.label = b.label ∧ a.used ≤ b.used

theorem le_refl (series : Series) : series ≤ series := ⟨rfl, Nat.le_refl _⟩

theorem le_trans {a b c : Series} (hab : a ≤ b) (hbc : b ≤ c) : a ≤ c :=
  ⟨hab.1.trans hbc.1, Nat.le_trans hab.2 hbc.2⟩

theorem le_advance (series : Series) (more : Nat) : series ≤ series.advance more :=
  ⟨rfl, Nat.le_add_right _ _⟩

/-- The labels of the sort that a letter stands for. -/
def lettered (letter : String) : Series where
  label := VersionedContent.label letter
  label_inj := VersionedContent.label_inj

end Series

/-- The identifiers of each sort; the labels, unless there are others. -/
structure Issued where
  /-- Of versions. -/
  versions : Series := .lettered "v"
  /-- Of branches. -/
  branches : Series := .lettered "b"
  /-- Of jobs. -/
  jobs : Series := .lettered "j"
  /-- Of containers. -/
  containers : Series := .lettered "c"

/-- Compiled versions by place; the service adds to them and may drop them. -/
abbrev Cache := List (CacheKey × Compiled)

namespace Cache

/-- The compiled version of a place. -/
def get? (cache : Cache) (key : CacheKey) : Option Compiled := cache.lookup key

/-- Drops the compiled version of a place. -/
def invalidate (cache : Cache) (key : CacheKey) : Cache :=
  cache.filter fun entry => entry.1 ≠ key

/-- Keeps a compiled version under a place. -/
def insert (cache : Cache) (key : CacheKey) (compiled : Compiled) : Cache :=
  (key, compiled) :: invalidate cache key

end Cache

/-- A store and what a running service keeps beside it. -/
structure Site where
  /-- The records. -/
  store : Store := {}
  /-- The compiled versions. -/
  cache : Cache := []
  /-- The usage hashes. -/
  memo : UsageMemo := []
  /-- The events nobody has taken yet. -/
  events : EventChannel
  /-- The clock. -/
  clock : Clock
  /-- The identifiers. -/
  issued : Issued := {}
  /-- The outages still to come. -/
  outages : List Outage := []
  /-- How many containers a job handles at a time, at least one. -/
  bucketSize : Nat

namespace Site

/-- A site without records. -/
def empty (clock : Clock) (bucketSize eventBuffer : Nat) (issued : Issued := {}) : Site where
  events := .ofBuffer eventBuffer
  clock := clock
  issued := issued
  bucketSize := max bucketSize 1

end Site

/-- A call on a site. -/
abbrev Action (α : Type) := ExceptT Failure (StateM Site) α

namespace Action

/-- Asks the store. -/
def query {α : Type} (question : Store → α) : Action α := do
  return question (← get).store

/-- Carries a transaction out. -/
def transact {α : Type} (transaction : Transaction α) : Action α := do
  let site ← get
  let (answer, store) := transaction.run.run site.store
  set { site with store := store }
  match answer with
  | .ok a => return a
  | .error fault => throw (.store fault)

/-- Carries an action out unless the operation is out of order; `declined` is the answer
of an operation that declines. -/
def unlessOut {α : Type} (operation : StoreOperation) (declined : α) (action : Action α) :
    Action α := do
  let site ← get
  let (mode, outages) := Outage.meet operation site.outages
  set { site with outages := outages }
  match mode with
  | none => action
  | some .decline => return declined
  | some (.fail cause context) => throw (.store (.outage cause context))

/-- Carries an action out and answers with its result or its failure. -/
def attempt {α : Type} (action : Action α) : Action (Except Failure α) :=
  tryCatch (do return .ok (← action)) fun failure => return .error failure

/-- Reads the clock. -/
def now : Action Instant := do
  let site ← get
  set { site with clock := { site.clock with reads := site.clock.reads + 1 } }
  return site.clock.reading site.clock.reads

/-- The answer, or the failure that there is none. -/
def orNotFound {α : Type} (what id : String) (answer : Option α) : Action α :=
  match answer with
  | some a => return a
  | none => throw (.notFound what id)

/-- Without outages every operation is carried out. -/
theorem unlessOut_of_outages_eq_nil {α : Type} (operation : StoreOperation) (declined : α)
    (action : Action α) {site : Site} (h : site.outages = []) :
    (unlessOut operation declined action).run.run site = action.run.run site := by
  obtain ⟨store, cache, memo, events, clock, issued, outages, bucketSize⟩ := site
  subst h
  rfl

end Action

/-- How long loops without a counter may go on. Each of them comes to an end by itself in a number
of rounds that the site tells, so that neither more rounds nor what would happen after the last of
them make a difference. -/
structure Limit where
  /-- How many rounds a loop may go where a number of them suffices. -/
  rounds : Nat → Nat
  /-- What is done when a loop has gone its rounds and is not at its end. -/
  cut : Action Unit

/-- Loops may go as many rounds as suffice, and stop after them. -/
def Limit.ample : Limit where
  rounds := fun enough => enough
  cut := pure ()

@[simp] theorem Limit.rounds_ample (enough : Nat) : Limit.ample.rounds enough = enough := rfl

namespace Site

/-- The first version of a chain. -/
def rootVersion? (kind : Kind) (name : String) : Action (Option Version) :=
  .unlessOut .rootVersion none (.query fun store => store.rootVersion? kind name)

/-- Stores a version. -/
def appendVersion (version : Version) : Action Bool :=
  .unlessOut .appendVersion false (.transact (Store.appendVersion version))

/-- Stores a branch. -/
def upsertBranch (branch : Branch) : Action Unit :=
  .unlessOut .upsertBranch () (.transact (Store.upsertBranch branch))

/-- Logs a job. -/
def insertJob (job : Job) : Action Unit :=
  .unlessOut .insertJob () (.transact (Store.insertJob job))

/-- Starts the next eligible job. -/
def claimNextJob (startedAt : Instant) : Action (Option Job) :=
  .unlessOut .claimNextJob none (.transact (Store.claimNextJob startedAt))

/-- Ends a running job. -/
def finishJob (id : Id) (status : JobStatus) (error : Option JobError) (stoppedAt : Instant) :
    Action (Option Job) :=
  .unlessOut .finishJob none (.transact (Store.finishJob id status error stoppedAt))

/-- Stores an edge. -/
def setEdge (edge : Edge) : Action Unit :=
  .unlessOut .setEdge () (.transact (Store.setEdge edge))

/-- Stores a successor and turns an edge to it. -/
def commitSuccessor (key : EdgeKey) (successor : Container) : Action Bool :=
  .unlessOut .commitSuccessor false (.transact (Store.commitSuccessor key successor))

/-- Takes a superseded container out of its history. -/
def deleteContainerVersion (id : Id) : Action Bool :=
  .unlessOut .deleteContainerVersion false (.transact (Store.deleteContainerVersion id))

/-- The identifier of the next version. -/
def nextVersionId : Action Id := return (← get).issued.versions.next

/-- The identifier of the next branch. -/
def nextBranchId : Action Id := return (← get).issued.branches.next

/-- The identifier of the next job. -/
def nextJobId : Action Id := return (← get).issued.jobs.next

/-- The identifier of the next container. -/
def nextContainerId : Action Id := return (← get).issued.containers.next

/-- Counts a version that has been stored. -/
def countVersion : Action Unit := modify fun site =>
  { site with issued := { site.issued with versions := site.issued.versions.advance 1 } }

/-- Counts a branch that has been stored. -/
def countBranch : Action Unit := modify fun site =>
  { site with issued := { site.issued with branches := site.issued.branches.advance 1 } }

/-- Counts a job that has been stored. -/
def countJob : Action Unit := modify fun site =>
  { site with issued := { site.issued with jobs := site.issued.jobs.advance 1 } }

/-- Counts a container that has been stored. -/
def countContainer : Action Unit := modify fun site =>
  { site with issued := { site.issued with containers := site.issued.containers.advance 1 } }

/-- Stores a new branch; the number in its identifier is used up if the store takes it. -/
def addBranch (branch : Branch) : Action Unit :=
  .unlessOut .upsertBranch () do
    Action.transact (Store.upsertBranch branch)
    countBranch

/-- Logs a new job; the number in its identifier is used up if the store takes it. -/
def addJob (job : Job) : Action Unit :=
  .unlessOut .insertJob () do
    Action.transact (Store.insertJob job)
    countJob

/-- Plans an outage, after those planned before. -/
def planOutage (outage : Outage) : Action Unit := modify fun site =>
  { site with outages := site.outages ++ [outage] }

/-- Everything the subscriber has not taken yet: how many events were lost, then the rest. -/
def takeEvents : Action (Nat × List Event) := do
  let site ← get
  set { site with events := site.events.drained }
  return (site.events.lost, site.events.waiting)

end Site

end VersionedContent
