import VersionedContent.Proofs.Site.Commuting
import VersionedContent.Proofs.Site.QueueCalls
import VersionedContent.Proofs.Site.Vacating

/-!
# Running a migration again

A migration may be run again once it has ended, in whatever way: planning comes to
the same, and what still follows its source is what could not be moved. So the
second job reports what the first one has reported, and leaves all content as it
is, whatever calls of the queue lead from the one job to the other.
-/

namespace VersionedContent

namespace Store

variable {origin next : Store} {heir : EdgeKey → Option Container} {branchId : Id}

/-- A migration answers as it did when it is tried again after its content has been moved. -/
theorem Bequeathed.migrationAnswer_eq {planned : Except Failure MigrationPlan}
    (h : origin.Bequeathed branchId heir planned) (hs : Succeeded origin next heir)
    (held : ∀ key edge, origin.edge? key = some edge → origin.container? edge.containerId ≠ none)
    (hne : ∀ plan, planned = .ok plan → plan.source.id ≠ plan.target.id) :
    next.migrationAnswer branchId planned = origin.migrationAnswer branchId planned := by
  cases planned with
  | error failure => rfl
  | ok plan =>
    have hbranch : next.branch? branchId = origin.branch? branchId := by
      rw [branch?, hs.branches]
      rfl
    unfold migrationAnswer
    dsimp only
    rw [hbranch]
    cases hfound : origin.branch? branchId with
    | none => rfl
    | some found =>
      have hvacated := h.vacated (by simp [hfound]) hs held
      exact congrArg Except.ok (hvacated.filterMap_report?_eq (hne plan rfl))

end Store

namespace Site

open VersionedContent.Action

variable {site next : Site}

namespace QueueCall

/-- A call of the queue as a call on the site. -/
def call : QueueCall → Call
  | enqueue kind => .enqueue kind
  | claimNext => .claimNext
  | complete id => .complete id
  | fail id error => .fail id error
  | retry id => .retry id
  | delete id => .deleteJob id
  | purgeFailed => .purgeFailed
  | clear => .clearJobs

/-- A call of the queue leaves what it leaves as a call on the site. -/
theorem after_call (queueCall : QueueCall) (site : Site) :
    queueCall.call.after site = queueCall.after site := by
  cases queueCall with
  | claimNext => rfl
  | _ =>
    rw [after, action, outcome_map]
    rfl

end QueueCall

/-- Whether a site differs from another one in its jobs only, as far as its records go and what it
keeps compiled. -/
structure Requeued (site next : Site) : Prop where
  /-- The other records are the same. -/
  store : next.store = { site.store with jobs := next.store.jobs }
  /-- The same is kept compiled. -/
  cache : next.cache = site.cache

instance : Std.Refl Requeued := ⟨fun _ => ⟨rfl, rfl⟩⟩

instance : IsTrans Site Requeued where
  trans _ _ _ hab hbc := ⟨hbc.store.trans (by rw [hab.store]), hbc.cache.trans hab.cache⟩

/-- Calls on the log change jobs only. -/
theorem requeued_logs : Logs (fun site => site.outages = []) Requeued :=
  logs_of_aside fun _ _ hs hc _ => ⟨hs, hc⟩

/-- Calls of the queue change jobs only. -/
theorem QueueCall.requeued (queueCall : QueueCall) (ho : site.outages = []) :
    (queueCall.after site).outages = [] ∧ Requeued site (queueCall.after site) := by
  rw [← after_call]
  cases queueCall with
  | enqueue kind => exact (requeued_logs.enqueue kind none).leads ho
  | claimNext => exact (within_claimNext requeued_logs).leads ho
  | complete id => exact (within_finish requeued_logs id .completed none).leads ho
  | fail id error => exact (within_finish requeued_logs id .failed (some error)).leads ho
  | retry id => exact (within_retry requeued_logs id).leads ho
  | delete id => exact (within_deleteJob requeued_logs id).leads ho
  | purgeFailed => exact (within_purgeFailed requeued_logs).leads ho
  | clear => exact (within_clearJobs requeued_logs).leads ho

/-- Calls of the queue lead on, and change jobs only. -/
theorem Reachable.queueCalls (h : Reachable site) (calls : List QueueCall) :
    Reachable (QueueCall.afterAll site calls) ∧ Requeued site (QueueCall.afterAll site calls) := by
  induction calls generalizing site with
  | nil => exact ⟨h, refl site⟩
  | cons queueCall calls ih =>
    have hnext : Reachable (queueCall.after site) := by
      rw [← queueCall.after_call]
      exact h.call queueCall.call (by cases queueCall <;> trivial)
    obtain ⟨hreached, hrequeued⟩ := ih hnext
    exact ⟨hreached, IsTrans.trans _ _ _ (queueCall.requeued h.sound.outages).2 hrequeued⟩

/-- With other jobs a site is alike in what migrations are planned from. -/
theorem Requeued.likewise (h : Requeued site next) : Likewise site next := by
  have hversions : next.store.versions = site.store.versions := by rw [h.store]
  exact ⟨hversions, (Compiles.of_eq hversions h.cache).answers⟩

/-- After a migration of the content of a branch, the same migration answers the same and leaves the
records as they are, on any site that plans alike and differs in its jobs only. -/
theorem outcome_execute_again (h : Sound site) {kind : Kind} {branchId source target : Id}
    (hne : source ≠ target) {answer : Except Failure (List ContainerError)} {executed : Site}
    (hrun : outcome (execute (.migration kind branchId source target)) site = (answer, executed))
    (hs : Sound next) (hl : Likewise site next)
    (hstore : next.store = { executed.store with jobs := next.store.jobs }) :
    ∃ cache, outcome (execute (.migration kind branchId source target)) next =
      (answer, { next with cache := cache }) := by
  obtain ⟨other, heir, hfirst, hsucceeded, hheirs⟩ :=
    outcome_execute_migration h kind branchId source target
  rw [hrun] at hfirst
  obtain ⟨hanswer, rfl⟩ := Prod.mk.inj hfirst
  have hmoved : site.store.Succeeded next.store heir := by
    rw [hstore]
    exact { hsucceeded with }
  have hplan := (agrees_plan kind source target site next hl).1
  have hapart : ∀ found, (outcome (plan kind source target) site).1 = .ok found →
      found.source.id ≠ found.target.id := by
    intro found hp
    obtain ⟨hs, ht⟩ := ids_of_plan hp
    rw [hs, ht]
    exact hne
  obtain ⟨cache, hagain⟩ := outcome_execute_of_stays hs kind branchId source target
    fun found hp hb entry hm => by
      rw [hplan] at hp
      rw [hp] at hheirs
      have hbranch : site.store.branch? branchId ≠ none := by
        rw [Store.branch?, ← hmoved.branches]
        exact hb
      exact (hheirs.vacated hbranch hmoved h.steady.held).bequest?_eq_none (hapart found hp) hm
  refine ⟨cache, ?_⟩
  rw [hagain, hplan, hheirs.migrationAnswer_eq hmoved h.steady.held hapart, hanswer]

/-- On every reachable site, a schema or microschema job that has started and whose two versions
differ is run to its end. When a second job of the same kind is run then, after any calls of the
queue that start it, that ends with the same status and the same error, in all its reports, and
leaves every container and every edge as it is. -/
theorem Reachable.migration_again (h : Reachable site) {entry : JobEntry}
    (hm : entry ∈ site.store.jobs.entries) (hstarted : entry.job.status = .started) {kind : Kind}
    {branchId source target : Id}
    (hjob : entry.job.kind = .migration kind branchId source target) (hne : source ≠ target) :
    ∃ done first, outcome (process entry.job) site = (.ok (some done), first) ∧
      done.status.isTerminal = true ∧
      ∀ (calls : List QueueCall), ∀ again ∈ (QueueCall.afterAll first calls).store.jobs.entries,
        again.job.status = .started → again.job.kind = entry.job.kind →
          ∃ redone last,
            outcome (process again.job) (QueueCall.afterAll first calls) =
              (.ok (some redone), last) ∧
            redone.status = done.status ∧ redone.error = done.error ∧
            last.store.containers = first.store.containers ∧
            last.store.edges = first.store.edges := by
  obtain ⟨done, first, hfirst⟩ := h.processed hm hstarted
  rcases hrun : outcome (execute entry.job.kind) site with ⟨answer, executed⟩
  obtain ⟨other, hprocess, hstore⟩ := outcome_process h.sound hm hstarted hrun
  obtain rfl : other = first := congrArg Prod.snd (hprocess.symm.trans hfirst.run)
  have hended := hfirst.ended
  rw [hrun] at hended
  refine ⟨done, other, hfirst.run, hfirst.isTerminal, fun calls again ha hs hk => ?_⟩
  obtain ⟨hreached, hrequeued⟩ := hfirst.reachable.queueCalls calls
  generalize QueueCall.afterAll other calls = between at ha hreached hrequeued ⊢
  have hbetween : between.store = { executed.store with jobs := between.store.jobs } :=
    hrequeued.store.trans (by rw [hstore])
  have hlikewise : Likewise site between :=
    (hfirst.alike none fun _ _ => by simp).toLikewise.trans hrequeued.likewise
  rw [hjob] at hrun
  obtain ⟨cache, hagain⟩ :=
    outcome_execute_again h.sound hne hrun hreached.sound hlikewise hbetween
  rw [← hjob, ← hk] at hagain
  obtain ⟨last, hlast, hrest⟩ := outcome_process hreached.sound ha hs hagain
  obtain ⟨hstatus, herror⟩ := Prod.mk.inj hended
  refine ⟨_, last, hlast, hstatus.symm, herror.symm, ?_, ?_⟩
  · rw [hrest, hrequeued.store]
  · rw [hrest, hrequeued.store]

/-- Of two texts that are to become truth values the one stays and is reported, however often. -/
theorem migration_again_of_two_texts :
    let flagged (type : FieldType) : Definition :=
      { name := "article", fields := [{ name := "flag", type := type }] }
    let calls : List Call :=
      [.createSchema .schema (flagged .string), .createBranch "p1" "main" none,
        .assignLatest "@b1" .schema "article",
        .addContent "@b1" "n1" "en" "@v1" [("flag", .string "true")] [.draft],
        .addContent "@b1" "n2" "en" "@v1" [("flag", .string "perhaps")] [.published],
        .updateSchema .schema "article" (flagged .boolean) [] none,
        .assignLatest "@b1" .schema "article", .claimNext]
    let site := Call.afterAll (.empty (.ticking ⟨0, 0⟩) 10 10) calls
    ∃ entry ∈ site.store.jobs.entries, entry.job.status = .started ∧
      entry.job.kind = .migration .schema "@b1" "@v1" "@v2" ∧
      ∃ done first, outcome (process entry.job) site = (.ok (some done), first) ∧
        done.status = .failed ∧
        (first.store.edges.rows.map fun edge => (edge.nodeId, edge.containerId)) =
          [("n1", "@c3"), ("n2", "@c2")] ∧
        ∃ (again : JobEntry) (redone : Job) (last : Site),
          outcome (process again.job) (QueueCall.afterAll first
              [.enqueue (.schema "@b1" "@v1" "@v2"), .claimNext]) = (.ok (some redone), last) ∧
            again.job.id = "@j2" ∧ redone.status = done.status ∧ redone.error = done.error ∧
            last.store.containers = first.store.containers ∧
            last.store.edges = first.store.edges := by
  intro flagged calls site
  have hgiven : Call.areGiven (.empty (.ticking ⟨0, 0⟩) 10 10) calls = true := by decide +kernel
  have hreached : Reachable site :=
    (Managed.calls (.empty (.ticking ⟨0, 0⟩) 10 10) hgiven).reachable
  let entry := site.store.jobs.entries.head (by decide +kernel)
  have hm : entry ∈ site.store.jobs.entries :=
    @List.head_mem _ site.store.jobs.entries (by decide +kernel)
  have hstarted : entry.job.status = .started := by decide +kernel
  have hjob : entry.job.kind = .migration .schema "@b1" "@v1" "@v2" := by decide +kernel
  obtain ⟨done, first, hrun, -, hagain⟩ :=
    hreached.migration_again hm hstarted hjob (by decide)
  have hstatus : (outcome (process entry.job) site).1.toOption.join.map Job.status =
      some .failed := by decide +kernel
  rw [hrun] at hstatus
  have hfirst : (outcome (process entry.job) site).2 = first := congrArg Prod.snd hrun
  subst hfirst
  let requeue : List QueueCall := [.enqueue (.schema "@b1" "@v1" "@v2"), .claimNext]
  let entries := (QueueCall.afterAll (outcome (process entry.job) site).2
    requeue).store.jobs.entries
  let again := entries.getLast (by decide +kernel)
  have ha : again ∈ entries := @List.getLast_mem _ entries (by decide +kernel)
  obtain ⟨redone, last, hlast, hsame⟩ :=
    hagain requeue again ha (by decide +kernel) (by decide +kernel)
  exact ⟨entry, hm, hstarted, hjob, done, _, hrun, Option.some.inj hstatus, by decide +kernel,
    again, redone, last, hlast, by decide +kernel, hsame⟩

end Site

end VersionedContent
