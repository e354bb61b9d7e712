import VersionedContent.Proofs.Jobs.Course
import VersionedContent.Proofs.Jobs.Line
import VersionedContent.Proofs.Site.Arrival
import VersionedContent.Proofs.Site.Finish
import VersionedContent.Proofs.Site.Queueing
import VersionedContent.Proofs.Site.Sweep

/-!
# Content carried to the pin

The jobs of a branch that wait or run carry its content of a schema to the
version that the branch pins, unless one of them has failed. Every step on the
way, in whatever order they come, keeps it so.
-/

namespace VersionedContent

namespace Store

/-- Whether content of a branch stands at a version. -/
def Stands (store : Store) (branchId version : Id) : Prop :=
  ∃ key : EdgeKey, key.branchId = branchId ∧ store.standing? key = some version

/-- Whether moves carry the content of a branch to its pin for a schema. -/
def Carries (store : Store) (branchId : Id) (name : String) (moves : List (Id × Id)) : Prop :=
  Course store.versions.keys (store.chainIds .schema name) (store.pin? branchId .schema name) moves
    (store.Stands branchId)

/-- Whether the jobs of a branch that wait or run carry its content to its pin for a schema, unless
one of those logged since some start has failed. -/
structure Carried (start store : Store) (branchId : Id) (name : String) : Prop where
  /-- Jobs have been logged after those of the start. -/
  later : start.jobs.nextSequence ≤ store.jobs.nextSequence
  /-- What was pinned at the start has a pin. -/
  pinned : start.pin? branchId .schema name ≠ none → store.pin? branchId .schema name ≠ none
  /-- A job has failed, or the jobs carry the content. -/
  carries : store.jobs.FailedSince branchId start.jobs.nextSequence ∨
    ∃ moves, store.jobs.Line branchId start.jobs.nextSequence moves ∧
      store.Carries branchId name moves

variable {start store next : Store} {branchId : Id} {name : String} {issued : Series}

/-- The chain and the pin depend on versions and pins only. -/
theorem carries_of_course {moves : List (Id × Id)}
    (h : Course store.versions.keys (store.chainIds .schema name)
      (store.pin? branchId .schema name) moves (next.Stands branchId))
    (hv : next.versions = store.versions)
    (hp : next.pin? branchId .schema name = store.pin? branchId .schema name) :
    next.Carries branchId name moves := by
  have hchain : next.chainIds .schema name = store.chainIds .schema name := by
    rw [chainIds, chainVersions, hv, chainIds, chainVersions]
  unfold Carries
  rw [hv, hchain, hp]
  exact h

/-- A version may be stored. -/
theorem Carried.extends {issued' : Series} {given : Issued} (h : Carried start store branchId name)
    (hchained : Chained store issued) (hhoused : store.Housed given) (hg : given.versions = issued)
    (he : Extends store issued next issued') : Carried start next branchId name := by
  obtain ⟨added, hchain, hadded⟩ := he.chainIds_eq hchained .schema name
  have heq := he.eq
  have hjobs : next.jobs = store.jobs := by rw [heq]
  have hpin : next.pin? branchId .schema name = store.pin? branchId .schema name := by
    rw [heq]
    rfl
  have hstands : next.Stands branchId = store.Stands branchId := by
    rw [heq]
    rfl
  refine ⟨hjobs ▸ h.later, hpin ▸ h.pinned, ?_⟩
  rw [hjobs]
  apply h.carries.imp_right
  rintro ⟨moves, hline, hcourse⟩
  refine ⟨moves, hline, ?_⟩
  unfold Carries at hcourse ⊢
  rw [hchain, hpin, hstands]
  refine hcourse.grow (fun id hm => he.mem_keys hm) (fun id hm hin => ?_) fun id hm hstand => ?_
  · rw [hadded id hm] at hin
    exact hchained.next_notMem hin
  · obtain ⟨key, -, hs⟩ := hstand
    obtain ⟨edge, -, hf⟩ := Option.bind_eq_some_iff.mp hs
    subst hg
    exact Nat.lt_irrefl _ (hhoused.seen _ _ hf _ (hadded id hm))

/-- A version may be pinned: what stands below it is carried on by the job that is queued. -/
theorem Carried.repins (h : Carried start store branchId name) (hchained : Chained store issued)
    (hl : (store.chainVersions .schema name).length < 4294967296)
    (hr : store.Repins branchId name next) : Carried start next branchId name := by
  cases hr with
  | kept => exact h
  | @clear branch version found stored ahead =>
    obtain ⟨-, hk, hn⟩ := mem_chainVersions.mp stored
    have hpin := pin?_insert found version
    rw [hk, hn] at hpin
    refine ⟨h.later, fun _ => hpin ▸ Option.some_ne_none _, h.carries.imp_right ?_⟩
    rintro ⟨moves, hline, hcourse⟩
    refine ⟨moves, hline, ?_⟩
    have hformer : store.pin? branchId .schema name = branch.pinned? .schema name := by
      rw [pin?, found, Option.bind_some]
    unfold Carries at hcourse ⊢
    rw [hpin]
    refine hcourse.repin_of_forall_not (List.mem_map_of_mem stored) (fun former hf => ?_)
      fun id hm hstand => ?_
    · rw [hformer] at hf
      exact Nat.le_of_lt (ahead former hf).1
    · obtain ⟨older, ho, rfl⟩ := List.mem_map.mp hm
      obtain ⟨former, hf, hbelow, -⟩ := hcourse.lands older.id hm hstand
      rw [hformer] at hf
      obtain ⟨hlt, hzero⟩ := ahead former hf
      have hnumber : older.number < version.number :=
        (hchained.number_lt_iff hl ho stored).mpr (Nat.lt_of_le_of_lt hbelow hlt)
      obtain ⟨key, hb, hs⟩ := hstand
      exact countEdges_eq_zero_iff.mp (hzero older ho hnumber) key hb hs
  | @queued branch version former job found stored pinned ahead kind_eq status_eq =>
    obtain ⟨-, hk, hn⟩ := mem_chainVersions.mp stored
    have hpin := pin?_insert found version
    rw [hk, hn] at hpin
    refine ⟨Nat.le_succ_of_le h.later, fun _ => ?_, h.carries.imp (fun hf => hf.append job) ?_⟩
    · exact ne_of_eq_of_ne hpin (Option.some_ne_none _)
    rintro ⟨moves, hline, hcourse⟩
    refine ⟨_, hline.append h.later kind_eq status_eq, ?_⟩
    have hformer : store.pin? branchId .schema name = some former := by
      rw [pin?, found, Option.bind_some, pinned]
    unfold Carries at hcourse ⊢
    rw [hformer] at hcourse
    have hnext := hcourse.repin (List.mem_map_of_mem stored) ahead
    rw [← hpin] at hnext
    exact hnext

/-- A move to a pin leads to where it may. -/
theorem FollowsPin.leads (hchained : Chained store issued)
    (hl : (store.chainVersions .schema name).length < 4294967296) {kind : JobKind}
    (h : store.FollowsPin branchId kind) :
    ∃ source target, kind = .schema branchId source target ∧
      Leads store.versions.keys (store.chainIds .schema name) (store.pin? branchId .schema name)
        source target := by
  cases h with
  | @move older pinned older_mem pinned_mem lt pin_eq =>
    refine ⟨older.id, pinned.id, rfl, ?_⟩
    by_cases hname : pinned.name = name
    · subst hname
      exact .forward pin_eq (List.mem_map_of_mem older_mem) (List.mem_map_of_mem pinned_mem)
        ((hchained.number_lt_iff hl older_mem pinned_mem).mp lt) (Nat.le_refl _)
    · obtain ⟨ho, -, hon⟩ := mem_chainVersions.mp older_mem
      obtain ⟨hp, -, -⟩ := mem_chainVersions.mp pinned_mem
      refine .apart (Table.mem_keys ho) (Table.mem_keys hp) (fun hm => ?_) (fun hm => ?_)
        fun hid => ?_
      · exact hname (hon.symm.trans (chain_eq_of_mem_chainIds ho hm).2)
      · exact hname (chain_eq_of_mem_chainIds hp hm).2
      · obtain rfl := store.versions.eq_of_key_eq ho hp hid
        exact Nat.lt_irrefl _ lt

/-- Moves to pins may be queued. -/
theorem Carried.queues (h : Carried start store branchId name) (hchained : Chained store issued)
    (hl : (store.chainVersions .schema name).length < 4294967296)
    (hq : store.Queues (store.FollowsPin branchId) next) :
    Carried start next branchId name ∧ next = { store with jobs := next.jobs } := by
  induction hq with
  | none => exact ⟨h, rfl⟩
  | @job next before job kind_mem status_eq ih =>
    obtain ⟨hnext, hstore⟩ := ih
    refine ⟨⟨Nat.le_succ_of_le hnext.later, hnext.pinned,
      hnext.carries.imp (fun hf => hf.append job) ?_⟩, ?_⟩
    · rintro ⟨moves, hline, hcourse⟩
      obtain ⟨source, target, hkind, hlead⟩ := FollowsPin.leads hchained hl kind_mem
      refine ⟨_, hline.append hnext.later hkind status_eq, ?_⟩
      rw [hstore] at hcourse ⊢
      exact Course.queue hcourse hlead
    · rw [hstore]

/-- The next job may start. -/
theorem Carried.started (h : Carried start store branchId name) (hlog : store.jobs.Sound issued)
    {entry : JobEntry} (hn : store.jobs.nextEligible? = some entry) {job : Job}
    (hk : job.kind = entry.job.kind) (hs : job.status = .started) :
    Carried start { store with jobs := store.jobs.replace entry.sequence job } branchId name := by
  obtain ⟨hm, hq, -⟩ := JobLog.isEligible_of_nextEligible? hn
  have ht : entry.job.status.isTerminal = false := by
    rw [hq]
    rfl
  refine ⟨h.later, h.pinned, h.carries.imp (fun hf => hf.replace hlog hm ht job) ?_⟩
  rintro ⟨moves, hline, hcourse⟩
  exact ⟨moves, hline.start hlog hn hk hs, hcourse⟩

/-- A pin depends on the pins of its branch only. -/
theorem pin?_eq_of_pins_eq
    (h : (next.branch? branchId).map Branch.pins = (store.branch? branchId).map Branch.pins)
    (kind : Kind) (name : String) :
    next.pin? branchId kind name = store.pin? branchId kind name := by
  have hmap : ∀ other : Store, other.pin? branchId kind name =
      ((other.branch? branchId).map Branch.pins).bind fun pins => Dict.get? (pins kind) name := by
    intro other
    unfold pin?
    cases other.branch? branchId <;> rfl
  rw [hmap, hmap, h]

end Store

namespace Site

open VersionedContent.Action

variable {start : Store} {site : Site} {branchId : Id} {name : String}

/-- A started job may run to its end. -/
theorem carried_process (hc : start.Carried site.store branchId name) (h : Sound site)
    {entry : JobEntry} (hm : entry ∈ site.store.jobs.entries) (hs : entry.job.status = .started) :
    start.Carried (outcome (process entry.job) site).2.store branchId name := by
  obtain ⟨hsteady, hworks, -⟩ := within_execute h.chained.fresh entry.job.kind site h.steady
  obtain ⟨done, hkind, hstore, hend⟩ := process_spec h hm hs
  obtain ⟨answer, executed, hexec⟩ : ∃ answer executed,
      outcome (execute entry.job.kind) site = (answer, executed) := ⟨_, _, rfl⟩
  rw [hexec] at hsteady hworks hstore hend
  dsimp only at hsteady hworks hstore hend
  rw [hstore]
  have ht : entry.job.status.isTerminal = false := by
    rw [hs]
    rfl
  have hpin := Store.pin?_eq_of_pins_eq (hworks.pins branchId) .schema name
  refine ⟨hc.later, fun hp => ne_of_eq_of_ne hpin (hc.pinned hp), ?_⟩
  rcases hc.carries with hf | ⟨moves, hline, hcourse⟩
  · exact .inl (hf.replace h.logged hm ht done)
  · by_cases hb : entry.job.kind.branchId? = some branchId
    · obtain ⟨hfirst, move, rest, rfl, hmove, hrest⟩ := hline.finish h.logged hm hb hs
      rcases hend with ⟨hcompleted, hok⟩ | hfailed
      · refine .inr ⟨rest, hrest done (by rw [hcompleted]; rfl), ?_⟩
        have hne := (hcourse.leads move List.mem_cons_self).ne
        rw [hok, hmove] at hexec
        have hmoves := execute_spec hne h hexec
        refine Store.carries_of_course (hcourse.advance ?_) hsteady.versions hpin
        rintro version ⟨key, hkey, hstand⟩
        by_cases hin : site.store.standing? key = some move.1
        · have hmoved := hmoves.moved key ⟨hkey, hin⟩
          exact .inl ⟨Option.some.inj (hstand.symm.trans hmoved), key, hkey, hin⟩
        · have hkept := hmoves.kept key fun hk => hin hk.2
          have hstood := hkept.symm.trans hstand
          exact .inr ⟨fun he => hin (he ▸ hstood), key, hkey, hstood⟩
      · exact .inl (JobLog.failedSince_replace hm hfirst hb hkind hfailed)
    · refine .inr ⟨moves, hline.replace_other h.logged hm hb hkind, ?_⟩
      refine Store.carries_of_course (hcourse.stand ?_) hsteady.versions hpin
      rintro version ⟨key, hkey, hstand⟩
      refine .inl ⟨key, hkey, ?_⟩
      rw [← hworks.standing key (by rw [hkey]; exact hb)]
      exact hstand

/-- The next job may be claimed. -/
theorem carried_claimNext (hc : start.Carried site.store branchId name) (h : Sound site) :
    start.Carried (outcome claimNext site).2.store branchId name := by
  obtain ⟨log, hstore, rfl | ⟨entry, job, hn, hk, hs, rfl⟩⟩ := claimNext_spec h
  · rw [hstore]
    exact hc
  · rw [hstore]
    exact hc.started h.logged hn hk hs

/-- Content may arrive at the pin. -/
theorem carried_arrives (hc : start.Carried site.store branchId name) {versionId : Id} {next : Site}
    (ha : Arrives versionId site next)
    (hp : site.store.pin? branchId .schema name = some versionId) :
    start.Carried next.store branchId name := by
  have hpin : next.store.pin? branchId .schema name = site.store.pin? branchId .schema name := by
    rw [Store.pin?, Store.branch?, ha.branches]
    rfl
  refine ⟨ha.jobs ▸ hc.later, fun hs => ne_of_eq_of_ne hpin (hc.pinned hs), ?_⟩
  rw [ha.jobs]
  apply hc.carries.imp_right
  rintro ⟨moves, hline, hcourse⟩
  refine ⟨moves, hline, Store.carries_of_course (hcourse.stand ?_) ha.versions hpin⟩
  rintro version ⟨key, hkey, hstand⟩
  rcases ha.standing key version hstand with hstood | rfl
  · exact .inl ⟨key, hkey, hstood⟩
  · exact .inr hp

end Site

end VersionedContent
