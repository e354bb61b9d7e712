import VersionedContent.Proofs.Site.Forward

/-!
# How the branches of a project come about

A branch keeps its project, name and base from its creation on, so that the stored
branches can be read off the list of those that have been created. `Succession` is
what creation allows of that list: names are free, the first branch of a project
has no base, and any other has one from earlier in the list. Of what may change,
the mark of the newest branch goes with each creation to the branch created last.
-/

namespace VersionedContent

/-- A branch apart from its pins and from whether it has been migrated. -/
def Branch.standing (branch : Branch) : Branch :=
  { branch with migrated := false, schemaVersions := [], microschemaVersions := [] }

/-- What a branch keeps from its creation on. -/
def Branch.origin (branch : Branch) : Branch := branch.standing.unmarked

/-- A branch that is not the newest has no mark to lose. -/
theorem Branch.unmarked_eq_self {branch : Branch} (h : branch.latest = false) :
    branch.unmarked = branch := by
  cases branch
  cases h
  rfl

/-- Branches with one origin have the same identifier, project, name and base. -/
theorem Branch.of_origin_eq {a b : Branch} (h : a.origin = b.origin) :
    a.id = b.id ∧ a.projectId = b.projectId ∧ a.name = b.name ∧ a.baseId = b.baseId :=
  ⟨(congrArg Branch.id h :), (congrArg Branch.projectId h :), (congrArg Branch.name h :),
    (congrArg Branch.baseId h :)⟩

/-- Pinning a version leaves the standing of a branch as it is. -/
theorem Branch.standing_pin (branch : Branch) (version : Version) :
    (branch.pin version).standing = branch.standing := by
  unfold pin
  cases version.kind <;> rfl

/-- Whether two branches may be of one project. -/
def Branch.Apart (a b : Branch) : Prop :=
  a.projectId = b.projectId → a.name ≠ b.name ∧ (a.baseId = none → b.baseId ≠ none)

/-- Whether branches may have been created in the order of a list. -/
inductive Succession : List Branch → Prop
  /-- There are no branches at first. -/
  | nil : Succession []
  /-- A branch may follow under a free name, without a base as the first of its project, or else
  with one that is there. -/
  | snoc {founded : List Branch} {branch : Branch} (before : Succession founded)
      (fresh : ∀ other ∈ founded, other.id ≠ branch.id)
      (free : ∀ other ∈ founded, other.projectId = branch.projectId → other.name ≠ branch.name)
      (first : branch.baseId = none → ∀ other ∈ founded, other.projectId ≠ branch.projectId)
      (based : ∀ id, branch.baseId = some id →
        ∃ base ∈ founded, base.id = id ∧ base.projectId = branch.projectId) :
      Succession (founded ++ [branch])

namespace Succession

variable {founded : List Branch}

/-- No two branches have one identifier. -/
theorem nodup (h : Succession founded) : (founded.map Branch.id).Nodup := by
  induction h with
  | nil => exact List.nodup_nil
  | snoc before fresh free first based ih =>
    rw [List.map_append, List.map_singleton]
    refine List.Nodup.append ih (List.nodup_singleton _) fun id hm he => ?_
    obtain ⟨other, ho, rfl⟩ := List.mem_map.mp hm
    exact fresh other ho (List.mem_singleton.mp he)

/-- No two branches of one project have one name, and only one of them has no base. -/
theorem apart (h : Succession founded) {a b : Branch} (ha : a ∈ founded) (hb : b ∈ founded)
    (hne : a ≠ b) : a.Apart b := by
  induction h with
  | nil => exact absurd ha List.not_mem_nil
  | @snoc founded branch before fresh free first based ih =>
    rcases List.mem_append.mp ha with hold | hnew <;>
      rcases List.mem_append.mp hb with hold' | hnew'
    · exact ih hold hold'
    · obtain rfl := List.mem_singleton.mp hnew'
      exact fun hp => ⟨free a hold hp, fun _ hnone => first hnone a hold hp⟩
    · obtain rfl := List.mem_singleton.mp hnew
      exact fun hp => ⟨fun he => free b hold' hp.symm he.symm,
        fun hnone => absurd hp.symm (first hnone b hold')⟩
    · exact absurd ((List.mem_singleton.mp hnew).trans (List.mem_singleton.mp hnew').symm) hne

/-- Every project with a branch has one without a base. -/
theorem exists_root (h : Succession founded) {branch : Branch} (hm : branch ∈ founded) :
    ∃ root ∈ founded, root.projectId = branch.projectId ∧ root.baseId = none := by
  induction h generalizing branch with
  | nil => exact absurd hm List.not_mem_nil
  | @snoc founded added before fresh free first based ih =>
    have hold {old : Branch} (ho : old ∈ founded) : ∃ root ∈ founded ++ [added],
        root.projectId = old.projectId ∧ root.baseId = none := by
      obtain ⟨root, hroot, hp, hnone⟩ := ih ho
      exact ⟨root, List.mem_append_left _ hroot, hp, hnone⟩
    rcases List.mem_append.mp hm with hm | hm
    · exact hold hm
    · obtain rfl := List.mem_singleton.mp hm
      cases hbase : branch.baseId with
      | none => exact ⟨branch, List.mem_append_right _ List.mem_cons_self, rfl, hbase⟩
      | some id =>
        obtain ⟨base, ho, -, hp⟩ := based id hbase
        rw [← hp]
        exact hold ho

/-- The base of a branch is an earlier one of its project. -/
theorem exists_base (h : Succession founded) {branch : Branch} (hm : branch ∈ founded) {id : Id}
    (hb : branch.baseId = some id) :
    ∃ base ∈ founded, base.id = id ∧ base.projectId = branch.projectId ∧
      (founded.map Branch.id).idxOf id < (founded.map Branch.id).idxOf branch.id := by
  induction h generalizing branch with
  | nil => exact absurd hm List.not_mem_nil
  | @snoc founded added before fresh free first based ih =>
    have hstays {old : Branch} (ho : old ∈ founded) :
        ((founded ++ [added]).map Branch.id).idxOf old.id =
          (founded.map Branch.id).idxOf old.id := by
      rw [List.map_append, List.idxOf_append_of_mem (List.mem_map_of_mem ho)]
    rcases List.mem_append.mp hm with hm | hm
    · obtain ⟨base, hbase, rfl, hp, hlt⟩ := ih hm hb
      exact ⟨base, List.mem_append_left _ hbase, rfl, hp, by rwa [hstays hbase, hstays hm]⟩
    · obtain rfl := List.mem_singleton.mp hm
      obtain ⟨base, hbase, rfl, hp⟩ := based id hb
      have hnew : branch.id ∉ founded.map Branch.id := by
        intro hin
        obtain ⟨other, ho, he⟩ := List.mem_map.mp hin
        exact fresh other ho he
      refine ⟨base, List.mem_append_left _ hbase, rfl, hp, ?_⟩
      rw [hstays hbase, List.map_append, List.idxOf_append_of_notMem hnew]
      exact Nat.lt_of_lt_of_le (List.idxOf_lt_length_of_mem (List.mem_map_of_mem hbase))
        (Nat.le_add_right _ _)

end Succession

/-- The branch of a project that was created last. -/
def newest? (founded : List Branch) (projectId : Id) : Option Id :=
  ((founded.filter fun branch => branch.projectId = projectId).map Branch.id).getLast?

/-- A branch that is created is the newest of its project, and of no other. -/
theorem newest?_append (founded : List Branch) (branch : Branch) (projectId : Id) :
    newest? (founded ++ [branch]) projectId =
      if branch.projectId = projectId then some branch.id else newest? founded projectId := by
  unfold newest?
  by_cases hp : branch.projectId = projectId <;> simp [hp]

/-- Whether a branch is the base of another one. -/
def Store.IsBase (store : Store) (baseId id : Id) : Prop :=
  ∃ branch ∈ store.branches.rows, branch.id = id ∧ branch.baseId = some baseId

/-- How the branches of a project stand to each other, given the branches that have been created in
this order. -/
structure Store.Staged (store : Store) (founded : List Branch) (projectId : Id) : Prop where
  /-- No two branches have one name. -/
  named : ((store.branches.rows.filter fun branch =>
    branch.projectId = projectId).map Branch.name).Nodup
  /-- One branch has no base. -/
  rooted : ∃! root, root ∈ store.branches.rows ∧ root.projectId = projectId ∧ root.baseId = none
  /-- The base of any other is a branch of the project that was created earlier. -/
  based : ∀ branch ∈ store.branches.rows, branch.projectId = projectId →
    ∀ baseId, branch.baseId = some baseId → ∃ base ∈ store.branches.rows,
      base.id = baseId ∧ base.projectId = projectId ∧
        (founded.map Branch.id).idxOf base.id < (founded.map Branch.id).idxOf branch.id
  /-- One branch is the newest. -/
  marked : ∃! newest, newest ∈ store.branches.rows ∧ newest.projectId = projectId ∧
    newest.latest = true
  /-- The newest branch is the one that was created last. -/
  last : ∀ newest ∈ store.branches.rows, newest.projectId = projectId → newest.latest = true →
    newest? founded projectId = some newest.id

namespace Site

variable {site : Site} {founded : List Branch}

/-- The branches that calls create, made one after another, in this order. -/
def Call.foundsAll (site : Site) : List Call → List Branch
  | [] => []
  | call :: calls => call.founds site ++ foundsAll (call.after site) calls

/-- When a branch is created, its project loses the mark of the newest branch and the new one has
it. -/
theorem branch?_growing_eq (site : Site) (projectId : Id) (branch : Branch) (id : Id) :
    (site.growing projectId branch).store.branch? id =
      if id = branch.id then some branch
      else (site.store.branch? id).map fun other =>
        if other.projectId = projectId then other.unmarked else other := by
  have hfind : (site.growing projectId branch).store.branch? id =
      if id = branch.id then some branch else (site.unmarked projectId).find? id :=
    Table.find?_insert _ branch id
  rw [hfind]
  by_cases he : id = branch.id
  · rw [if_pos he, if_pos he]
  · rw [if_neg he, if_neg he, unmarked, Table.find?_unmarkAll]
    change _ = (site.store.branches.find? id).map _
    cases hb : site.store.branches.find? id with
    | none => exact ite_self _
    | some other =>
      obtain ⟨hrow, rfl⟩ := site.store.branches.find?_eq_some_iff.mp hb
      have hlisted : other.id ∈ ((site.store.listBranches (some projectId)).filter
          Branch.latest).map Branch.id ↔ other.projectId = projectId ∧ other.latest = true := by
        constructor
        · intro hm
          obtain ⟨found, hfound, hid⟩ := List.mem_map.mp hm
          obtain ⟨hin, hlatest⟩ := List.mem_filter.mp hfound
          obtain ⟨hstored, hp⟩ := mem_listBranches.mp hin
          obtain rfl := site.store.branches.eq_of_key_eq hstored hrow hid
          exact ⟨hp, hlatest⟩
        · rintro ⟨hp, hlatest⟩
          exact List.mem_map_of_mem
            (List.mem_filter.mpr ⟨mem_listBranches.mpr ⟨hrow, hp⟩, hlatest⟩)
      simp only [hlisted, Option.map_some]
      by_cases hp : other.projectId = projectId
      · cases hlatest : other.latest with
        | true => simp [hp]
        | false => simp [hp, Branch.unmarked_eq_self hlatest]
      · simp [hp]

/-- What the stored branches have to do with the list of those that have been created. -/
structure Descends (site : Site) (founded : List Branch) : Prop where
  /-- The list is one in which branches may be created. -/
  succession : Succession founded
  /-- The branches that have been created are stored, with what they were created with. -/
  origins : ∀ id, (site.store.branch? id).map Branch.origin =
    (founded.find? fun branch => branch.id = id).map Branch.origin
  /-- The newest branch of a project is the one that was created last. -/
  latest : ∀ id branch, site.store.branch? id = some branch →
    (branch.latest = true ↔ newest? founded branch.projectId = some id)

/-- A stored branch has been created. -/
theorem Descends.exists_founded (h : Descends site founded) {branch : Branch}
    (hm : branch ∈ site.store.branches.rows) :
    ∃ origin ∈ founded, origin.origin = branch.origin := by
  have hsame := h.origins branch.id
  rw [Store.branch?, site.store.branches.find?_eq_some_iff.mpr ⟨hm, rfl⟩, Option.map_some] at hsame
  obtain ⟨origin, ho, he⟩ := Option.map_eq_some_iff.mp hsame.symm
  exact ⟨origin, List.mem_of_find?_eq_some ho, he⟩

/-- A branch that has been created is stored. -/
theorem Descends.exists_row (h : Descends site founded) {origin : Branch}
    (hm : origin ∈ founded) :
    ∃ branch ∈ site.store.branches.rows, branch.origin = origin.origin := by
  have hfound : (founded.find? fun branch => branch.id = origin.id) = some origin := by
    have hsome : (founded.find? fun branch => branch.id = origin.id).isSome :=
      List.find?_isSome.mpr ⟨origin, hm, by simp⟩
    obtain ⟨found, hf⟩ := Option.isSome_iff_exists.mp hsome
    have hid : found.id = origin.id := by simpa using List.find?_some hf
    rw [hf, List.inj_on_of_nodup_map h.succession.nodup (List.mem_of_find?_eq_some hf) hm hid]
  have hsame := h.origins origin.id
  rw [hfound, Option.map_some] at hsame
  obtain ⟨branch, hb, he⟩ := Option.map_eq_some_iff.mp hsame
  exact ⟨branch, (site.store.branches.find?_eq_some_iff.mp hb).1, he⟩

/-- Nothing is created without records. -/
theorem descends_empty (clock : Clock) (bucketSize eventBuffer : Nat) (issued : Issued) :
    Descends (.empty clock bucketSize eventBuffer issued) [] where
  succession := .nil
  origins _ := rfl
  latest _ _ h := by cases h

/-- Branches of the same standing descend alike. -/
theorem Descends.of_standing_eq {next : Site} (h : Descends site founded)
    (hs : ∀ id, (next.store.branch? id).map Branch.standing =
      (site.store.branch? id).map Branch.standing) : Descends next founded where
  succession := h.succession
  origins id := by
    rw [← h.origins id]
    have hsame := congrArg (Option.map Branch.unmarked) (hs id)
    rwa [Option.map_map, Option.map_map] at hsame
  latest id branch hb := by
    have hsame := hs id
    rw [hb, Option.map_some] at hsame
    obtain ⟨former, hf, he⟩ := Option.map_eq_some_iff.mp hsame.symm
    have hp : former.projectId = branch.projectId := (congrArg Branch.projectId he :)
    have hl : former.latest = branch.latest := (congrArg Branch.latest he :)
    rw [← hl, ← hp]
    exact h.latest id former hf

/-- A branch that may be created next comes last. -/
theorem Descends.growing (h : Descends site founded)
    (hlabel : site.store.branch? site.issued.branches.next = none) {projectId : Id}
    {name : String} {baseId : Option Id} {branch : Branch}
    (hnew : Newborn site projectId name baseId branch)
    (hfree : ∀ other ∈ site.store.branches.rows, other.projectId = projectId → other.name ≠ name)
    (hfirst : baseId = none → ∀ other ∈ site.store.branches.rows, other.projectId ≠ projectId) :
    Descends (site.growing projectId branch) (founded ++ [branch]) := by
  have hproject : branch.projectId = projectId := by
    cases hnew with
    | initial => rfl
    | fork found own => exact own
  have hname : branch.name = name := by cases hnew <;> rfl
  have hmarked : branch.latest = true := by cases hnew <;> rfl
  have hnone : (founded.find? fun other => other.id = branch.id) = none := by
    have hsame := h.origins branch.id
    rw [hnew.id_eq, hlabel, Option.map_none] at hsame
    rw [hnew.id_eq]
    exact Option.map_eq_none_iff.mp hsame.symm
  have hfresh : ∀ other ∈ founded, other.id ≠ branch.id := fun other hm he =>
    List.find?_eq_none.mp hnone other hm (decide_eq_true he)
  constructor
  · refine .snoc h.succession hfresh (fun other hm hp he => ?_) (fun hb other hm hp => ?_)
      fun id hb => ?_
    · obtain ⟨row, hrow, hsame⟩ := h.exists_row hm
      obtain ⟨-, hproject', hname', -⟩ := Branch.of_origin_eq hsame
      exact hfree row hrow (hproject'.trans (hp.trans hproject)) (hname'.trans (he.trans hname))
    · obtain ⟨row, hrow, hsame⟩ := h.exists_row hm
      obtain ⟨-, hproject', -, -⟩ := Branch.of_origin_eq hsame
      exact hfirst (hnew.baseId_eq ▸ hb) row hrow (hproject'.trans (hp.trans hproject))
    · cases hnew with
      | initial => cases hb
      | @fork base found own =>
        obtain rfl := Option.some.inj hb
        obtain ⟨origin, hm, hsame⟩ :=
          h.exists_founded (site.store.branches.find?_eq_some_iff.mp found).1
        obtain ⟨hid, hp, -, -⟩ := Branch.of_origin_eq hsame
        exact ⟨origin, hm, hid, hp⟩
  · intro id
    rw [branch?_growing_eq, List.find?_append]
    by_cases he : id = branch.id
    · subst he
      rw [hnone, if_pos rfl]
      simp
    · have hlast : ([branch].find? fun other => other.id = id) = none := by
        simp [Ne.symm he]
      rw [if_neg he, hlast, Option.or_none, ← h.origins id, Option.map_map]
      congr 1
      funext other
      dsimp only [Function.comp]
      split <;> rfl
  · intro id found hb
    rw [branch?_growing_eq] at hb
    rw [newest?_append, hproject]
    split at hb
    · next he =>
      obtain rfl := Option.some.inj hb
      rw [if_pos hproject.symm, hmarked, he]
      simp
    · next hne =>
      obtain ⟨former, hf, rfl⟩ := Option.map_eq_some_iff.mp hb
      by_cases hp : former.projectId = projectId
      · rw [if_pos hp]
        have hother : projectId = former.unmarked.projectId := hp.symm
        rw [if_pos hother]
        simp [Branch.unmarked, Ne.symm hne]
      · rw [if_neg hp, if_neg (Ne.symm hp)]
        exact h.latest id former hf

/-- A call that creates no branch leaves the standing of all of them as it is. -/
theorem Tends.standing_eq {call : Call} {next : Site} (h : Tends site call next)
    (hn : call.founds site = []) (id : Id) :
    (next.store.branch? id).map Branch.standing =
      (site.store.branch? id).map Branch.standing := by
  cases h with
  | settles _ same =>
    have hsame := congrArg (Option.map Branch.standing) (same id)
    rwa [Option.map_map, Option.map_map] at hsame
  | @pins _ _ branchId _ branch version _ _ _ _ may stored =>
    have hid : branch.id = branchId := (site.store.branches.find?_eq_some_iff.mp may.found).2
    rw [Store.branch?, stored, Table.find?_insert, Branch.pin_id, hid]
    split
    · next he =>
      rw [he, may.found, Option.map_some, Option.map_some, Branch.standing_pin]
    · rfl
  | creates founds =>
    rw [hn] at founds
    cases founds

/-- Each call adds what it creates to the branches that have been created. -/
theorem Descends.after (h : Descends site founded) (hr : Reachable site) (call : Call) :
    Descends (call.after site) (founded ++ call.founds site) := by
  have htends := hr.tends call
  generalize hnext : call.after site = next at htends ⊢
  cases hf : call.founds site with
  | nil =>
    rw [List.append_nil]
    exact h.of_standing_eq (htends.standing_eq hf)
  | cons added rest =>
    cases htends with
    | settles none => cases hf.symm.trans none
    | pins none => cases hf.symm.trans none
    | creates founds new free first =>
      obtain ⟨rfl, rfl⟩ := List.cons.inj (hf.symm.trans founds)
      have hgrown := h.growing hr.branch?_label new free first
      exact hgrown.of_standing_eq fun id => by rw [branch?_creating]

/-- Calls add what they create to the branches that have been created. -/
theorem Descends.afterAll (h : Descends site founded) (hr : Reachable site) {calls : List Call}
    (ha : Call.AreAllowed site calls) :
    Descends (Call.afterAll site calls) (founded ++ Call.foundsAll site calls) := by
  induction calls generalizing site founded with
  | nil => rwa [Call.foundsAll, List.append_nil]
  | cons call calls ih =>
    have hrest := ih (h.after hr call) (hr.call call ha.1) ha.2
    rwa [List.append_assoc] at hrest

/-- Of one project, no two stored branches have one name, and only one has no base. -/
theorem Descends.eq_of_not_apart (h : Descends site founded) {a b : Branch}
    (ha : a ∈ site.store.branches.rows) (hb : b ∈ site.store.branches.rows)
    (hn : ¬a.Apart b) : a = b := by
  obtain ⟨first, hfirst, hsame⟩ := h.exists_founded ha
  obtain ⟨second, hsecond, hsame'⟩ := h.exists_founded hb
  obtain ⟨hid, hp, hname, hbase⟩ := Branch.of_origin_eq hsame
  obtain ⟨hid', hp', hname', hbase'⟩ := Branch.of_origin_eq hsame'
  have heq : first = second := by
    by_contra hne
    have hapart := h.succession.apart hfirst hsecond hne
    rw [Branch.Apart, hp, hp', hname, hname', hbase, hbase'] at hapart
    exact hn hapart
  rw [heq] at hid
  exact site.store.branches.eq_of_key_eq ha hb (hid.symm.trans hid')

/-- The base of a stored branch is a stored branch of its project that was created earlier. -/
theorem Descends.exists_base (h : Descends site founded) {branch : Branch}
    (hm : branch ∈ site.store.branches.rows) {baseId : Id} (hb : branch.baseId = some baseId) :
    ∃ base ∈ site.store.branches.rows, base.id = baseId ∧ base.projectId = branch.projectId ∧
      (founded.map Branch.id).idxOf base.id < (founded.map Branch.id).idxOf branch.id := by
  obtain ⟨origin, ho, hsame⟩ := h.exists_founded hm
  obtain ⟨hid, hp, -, hbase⟩ := Branch.of_origin_eq hsame
  obtain ⟨first, hfirst, rfl, hproject, hlt⟩ := h.succession.exists_base ho (hbase.trans hb)
  obtain ⟨base, hrow, hstored⟩ := h.exists_row hfirst
  obtain ⟨hbid, hbp, -, -⟩ := Branch.of_origin_eq hstored
  rw [hid] at hlt
  exact ⟨base, hrow, hbid, hbp.trans (hproject.trans hp), hbid ▸ hlt⟩

/-- A project with a branch has one that was created last, and that is the newest. -/
theorem Descends.exists_newest (h : Descends site founded) {branch : Branch}
    (hm : branch ∈ site.store.branches.rows) :
    ∃ newest ∈ site.store.branches.rows, newest.projectId = branch.projectId ∧
      newest.latest = true := by
  obtain ⟨origin, ho, hsame⟩ := h.exists_founded hm
  obtain ⟨-, hp, -, -⟩ := Branch.of_origin_eq hsame
  have hsome : ((founded.filter fun other => other.projectId = branch.projectId).map
      Branch.id) ≠ [] := List.ne_nil_of_mem (List.mem_map_of_mem
    (List.mem_filter.mpr ⟨ho, decide_eq_true hp⟩))
  have hlast := List.getLast?_eq_some_getLast hsome
  obtain ⟨last, hin, hid⟩ := List.mem_map.mp (List.getLast_mem hsome)
  obtain ⟨hfounded, hproject⟩ := List.mem_filter.mp hin
  obtain ⟨newest, hrow, hstored⟩ := h.exists_row hfounded
  obtain ⟨hnid, hnp, -, -⟩ := Branch.of_origin_eq hstored
  have hproject' : newest.projectId = branch.projectId := hnp.trans (of_decide_eq_true hproject)
  refine ⟨newest, hrow, hproject', (h.latest newest.id newest
    (site.store.branches.find?_eq_some_iff.mpr ⟨hrow, rfl⟩)).mpr ?_⟩
  rw [hproject', hnid, hid]
  exact hlast

/-- The branches of a project stand to each other as their creation has it. -/
theorem Descends.staged (h : Descends site founded) {projectId : Id}
    (hp : ∃ branch ∈ site.store.branches.rows, branch.projectId = projectId) :
    site.store.Staged founded projectId := by
  have hlast : ∀ newest ∈ site.store.branches.rows, newest.projectId = projectId →
      newest.latest = true → newest? founded projectId = some newest.id := by
    rintro newest hm rfl hl
    exact (h.latest newest.id newest
      (site.store.branches.find?_eq_some_iff.mpr ⟨hm, rfl⟩)).mp hl
  obtain ⟨branch, hm, rfl⟩ := hp
  constructor
  · refine List.Nodup.map_on (fun a ha b hb hname => ?_)
      (site.store.branches.nodup_map_key.of_map.filter _)
    obtain ⟨hrow, hproject⟩ := List.mem_filter.mp ha
    obtain ⟨hrow', hproject'⟩ := List.mem_filter.mp hb
    refine h.eq_of_not_apart hrow hrow' fun hapart => ?_
    exact (hapart ((of_decide_eq_true hproject).trans (of_decide_eq_true hproject').symm)).1 hname
  · obtain ⟨origin, ho, hsame⟩ := h.exists_founded hm
    obtain ⟨-, hproject, -, -⟩ := Branch.of_origin_eq hsame
    obtain ⟨first, hfirst, hfp, hnone⟩ := h.succession.exists_root ho
    obtain ⟨root, hrow, hstored⟩ := h.exists_row hfirst
    obtain ⟨-, hrp, -, hrb⟩ := Branch.of_origin_eq hstored
    have hroot : root.projectId = branch.projectId := hrp.trans (hfp.trans hproject)
    refine ⟨root, ⟨hrow, hroot, hrb.trans hnone⟩, ?_⟩
    rintro other ⟨hother, hop, honone⟩
    refine h.eq_of_not_apart hother hrow fun hapart => ?_
    exact (hapart (hop.trans hroot.symm)).2 honone (hrb.trans hnone)
  · rintro other hother hop baseId hb
    rw [← hop]
    exact h.exists_base hother hb
  · obtain ⟨newest, hrow, hproject, hl⟩ := h.exists_newest hm
    refine ⟨newest, ⟨hrow, hproject, hl⟩, ?_⟩
    rintro other ⟨hother, hop, hol⟩
    have hid := (hlast other hother hop hol).symm.trans (hlast newest hrow hproject hl)
    exact site.store.branches.eq_of_key_eq hother hrow (Option.some.inj hid)
  · exact hlast

/-- No branch is its own base, whether at once or by way of others. -/
theorem Descends.acyclic (h : Descends site founded) (id : Id) :
    ¬Relation.TransGen site.store.IsBase id id := by
  have hearlier {baseId id : Id} (hb : Relation.TransGen site.store.IsBase baseId id) :
      (founded.map Branch.id).idxOf baseId < (founded.map Branch.id).idxOf id := by
    have hstep {baseId id : Id} (hbase : site.store.IsBase baseId id) :
        (founded.map Branch.id).idxOf baseId < (founded.map Branch.id).idxOf id := by
      obtain ⟨branch, hm, rfl, he⟩ := hbase
      obtain ⟨base, -, rfl, -, hlt⟩ := h.exists_base hm he
      exact hlt
    induction hb with
    | single hbase => exact hstep hbase
    | tail _ hbase ih => exact ih.trans (hstep hbase)
  exact fun hcycle => Nat.lt_irrefl _ (hearlier hcycle)

/-- After any calls on a site without records, the branches of every project that has some have
distinct names, one of them has no base and any other an earlier one of the project, and the one
that was created last is the only newest; and bases lead around in no circle. -/
theorem branches_of_calls_staged (clock : Clock) (bucketSize eventBuffer : Nat) (issued : Issued)
    {calls : List Call}
    (ha : Call.AreAllowed (.empty clock bucketSize eventBuffer issued) calls) :
    let start := Site.empty clock bucketSize eventBuffer issued
    let site := Call.afterAll start calls
    (∀ projectId, (∃ branch ∈ site.store.branches.rows, branch.projectId = projectId) →
      site.store.Staged (Call.foundsAll start calls) projectId) ∧
    ∀ id, ¬Relation.TransGen site.store.IsBase id id := by
  intro start site
  have hdescends : Descends site ([] ++ Call.foundsAll start calls) :=
    (descends_empty clock bucketSize eventBuffer issued).afterAll
      (.empty clock bucketSize eventBuffer issued) ha
  exact ⟨fun projectId hp => hdescends.staged hp, hdescends.acyclic⟩

/-- Of two projects one gets a fork, while creations under a taken name and without a base fail. -/
theorem branches_of_two_projects :
    let start := Site.empty (.ticking ⟨0, 0⟩) 10 10
    let calls : List Call :=
      [.createSchema .schema
        { name := "article", fields := [{ name := "title", type := .string }] },
        .createBranch "p1" "main" none, .createBranch "p2" "main" none,
        .createBranch "p1" "main" none, .createBranch "p2" "other" none,
        .assignLatest "@b1" .schema "article", .createBranch "p1" "next" (some "@b1"), .runPending]
    let site := Call.afterAll start calls
    (site.store.branches.rows.map fun branch => (branch.id, branch.baseId, branch.latest)) =
        [("@b1", none, false), ("@b2", none, true), ("@b3", some "@b1", true)] ∧
      site.store.Staged (Call.foundsAll start calls) "p1" ∧
      site.store.Staged (Call.foundsAll start calls) "p2" := by
  intro start calls site
  have hallowed : Call.AreAllowed start calls :=
    ⟨trivial, trivial, trivial, trivial, trivial, trivial, trivial, trivial, trivial⟩
  obtain ⟨hstaged, -⟩ := branches_of_calls_staged (.ticking ⟨0, 0⟩) 10 10 {} hallowed
  exact ⟨by decide +kernel, hstaged "p1" (by decide +kernel), hstaged "p2" (by decide +kernel)⟩

end Site

end VersionedContent
