import Mathlib.Data.List.Chain
import Mathlib.Data.List.Induction
import VersionedContent.Proofs.Site.Registry

/-!
# Walks over any store

Nothing but the registry keeps the links of a store in order: they may lead nowhere, to versions
of other chains, or back. A walk over a chain ends all the same, because each version that it
passes is one that it will not pass again. How it ends says what the links are like: it has
passed a trail of distinct versions up to one without a link, or it names the first link that
leads nowhere, or the version that it came back to.
-/

namespace VersionedContent

namespace Store

variable {store : Store} {kind : Kind} {name : String}

/-- Whether the link of a version leads to another one. -/
def Links (store : Store) (before after : Version) : Prop :=
  before.next = some after.id ∧ store.version? after.id = some after

/-- Whether versions lie on the way from the first version of a chain, one after the other. -/
structure Trail (store : Store) (kind : Kind) (name : String) (passed : List Version) : Prop where
  /-- The way starts at the first version. -/
  first : ∀ version ∈ passed.head?, store.rootVersion? kind name = some version
  /-- Each version is the next of the one before. -/
  linked : passed.IsChain store.Links
  /-- No version lies on it twice. -/
  distinct : (passed.map Version.id).Nodup

/-- What the way from the first version of a chain comes to. -/
inductive ComesTo (store : Store) (kind : Kind) (name : String) :
    Except Failure (List Version) → Prop
  /-- It ends at a version without a link; without a first version there is no way. -/
  | complete {versions : List Version} (trail : store.Trail kind name versions)
      (ended : ∀ last ∈ versions.getLast?, last.next = none)
      (empty : versions = [] ↔ store.rootVersion? kind name = none) :
      ComesTo store kind name (.ok versions)
  /-- A link on it leads nowhere. -/
  | dangling {passed : List Version} {last : Version} {id : Id}
      (trail : store.Trail kind name (passed ++ [last])) (link : last.next = some id)
      (missing : store.version? id = none) :
      ComesTo store kind name (.error (.notFound "schema version" id))
  /-- A link on it leads back. -/
  | looping {passed : List Version} {last version : Version}
      (trail : store.Trail kind name (passed ++ [last])) (link : last.next = some version.id)
      (again : version ∈ passed ++ [last]) :
      ComesTo store kind name (.error (.execution (.chainLoops kind name version.number)))

namespace Trail

/-- What has not been passed lies on no trail. -/
theorem nil : store.Trail kind name [] := ⟨by simp, .nil, .nil⟩

/-- The beginning of a trail is one. -/
theorem of_append {front back : List Version} (h : store.Trail kind name (front ++ back)) :
    store.Trail kind name front where
  first version hv := h.first version (by rw [List.head?_append, hv, Option.some_or]; rfl)
  linked := h.linked.left_of_append
  distinct := by
    have hd := h.distinct
    rw [List.map_append] at hd
    exact hd.of_append_left

/-- A trail goes on to the version that comes next, if it has not been passed. -/
theorem concat {passed : List Version} {version : Version} (h : store.Trail kind name passed)
    (hfirst : passed = [] → store.rootVersion? kind name = some version)
    (hnext : ∀ last ∈ passed.getLast?, store.Links last version)
    (hfresh : version.id ∉ passed.map Version.id) :
    store.Trail kind name (passed ++ [version]) where
  first found hf := by
    cases passed with
    | nil => exact (hfirst rfl).trans hf
    | cons first rest => exact h.first found hf
  linked := h.linked.append (.singleton _) fun last hl next hn => by
    obtain rfl : version = next := by simpa using hn
    exact hnext last hl
  distinct := by
    rw [List.map_append, List.map_singleton, List.nodup_append]
    refine ⟨h.distinct, List.nodup_singleton _, fun id hid other ho he => hfresh ?_⟩
    rw [← List.mem_singleton.mp ho, ← he]
    exact hid

/-- A trail has a first version to start at. -/
theorem rootVersion?_ne_none {passed : List Version} {version : Version}
    (h : store.Trail kind name (passed ++ [version])) : store.rootVersion? kind name ≠ none := by
  cases passed with
  | nil => simp [h.first version rfl]
  | cons first rest => simp [h.first first rfl]

/-- The last version of a trail is the first one of the chain or the next of the one before. -/
theorem eq_root_or_links {passed : List Version} {version : Version}
    (h : store.Trail kind name (passed ++ [version])) :
    (passed = [] ∧ store.rootVersion? kind name = some version) ∨
      ∃ last ∈ passed.getLast?, store.Links last version := by
  rcases List.eq_nil_or_concat passed with rfl | ⟨front, last, rfl⟩
  · exact .inl ⟨rfl, h.first version rfl⟩
  · refine .inr ⟨last, by simp, ?_⟩
    exact (List.isChain_append.mp h.linked).2.2 last (by simp) version rfl

/-- The versions of a trail are stored. -/
theorem version?_eq {passed : List Version} (h : store.Trail kind name passed) :
    ∀ version ∈ passed, store.version? version.id = some version := by
  induction passed using List.reverseRecOn with
  | nil => simp
  | append_singleton passed last ih =>
    intro version hm
    rcases List.mem_append.mp hm with hm | hm
    · exact ih h.of_append version hm
    · obtain rfl := List.mem_singleton.mp hm
      rcases h.eq_root_or_links with ⟨-, hroot⟩ | ⟨before, -, -, hfound⟩
      · exact version?_of_mem_chainVersions (List.mem_of_find?_eq_some hroot)
      · exact hfound

/-- Of two trails of a chain the shorter one is the beginning of the longer one. -/
theorem isPrefix {passed more : List Version} (hp : store.Trail kind name passed)
    (hm : store.Trail kind name more) (hl : passed.length ≤ more.length) : passed <+: more := by
  induction passed using List.reverseRecOn with
  | nil => exact List.nil_prefix
  | append_singleton passed version ih =>
    rw [List.length_append, List.length_singleton] at hl
    obtain ⟨rest, rfl⟩ := ih hp.of_append (by omega)
    cases rest with
    | nil => simp at hl
    | cons other rest =>
      -- Both versions come next after the same ones, so they are one version.
      have ho : store.Trail kind name (passed ++ [other]) := by
        rw [List.append_cons] at hm
        exact hm.of_append
      obtain rfl : version = other := by
        rcases hp.eq_root_or_links with ⟨rfl, hroot⟩ | ⟨last, hlast, hnext, hfound⟩ <;>
          rcases ho.eq_root_or_links with ⟨he, hroot'⟩ | ⟨last', hlast', hnext', hfound'⟩
        · exact Option.some.inj (hroot.symm.trans hroot')
        · simp at hlast'
        · simp [he] at hlast
        · obtain rfl := Option.mem_unique hlast hlast'
          have hid := Option.some.inj (hnext.symm.trans hnext')
          exact Option.some.inj (hfound.symm.trans (hid ▸ hfound'))
      exact ⟨rest, by simp⟩

end Trail

/-- What is said of a way that leads no further than the versions that have been passed. -/
def conclusion (store : Store) (kind : Kind) (name : String) (passed : List Version) :
    Except Failure (List Version) :=
  match passed.getLast?.bind Version.next with
  | none => .ok passed
  | some id =>
    match store.version? id with
    | none => .error (.notFound "schema version" id)
    | some version => .error (.execution (.chainLoops kind name version.number))

/-- What a way comes to is said of the longest trail on it. -/
theorem ComesTo.exists_trail {answer : Except Failure (List Version)}
    (h : store.ComesTo kind name answer) : ∃ passed, store.Trail kind name passed ∧
      (∀ version, ¬ store.Trail kind name (passed ++ [version])) ∧
      answer = store.conclusion kind name passed := by
  cases h with
  | @complete versions trail ended empty =>
    have hend : versions.getLast?.bind Version.next = none :=
      Option.bind_eq_none_iff.mpr ended
    refine ⟨versions, trail, fun version hmore => ?_, by rw [conclusion, hend]⟩
    rcases hmore.eq_root_or_links with ⟨rfl, hroot⟩ | ⟨last, hlast, hnext, -⟩
    · rw [empty.mp rfl] at hroot
      cases hroot
    · rw [ended last hlast] at hnext
      cases hnext
  | @dangling passed last id trail link missing =>
    refine ⟨_, trail, fun version hmore => ?_, by simp [conclusion, link, missing]⟩
    rcases hmore.eq_root_or_links with ⟨hnil, -⟩ | ⟨before, hbefore, hnext, hfound⟩
    · simp at hnil
    · obtain rfl : last = before := by simpa using hbefore
      rw [← Option.some.inj (link.symm.trans hnext), missing] at hfound
      cases hfound
  | @looping passed last version trail link again =>
    have hfound := trail.version?_eq version again
    refine ⟨_, trail, fun other hmore => ?_, by simp [conclusion, link, hfound]⟩
    rcases hmore.eq_root_or_links with ⟨hnil, -⟩ | ⟨before, hbefore, hnext, -⟩
    · simp at hnil
    · obtain rfl : last = before := by simpa using hbefore
      have hid := Option.some.inj (link.symm.trans hnext)
      have hdistinct := hmore.distinct
      rw [List.map_append, List.map_singleton, List.nodup_append, ← hid] at hdistinct
      exact hdistinct.2.2 _ (List.mem_map_of_mem again) _ (List.mem_singleton_self _) rfl

/-- A way comes to one end. -/
theorem ComesTo.unique {answer other : Except Failure (List Version)}
    (ha : store.ComesTo kind name answer) (ho : store.ComesTo kind name other) :
    other = answer := by
  obtain ⟨passed, hp, hpmax, rfl⟩ := ha.exists_trail
  obtain ⟨more, hm, hmmax, rfl⟩ := ho.exists_trail
  have hmax {shorter longer : List Version} (hs : ∀ v, ¬ store.Trail kind name (shorter ++ [v]))
      (hl : store.Trail kind name longer) (hpre : shorter <+: longer) : shorter = longer := by
    obtain ⟨rest, rfl⟩ := hpre
    cases rest with
    | nil => rw [List.append_nil]
    | cons version rest =>
      rw [List.append_cons] at hl
      exact absurd hl.of_append (hs version)
  rcases Nat.le_total passed.length more.length with hle | hle
  · rw [hmax hpmax hm (hp.isPrefix hm hle)]
  · rw [hmax hmmax hp (hm.isPrefix hp hle)]

end Store

namespace ChainWalk

open VersionedContent.Action VersionedContent.Site

variable {site : Site} {store : Store} {kind : Kind} {name : String} {walk : ChainWalk}

/-- The next version of a walk over the chain in a store, and the walk after it. -/
def nextIn (walk : ChainWalk) (store : Store) : Except Failure (Option Version) × ChainWalk :=
  match walk.cursor with
  | .done => (.ok none, walk)
  | .start =>
    match store.rootVersion? walk.kind walk.name with
    | none => (.ok none, { walk with cursor := .done })
    | some version => walk.stepTo version
  | .at id =>
    match store.version? id with
    | none => (.error (.notFound "schema version" id), walk)
    | some version => walk.stepTo version

/-- While the store works, a walk asks it for the next version and changes nothing. -/
theorem outcome_next (h : site.outages = []) (walk : ChainWalk) :
    outcome walk.next site = (.ok (walk.nextIn site.store), site) := by
  unfold next nextIn
  cases walk.cursor with
  | done => rfl
  | start =>
    dsimp only
    rw [outcome_bind_of_ok (outcome_attempt _ _), outcome_rootVersion? h]
    cases site.store.rootVersion? walk.kind walk.name <;> rfl
  | «at» id =>
    dsimp only
    rw [outcome_bind_of_ok (outcome_query _ site)]
    cases site.store.version? id <;> rfl

/-- The versions that a walk has not seen. -/
def unseen (walk : ChainWalk) (store : Store) : List Version :=
  store.versions.rows.filter fun version => version.id ∉ walk.seen

/-- A version that a walk steps on to was not seen before. -/
theorem of_stepTo_eq_ok {version found : Version} {after : ChainWalk}
    (h : walk.stepTo version = (.ok (some found), after)) :
    found = version ∧ version.id ∉ walk.seen ∧ after.seen = version.id :: walk.seen := by
  unfold stepTo at h
  split at h
  · cases h
  · rename_i hfresh
    obtain ⟨hv, rfl⟩ := Prod.mk.inj h
    exact ⟨(Option.some.inj (Except.ok.inj hv)).symm, hfresh, rfl⟩

/-- With each version that a walk passes there are fewer that it has not seen. -/
theorem unseen_lt {version : Version} {after : ChainWalk}
    (h : walk.nextIn store = (.ok (some version), after)) :
    (after.unseen store).length < (walk.unseen store).length := by
  obtain ⟨hrow, hfresh, hseen⟩ : version ∈ store.versions.rows ∧ version.id ∉ walk.seen ∧
      after.seen = version.id :: walk.seen := by
    unfold nextIn at h
    split at h
    · cases h
    · split at h
      · cases h
      · rename_i root hroot
        obtain ⟨rfl, hstep⟩ := of_stepTo_eq_ok h
        exact ⟨(Store.mem_chainVersions.mp (List.mem_of_find?_eq_some hroot)).1, hstep⟩
    · split at h
      · cases h
      · rename_i found hfound
        obtain ⟨rfl, hstep⟩ := of_stepTo_eq_ok h
        exact ⟨(Store.version?_eq_some_iff.mp hfound).1, hstep⟩
  have hafter : after.unseen store =
      (walk.unseen store).filter fun other => other.id ≠ version.id := by
    rw [unseen, unseen, List.filter_filter, hseen]
    refine List.filter_congr fun other _ => ?_
    simp
  rw [hafter, List.length_filter_lt_length_iff_exists]
  exact ⟨version, List.mem_filter.mpr ⟨hrow, by simpa using hfresh⟩, by simp⟩

/-- No more versions are unseen than are stored. -/
theorem length_unseen_le : (walk.unseen store).length ≤ store.versions.size :=
  List.length_filter_le _ _

/-- A walk ends before it has taken more steps than there are versions that it has not seen: it
comes to the same if it may go further. -/
theorem outcome_collect_eq (h : site.outages = []) {fuel more : Nat}
    (hf : (walk.unseen site.store).length < fuel) (hm : (walk.unseen site.store).length < more)
    (passed : List Version) :
    outcome (walk.collect fuel passed) site = outcome (walk.collect more passed) site := by
  induction fuel generalizing more walk passed with
  | zero => omega
  | succ fuel ih =>
    obtain ⟨more, rfl⟩ := Nat.exists_eq_add_one_of_ne_zero (Nat.ne_zero_of_lt hm)
    rw [collect, collect, outcome_bind_of_ok (outcome_next h walk),
      outcome_bind_of_ok (outcome_next h walk)]
    rcases hn : walk.nextIn site.store with ⟨failure | none | version, after⟩
    · rfl
    · rfl
    · have hless := unseen_lt hn
      exact ih (by omega) (by omega) _

/-- Where a walk goes on that has passed certain versions. -/
def cursorPast (passed : List Version) : ChainCursor :=
  match passed.getLast? with
  | none => .start
  | some last =>
    match last.next with
    | none => .done
    | some id => .at id

/-- Whether a walk over a chain has passed certain versions. -/
structure HasPassed (walk : ChainWalk) (store : Store) (kind : Kind) (name : String)
    (passed : List Version) : Prop where
  /-- They lie on the way from the first version. -/
  trail : store.Trail kind name passed
  /-- The walk has seen just these. -/
  seen : ∀ id, id ∈ walk.seen ↔ id ∈ passed.map Version.id
  /-- It goes on after them. -/
  cursor : walk.cursor = cursorPast passed
  /-- It is over the chain. -/
  kind : walk.kind = kind
  /-- It is over the chain. -/
  name : walk.name = name

/-- What a walk that has ended says when it is to go on: a link that leads nowhere is named
again. -/
def again : Except Failure (List Version) → Except Failure (Option Version)
  | .error (.notFound what id) => .error (.notFound what id)
  | _ => .ok none

/-- Whether a walk over a chain has ended in a certain way. -/
structure HasEnded (walk : ChainWalk) (store : Store) (kind : Kind) (name : String)
    (answer : Except Failure (List Version)) : Prop where
  /-- The way from the first version comes to this. -/
  comesTo : store.ComesTo kind name answer
  /-- The walk goes no further. -/
  stays : walk.nextIn store = (again answer, walk)
  /-- It is over the chain. -/
  kind : walk.kind = kind
  /-- It is over the chain. -/
  name : walk.name = name

namespace HasPassed

variable {passed : List Version}

/-- A walk that starts has passed nothing. -/
theorem start : HasPassed { kind := kind, name := name } store kind name [] :=
  ⟨.nil, by simp, rfl, rfl, rfl⟩

/-- A walk looks for the first version, or follows the link of the last version it passed. -/
theorem nextIn_eq (hw : walk.HasPassed store kind name passed) :
    walk.nextIn store =
      match passed.getLast? with
      | none =>
        match store.rootVersion? kind name with
        | none => (.ok none, { walk with cursor := .done })
        | some version => walk.stepTo version
      | some last =>
        match last.next with
        | none => (.ok none, walk)
        | some id =>
          match store.version? id with
          | none => (.error (.notFound "schema version" id), walk)
          | some version => walk.stepTo version := by
  rw [nextIn, hw.cursor, cursorPast, hw.kind, hw.name]
  cases passed.getLast? with
  | none => rfl
  | some last =>
    dsimp only
    cases last.next <;> rfl

/-- A walk steps on to the version that comes next, or it ends because it has passed that one. -/
theorem stepTo (hw : walk.HasPassed store kind name passed) {version : Version}
    (hfirst : passed = [] → store.rootVersion? kind name = some version)
    (hnext : ∀ last ∈ passed.getLast?, store.Links last version) :
    (∃ after, walk.stepTo version = (.ok (some version), after) ∧
      after.HasPassed store kind name (passed ++ [version])) ∨
    ∃ failure after, walk.stepTo version = (.error failure, after) ∧
      after.HasEnded store kind name (.error failure) := by
  obtain rfl := hw.kind
  obtain rfl := hw.name
  unfold ChainWalk.stepTo
  by_cases hs : version.id ∈ walk.seen
  · obtain ⟨other, hother, hid⟩ := List.mem_map.mp ((hw.seen _).mp hs)
    rcases List.eq_nil_or_concat passed with rfl | ⟨front, last, rfl⟩
    · cases hother
    · rw [List.concat_eq_append] at hw hnext hother
      obtain ⟨hlink, hfound⟩ := hnext last (by simp)
      obtain rfl : other = version :=
        Option.some.inj ((hw.trail.version?_eq other hother).symm.trans (hid ▸ hfound))
      rw [if_pos hs]
      exact .inr ⟨_, _, rfl, .looping hw.trail hlink hother, rfl, rfl, rfl⟩
  · rw [if_neg hs]
    refine .inl ⟨_, rfl, ?_, fun id => ?_, ?_, rfl, rfl⟩
    · exact hw.trail.concat hfirst hnext fun hm => hs ((hw.seen _).mpr hm)
    · simp [hw.seen, or_comm]
    · simp only [cursorPast, List.getLast?_concat]
      cases version.next <;> rfl

/-- A walk goes on by a version, or it ends. -/
theorem next (hw : walk.HasPassed store kind name passed) :
    (∃ version after, walk.nextIn store = (.ok (some version), after) ∧
      after.HasPassed store kind name (passed ++ [version])) ∨
    (∃ after, walk.nextIn store = (.ok none, after) ∧
      after.HasEnded store kind name (.ok passed)) ∨
    ∃ failure after, walk.nextIn store = (.error failure, after) ∧
      after.HasEnded store kind name (.error failure) := by
  have hnext := hw.nextIn_eq
  rcases List.eq_nil_or_concat passed with rfl | ⟨front, last, rfl⟩
  · cases hroot : store.rootVersion? kind name with
    | none =>
      simp only [List.getLast?_nil, hroot] at hnext
      exact .inr (.inl
        ⟨_, hnext, .complete .nil (by simp) (by simp [hroot]), rfl, hw.kind, hw.name⟩)
    | some version =>
      simp only [List.getLast?_nil, hroot] at hnext
      rw [hnext]
      exact (hw.stepTo (fun _ => hroot) (by simp)).imp
        (fun ⟨after, hs⟩ => ⟨version, after, hs⟩) .inr
  · rw [List.concat_eq_append] at hw hnext ⊢
    rw [List.getLast?_concat] at hnext
    cases hlink : last.next with
    | none =>
      simp only [hlink] at hnext
      refine .inr (.inl ⟨walk, hnext, .complete hw.trail (by simp [hlink]) ?_, hnext, hw.kind,
        hw.name⟩)
      simp [hw.trail.rootVersion?_ne_none]
    | some id =>
      cases hfound : store.version? id with
      | none =>
        simp only [hlink, hfound] at hnext
        exact .inr (.inr ⟨_, walk, hnext, .dangling hw.trail hlink hfound, hnext, hw.kind, hw.name⟩)
      | some version =>
        simp only [hlink, hfound] at hnext
        obtain ⟨-, rfl⟩ := Store.version?_eq_some_iff.mp hfound
        rw [hnext]
        refine (hw.stepTo (by simp) fun before hb => ?_).imp
          (fun ⟨after, hs⟩ => ⟨version, after, hs⟩) .inr
        obtain rfl : last = before := by simpa using hb
        exact ⟨hlink, hfound⟩

/-- A walk that is taken on comes to the end of its way. -/
theorem collect (hw : walk.HasPassed site.store kind name passed) (h : site.outages = [])
    {fuel : Nat} (hf : (walk.unseen site.store).length < fuel) :
    ∃ answer after, outcome (walk.collect fuel passed) site = (.ok (answer, after), site) ∧
      after.HasEnded site.store kind name answer := by
  induction fuel generalizing walk passed with
  | zero => omega
  | succ fuel ih =>
    rw [ChainWalk.collect, outcome_bind_of_ok (outcome_next h walk)]
    rcases hw.next with ⟨version, after, hn, hon⟩ | ⟨after, hn, hend⟩ | ⟨failure, after, hn, hend⟩
    · have hless := unseen_lt hn
      rw [hn]
      exact ih hon (by omega)
    · rw [hn]
      exact ⟨_, after, rfl, hend⟩
    · rw [hn]
      exact ⟨_, after, rfl, hend⟩

end HasPassed

/-- Whatever a store holds, a walk over a chain that is taken on ends within as many steps as there
are versions and one more. It comes to what the way from the first version of the chain comes to:
all versions up to one without a link, the first link that leads nowhere, or the version that the
links lead back to. After a complete way and after a loop it has nothing more to say, and once it
is started again, wherever it stood, it comes to the same. -/
theorem collectAll_comesTo (h : site.outages = []) (kind : Kind) (name : String) :
    (∀ (walk : ChainWalk) (fuel : Nat), site.store.versions.size < fuel →
      outcome (walk.collect fuel []) site = outcome walk.collectAll site) ∧
    ∃ answer after,
      outcome (collectAll { kind := kind, name := name }) site = (.ok (answer, after), site) ∧
      (∀ other, site.store.ComesTo kind name other ↔ other = answer) ∧
      after.kind = kind ∧ after.name = name ∧
      outcome after.next site = (.ok (again answer, after), site) ∧
      ∀ walk : ChainWalk, walk.kind = kind → walk.name = name →
        outcome walk.restart.collectAll site = (.ok (answer, after), site) := by
  have hall (walk : ChainWalk) {fuel : Nat} (hf : site.store.versions.size < fuel) :
      outcome (walk.collect fuel []) site = outcome walk.collectAll site := by
    have hunseen : (walk.unseen site.store).length ≤ site.store.versions.size := length_unseen_le
    rw [collectAll, outcome_bind_of_ok (outcome_query _ site)]
    exact outcome_collect_eq h (by omega) (by omega) []
  have hstart : HasPassed { kind := kind, name := name } site.store kind name [] := .start
  obtain ⟨answer, after, ho, hend⟩ := hstart.collect h (Nat.lt_succ_of_le length_unseen_le)
  rw [hall _ (Nat.lt_succ_self _)] at ho
  refine ⟨fun walk fuel => hall walk, answer, after, ho, fun other => ?_, hend.kind, hend.name, ?_,
    ?_⟩
  · exact ⟨hend.comesTo.unique, fun he => he ▸ hend.comesTo⟩
  · rw [outcome_next h, hend.stays]
  · rintro ⟨_, _, cursor, seen⟩ rfl rfl
    exact ho

/-- An article whose third version links back to the second one is walked over up to there, again
and again. -/
theorem collectAll_of_loop :
    let article (id : Id) (number : Nat) (previous next : Option Id) : Version :=
      { id := id, kind := .schema, name := "article", number := number,
        definition := { name := "article", fields := [{ name := "title", type := .string }] },
        previous := previous, next := next, changes := [], createdAt := ⟨0, 0⟩ }
    let first := article "a" 1 none (some "b")
    let second := article "b" 2 (some "a") (some "c")
    let third := article "c" 3 (some "b") (some "b")
    let blank : Site := .empty (.ticking ⟨0, 0⟩) 10 10
    let site : Site := { blank with store := { blank.store with
      versions := ((blank.store.versions.insert third).insert second).insert first } }
    site.outages = [] ∧ ∃ after,
      outcome (collectAll { kind := .schema, name := "article" }) site =
        (.ok (.error (.execution (.chainLoops .schema "article" 2)), after), site) ∧
      outcome after.next site = (.ok (.ok none, after), site) ∧
      outcome after.restart.collectAll site =
        (.ok (.error (.execution (.chainLoops .schema "article" 2)), after), site) := by
  intro article first second third blank site
  obtain ⟨-, answer, after, ho, hcomes, hkind, hname, hnext, hagain⟩ :=
    @collectAll_comesTo site rfl .schema "article"
  have hroot : site.store.rootVersion? .schema "article" = some first := rfl
  have hsecond : site.store.version? "b" = some second := rfl
  have hthird : site.store.version? "c" = some third := rfl
  have hloop : site.store.ComesTo .schema "article"
      (.error (.execution (.chainLoops .schema "article" second.number))) := by
    refine @Store.ComesTo.looping _ _ _ [first, second] third _ ⟨?_, ?_, by decide⟩ rfl (by simp)
    · simp [hroot]
    · simp [Store.Links, hsecond, hthird, first, second, third, article]
  obtain rfl := (hcomes _).mp hloop
  exact ⟨rfl, after, ho, hnext, hagain after hkind hname⟩

end ChainWalk

end VersionedContent
