import VersionedContent.Proofs.Schema.Compiled
import VersionedContent.Proofs.Store.Linear

/-!
# Drafts of versions

Editors take copies of versions, draft versions that follow them, and have the
drafts stored, each at a time of their own: meanwhile other editors store theirs.
The store takes a draft only where nothing has been stored yet, so that however
old the copies are, every chain stays linear and each version is followed once.
-/

namespace VersionedContent

/-- The table without rows. -/
def Table.empty {κ : Type} [DecidableEq κ] {α : Type} {key : α → κ} : Table α key := {}

namespace Store

/-- The store without records. -/
def empty : Store where
  versions := .empty
  branches := .empty
  jobs := {}
  containers := .empty
  edges := .empty

variable {store next : Store} {draft version : Version}

/-- Whether a version is stored as it is, but for the link to the one after it. -/
def Keeps (store : Store) (version : Version) : Prop :=
  ∃ stored ∈ store.versions.rows, stored.unlinked = version.unlinked

/-- Whether a draft is a first version or follows a stored one. -/
inductive Based (store : Store) (draft : Version) : Prop
  /-- It is a first version. -/
  | root (previous : draft.previous = none) (number : draft.number = 1) (next : draft.next = none)
  /-- It follows a stored version. -/
  | successor {base : Version} (kept : store.Keeps base) (previous : draft.previous = some base.id)
      (kind : draft.kind = base.kind) (name : draft.name = base.name)
      (number : draft.number = Version.nextNumber base.number) (next : draft.next = none)

/-- Whether a version is stored where a draft would come. -/
def Taken (store : Store) (draft : Version) : Prop :=
  ∃ version ∈ store.versions.rows, version.kind = draft.kind ∧ version.name = draft.name ∧
    version.previous = draft.previous

/-- Whether nothing that is stored is lost. -/
def Retains (store next : Store) : Prop := ∀ version ∈ store.versions.rows, next.Keeps version

/-- A stored version is stored as it is. -/
theorem keeps_of_mem (hm : version ∈ store.versions.rows) : store.Keeps version :=
  ⟨version, hm, rfl⟩

/-- What is the same but for the link has the same identifier, chain, number and predecessor. -/
theorem fields_of_unlinked_eq {other : Version} (h : version.unlinked = other.unlinked) :
    version.id = other.id ∧ version.kind = other.kind ∧ version.name = other.name ∧
      version.number = other.number ∧ version.previous = other.previous := by
  simp only [Version.unlinked, Version.mk.injEq] at h
  exact ⟨h.1, h.2.1, h.2.2.1, h.2.2.2.1, h.2.2.2.2.2.1⟩

/-- What a store keeps is kept where nothing is lost. -/
theorem Retains.keeps (h : Retains store next) (hv : store.Keeps version) : next.Keeps version := by
  obtain ⟨stored, hm, he⟩ := hv
  obtain ⟨kept, hkept, hsame⟩ := h stored hm
  exact ⟨kept, hkept, hsame.trans he⟩

/-- What a draft follows stays. -/
theorem Retains.based (h : Retains store next) (hb : Based store draft) : Based next draft := by
  cases hb with
  | root previous number link => exact .root previous number link
  | successor kept previous kind name number link =>
    exact .successor (h.keeps kept) previous kind name number link

/-- Drafts that follow one version would come at one place of its chain. -/
theorem Based.taken_iff {other : Version} (hb : Based store draft) (ho : Based store other)
    {id : Id} (hd : draft.previous = some id) (hp : other.previous = some id) :
    Taken store draft ↔ Taken store other := by
  cases hb with
  | root previous number link =>
    rw [previous] at hd
    cases hd
  | @successor copy kept previous kind name number link =>
    cases ho with
    | root previous' number' link' =>
      rw [previous'] at hp
      cases hp
    | @successor copy' kept' previous' kind' name' number' link' =>
      obtain ⟨base, hbase, hsame⟩ := kept
      obtain ⟨base', hbase', hsame'⟩ := kept'
      obtain ⟨hi, hk, hn, -, -⟩ := fields_of_unlinked_eq hsame
      obtain ⟨hi', hk', hn', -, -⟩ := fields_of_unlinked_eq hsame'
      have hid : copy.id = copy'.id := by
        rw [previous] at hd
        rw [previous'] at hp
        exact Option.some.inj (hd.trans hp.symm)
      obtain rfl := store.versions.eq_of_key_eq hbase hbase' (hi.trans (hid.trans hi'.symm))
      unfold Taken
      rw [kind, name, kind', name', hd, hp, ← hk, ← hn, ← hk', ← hn']

/-- A place that is taken stays taken. -/
theorem Retains.taken (h : Retains store next) (ht : Taken store draft) : Taken next draft := by
  obtain ⟨version, hm, hk, hn, hp⟩ := ht
  obtain ⟨kept, hkept, hsame⟩ := h version hm
  obtain ⟨-, hkind, hname, -, hprevious⟩ := fields_of_unlinked_eq hsame
  exact ⟨kept, hkept, hkind.trans hk, hname.trans hn, hprevious.trans hp⟩

section Joined

variable (hj : ∀ kind name, Version.Joined (store.chainVersions kind name))
include hj

/-- A first version has its place taken when its chain has begun. -/
theorem taken_iff_of_root (hp : draft.previous = none) :
    Taken store draft ↔ store.chainVersions draft.kind draft.name ≠ [] := by
  constructor
  · rintro ⟨version, hm, hk, hn, -⟩
    exact List.ne_nil_of_mem (mem_chainVersions.mpr ⟨hm, hk, hn⟩)
  · intro hne
    have hplace := List.getElem?_eq_getElem (List.length_pos_iff.mpr hne)
    obtain ⟨hrow, hk, hn⟩ := mem_chainVersions.mp (List.mem_of_getElem? hplace)
    exact ⟨_, hrow, hk, hn, ((hj draft.kind draft.name).first hplace).trans hp.symm⟩

/-- A version that would follow a stored one has its place taken when that one is linked. -/
theorem taken_iff_of_successor {base : Version} (hb : base ∈ store.versions.rows)
    (hp : draft.previous = some base.id) (hk : draft.kind = base.kind)
    (hn : draft.name = base.name) : Taken store draft ↔ base.next.isSome = true := by
  have hchain := hj base.kind base.name
  obtain ⟨i, hi⟩ := exists_getElem?_of_mem hb
  constructor
  · rintro ⟨version, hm, hvk, hvn, hvp⟩
    obtain ⟨j, hv⟩ := exists_getElem?_of_mem hm
    rw [hvk, hk, hvn, hn] at hv
    rw [hp] at hvp
    cases j with
    | zero =>
      rw [hchain.first hv] at hvp
      cases hvp
    | succ j =>
      rw [hchain.previous hv] at hvp
      obtain ⟨before, hbefore, hid⟩ := Option.map_eq_some_iff.mp hvp
      obtain ⟨hrow, -, -⟩ := mem_chainVersions.mp (List.mem_of_getElem? hbefore)
      obtain rfl := store.versions.eq_of_key_eq hrow hb hid
      rw [hchain.next hbefore, hv]
      rfl
  · intro hs
    rw [hchain.next hi, Option.isSome_map] at hs
    obtain ⟨version, hv⟩ := Option.isSome_iff_exists.mp hs
    obtain ⟨hrow, hvk, hvn⟩ := mem_chainVersions.mp (List.mem_of_getElem? hv)
    refine ⟨version, hrow, hvk.trans hk.symm, hvn.trans hn.symm, ?_⟩
    rw [hchain.previous hv, hi, hp]
    rfl

end Joined

/-- What a store makes of a draft that it takes. -/
structure Takes (store : Store) (draft : Version) (next : Store) : Prop where
  /-- Chains stay joined. -/
  joined : ∀ kind name, Version.Joined (next.chainVersions kind name)
  /-- Nothing is lost. -/
  retains : Retains store next
  /-- The draft is stored. -/
  stored : draft ∈ next.versions.rows
  /-- Nothing else is stored. -/
  keys : ∀ id ∈ next.versions.keys, id = draft.id ∨ id ∈ store.versions.keys

/-- A first version is taken where its chain has not begun. -/
theorem takes_root (hj : ∀ kind name, Version.Joined (store.chainVersions kind name))
    (hp : draft.previous = none) (hn : draft.number = 1) (hs : draft.next = none)
    (hid : draft.id ∉ store.versions.keys)
    (hc : store.chainVersions draft.kind draft.name = []) :
    Takes store draft { store with versions := store.versions.insert draft } where
  joined kind name := by
    rw [chainVersions_insert hid]
    split_ifs with hin
    · obtain ⟨rfl, rfl⟩ := Version.inChain_iff.mp hin
      rw [hc]
      exact Version.joined_singleton hn hp hs
    · rw [List.append_nil]
      exact hj kind name
  retains version hm := by
    have hne : version.id ≠ draft.id := fun he => hid (he ▸ Table.mem_keys hm)
    exact keeps_of_mem ((Table.mem_insert _ _ _).mpr (.inr ⟨hm, hne⟩))
  stored := (Table.mem_insert _ _ _).mpr (.inl rfl)
  keys id hm := Table.mem_keys_insert.mp hm

/-- A version is taken after a stored one that has none after it. -/
theorem takes_successor (hj : ∀ kind name, Version.Joined (store.chainVersions kind name))
    {base : Version} (hb : base ∈ store.versions.rows) (hl : base.next = none)
    (hp : draft.previous = some base.id) (hk : draft.kind = base.kind)
    (hm : draft.name = base.name) (hn : draft.number = Version.nextNumber base.number)
    (hs : draft.next = none) (hid : draft.id ∉ store.versions.keys) :
    Takes store draft { store with
      versions := (store.versions.insert { base with next := some draft.id }).insert draft } := by
  obtain ⟨i, hi⟩ := exists_getElem?_of_mem hb
  obtain ⟨init, hc⟩ : ∃ init, store.chainVersions base.kind base.name = init ++ [base] := by
    have hlast := (hj base.kind base.name).next hi
    rw [hl, eq_comm, Option.map_eq_none_iff, List.getElem?_eq_none_iff] at hlast
    obtain ⟨hlt, -⟩ := List.getElem?_eq_some_iff.mp hi
    refine List.getLast?_eq_some_iff.mp ?_
    rw [List.getLast?_eq_getElem?, ← hi]
    congr 1
    omega
  have hne : ∀ version ∈ store.versions.rows, version.id ≠ draft.id :=
    fun version hm he => hid (he ▸ Table.mem_keys hm)
  constructor
  · intro kind name
    rw [chainVersions_extend hc hid hk hm]
    split_ifs
    · have hbase := hj base.kind base.name
      rw [hc] at hbase
      exact hbase.concat hn hp hs
    · exact hj kind name
  · intro version hrow
    by_cases he : version.id = base.id
    · obtain rfl := store.versions.eq_of_key_eq hrow hb he
      exact ⟨_, (Table.mem_insert _ _ _).mpr
        (.inr ⟨(Table.mem_insert _ _ _).mpr (.inl rfl), hne version hrow⟩), rfl⟩
    · exact keeps_of_mem ((Table.mem_insert _ _ _).mpr
        (.inr ⟨(Table.mem_insert _ _ _).mpr (.inr ⟨hrow, he⟩), hne version hrow⟩))
  · exact (Table.mem_insert _ _ _).mpr (.inl rfl)
  · intro id hin
    rcases Table.mem_keys_insert.mp hin with rfl | hin
    · exact .inl rfl
    · rcases Table.mem_keys_insert.mp hin with rfl | hin
      · have hkey : base.id ∈ store.versions.keys := Table.mem_keys hb
        exact .inr hkey
      · exact .inr hin

/-- A draft is declined where a version is stored already, and taken otherwise. -/
theorem Based.outcome_appendVersion (hb : Based store draft)
    (hj : ∀ kind name, Version.Joined (store.chainVersions kind name))
    (hid : draft.id ∈ store.versions.keys → Taken store draft) :
    (Taken store draft ∧ outcome (appendVersion draft) store = (.ok false, store)) ∨
      (¬Taken store draft ∧ ∃ next, outcome (appendVersion draft) store = (.ok true, next) ∧
        Takes store draft next) := by
  cases hb with
  | root previous number link =>
    have ho := @outcome_appendVersion_of_root store _ previous
    have htaken := taken_iff_of_root hj previous
    by_cases hc : store.chainVersions draft.kind draft.name = []
    · have hfree : ¬Taken store draft := fun ht => htaken.mp ht hc
      rw [if_pos hc] at ho
      exact .inr ⟨hfree, _, ho, takes_root hj previous number link (fun hm => hfree (hid hm)) hc⟩
    · rw [if_neg hc] at ho
      exact .inl ⟨htaken.mpr hc, ho⟩
  | @successor copy kept previous kind name number link =>
    obtain ⟨base, hbase, hsame⟩ := kept
    obtain ⟨hi, hk, hn, hnumber, -⟩ := fields_of_unlinked_eq hsame
    rw [← hi] at previous
    rw [← hk] at kind
    rw [← hn] at name
    rw [← hnumber] at number
    have ho := @outcome_appendVersion_of_successor store _ _ previous
    rw [version?_eq_some_iff.mpr ⟨hbase, rfl⟩] at ho
    dsimp only at ho
    have htaken := taken_iff_of_successor hj hbase previous kind name
    by_cases hnext : base.next.isSome = true
    · rw [if_pos hnext] at ho
      exact .inl ⟨htaken.mpr hnext, ho⟩
    · have hfree : ¬Taken store draft := fun ht => hnext (htaken.mp ht)
      rw [if_neg hnext] at ho
      rw [Bool.not_eq_true, Option.isSome_eq_false_iff, Option.isNone_iff_eq_none] at hnext
      exact .inr ⟨hfree, _, ho, takes_successor hj hbase hnext previous kind name number link
        fun hm => hfree (hid hm)⟩

end Store

/-- What editors have done so far. -/
structure Drafting where
  /-- The store. -/
  store : Store := .empty
  /-- The copies that were taken, as the versions stood at the time. -/
  copies : List Version := []
  /-- The drafts that were made. -/
  drafts : List Version := []
  /-- The drafts that the store was asked to take, with its answers. -/
  attempts : List (Version × Except StoreFault Bool) := []

namespace Drafting

/-- What an editor may do. -/
inductive Move where
  /-- A copy is taken of a version, if it is stored. -/
  | copy (id : Id)
  /-- A first version is drafted. -/
  | start (createdAt : Instant) (kind : Kind) (definition : Definition)
  /-- A version is drafted that follows one of the copies, however old that is. -/
  | follow (place : Nat) (createdAt : Instant) (definition : Definition) (changes : List Change)
  /-- The store is asked to take one of the drafts. -/
  | append (place : Nat)

/-- What editors have done after one more move; each draft gets the next of the identifiers. -/
def Move.after (ids : Nat → Id) (state : Drafting) : Move → Drafting
  | copy id => { state with copies := state.copies ++ (state.store.version? id).toList }
  | start createdAt kind definition =>
    { state with drafts := state.drafts ++
        [Version.root (ids state.drafts.length) createdAt kind definition] }
  | follow place createdAt definition changes =>
    match state.copies[place]? with
    | none => state
    | some version =>
      { state with drafts := state.drafts ++
          [version.successor (ids state.drafts.length) createdAt definition changes] }
  | append place =>
    match state.drafts[place]? with
    | none => state
    | some draft =>
      { state with
        store := (outcome (Store.appendVersion draft) state.store).2
        attempts := state.attempts ++
          [(draft, (outcome (Store.appendVersion draft) state.store).1)] }

/-- What editors have done after some moves, made one after another from an empty store. -/
def afterAll (ids : Nat → Id) (moves : List Move) : Drafting :=
  moves.foldl (Move.after ids) {}

/-- What holds whatever editors have done. -/
structure Sound (ids : Nat → Id) (state : Drafting) : Prop where
  /-- Versions of one kind and name are joined. -/
  joined : ∀ kind name, Version.Joined (state.store.chainVersions kind name)
  /-- Whatever was copied is stored, if not with the same link. -/
  copied : ∀ copy ∈ state.copies, state.store.Keeps copy
  /-- Drafts are named in the order in which they were made. -/
  named : ∀ (place : Nat) draft, state.drafts[place]? = some draft → draft.id = ids place
  /-- Drafts are first versions, or follow stored ones. -/
  based : ∀ draft ∈ state.drafts, state.store.Based draft
  /-- Only drafts have been stored. -/
  known : ∀ id ∈ state.store.versions.keys, ∃ place < state.drafts.length, id = ids place
  /-- The place of a draft that has been stored is taken. -/
  placed : ∀ draft ∈ state.drafts, draft.id ∈ state.store.versions.keys → state.store.Taken draft
  /-- The store was asked to take drafts only. -/
  asked : ∀ attempt ∈ state.attempts, attempt.1 ∈ state.drafts
  /-- The place of a draft that the store took is taken. -/
  taken : ∀ attempt ∈ state.attempts, attempt.2 = .ok true → state.store.Taken attempt.1
  /-- Of two drafts that follow one version, the store took one at most. -/
  once : state.attempts.Pairwise fun a b => a.2 = .ok true → b.2 = .ok true →
    ∀ id, a.1.previous = some id → b.1.previous ≠ some id

/-- There is nothing to keep at first. -/
theorem sound_empty (ids : Nat → Id) : Sound ids {} where
  joined kind name := by
    constructor <;> simp [Store.chainVersions, Store.empty, Table.empty, Table.rows]
  copied := by simp
  named := by simp
  based := by simp
  known := by simp [Store.empty, Table.empty, Table.keys]
  placed := by simp
  asked := by simp
  taken := by simp
  once := .nil

variable {ids : Nat → Id} {state : Drafting}

/-- A further draft keeps everything in order. -/
theorem Sound.draft (hi : Function.Injective ids) (h : Sound ids state) {draft : Version}
    (hid : draft.id = ids state.drafts.length) (hb : state.store.Based draft) :
    Sound ids { state with drafts := state.drafts ++ [draft] } where
  joined := h.joined
  copied := h.copied
  named place other hp := by
    rcases Nat.lt_or_ge place state.drafts.length with hlt | hge
    · rw [List.getElem?_append_left hlt] at hp
      exact h.named place other hp
    · obtain ⟨hlt, hget⟩ := List.getElem?_eq_some_iff.mp hp
      obtain rfl : place = state.drafts.length := by
        rw [List.length_append, List.length_singleton] at hlt
        omega
      rw [← hget, List.getElem_concat_length rfl, hid]
  based other hm := by
    rcases List.mem_append.mp hm with hm | hm
    · exact h.based other hm
    · exact List.mem_singleton.mp hm ▸ hb
  known id hm := by
    obtain ⟨place, hlt, he⟩ := h.known id hm
    exact ⟨place, by rw [List.length_append]; omega, he⟩
  placed other hm hs := by
    rcases List.mem_append.mp hm with hm | hm
    · exact h.placed other hm hs
    · obtain rfl := List.mem_singleton.mp hm
      obtain ⟨place, hlt, he⟩ := h.known other.id hs
      exact absurd (hi (hid.symm.trans he)) (by omega)
  asked attempt hm := List.mem_append_left _ (h.asked attempt hm)
  taken := h.taken
  once := h.once

/-- The store has an answer for every draft. -/
theorem Sound.outcome_appendVersion (h : Sound ids state) {draft : Version}
    (hm : draft ∈ state.drafts) :
    (state.store.Taken draft ∧
        outcome (Store.appendVersion draft) state.store = (.ok false, state.store)) ∨
      (¬state.store.Taken draft ∧ ∃ next,
        outcome (Store.appendVersion draft) state.store = (.ok true, next) ∧
          state.store.Takes draft next) :=
  (h.based draft hm).outcome_appendVersion h.joined (h.placed draft hm)

/-- A draft that the store declines changes nothing but that it was declined. -/
theorem Sound.decline (h : Sound ids state) {draft : Version} (hm : draft ∈ state.drafts) :
    Sound ids { state with attempts := state.attempts ++ [(draft, .ok false)] } where
  joined := h.joined
  copied := h.copied
  named := h.named
  based := h.based
  known := h.known
  placed := h.placed
  asked attempt ha := by
    rcases List.mem_append.mp ha with ha | ha
    · exact h.asked attempt ha
    · rw [List.mem_singleton.mp ha]
      exact hm
  taken attempt ha hok := by
    rcases List.mem_append.mp ha with ha | ha
    · exact h.taken attempt ha hok
    · rw [List.mem_singleton.mp ha] at hok
      cases hok
  once := List.pairwise_append.mpr ⟨h.once, List.pairwise_singleton _ _, fun a _ b hb _ hok => by
    rw [List.mem_singleton.mp hb] at hok
    cases hok⟩

/-- A draft that the store takes, where nothing was stored, keeps everything in order. -/
theorem Sound.take (hi : Function.Injective ids) (h : Sound ids state) {draft : Version}
    (hm : draft ∈ state.drafts) (hfree : ¬state.store.Taken draft) {next : Store}
    (ht : state.store.Takes draft next) :
    Sound ids { state with
      store := next, attempts := state.attempts ++ [(draft, .ok true)] } where
  joined := ht.joined
  copied copy hc := ht.retains.keeps (h.copied copy hc)
  named := h.named
  based other ho := ht.retains.based (h.based other ho)
  known id hk := by
    rcases ht.keys id hk with rfl | hk
    · obtain ⟨place, hp⟩ := List.mem_iff_getElem?.mp hm
      obtain ⟨hlt, -⟩ := List.getElem?_eq_some_iff.mp hp
      exact ⟨place, hlt, h.named place draft hp⟩
    · exact h.known id hk
  placed other ho hk := by
    rcases ht.keys other.id hk with he | hk
    · obtain ⟨i, hother⟩ := List.mem_iff_getElem?.mp ho
      obtain ⟨j, hdraft⟩ := List.mem_iff_getElem?.mp hm
      obtain rfl : i = j :=
        hi ((h.named i other hother).symm.trans (he.trans (h.named j draft hdraft)))
      obtain rfl := Option.some.inj (hother.symm.trans hdraft)
      exact ⟨other, ht.stored, rfl, rfl, rfl⟩
    · exact ht.retains.taken (h.placed other ho hk)
  asked attempt ha := by
    rcases List.mem_append.mp ha with ha | ha
    · exact h.asked attempt ha
    · rw [List.mem_singleton.mp ha]
      exact hm
  taken attempt ha hok := by
    rcases List.mem_append.mp ha with ha | ha
    · exact ht.retains.taken (h.taken attempt ha hok)
    · rw [List.mem_singleton.mp ha]
      exact ⟨draft, ht.stored, rfl, rfl, rfl⟩
  once := by
    refine List.pairwise_append.mpr ⟨h.once, List.pairwise_singleton _ _, ?_⟩
    intro a ha b hb hok _ id hprevious
    rw [List.mem_singleton.mp hb]
    intro he
    have hplace := (h.based a.1 (h.asked a ha)).taken_iff (h.based draft hm) hprevious he
    exact hfree (hplace.mp (h.taken a ha hok))

/-- Every move keeps everything in order. -/
theorem Sound.after (hi : Function.Injective ids) (h : Sound ids state) (move : Move) :
    Sound ids (move.after ids state) := by
  cases move with
  | copy id =>
    refine { h with copied := fun copy hm => ?_ }
    rcases List.mem_append.mp hm with hm | hm
    · exact h.copied copy hm
    · have hfound := Option.mem_toList.mp hm
      exact Store.keeps_of_mem (Store.version?_eq_some_iff.mp hfound).1
  | start createdAt kind definition => exact h.draft hi rfl (.root rfl rfl rfl)
  | follow place createdAt definition changes =>
    simp only [Move.after]
    cases hc : state.copies[place]? with
    | none => exact h
    | some version =>
      have hbased : state.store.Based
          (version.successor (ids state.drafts.length) createdAt definition changes) :=
        .successor (h.copied version (List.mem_of_getElem? hc)) rfl rfl rfl rfl rfl
      exact h.draft hi rfl hbased
  | append place =>
    simp only [Move.after]
    cases hd : state.drafts[place]? with
    | none => exact h
    | some draft =>
      have hm := List.mem_of_getElem? hd
      dsimp only
      rcases h.outcome_appendVersion hm with ⟨-, ho⟩ | ⟨hfree, next, ho, ht⟩
      · rw [ho]
        exact h.decline hm
      · rw [ho]
        exact h.take hi hm hfree ht

/-- Everything is in order whatever editors have done. -/
theorem sound_afterAll (hi : Function.Injective ids) (moves : List Move) :
    Sound ids (afterAll ids moves) := by
  have hrun : ∀ state, Sound ids state → Sound ids (moves.foldl (Move.after ids) state) := by
    induction moves with
    | nil => exact fun _ h => h
    | cons move rest ih => exact fun state h => ih _ (h.after hi move)
  exact hrun {} (sound_empty ids)

/-- In whatever order editors take copies, draft versions and have them stored: chains that can be
numbered are linear, of the drafts that follow one version at most one has been taken, and a draft
is declined, and the store left as it is, exactly where a version is stored already. -/
theorem linear_taken_once (hi : Function.Injective ids) (moves : List Move) :
    (∀ kind name, (∃ version ∈ (afterAll ids moves).store.versions.rows,
        version.kind = kind ∧ version.name = name) →
      ((afterAll ids moves).store.chainVersions kind name).length < 4294967296 →
        (afterAll ids moves).store.Linear kind name
          ((afterAll ids moves).store.chainVersions kind name)) ∧
      ((afterAll ids moves).attempts.Pairwise fun a b => a.2 = .ok true → b.2 = .ok true →
        ∀ id, a.1.previous = some id → b.1.previous ≠ some id) ∧
      ∀ draft ∈ (afterAll ids moves).drafts,
        ((afterAll ids moves).store.Taken draft →
          outcome (Store.appendVersion draft) (afterAll ids moves).store =
            (.ok false, (afterAll ids moves).store)) ∧
        (¬(afterAll ids moves).store.Taken draft →
          ∃ next, outcome (Store.appendVersion draft) (afterAll ids moves).store =
            (.ok true, next) ∧ draft ∈ next.versions.rows) := by
  have h := sound_afterAll hi moves
  refine ⟨fun kind name hex hl => ?_, h.once, fun draft hm => ?_⟩
  · obtain ⟨version, hm, hk, hn⟩ := hex
    exact Store.linear_of_joined (h.joined kind name)
      (List.ne_nil_of_mem (Store.mem_chainVersions.mpr ⟨hm, hk, hn⟩)) hl
  · rcases h.outcome_appendVersion hm with ⟨ht, ho⟩ | ⟨hfree, next, ho, ht⟩
    · exact ⟨fun _ => ho, fun hnot => absurd ht hnot⟩
    · exact ⟨fun ht => absurd ht hfree, fun _ => ⟨next, ho, ht.stored⟩⟩

/-- Two editors follow one copy of an article. The first one asks twice, the second one too late,
and once more with the same old copy after the first one has followed its own version. -/
def race : List Move :=
  let article : Definition :=
    { name := "article", fields := [{ name := "title", type := .string }] }
  [.start ⟨0, 0⟩ .schema article, .append 0, .copy "@v1", .follow 0 ⟨1, 0⟩ article [],
    .follow 0 ⟨2, 0⟩ article [], .append 1, .append 1, .append 2, .copy "@v2",
    .follow 1 ⟨3, 0⟩ article [], .append 3, .follow 0 ⟨4, 0⟩ article [], .append 4]

/-- Of the race two drafts are left that follow the first version, one after the other. -/
theorem linear_taken_once_of_race :
    Function.Injective (label "v") ∧
      (afterAll (label "v") race).attempts.map (fun attempt => attempt.2.toOption) =
        [some true, some true, some false, some false, some true, some false] ∧
      ((afterAll (label "v") race).store.chainVersions .schema "article").map Version.id =
        ["@v1", "@v2", "@v4"] ∧
      (afterAll (label "v") race).store.Linear .schema "article"
        ((afterAll (label "v") race).store.chainVersions .schema "article") ∧
      (afterAll (label "v") race).attempts.Pairwise fun a b => a.2 = .ok true → b.2 = .ok true →
        ∀ id, a.1.previous = some id → b.1.previous ≠ some id := by
  have hinjective : Function.Injective (label "v") := fun _ _ => label_inj
  have hlength :
      ((afterAll (label "v") race).store.chainVersions .schema "article").length = 3 := by
    decide +kernel
  have hstored : ∃ version ∈ (afterAll (label "v") race).store.versions.rows,
      version.kind = .schema ∧ version.name = "article" := by decide +kernel
  obtain ⟨hlinear, honce, -⟩ := linear_taken_once hinjective race
  exact ⟨hinjective, by decide +kernel, by decide +kernel,
    hlinear .schema "article" hstored (by rw [hlength]; decide), honce⟩

end Drafting

end VersionedContent
