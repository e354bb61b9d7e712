import Mathlib.Data.List.Perm.Subperm
import VersionedContent.Proofs.Store.History

/-!
# Lineages

The lineage of a container is what it succeeds, what that one succeeds, and so
on. A store is pruned when containers have been taken out of it one by one: those
that are left hold what they held, and each succeeds the nearest one of its
lineage that is left.
-/

namespace VersionedContent.Store

variable {store origin : Store} {issued : Series}

/-- The containers met from one on by going to what each succeeds. -/
inductive Lineage (store : Store) : Option Id → List Id → Prop
  /-- A container that succeeds none is the last. -/
  | nil : Lineage store none []
  /-- A container comes before what it succeeds. -/
  | cons {id : Id} {container : Container} {rest : List Id}
      (found : store.container? id = some container)
      (back : Lineage store container.previous rest) : Lineage store (some id) (id :: rest)

/-- There is one lineage only. -/
theorem Lineage.unique {start : Option Id} {line other : List Id} (h : Lineage store start line)
    (ho : Lineage store start other) : line = other := by
  induction h generalizing other with
  | nil =>
    cases ho
    rfl
  | cons found _ ih =>
    cases ho with
    | cons found' rest' =>
      obtain rfl := Option.some.inj (found.symm.trans found')
      rw [ih rest']

/-- What is met is stored. -/
theorem Lineage.stored {start : Option Id} {line : List Id} (h : Lineage store start line) :
    ∀ id ∈ line, store.container? id ≠ none := by
  induction h with
  | nil => simp
  | cons found _ ih =>
    intro id hm
    rcases List.mem_cons.mp hm with rfl | hm
    · simp [found]
    · exact ih id hm

/-- From a container that is met the lineage goes on as its own. -/
theorem Lineage.of_append {start : Option Id} {before after : List Id} {id : Id}
    (h : Lineage store start (before ++ id :: after)) : Lineage store (some id) (id :: after) := by
  induction before generalizing start with
  | nil =>
    cases h with
    | cons found rest => exact .cons found rest
  | cons first rest ih =>
    cases h with
    | cons _ rest => exact ih rest

/-- Every stored container has a lineage. -/
theorem Historied.exists_lineage (h : Historied store issued) {start : Option Id}
    (hs : ∀ id, start = some id → store.container? id ≠ none) :
    ∃ line, Lineage store start line := by
  cases start with
  | none => exact ⟨[], .nil⟩
  | some id =>
    obtain ⟨container, hf⟩ := Option.ne_none_iff_exists'.mp (hs id rfl)
    clear hs
    obtain ⟨k, -, rfl⟩ := h.fresh id container hf
    induction k using Nat.strongRecOn generalizing container with
    | ind k ih =>
      cases hp : container.previous with
      | none => exact ⟨[issued.label k], .cons hf (hp ▸ Lineage.nil)⟩
      | some before =>
        have hstored := h.previous _ container before hf hp
        obtain ⟨other, ho⟩ := Option.ne_none_iff_exists'.mp hstored
        obtain ⟨j, -, rfl⟩ := h.fresh before other ho
        obtain ⟨line, hl⟩ := ih j (h.younger k container j hf hp) other ho
        exact ⟨_, .cons hf (hp ▸ hl)⟩

/-- What a container succeeds has a lineage. -/
theorem Historied.exists_lineage_previous (h : Historied store issued) {id : Id}
    {container : Container} (hf : store.container? id = some container) :
    ∃ line, Lineage store container.previous line :=
  h.exists_lineage fun before hb => h.previous id container before hf hb

/-- A lineage goes back in time. -/
theorem Historied.lineage_le (h : Historied store issued) {start : Option Id} {line : List Id}
    (hl : Lineage store start line) {k : Nat} (hs : start = some (issued.label k)) :
    ∀ id ∈ line, ∃ j ≤ k, id = issued.label j := by
  induction hl generalizing k with
  | nil => cases hs
  | @cons id container rest found hrest ih =>
    obtain rfl := Option.some.inj hs
    intro other hm
    rcases List.mem_cons.mp hm with rfl | hm
    · exact ⟨k, Nat.le_refl k, rfl⟩
    · cases hp : container.previous with
      | none =>
        rw [hp] at hrest
        cases hrest
        cases hm
      | some before =>
        obtain ⟨earlier, he⟩ := Option.ne_none_iff_exists'.mp (h.previous _ _ _ found hp)
        obtain ⟨j, -, rfl⟩ := h.fresh before earlier he
        obtain ⟨i, hi, hid⟩ := ih hp other hm
        exact ⟨i, Nat.le_trans hi (Nat.le_of_lt (h.younger k container j found hp)), hid⟩

/-- No container is met on the way from what it succeeds. -/
theorem Historied.notMem_lineage (h : Historied store issued) {id : Id} {container : Container}
    (hf : store.container? id = some container) {line : List Id}
    (hl : Lineage store container.previous line) : id ∉ line := by
  intro hm
  obtain ⟨k, -, rfl⟩ := h.fresh id container hf
  cases hp : container.previous with
  | none =>
    rw [hp] at hl
    cases hl
    cases hm
  | some before =>
    obtain ⟨earlier, he⟩ := Option.ne_none_iff_exists'.mp (h.previous _ _ _ hf hp)
    obtain ⟨j, -, rfl⟩ := h.fresh before earlier he
    obtain ⟨i, hi, hid⟩ := h.lineage_le hl hp _ hm
    have hlt := h.younger k container j hf hp
    obtain rfl := issued.label_inj hid
    omega

/-- No container is met twice. -/
theorem Historied.nodup_lineage (h : Historied store issued) {start : Option Id} {line : List Id}
    (hl : Lineage store start line) : line.Nodup := by
  induction hl with
  | nil => exact .nil
  | cons found hrest ih => exact List.nodup_cons.mpr ⟨h.notMem_lineage found hrest, ih⟩

/-- A lineage is no longer than the store is large. -/
theorem Historied.length_lineage_le (h : Historied store issued) {start : Option Id}
    {line : List Id} (hl : Lineage store start line) : line.length ≤ store.containers.size := by
  have hsub : line ⊆ store.containers.rows.map Container.id := by
    intro id hm
    obtain ⟨container, hf⟩ := Option.ne_none_iff_exists'.mp (hl.stored id hm)
    obtain ⟨hrow, rfl⟩ := store.containers.find?_eq_some_iff.mp hf
    exact List.mem_map_of_mem hrow
  have hle := (List.subperm_of_subset (h.nodup_lineage hl) hsub).length_le
  rwa [List.length_map] at hle

/-- Taking out a container takes it out of every lineage; what started at it starts at what it
succeeded. -/
theorem Entwined.lineage_delete (h : Entwined store) {id : Id} {removed : Container}
    (hr : store.container? id = some removed) {next : Store}
    (hc : next.containers = splice (store.containers.erase id) removed) {start : Option Id}
    {line : List Id} (hl : Lineage store start line) :
    Lineage next (if start = some id then removed.previous else start)
      (line.filter (· ≠ id)) := by
  induction hl with
  | nil => exact .nil
  | @cons other container rest found hrest ih =>
    by_cases ho : other = id
    · subst ho
      obtain rfl := Option.some.inj (found.symm.trans hr)
      rw [if_pos rfl, List.filter_cons_of_neg (by simp)]
      rwa [ite_self] at ih
    · have hnext : next.container? other = some (relinked removed container) := by
        rw [container?_splice_erase removed hc, if_neg ho, found, Option.map_some]
      rw [if_neg fun hs => ho (Option.some.inj hs), List.filter_cons_of_pos (by simpa using ho)]
      refine .cons hnext ?_
      rw [h.previous_relinked hr found]
      exact ih

/-- Taking out a container leaves the lineages that it is not part of. -/
theorem Entwined.lineage_delete_of_notMem (h : Entwined store) {id : Id} {removed : Container}
    (hr : store.container? id = some removed) {next : Store}
    (hc : next.containers = splice (store.containers.erase id) removed) {start : Option Id}
    {line : List Id} (hl : Lineage store start line) (hm : id ∉ line) :
    Lineage next start line := by
  have hline : line.filter (· ≠ id) = line :=
    List.filter_eq_self.mpr fun other ho => decide_eq_true fun he => hm (he ▸ ho)
  have hstart : start ≠ some id := by
    rintro rfl
    cases hl with
    | cons => exact hm List.mem_cons_self
  have hleft := h.lineage_delete hr hc hl
  rwa [if_neg hstart, hline] at hleft

/-- Whether a store is what is left of another one after containers that no edge points at were
taken out. -/
structure Pruned (origin store : Store) : Prop where
  /-- Nothing but containers has changed. -/
  aside : store = { origin with containers := store.containers }
  /-- What edges point at is left. -/
  held : ∀ edge ∈ origin.edges.rows, store.container? edge.containerId ≠ none
  /-- What is left holds what it held, and succeeds the nearest of its lineage that is left. -/
  kept : ∀ id container, store.container? id = some container →
    ∃ old, origin.container? id = some old ∧
      container.unlinked = old.unlinked ∧
      ∀ line, Lineage origin old.previous line →
        container.previous = line.find? store.containers.contains

/-- Containers that are found are stored. -/
theorem contains_eq_true_iff {id : Id} :
    store.containers.contains id = true ↔ store.container? id ≠ none := by
  rw [Table.contains, Option.isSome_iff_ne_none]
  rfl

/-- A store is left whole when nothing has been taken out. -/
theorem Pruned.refl (hh : ∀ key edge, store.edge? key = some edge →
    store.follows? edge.containerId ≠ none) : Pruned store store where
  aside := rfl
  held edge hm := by
    have hfollow := hh edge.key edge (store.edges.find?_eq_some_iff.mpr ⟨hm, rfl⟩)
    simpa [follows?] using hfollow
  kept id container hf := by
    refine ⟨container, hf, rfl, fun line hl => ?_⟩
    cases hp : container.previous with
    | none =>
      rw [hp] at hl
      cases hl
      rfl
    | some before =>
      rw [hp] at hl
      cases hl with
      | cons found rest =>
        have hstored : store.containers.contains before = true := by
          rw [contains_eq_true_iff, found]
          simp
        rw [List.find?_cons, hstored]

/-- The first that passes is the first that passes and is not another one. -/
theorem find?_and_ne {α : Type} [DecidableEq α] {p q : α → Bool} {a : α}
    (hq : ∀ b, q b = (decide (b ≠ a) && p b)) {list : List α} (hf : list.find? p ≠ some a) :
    list.find? q = list.find? p := by
  induction list with
  | nil => rfl
  | cons first rest ih =>
    rw [List.find?_cons] at hf ⊢
    rw [List.find?_cons, hq]
    cases hp : p first with
    | true =>
      rw [hp] at hf
      have hne : first ≠ a := fun he => hf (by simp [he])
      simp [hne]
    | false =>
      rw [hp] at hf
      simp only [Bool.and_false]
      exact ih hf

/-- Past the nearest of a lineage that passes, the nearest is that of its own lineage. -/
theorem Lineage.find?_past (ho : Historied origin issued) {start : Option Id} {line : List Id}
    (hl : Lineage origin start line) {id : Id} {container : Container}
    (hf : origin.container? id = some container) {behind : List Id}
    (hb : Lineage origin container.previous behind) {p q : Id → Bool}
    (hq : ∀ other, q other = (decide (other ≠ id) && p other)) (hp : line.find? p = some id) :
    line.find? q = behind.find? p := by
  obtain ⟨-, passed, after, rfl, hgone⟩ := List.find?_eq_some_iff_append.mp hp
  have hafter : after = behind := by
    have hmine := hl.of_append
    cases hmine with
    | cons found rest =>
      obtain rfl := Option.some.inj (found.symm.trans hf)
      exact rest.unique hb
  subst hafter
  have hpassed : passed.find? q = none := by
    refine List.find?_eq_none.mpr fun a ha => ?_
    have hnot := hgone a ha
    rw [hq]
    simp only [Bool.not_eq_true'] at hnot
    simp [hnot]
  rw [List.find?_append, hpassed, Option.none_or, List.find?_cons, hq]
  simp only [ne_eq, not_true_eq_false, decide_false, Bool.false_and]
  exact find?_and_ne hq fun hin => ho.notMem_lineage hf hb (List.mem_of_find?_eq_some hin)

/-- Once a container that no edge points at has been taken out, what is left is left of the origin
too. -/
theorem Pruned.delete (h : Pruned origin store) (ho : Historied origin issued)
    (hs : Historied store issued) {id : Id} {removed : Container}
    (hr : store.container? id = some removed) (hu : origin.isReferenced id = false) {next : Store}
    (hn : next = { store with containers := splice (store.containers.erase id) removed }) :
    Pruned origin next := by
  have hc : next.containers = splice (store.containers.erase id) removed := by rw [hn]
  have hfound := container?_splice_erase removed hc
  have hcontains (other : Id) : next.containers.contains other =
      (decide (other ≠ id) && store.containers.contains other) := by
    rw [Bool.eq_iff_iff, contains_eq_true_iff, Bool.and_eq_true, contains_eq_true_iff, hfound]
    by_cases he : other = id <;> simp [he]
  constructor
  · rw [hn]
    conv =>
      lhs
      rw [h.aside]
  · intro edge hm
    have hne : edge.containerId ≠ id := by
      rw [isReferenced, List.any_eq_false] at hu
      simpa using hu edge hm
    rw [hfound, if_neg hne]
    simpa using h.held edge hm
  · intro other container hf
    rw [hfound] at hf
    split_ifs at hf with hne
    obtain ⟨before, hb, rfl⟩ := Option.map_eq_some_iff.mp hf
    obtain ⟨old, hold, hsame, hprevious⟩ := h.kept other before hb
    refine ⟨old, hold, (unlinked_relinked removed before).trans hsame, fun line hl => ?_⟩
    have hnearest := hprevious line hl
    rw [hs.entwined.previous_relinked hr hb]
    by_cases hp : before.previous = some id
    · -- The nearest one is taken out: the next one is the nearest of its own lineage.
      obtain ⟨root, hroot, -, hbehind⟩ := h.kept id removed hr
      obtain ⟨behind, hbl⟩ := ho.exists_lineage_previous hroot
      rw [if_pos hp, hbehind behind hbl]
      exact (hl.find?_past ho hroot hbl hcontains (hnearest ▸ hp)).symm
    · rw [if_neg hp, hnearest]
      exact (find?_and_ne hcontains (hnearest ▸ hp)).symm

/-- What is left of a lineage is the lineage of the nearest one that is left. -/
theorem Pruned.lineage (h : Pruned origin store) {start : Option Id} {line : List Id}
    (hl : Lineage origin start line) :
    Lineage store (line.find? store.containers.contains)
      (line.filter store.containers.contains) := by
  induction hl with
  | nil => exact .nil
  | @cons id container rest found hrest ih =>
    rw [List.find?_cons, List.filter_cons]
    cases hs : store.containers.contains id with
    | false => exact ih
    | true =>
      obtain ⟨left, hleft⟩ := Option.ne_none_iff_exists'.mp (contains_eq_true_iff.mp hs)
      obtain ⟨old, hold, -, hprevious⟩ := h.kept id left hleft
      obtain rfl := Option.some.inj (found.symm.trans hold)
      refine .cons hleft ?_
      rw [hprevious rest hrest]
      exact ih

end VersionedContent.Store
