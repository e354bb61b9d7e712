import VersionedContent.Proofs.Store.Content

/-!
# The history of content

A container knows the one it succeeds and those that succeed it. `Entwined` says
that both sides agree and that no link leads to a container that is not stored,
`Historied` moreover that a container is younger than the one it succeeds. The
writes of the store keep them: a container without history is stored, a successor
is stored and linked, and one that is taken out has its neighbours joined.
-/

namespace VersionedContent.Store

variable {store : Store} {issued : Series}

/-- Links between containers agree and lead to stored containers. -/
structure Entwined (store : Store) : Prop where
  /-- A container succeeds another one exactly when that one knows of it. -/
  linked : ∀ id container other successor, store.container? id = some container →
    store.container? other = some successor →
      (other ∈ container.next ↔ successor.previous = some id)
  /-- What a container succeeds is stored. -/
  previous : ∀ id container before, store.container? id = some container →
    container.previous = some before → store.container? before ≠ none
  /-- What succeeds a container is stored. -/
  next : ∀ id container after, store.container? id = some container →
    after ∈ container.next → store.container? after ≠ none

/-- Links between containers agree, lead to stored containers, and lead back in time. -/
structure Historied (store : Store) (issued : Series) : Prop where
  /-- Identifiers are those that have been given out. -/
  fresh : ∀ id container, store.container? id = some container → issued.HasGiven id
  /-- A container succeeds another one exactly when that one knows of it. -/
  linked : ∀ id container other successor, store.container? id = some container →
    store.container? other = some successor →
      (other ∈ container.next ↔ successor.previous = some id)
  /-- What a container succeeds is stored. -/
  previous : ∀ id container before, store.container? id = some container →
    container.previous = some before → store.container? before ≠ none
  /-- What succeeds a container is stored. -/
  next : ∀ id container after, store.container? id = some container →
    after ∈ container.next → store.container? after ≠ none
  /-- A container is younger than the one it succeeds. -/
  younger : ∀ k container j, store.container? (issued.label k) = some container →
    container.previous = some (issued.label j) → j < k

/-- The links of a history agree. -/
theorem Historied.entwined (h : Historied store issued) : Entwined store :=
  ⟨h.linked, h.previous, h.next⟩

/-- A store without containers has no history. -/
theorem historied_of_slots_eq_nil (issued : Series) (hs : store.containers.slots = []) :
    Historied store issued := by
  have hnone (id : Id) : store.container? id = none := by
    rw [container?, Table.find?, Table.rows, hs, List.filterMap_nil, List.find?_nil]
  constructor <;> simp [hnone]

/-- Stores with the same containers have the same history. -/
theorem Historied.of_containers_eq {next : Store} (h : Historied store issued)
    (hc : next.containers = store.containers) : Historied next issued := by
  have hfound (id : Id) : next.container? id = store.container? id := by
    rw [container?, hc, container?]
  constructor <;> simp only [hfound]
  · exact h.fresh
  · exact h.linked
  · exact h.previous
  · exact h.next
  · exact h.younger

/-- The next identifier is that of no container. -/
theorem Historied.container?_label (h : Historied store issued) :
    store.container? issued.next = none := by
  cases hf : store.container? issued.next with
  | none => rfl
  | some container => exact absurd (h.fresh _ _ hf) issued.not_hasGiven_next

/-- No container succeeds itself. -/
theorem Historied.previous_ne (h : Historied store issued) {id : Id} {container : Container}
    (hf : store.container? id = some container) : container.previous ≠ some id := by
  intro hp
  obtain ⟨k, -, rfl⟩ := h.fresh id container hf
  exact Nat.lt_irrefl k (h.younger k container k hf hp)

/-- A container once another one has been stored: it is told of the other one when that one succeeds
it. -/
def succeededBy (added container : Container) : Container :=
  if added.previous = some container.id then
    { container with next := IdSet.insert container.next added.id }
  else container

/-- What a container succeeds stays when another one is stored. -/
theorem previous_succeededBy (added container : Container) :
    (succeededBy added container).previous = container.previous := by
  unfold succeededBy
  split <;> rfl

/-- What a container holds stays when another one is stored. -/
theorem unlinked_succeededBy (added container : Container) :
    (succeededBy added container).unlinked = container.unlinked := by
  unfold succeededBy
  split <;> rfl

/-- A container is succeeded by what it was, and by one that is stored to succeed it. -/
theorem mem_next_succeededBy {added container : Container} {id after : Id}
    (hf : store.container? id = some container) :
    after ∈ (succeededBy added container).next ↔
      (after = added.id ∧ added.previous = some id) ∨ after ∈ container.next := by
  rw [← id_of_container? hf]
  unfold succeededBy
  split_ifs with hp
  · rw [IdSet.mem_insert, and_iff_left hp]
  · rw [or_iff_right fun h => hp h.2]

/-- What is stored once another container has been stored. -/
theorem found_extend {added : Container} {next : Store}
    (hfound : ∀ id, next.container? id =
      if id = added.id then some added else (store.container? id).map (succeededBy added))
    {id : Id} {found : Container} (hf : next.container? id = some found) :
    (id = added.id ∧ found = added) ∨
      (id ≠ added.id ∧ ∃ before, store.container? id = some before ∧
        found = succeededBy added before) := by
  rw [hfound] at hf
  split_ifs at hf with hi
  · exact .inl ⟨hi, (Option.some.inj hf).symm⟩
  · obtain ⟨before, hb, he⟩ := Option.map_eq_some_iff.mp hf
    exact .inr ⟨hi, before, hb, he.symm⟩

/-- A new container that nothing succeeds can be stored, when what it succeeds is stored and told of
it. -/
theorem Entwined.extend (h : Entwined store) {added : Container}
    (hnone : store.container? added.id = none) (hn : added.next = [])
    (hp : ∀ id, added.previous = some id → store.container? id ≠ none) {next : Store}
    (hfound : ∀ id, next.container? id =
      if id = added.id then some added else (store.container? id).map (succeededBy added)) :
    Entwined next := by
  have hstored : ∀ id, store.container? id ≠ none → next.container? id ≠ none := by
    intro id hi
    rw [hfound]
    split_ifs <;> simp [hi]
  constructor
  · intro id found other follower hf ho
    rcases found_extend hfound hf with ⟨rfl, rfl⟩ | ⟨-, before, hb, rfl⟩
    · have hnot : follower.previous ≠ some found.id := by
        intro hs
        rcases found_extend hfound ho with ⟨-, rfl⟩ | ⟨-, old, hold, rfl⟩
        · exact hp _ hs hnone
        · exact h.previous other old _ hold (previous_succeededBy found old ▸ hs) hnone
      simp [hn, hnot]
    · rw [mem_next_succeededBy hb]
      rcases found_extend hfound ho with ⟨rfl, rfl⟩ | ⟨hne, old, hold, rfl⟩
      · have hnot : follower.id ∉ before.next := fun hm => h.next id before _ hb hm hnone
        simp [hnot]
      · rw [previous_succeededBy, ← h.linked id before other old hb hold]
        simp [hne]
  · intro id found before hf hb
    rcases found_extend hfound hf with ⟨rfl, rfl⟩ | ⟨-, old, hold, rfl⟩
    · exact hstored before (hp before hb)
    · exact hstored before (h.previous id old before hold (previous_succeededBy added old ▸ hb))
  · intro id found after hf ha
    rcases found_extend hfound hf with ⟨rfl, rfl⟩ | ⟨-, old, hold, rfl⟩
    · rw [hn] at ha
      cases ha
    · rcases (mem_next_succeededBy hold).mp ha with ⟨rfl, -⟩ | hm
      · simp [hfound]
      · exact hstored after (h.next id old after hold hm)

/-- A container that nothing succeeds can be stored under the next identifier, when what it
succeeds is stored and told of it. -/
theorem Historied.extend (h : Historied store issued) {added : Container}
    (hid : added.id = issued.next) (hn : added.next = [])
    (hp : ∀ id, added.previous = some id → store.container? id ≠ none) {next : Store}
    (hfound : ∀ id, next.container? id =
      if id = added.id then some added else (store.container? id).map (succeededBy added)) :
    Historied next (issued.advance 1) := by
  have hnone : store.container? added.id = none := hid ▸ h.container?_label
  obtain ⟨hlinked, hprevious, hnext⟩ := h.entwined.extend hnone hn hp hfound
  refine ⟨fun id found hf => ?_, hlinked, hprevious, hnext, fun k found j hf hb => ?_⟩
  · rcases found_extend hfound hf with ⟨rfl, -⟩ | ⟨-, before, hb, -⟩
    · exact hid ▸ issued.hasGiven_next
    · exact (h.fresh id before hb).advance 1
  · rcases found_extend hfound hf with ⟨hl, rfl⟩ | ⟨-, old, hold, rfl⟩
    · obtain rfl := issued.label_inj (hl.trans hid)
      obtain ⟨before, hbefore⟩ := Option.ne_none_iff_exists'.mp (hp _ hb)
      obtain ⟨i, hlt, hi⟩ := h.fresh _ before hbefore
      obtain rfl := issued.label_inj hi
      exact hlt
    · exact h.younger k old j hold (previous_succeededBy added old ▸ hb)

/-- What is stored once a container without history has been stored. -/
theorem container?_insert {container : Container} (hp : container.previous = none) {next : Store}
    (hc : next.containers = store.containers.insert container) (other : Id) :
    next.container? other =
      if other = container.id then some container
      else (store.container? other).map (succeededBy container) := by
  have hsame : succeededBy container = fun found => found := by
    funext found
    simp [succeededBy, hp]
  rw [hsame, Option.map_id', container?, hc, Table.find?_insert]
  rfl

/-- What is stored once a successor has been stored and linked. -/
theorem container?_commit {id : Id} {previous successor : Container}
    (hf : store.container? id = some previous) (hp : successor.previous = some id) {next : Store}
    (hc : next.containers = (store.containers.insert
      { previous with next := IdSet.insert previous.next successor.id }).insert successor)
    (other : Id) :
    next.container? other =
      if other = successor.id then some successor
      else (store.container? other).map (succeededBy successor) := by
  obtain rfl : previous.id = id := id_of_container? hf
  rw [container?, hc, Table.find?_insert, Table.find?_insert]
  refine if_congr Iff.rfl rfl ?_
  dsimp only
  split_ifs with hi
  · rw [hi, hf, Option.map_some, succeededBy, if_pos hp]
  · change store.container? other = _
    cases hfound : store.container? other with
    | none => rfl
    | some container =>
      have hne : successor.previous ≠ some container.id := by
        rw [hp, id_of_container? hfound]
        exact fun he => hi (Option.some.inj he).symm
      rw [Option.map_some, succeededBy, if_neg hne]

/-- A container without history can be stored under the next identifier. -/
theorem Historied.insert (h : Historied store issued) {container : Container}
    (hid : container.id = issued.next) (hp : container.previous = none)
    (hn : container.next = []) {next : Store}
    (hc : next.containers = store.containers.insert container) :
    Historied next (issued.advance 1) :=
  h.extend hid hn (by simp [hp]) (container?_insert hp hc)

/-- A successor can be stored under the next identifier. -/
theorem Historied.commit (h : Historied store issued) {id : Id} {previous successor : Container}
    (hf : store.container? id = some previous) (hid : successor.id = issued.next)
    (hp : successor.previous = some id) (hn : successor.next = []) {next : Store}
    (hc : next.containers = (store.containers.insert
      { previous with next := IdSet.insert previous.next successor.id }).insert successor) :
    Historied next (issued.advance 1) := by
  refine h.extend hid hn (fun other ho => ?_) (container?_commit hf hp hc)
  rw [← Option.some.inj (hp.symm.trans ho), hf]
  exact Option.some_ne_none previous

/-- What is stored once a container has been taken out. -/
theorem container?_splice_erase {id : Id} (removed : Container) {next : Store}
    (hc : next.containers = splice (store.containers.erase id) removed) (other : Id) :
    next.container? other =
      if other = id then none else (store.container? other).map (relinked removed) := by
  rw [container?, hc, find?_splice, Table.find?_erase]
  split_ifs <;> rfl

/-- A container that is left succeeds what it did, or what the one taken out succeeded. -/
theorem Entwined.previous_relinked (h : Entwined store) {id other : Id}
    {removed container : Container} (hr : store.container? id = some removed)
    (hf : store.container? other = some container) :
    (relinked removed container).previous =
      if container.previous = some id then removed.previous else container.previous := by
  have hlinked := h.linked id removed other container hr hf
  rw [← id_of_container? hf] at hlinked
  simp only [relinked, hlinked]

/-- A container that is left is succeeded by what it was, and by what succeeded the one taken out
when it was succeeded by that one. -/
theorem mem_next_relinked {id other after : Id} {removed container : Container}
    (hr : store.container? id = some removed) (hf : store.container? other = some container) :
    after ∈ (relinked removed container).next ↔
      if removed.previous = some other then
        (after ∈ container.next ∧ after ≠ id) ∨ after ∈ removed.next
      else after ∈ container.next := by
  rw [← id_of_container? hf, ← id_of_container? hr]
  unfold relinked
  dsimp only
  split_ifs with hp
  · rw [IdSet.mem_union, IdSet.mem_erase]
  · rfl

/-- What is left once a container has been taken out was there before. -/
theorem found_splice_erase {id : Id} {removed : Container} {next : Store}
    (hc : next.containers = splice (store.containers.erase id) removed) {other : Id}
    {found : Container} (hf : next.container? other = some found) :
    other ≠ id ∧
      ∃ before, store.container? other = some before ∧ found = relinked removed before := by
  rw [container?_splice_erase removed hc] at hf
  split_ifs at hf with hi
  obtain ⟨before, hb, he⟩ := Option.map_eq_some_iff.mp hf
  exact ⟨hi, before, hb, he.symm⟩

/-- A container that does not succeed itself can be taken out. -/
theorem Entwined.delete (h : Entwined store) {id : Id} {removed : Container}
    (hr : store.container? id = some removed) (hself : removed.previous ≠ some id) {next : Store}
    (hc : next.containers = splice (store.containers.erase id) removed) : Entwined next := by
  have hstored : ∀ other, other ≠ id → store.container? other ≠ none →
      next.container? other ≠ none := by
    intro other hi ho
    rw [container?_splice_erase removed hc, if_neg hi]
    simpa using ho
  constructor
  · intro a container b follower ha hb
    obtain ⟨hia, before, hbefore, rfl⟩ := found_splice_erase hc ha
    obtain ⟨hib, other, hother, rfl⟩ := found_splice_erase hc hb
    rw [mem_next_relinked hr hbefore, h.previous_relinked hr hother]
    have hab := h.linked a before b other hbefore hother
    have hxb := h.linked id removed b other hr hother
    by_cases hp : removed.previous = some a
    · rw [if_pos hp, hab, hxb]
      by_cases hs : other.previous = some id
      · simp [hs, hp]
      · simp [hs, hib]
    · rw [if_neg hp, hab]
      by_cases hs : other.previous = some id
      · simp [hs, hp, Ne.symm hia]
      · simp [hs]
  · intro other found before hf hb
    obtain ⟨-, old, ho, rfl⟩ := found_splice_erase hc hf
    rw [h.previous_relinked hr ho] at hb
    split_ifs at hb with hs
    · refine hstored before ?_ (h.previous id removed before hr hb)
      rintro rfl
      exact hself hb
    · refine hstored before ?_ (h.previous other old before ho hb)
      rintro rfl
      exact hs hb
  · intro other found after hf ha
    obtain ⟨hi, old, ho, rfl⟩ := found_splice_erase hc hf
    rw [mem_next_relinked hr ho] at ha
    split_ifs at ha with hp
    · rcases ha with ⟨ha, hne⟩ | ha
      · exact hstored after hne (h.next other old after ho ha)
      · refine hstored after ?_ (h.next id removed after hr ha)
        rintro rfl
        exact hself ((h.linked after removed after removed hr hr).mp ha)
    · refine hstored after ?_ (h.next other old after ho ha)
      rintro rfl
      exact hp ((h.linked other old after removed ho hr).mp ha)

/-- A container can be taken out. -/
theorem Historied.delete (h : Historied store issued) {id : Id} {removed : Container}
    (hr : store.container? id = some removed) {next : Store}
    (hc : next.containers = splice (store.containers.erase id) removed) :
    Historied next issued := by
  obtain ⟨hlinked, hprevious, hnext⟩ := h.entwined.delete hr (h.previous_ne hr) hc
  refine ⟨fun other found hf => ?_, hlinked, hprevious, hnext, fun k found j hf hb => ?_⟩
  · obtain ⟨-, before, hb, -⟩ := found_splice_erase hc hf
    exact h.fresh other before hb
  · obtain ⟨-, old, ho, rfl⟩ := found_splice_erase hc hf
    rw [h.entwined.previous_relinked hr ho] at hb
    split_ifs at hb with hs
    · obtain ⟨i, -, rfl⟩ := h.fresh id removed hr
      exact Nat.lt_trans (h.younger i removed j hr hb) (h.younger k old i ho hs)
    · exact h.younger k old j ho hb

end VersionedContent.Store
