import VersionedContent.Proofs.Store.Chain

/-!
# Content in the store

What matters about content here is which schema version each container follows
and which container each edge points at. Every write to the content of a store is
described by what it does to these two. `Housed` says that edges point at stored
containers and that no identifier was used before it was given out; the writes
of the store keep it.
-/

namespace VersionedContent

/-- What a container holds, without its links. -/
def Container.unlinked (container : Container) : Container :=
  { container with previous := none, next := [] }

/-- Containers that hold the same differ in their links only. -/
theorem Container.eq_of_unlinked_eq {a b : Container} (h : a.unlinked = b.unlinked) :
    a = { b with previous := a.previous, next := a.next } := by
  obtain ⟨id, node, language, version, fields, previous, next, createdAt⟩ := a
  obtain ⟨id', node', language', version', fields', previous', next', createdAt'⟩ := b
  simp only [unlinked, Container.mk.injEq] at h ⊢
  tauto

namespace Store

variable {store : Store}

/-- The schema version that a stored container follows. -/
def follows? (store : Store) (id : Id) : Option Id :=
  (store.container? id).map Container.schemaVersionId

/-- The schema version that the container behind an edge follows. -/
def standing? (store : Store) (key : EdgeKey) : Option Id :=
  (store.edge? key).bind fun edge => store.follows? edge.containerId

/-- Edges point at stored containers, and containers have and follow what has been given out. -/
structure Housed (store : Store) (issued : Issued) : Prop where
  /-- An edge points at a stored container. -/
  held : ∀ key edge, store.edge? key = some edge → store.follows? edge.containerId ≠ none
  /-- Identifiers are those that have been given out. -/
  fresh : ∀ id version, store.follows? id = some version → issued.containers.HasGiven id
  /-- No container follows a version whose identifier is still to be given out. -/
  seen : ∀ id version, store.follows? id = some version → issued.versions.IsPast version

/-- An edge that is found has the key that it was looked up by. -/
theorem key_of_edge? {key : EdgeKey} {edge : Edge} (h : store.edge? key = some edge) :
    edge.key = key :=
  (store.edges.find?_eq_some_iff.mp h).2

/-- Edges stand where they did when the containers behind them follow what they did. -/
theorem standing?_eq {next : Store} (he : next.edges = store.edges)
    (hf : ∀ key edge, store.edge? key = some edge →
      next.follows? edge.containerId = store.follows? edge.containerId) (key : EdgeKey) :
    next.standing? key = store.standing? key := by
  have hkey : next.edge? key = store.edge? key := by rw [edge?, he, edge?]
  unfold standing?
  rw [hkey]
  cases hedge : store.edge? key with
  | none => rfl
  | some edge => exact hf key edge hedge

/-- A container that is found has the identifier that it was looked up by. -/
theorem id_of_container? {id : Id} {container : Container}
    (h : store.container? id = some container) : container.id = id :=
  (store.containers.find?_eq_some_iff.mp h).2

/-- A stored container follows a version. -/
theorem follows?_of_container? {id : Id} {container : Container}
    (h : store.container? id = some container) :
    store.follows? id = some container.schemaVersionId := by
  rw [follows?, h, Option.map_some]

/-- Only stored containers follow a version. -/
theorem follows?_eq_none_iff {id : Id} :
    store.follows? id = none ↔ store.containers.contains id = false := by
  rw [follows?, Option.map_eq_none_iff, Table.contains, Option.isSome_eq_false_iff,
    Option.isNone_iff_eq_none]
  rfl

/-- A stored container is followed as it was after it was stored. -/
theorem find?_insert_map_version (containers : Table Container Container.id) (row : Container)
    (id : Id) :
    ((containers.insert row).find? id).map Container.schemaVersionId =
      if id = row.id then some row.schemaVersionId
      else (containers.find? id).map Container.schemaVersionId := by
  rw [Table.find?_insert]
  by_cases h : id = row.id
  · simp [h]
  · simp [h]

/-- A container that is stored anew with other links is followed as before. -/
theorem find?_insert_links {containers : Table Container Container.id} (row old : Container)
    (hf : containers.find? old.id = some old) (hi : row.id = old.id)
    (hv : row.schemaVersionId = old.schemaVersionId) (id : Id) :
    ((containers.insert row).find? id).map Container.schemaVersionId =
      (containers.find? id).map Container.schemaVersionId := by
  rw [find?_insert_map_version]
  by_cases h : id = row.id
  · rw [if_pos h, h, hi, hf, Option.map_some, hv]
  · rw [if_neg h]

/-- Changing one container in place changes no other one. -/
private theorem find?_update (containers : Table Container Container.id)
    {f : Container → Container} (hf : ∀ container, (f container).id = container.id) (k id : Id) :
    Table.find? (match containers.find? k with
      | none => containers
      | some container => containers.insert (f container)) id =
      (containers.find? id).map fun container => if id = k then f container else container := by
  by_cases hid : id = k
  · subst hid
    cases hfound : containers.find? id with
    | none => simp [hfound]
    | some container =>
      have hkey := (containers.find?_eq_some_iff.mp hfound).2
      simp [Table.find?_insert, hf, hkey]
  · simp only [hid, if_false, Option.map_id']
    cases hfound : containers.find? k with
    | none => rfl
    | some container =>
      have hkey := (containers.find?_eq_some_iff.mp hfound).2
      dsimp only
      rw [Table.find?_insert, hf, hkey, if_neg hid]

/-- A container after another one has been taken out of its history: it succeeds what that one
succeeded, or is succeeded by what succeeded that one. -/
def relinked (removed container : Container) : Container :=
  { container with
    previous := if container.id ∈ removed.next then removed.previous else container.previous
    next := if removed.previous = some container.id then
        IdSet.union (IdSet.erase container.next removed.id) removed.next
      else container.next }

/-- Only links change when another container has been taken out. -/
@[simp] theorem unlinked_relinked (removed container : Container) :
    (relinked removed container).unlinked = container.unlinked := rfl

/-- Joining the neighbours of a removed container relinks each container, and changes nothing
else. -/
theorem find?_splice (containers : Table Container Container.id) (removed : Container) (id : Id) :
    (splice containers removed).find? id = (containers.find? id).map (relinked removed) := by
  have hsuccessors : ∀ (ids : IdSet) (table : Table Container Container.id),
      (ids.foldl (fun table other =>
        match table.find? other with
        | none => table
        | some next => table.insert { next with previous := removed.previous }) table).find? id =
        (table.find? id).map fun container =>
          { container with
            previous := if id ∈ ids then removed.previous else container.previous } := by
    intro ids
    induction ids with
    | nil => simp
    | cons first rest ih =>
      intro table
      rw [List.foldl_cons, ih, find?_update table (f := fun next =>
        { next with previous := removed.previous }) (fun _ => rfl), Option.map_map]
      congr 1
      funext container
      by_cases hfirst : id = first <;> by_cases hrest : id ∈ rest <;> simp [hfirst, hrest]
  have hpredecessor : Table.find? (match removed.previous.bind containers.find? with
      | none => containers
      | some previous => containers.insert { previous with
          next := IdSet.union (IdSet.erase previous.next removed.id) removed.next }) id =
        (containers.find? id).map fun container =>
          { container with
            next := if removed.previous = some id then
                IdSet.union (IdSet.erase container.next removed.id) removed.next
              else container.next } := by
    cases removed.previous with
    | none => simp
    | some previous =>
      refine (find?_update containers (f := fun container => { container with
        next := IdSet.union (IdSet.erase container.next removed.id) removed.next })
          (fun _ => rfl) previous id).trans ?_
      congr 1
      funext container
      by_cases hid : id = previous
      · simp [hid]
      · simp [hid, Ne.symm hid]
  unfold splice
  refine (hsuccessors removed.next _).trans ((congrArg (Option.map _) hpredecessor).trans ?_)
  rw [Option.map_map]
  cases hfound : containers.find? id with
  | none => rfl
  | some container =>
    obtain rfl := (containers.find?_eq_some_iff.mp hfound).2
    rfl

/-- Joining the neighbours of a removed container leaves the version that each one follows. -/
theorem find?_splice_map_version (containers : Table Container Container.id)
    (removed : Container) (id : Id) :
    ((splice containers removed).find? id).map Container.schemaVersionId =
      (containers.find? id).map Container.schemaVersionId := by
  rw [find?_splice, Option.map_map]
  rfl

/-- A store after an edge has been turned to a new container, to which what it succeeds is
linked. -/
def committed (store : Store) (edge : Edge) (previous successor : Container) : Store :=
  { store with
    containers := (store.containers.insert
      { previous with next := IdSet.insert previous.next successor.id }).insert successor
    edges := store.edges.insert { edge with containerId := successor.id } }

/-- The containers after a commit. -/
theorem container?_committed {edge : Edge} {previous successor : Container} (id : Id) :
    (store.committed edge previous successor).container? id =
      if id = successor.id then some successor
      else if id = previous.id then
        some { previous with next := IdSet.insert previous.next successor.id }
      else store.container? id := by
  refine (Table.find?_insert _ _ _).trans ?_
  rw [Table.find?_insert]
  rfl

/-- The edges after a commit. -/
theorem edge?_committed {edge : Edge} {previous successor : Container} (key : EdgeKey) :
    (store.committed edge previous successor).edge? key =
      if key = edge.key then some { edge with containerId := successor.id } else store.edge? key :=
  store.edges.find?_insert { edge with containerId := successor.id } key

/-- Storing an edge. -/
theorem outcome_setEdge (edge : Edge) (store : Store) :
    outcome (setEdge edge) store =
      if store.containers.contains edge.containerId then
        (.ok ⟨⟩, { store with edges := store.edges.insert edge })
      else (.error (.containerMissing edge.containerId), store) := by
  unfold setEdge
  rw [outcome_bind, outcome_get]
  by_cases h : store.containers.contains edge.containerId = true <;> simp [h]

/-- Storing a successor either links it and turns the edge to it, or changes nothing. -/
theorem outcome_commitSuccessor (key : EdgeKey) (successor : Container) (store : Store) :
    (∃ answer, answer ≠ .ok true ∧
      outcome (commitSuccessor key successor) store = (answer, store)) ∨
      ∃ edge previous, store.edge? key = some edge ∧
        store.container? edge.containerId = some previous ∧
        successor.previous = some edge.containerId ∧ store.follows? successor.id = none ∧
        outcome (commitSuccessor key successor) store =
          (.ok true, store.committed edge previous successor) := by
  unfold commitSuccessor
  rw [outcome_bind, outcome_get]
  dsimp only
  cases hp : successor.previous with
  | none => exact .inl ⟨_, by simp, rfl⟩
  | some previousId =>
    dsimp only
    cases he : store.edge? key with
    | none => exact .inl ⟨_, by simp, rfl⟩
    | some edge =>
      dsimp only
      by_cases hc : edge.containerId = previousId
      · subst hc
        by_cases hs : store.containers.contains successor.id = true
        · refine .inl ⟨.error (.containerPresent successor.id), by simp, ?_⟩
          simp [hs]
        · cases hf : store.container? edge.containerId with
          | none =>
            refine .inl ⟨.error (.containerMissing edge.containerId), by simp, ?_⟩
            simp [hs]
          | some previous =>
            refine .inr ⟨edge, previous, rfl, hf, rfl, ?_, ?_⟩
            · rw [follows?_eq_none_iff]
              simpa using hs
            · simp [hs, Except.map, committed]
      · refine .inl ⟨.ok false, by simp, ?_⟩
        simp [hc]

/-- A new successor of what an edge points at is stored, linked, and the edge turned to it. -/
theorem outcome_commitSuccessor_eq (successor : Container) {key : EdgeKey} {edge : Edge}
    {previous : Container} (he : store.edge? key = some edge)
    (hp : store.container? edge.containerId = some previous)
    (hs : successor.previous = some edge.containerId)
    (hn : store.container? successor.id = none) :
    outcome (commitSuccessor key successor) store =
      (.ok true, store.committed edge previous successor) := by
  have hnew : store.containers.contains successor.id = false := by
    rw [← follows?_eq_none_iff, follows?, hn, Option.map_none]
  unfold commitSuccessor
  rw [outcome_bind_of_ok (outcome_get _), hs]
  simp [he, hp, hnew, Except.map, committed]

/-- Taking a container out joins its neighbours, when it is stored and no edge points at it. -/
theorem outcome_deleteContainerVersion (id : Id) (store : Store) :
    outcome (deleteContainerVersion id) store =
      if store.isReferenced id then (.error (.stillReferenced id), store)
      else
        match store.container? id with
        | none => (.ok false, store)
        | some removed =>
          (.ok true, { store with
            containers := splice (store.containers.erase id) removed }) := by
  unfold deleteContainerVersion
  rw [outcome_bind, outcome_get]
  by_cases hr : store.isReferenced id = true
  · simp [hr]
  · cases hf : store.container? id <;> simp [hr, hf, Except.map]

/-- A new container can be stored under the next identifier. -/
theorem Housed.insertContainer {issued : Issued} (h : Housed store issued) {container : Container}
    (hid : container.id = issued.containers.next)
    (hv : issued.versions.IsPast container.schemaVersionId) :
    Housed { store with containers := store.containers.insert container }
      { issued with containers := issued.containers.advance 1 } ∧
    ∀ key, standing? { store with containers := store.containers.insert container } key =
      store.standing? key := by
  have hf (id : Id) : follows? { store with containers := store.containers.insert container } id =
      if id = container.id then some container.schemaVersionId else store.follows? id :=
    find?_insert_map_version store.containers container id
  have hnew : ∀ key edge, store.edge? key = some edge → edge.containerId ≠ container.id := by
    intro key edge he hc
    obtain ⟨version, hv⟩ := Option.ne_none_iff_exists'.mp (h.held key edge he)
    have hgiven := h.fresh _ _ hv
    rw [hc, hid] at hgiven
    exact issued.containers.not_hasGiven_next hgiven
  constructor
  · constructor
    · intro key edge he
      rw [hf, if_neg (hnew key edge he)]
      exact h.held key edge he
    · intro id version hfollow
      rw [hf] at hfollow
      split_ifs at hfollow with hi
      · rw [hi, hid]
        exact issued.containers.hasGiven_next
      · exact (h.fresh id version hfollow).advance 1
    · intro id version hfollow
      rw [hf] at hfollow
      split_ifs at hfollow with hi
      · obtain rfl := Option.some.inj hfollow
        exact hv
      · exact h.seen id version hfollow
  · refine standing?_eq rfl fun key edge he => ?_
    rw [hf, if_neg (hnew key edge he)]

/-- An edge to a stored container can be stored. -/
theorem Housed.setEdge {issued : Issued} (h : Housed store issued) {edge : Edge}
    (hc : store.follows? edge.containerId ≠ none) :
    Housed { store with edges := store.edges.insert edge } issued ∧
    ∀ key, standing? { store with edges := store.edges.insert edge } key =
      if key = edge.key then store.follows? edge.containerId else store.standing? key := by
  have he (key : EdgeKey) : edge? { store with edges := store.edges.insert edge } key =
      if key = edge.key then some edge else store.edge? key :=
    store.edges.find?_insert edge key
  constructor
  · constructor
    · intro key other ho
      rw [he] at ho
      split_ifs at ho with hk
      · obtain rfl := Option.some.inj ho
        exact hc
      · exact h.held key other ho
    · exact h.fresh
    · exact h.seen
  · intro key
    unfold standing?
    rw [he]
    by_cases hk : key = edge.key
    · rw [if_pos hk, if_pos hk]
      rfl
    · rw [if_neg hk, if_neg hk]
      rfl

/-- A successor can be stored under the next identifier; the one edge then stands where it does. -/
theorem Housed.commitSuccessor {issued : Issued} (h : Housed store issued) {key : EdgeKey}
    {edge : Edge} {previous successor : Container} (he : store.edge? key = some edge)
    (hp : store.container? edge.containerId = some previous)
    (hid : successor.id = issued.containers.next)
    (hv : issued.versions.IsPast successor.schemaVersionId) :
    Housed (store.committed edge previous successor)
      { issued with containers := issued.containers.advance 1 } ∧
    ∀ other, (store.committed edge previous successor).standing? other =
      if other = key then some successor.schemaVersionId else store.standing? other := by
  obtain ⟨linked, hlinked⟩ : ∃ linked : Container, linked =
    { previous with next := IdSet.insert previous.next successor.id } := ⟨_, rfl⟩
  have hsame (id : Id) : follows? { store with containers := store.containers.insert linked } id =
      store.follows? id :=
    find?_insert_links linked previous (by rw [id_of_container? hp]; exact hp) (by rw [hlinked])
      (by rw [hlinked]) id
  have hrelinked : Housed { store with containers := store.containers.insert linked } issued := {
    held := fun other found ho => by
      rw [hsame]
      exact h.held other found ho
    fresh := fun id version hf => h.fresh id version (hsame id ▸ hf)
    seen := fun id version hf => h.seen id version (hsame id ▸ hf) }
  have hstay := @standing?_eq store { store with containers := store.containers.insert linked } rfl
    fun _ found _ => hsame found.containerId
  obtain ⟨hnew, hstand⟩ := hrelinked.insertContainer hid hv
  have hstored : follows? { store with
      containers := (store.containers.insert linked).insert successor } successor.id =
        some successor.schemaVersionId := by
    refine (find?_insert_map_version _ successor successor.id).trans ?_
    rw [if_pos rfl]
  obtain ⟨hset, hturn⟩ := @Housed.setEdge _ _ hnew { edge with containerId := successor.id } (by
    rw [hstored]
    exact Option.some_ne_none successor.schemaVersionId)
  have hkey := key_of_edge? he
  have hedge : ({ edge with containerId := successor.id } : Edge).key = key := hkey
  rw [committed, ← hlinked]
  refine ⟨hset, fun other => ?_⟩
  rw [hturn, hstored, hstand, hedge]
  by_cases ho : other = key
  · rw [if_pos ho, if_pos ho]
  · rw [if_neg ho, if_neg ho]
    exact hstay other

/-- A container that no edge points at can be taken out. -/
theorem Housed.deleteContainerVersion {issued : Issued} (h : Housed store issued) {id : Id}
    (removed : Container) (hr : store.isReferenced id = false) :
    Housed { store with containers := splice (store.containers.erase id) removed } issued ∧
    ∀ key, standing? { store with containers := splice (store.containers.erase id) removed } key =
      store.standing? key := by
  have hf (other : Id) : follows? { store with
      containers := splice (store.containers.erase id) removed } other =
        if other = id then none else store.follows? other := by
    refine (find?_splice_map_version _ removed other).trans ?_
    rw [Table.find?_erase]
    by_cases ho : other = id
    · rw [if_pos ho, if_pos ho]
      rfl
    · rw [if_neg ho, if_neg ho]
      rfl
  have hne : ∀ key edge, store.edge? key = some edge → edge.containerId ≠ id := by
    intro key edge he hc
    have hm := (store.edges.find?_eq_some_iff.mp he).1
    rw [isReferenced, List.any_eq_false] at hr
    exact hr edge hm (by simpa using hc)
  constructor
  · constructor
    · intro key edge he
      rw [hf, if_neg (hne key edge he)]
      exact h.held key edge he
    · intro other version hfollow
      rw [hf] at hfollow
      split_ifs at hfollow
      exact h.fresh other version hfollow
    · intro other version hfollow
      rw [hf] at hfollow
      split_ifs at hfollow
      exact h.seen other version hfollow
  · refine standing?_eq rfl fun key edge he => ?_
    rw [hf, if_neg (hne key edge he)]

end Store

end VersionedContent
