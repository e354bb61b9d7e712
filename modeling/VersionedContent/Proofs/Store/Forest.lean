import VersionedContent.Proofs.Store.Lineage

/-!
# The forest of containers

Stored containers form a forest: each is reached from the one that it succeeds, and
going back from any of them comes to an end. Here the store is used directly. A
caller stores new containers and edges, keeps containers that it has read, for as
long as it likes, makes successors of them, offers these to the store in any
order, and takes containers out. Identifiers are any, as long as none is used
twice.
-/

namespace VersionedContent.Store

variable {store next : Store} {id : Id}

/-- Containers form a forest in which trees are of one node and language, and edges lead into it. -/
structure Forest (store : Store) : Prop extends Entwined store where
  /-- An edge points at a stored container. -/
  held : ∀ key edge, store.edge? key = some edge → store.container? edge.containerId ≠ none
  /-- Going back from a container comes to an end. -/
  ends : ∀ id container, store.container? id = some container →
    ∃ line, Lineage store container.previous line
  /-- A container has the node and the language of the one that it succeeds. -/
  alike : ∀ id container before other, store.container? id = some container →
    container.previous = some before → store.container? before = some other →
      container.nodeId = other.nodeId ∧ container.language = other.language

/-- A store without content is a forest. -/
theorem forest_of_rows_eq_nil (hc : store.containers.rows = []) (he : store.edges.rows = []) :
    Forest store := by
  have hnone (id : Id) : store.container? id = none := by
    rw [container?, Table.find?, hc, List.find?_nil]
  have hvacant (key : EdgeKey) : store.edge? key = none := by
    rw [edge?, Table.find?, he, List.find?_nil]
  exact { linked := by simp [hnone], previous := by simp [hnone], next := by simp [hnone],
          held := by simp [hvacant], ends := by simp [hnone], alike := by simp [hnone] }

/-- Edges may lead to any containers that are stored. -/
theorem Forest.of_containers_eq (h : Forest store) (hc : next.containers = store.containers)
    (hheld : ∀ key edge, next.edge? key = some edge → store.container? edge.containerId ≠ none) :
    Forest next := by
  have hfound (id : Id) : next.container? id = store.container? id := by
    rw [container?, hc, container?]
  have hline : ∀ start line, Lineage store start line → Lineage next start line := by
    intro start line hl
    induction hl with
    | nil => exact .nil
    | cons found _ ih => exact .cons ((hfound _).trans found) ih
  constructor
  · exact ⟨by simpa only [hfound] using h.linked, by simpa only [hfound] using h.previous,
      by simpa only [hfound] using h.next⟩
  · simpa only [hfound] using hheld
  · intro id container hf
    obtain ⟨line, hl⟩ := h.ends id container (hfound id ▸ hf)
    exact ⟨line, hline _ line hl⟩
  · simpa only [hfound] using h.alike

/-- No container of a forest succeeds itself. -/
theorem Forest.previous_ne (h : Forest store) {container : Container}
    (hf : store.container? id = some container) : container.previous ≠ some id := by
  intro hp
  obtain ⟨line, hl⟩ := h.ends id container hf
  have htwice : Lineage store container.previous (id :: line) := by
    rw [hp]
    exact .cons hf hl
  have hlength := congrArg List.length (hl.unique htwice)
  rw [List.length_cons] at hlength
  omega

/-- A lineage stays when a container is stored that was not. -/
theorem Lineage.extend {added : Container} (hnone : store.container? added.id = none)
    (hfound : ∀ id, next.container? id =
      if id = added.id then some added else (store.container? id).map (succeededBy added))
    {start : Option Id} {line : List Id} (hl : Lineage store start line) :
    Lineage next start line := by
  induction hl with
  | nil => exact .nil
  | @cons id container rest found _ ih =>
    have hne : id ≠ added.id := by
      rintro rfl
      rw [hnone] at found
      cases found
    have hnext : next.container? id = some (succeededBy added container) := by
      rw [hfound, if_neg hne, found, Option.map_some]
    refine .cons hnext ?_
    rwa [previous_succeededBy]

/-- What another container is told when one is stored is neither its node nor its language. -/
theorem succeededBy_alike (added container : Container) :
    (succeededBy added container).nodeId = container.nodeId ∧
      (succeededBy added container).language = container.language := by
  unfold succeededBy
  split <;> exact ⟨rfl, rfl⟩

/-- A new container that nothing succeeds can be stored, when what it succeeds is stored, is of its
node and language, and is told of it. -/
theorem Forest.extend (h : Forest store) {added : Container}
    (hnone : store.container? added.id = none) (hn : added.next = [])
    (hp : ∀ before, added.previous = some before → ∃ other, store.container? before = some other ∧
      added.nodeId = other.nodeId ∧ added.language = other.language)
    (hfound : ∀ id, next.container? id =
      if id = added.id then some added else (store.container? id).map (succeededBy added))
    (hheld : ∀ key edge, next.edge? key = some edge →
      edge.containerId = added.id ∨ store.edge? key = some edge) : Forest next := by
  have hstored : ∀ before, added.previous = some before → store.container? before ≠ none := by
    intro before hb
    obtain ⟨other, ho, -⟩ := hp before hb
    simp [ho]
  refine ⟨h.toEntwined.extend hnone hn hstored hfound, fun key edge he => ?_,
    fun id container hf => ?_, fun id container before other hf hb ho => ?_⟩
  · rw [hfound]
    split_ifs with hi
    · simp
    · simpa using h.held key edge ((hheld key edge he).resolve_left hi)
  · rcases found_extend hfound hf with ⟨rfl, rfl⟩ | ⟨-, old, hold, rfl⟩
    · cases hback : container.previous with
      | none => exact ⟨[], .nil⟩
      | some before =>
        obtain ⟨other, ho, -⟩ := hp before hback
        obtain ⟨line, hl⟩ := h.ends before other ho
        exact ⟨before :: line, (Lineage.cons ho hl).extend hnone hfound⟩
    · obtain ⟨line, hl⟩ := h.ends id old hold
      rw [previous_succeededBy]
      exact ⟨line, hl.extend hnone hfound⟩
  · -- What is succeeded was stored before, as the new one is succeeded by nothing.
    have hback : ∃ old, store.container? before = some old ∧ other = succeededBy added old := by
      rcases found_extend hfound ho with ⟨rfl, rfl⟩ | ⟨-, old, hold, rfl⟩
      · rcases found_extend hfound hf with ⟨rfl, rfl⟩ | ⟨-, old, hold, rfl⟩
        · exact absurd hnone (hstored _ hb)
        · rw [previous_succeededBy] at hb
          exact absurd hnone (h.previous id old _ hold hb)
      · exact ⟨old, hold, rfl⟩
    obtain ⟨old, hold, rfl⟩ := hback
    rw [(succeededBy_alike added old).1, (succeededBy_alike added old).2]
    rcases found_extend hfound hf with ⟨rfl, rfl⟩ | ⟨-, mine, hmine, rfl⟩
    · obtain ⟨found, hsame, halike⟩ := hp before hb
      obtain rfl := Option.some.inj (hsame.symm.trans hold)
      exact halike
    · rw [previous_succeededBy] at hb
      rw [(succeededBy_alike added mine).1, (succeededBy_alike added mine).2]
      exact h.alike id mine before old hmine hb hold

/-- A container that no edge points at can be taken out; its successors succeed what it did. -/
theorem Forest.delete (h : Forest store) {removed : Container}
    (hr : store.container? id = some removed)
    (hc : next.containers = splice (store.containers.erase id) removed)
    (hheld : ∀ key edge, next.edge? key = some edge →
      store.edge? key = some edge ∧ edge.containerId ≠ id) : Forest next := by
  refine ⟨h.toEntwined.delete hr (h.previous_ne hr) hc, fun key edge he => ?_,
    fun other container hf => ?_, fun other container before predecessor hf hb ho => ?_⟩
  · obtain ⟨hbefore, hne⟩ := hheld key edge he
    rw [container?_splice_erase removed hc, if_neg hne]
    simpa using h.held key edge hbefore
  · obtain ⟨-, old, hold, rfl⟩ := found_splice_erase hc hf
    obtain ⟨line, hl⟩ := h.ends other old hold
    rw [h.toEntwined.previous_relinked hr hold]
    exact ⟨_, h.toEntwined.lineage_delete hr hc hl⟩
  · obtain ⟨-, old, hold, rfl⟩ := found_splice_erase hc hf
    obtain ⟨-, mine, hmine, rfl⟩ := found_splice_erase hc ho
    change old.nodeId = mine.nodeId ∧ old.language = mine.language
    rw [h.toEntwined.previous_relinked hr hold] at hb
    split_ifs at hb with hs
    · obtain ⟨hnode, hlanguage⟩ := h.alike other old id removed hold hs hr
      obtain ⟨hnode', hlanguage'⟩ := h.alike id removed before mine hr hb hmine
      exact ⟨hnode.trans hnode', hlanguage.trans hlanguage'⟩
    · exact h.alike other old before mine hold hb hmine

/-- The stores that are reached from one without content by writes of content in any order, with the
containers that have been read and those that have been made on the way. -/
inductive Operated : Store → List Container → List Container → Prop
  /-- At first there is no content. -/
  | start {store : Store} (containers : store.containers.rows = [])
      (edges : store.edges.rows = []) : Operated store [] []
  /-- A container is read, and kept as it is now. -/
  | read {store : Store} {read made : List Container} {id : Id} {container : Container}
      (before : Operated store read made) (found : store.container? id = some container) :
      Operated store (container :: read) made
  /-- A container without history is made and stored. -/
  | insert {store : Store} {read made : List Container} (id : Id) (createdAt : Instant)
      (nodeId : Id) (language : String) (versionId : Id) (fields : FieldMap)
      (before : Operated store read made) (fresh : ∀ other ∈ made, other.id ≠ id) :
      Operated
        (outcome (insertContainer (.create id createdAt nodeId language versionId fields)) store).2
        read (.create id createdAt nodeId language versionId fields :: made)
  /-- An edge is offered. -/
  | setEdge {store : Store} {read made : List Container} (edge : Edge)
      (before : Operated store read made) :
      Operated (outcome (Store.setEdge edge) store).2 read made
  /-- A successor is made of a container that has been read. -/
  | succeed {store : Store} {read made : List Container} {container : Container} (id : Id)
      (createdAt : Instant) (versionId : Id) (fields : FieldMap)
      (before : Operated store read made) (known : container ∈ read)
      (fresh : ∀ other ∈ made, other.id ≠ id) :
      Operated store read (container.successor id createdAt versionId fields :: made)
  /-- What has been made is offered as a successor. -/
  | commit {store : Store} {read made : List Container} {successor : Container} (key : EdgeKey)
      (before : Operated store read made) (known : successor ∈ made) :
      Operated (outcome (commitSuccessor key successor) store).2 read made
  /-- A container is offered to be taken out. -/
  | delete {store : Store} {read made : List Container} (id : Id)
      (before : Operated store read made) :
      Operated (outcome (deleteContainerVersion id) store).2 read made

/-- Whether a container is one of those that have been made, apart from what it is told later. -/
def MadeAs (made : List Container) (container : Container) : Prop :=
  ∃ first ∈ made, first.id = container.id ∧ first.nodeId = container.nodeId ∧
    first.language = container.language

/-- What has been made stays so. -/
theorem MadeAs.cons {made : List Container} {container : Container} (h : MadeAs made container)
    (first : Container) : MadeAs (first :: made) container := by
  obtain ⟨origin, hm, hsame⟩ := h
  exact ⟨origin, List.mem_cons_of_mem first hm, hsame⟩

/-- What holds of a store with the containers that have been read and made on the way to it. -/
structure Grown (store : Store) (read made : List Container) : Prop where
  /-- Stored containers form a forest. -/
  forest : Forest store
  /-- What is stored has been made. -/
  stored : ∀ id container, store.container? id = some container → MadeAs made container
  /-- What has been read has been made. -/
  known : ∀ container ∈ read, MadeAs made container
  /-- No identifier is used twice. -/
  single : (made.map Container.id).Nodup
  /-- Nothing succeeds what is new. -/
  childless : ∀ container ∈ made, container.next = []
  /-- What has been made succeeds something of its node and language that was made before. -/
  back : ∀ container ∈ made, ∀ before, container.previous = some before →
    ∃ other ∈ made, other.id = before ∧ container.nodeId = other.nodeId ∧
      container.language = other.language

variable {read made : List Container}

/-- Containers that have been made as one are of one node and language. -/
theorem Grown.alike (h : Grown store read made) {a b : Container} (ha : a ∈ made)
    (hb : MadeAs made b) (hid : a.id = b.id) : a.nodeId = b.nodeId ∧ a.language = b.language := by
  obtain ⟨first, hm, hsame, hnode, hlanguage⟩ := hb
  obtain rfl := List.inj_on_of_nodup_map h.single ha hm (hid.trans hsame.symm)
  exact ⟨hnode, hlanguage⟩

/-- An identifier that has not been used is that of no stored container. -/
theorem Grown.container?_of_fresh (h : Grown store read made)
    (hfresh : ∀ other ∈ made, other.id ≠ id) : store.container? id = none := by
  cases hf : store.container? id with
  | none => rfl
  | some container =>
    obtain ⟨first, hm, hsame, -⟩ := h.stored id container hf
    exact absurd (hsame.trans (id_of_container? hf)) (hfresh first hm)

/-- A container is made under an identifier that has not been used. -/
theorem Grown.make (h : Grown store read made) {added : Container}
    (hfresh : ∀ other ∈ made, other.id ≠ added.id) (hn : added.next = [])
    (hb : ∀ before, added.previous = some before → ∃ other ∈ made, other.id = before ∧
      added.nodeId = other.nodeId ∧ added.language = other.language) :
    Grown store read (added :: made) where
  forest := h.forest
  stored other found hf := (h.stored other found hf).cons added
  known other hm := (h.known other hm).cons added
  single := by
    rw [List.map_cons, List.nodup_cons, List.mem_map]
    exact ⟨fun ⟨other, hm, he⟩ => hfresh other hm he, h.single⟩
  childless := List.forall_mem_cons.mpr ⟨hn, h.childless⟩
  back other hm before hp := by
    rcases List.mem_cons.mp hm with rfl | hm
    · obtain ⟨earlier, he, hsame⟩ := hb before hp
      exact ⟨earlier, List.mem_cons_of_mem _ he, hsame⟩
    · obtain ⟨earlier, he, hsame⟩ := h.back other hm before hp
      exact ⟨earlier, List.mem_cons_of_mem added he, hsame⟩

/-- A write is kept when it leaves a forest of containers that have been made. -/
theorem Grown.write (h : Grown store read made) (hforest : Forest next)
    (hstored : ∀ id container, next.container? id = some container → MadeAs made container) :
    Grown next read made :=
  { h with forest := hforest, stored := hstored }

/-- What is stored once something that has been made has been stored has been made. -/
theorem Grown.stored_extend (h : Grown store read made) {added : Container} (hm : added ∈ made)
    (hfound : ∀ id, next.container? id =
      if id = added.id then some added else (store.container? id).map (succeededBy added))
    (other : Id) (container : Container) (hf : next.container? other = some container) :
    MadeAs made container := by
  rcases found_extend hfound hf with ⟨rfl, rfl⟩ | ⟨-, before, hb, rfl⟩
  · exact ⟨container, hm, rfl, rfl, rfl⟩
  · obtain ⟨first, hfirst, hid, hnode, hlanguage⟩ := h.stored other before hb
    refine ⟨first, hfirst, hid.trans ?_, hnode.trans (succeededBy_alike added before).1.symm,
      hlanguage.trans (succeededBy_alike added before).2.symm⟩
    unfold succeededBy
    split <;> rfl

/-- A container without history is stored. -/
theorem Grown.insertContainer (h : Grown store read made) {added : Container} (hm : added ∈ made)
    (hnone : store.container? added.id = none) (hp : added.previous = none) :
    Grown (outcome (insertContainer added) store).2 read made := by
  have hfound := @container?_insert store added hp
    (outcome (Store.insertContainer added) store).2 rfl
  exact h.write
    (h.forest.extend hnone (h.childless added hm) (by simp [hp]) hfound fun _ _ he => .inr he)
    (h.stored_extend hm hfound)

/-- An edge is stored, or the store stays as it is. -/
theorem Grown.setEdge (h : Grown store read made) (edge : Edge) :
    Grown (outcome (Store.setEdge edge) store).2 read made := by
  rw [outcome_setEdge]
  split_ifs with hc
  · refine h.write (h.forest.of_containers_eq rfl fun key other ho => ?_) h.stored
    have hedge := store.edges.find?_insert edge key
    rw [edge?, hedge] at ho
    split_ifs at ho with hk
    · obtain rfl := Option.some.inj ho
      exact contains_eq_true_iff.mp hc
    · exact h.forest.held key other ho
  · exact h

/-- A successor is stored, however old what it was made of, or the store stays as it is. -/
theorem Grown.commitSuccessor (h : Grown store read made) {successor : Container}
    (hm : successor ∈ made) (key : EdgeKey) :
    Grown (outcome (Store.commitSuccessor key successor) store).2 read made := by
  rcases Store.outcome_commitSuccessor key successor store with
    ⟨answer, -, ho⟩ | ⟨edge, previous, he, hf, hp, hn, ho⟩
  · rw [ho]
    exact h
  · rw [ho]
    have hfound := @container?_commit store _ previous successor hf hp
      (store.committed edge previous successor) rfl
    have hnone : store.container? successor.id = none := by
      rwa [follows?, Option.map_eq_none_iff] at hn
    refine h.write (h.forest.extend hnone (h.childless successor hm) (fun before hb => ?_) hfound
      fun other found hedge => ?_) (h.stored_extend hm hfound)
    · -- The stored container was made as the one that the successor was made of.
      obtain rfl := Option.some.inj (hp.symm.trans hb)
      obtain ⟨first, hfirst, hid, hnode, hlanguage⟩ := h.back successor hm _ hp
      obtain ⟨hnode', hlanguage'⟩ := h.alike hfirst (h.stored _ previous hf)
        (hid.trans (id_of_container? hf).symm)
      exact ⟨previous, hf, hnode.trans hnode', hlanguage.trans hlanguage'⟩
    · rw [edge?_committed] at hedge
      split_ifs at hedge
      · obtain rfl := Option.some.inj hedge
        exact .inl rfl
      · exact .inr hedge

/-- A container is taken out, or the store stays as it is. -/
theorem Grown.deleteContainerVersion (h : Grown store read made) (id : Id) :
    Grown (outcome (Store.deleteContainerVersion id) store).2 read made := by
  rw [outcome_deleteContainerVersion]
  split_ifs with hr
  · exact h
  · cases hf : store.container? id with
    | none => exact h
    | some removed =>
      dsimp only
      refine h.write (h.forest.delete hf rfl fun key edge he => ⟨he, fun hid => hr ?_⟩)
        fun other container ho => ?_
      · have hrow := (store.edges.find?_eq_some_iff.mp he).1
        exact List.any_eq_true.mpr ⟨edge, hrow, decide_eq_true hid⟩
      · obtain ⟨-, before, hb, rfl⟩ := found_splice_erase rfl ho
        exact h.stored other before hb

/-- Every way of writing content keeps what holds of a store. -/
theorem Operated.grown (h : Operated store read made) : Grown store read made := by
  induction h with
  | start hc he =>
    have hforest := forest_of_rows_eq_nil hc he
    have hnone : ∀ id, Store.container? _ id = none := fun id => by
      rw [container?, Table.find?, hc, List.find?_nil]
    exact ⟨hforest, by simp [hnone], by simp, by simp, by simp, by simp⟩
  | read _ found ih =>
    exact { ih with known := List.forall_mem_cons.mpr ⟨ih.stored _ _ found, ih.known⟩ }
  | insert id createdAt nodeId language versionId fields _ fresh ih =>
    have hmade : Grown _ _ (.create id createdAt nodeId language versionId fields :: _) :=
      ih.make fresh rfl fun before hb => by cases hb
    exact hmade.insertContainer List.mem_cons_self (ih.container?_of_fresh fresh) rfl
  | setEdge edge _ ih => exact ih.setEdge edge
  | succeed id createdAt versionId fields _ known fresh ih =>
    refine ih.make fresh rfl fun before hb => ?_
    obtain rfl := Option.some.inj hb
    obtain ⟨first, hm, hid, hnode, hlanguage⟩ := ih.known _ known
    exact ⟨first, hm, hid, hnode.symm, hlanguage.symm⟩
  | commit key _ known ih => exact ih.commitSuccessor known key
  | delete id _ ih => exact ih.deleteContainerVersion id

/-- In whatever order content is written, stored containers form a forest that edges lead into. -/
theorem Operated.containers_form_forest (h : Operated store read made) : Forest store :=
  h.grown.forest

/-- Two branches that share a container succeed it from one reading; one of them moves on, and the
container in between is taken out. -/
theorem forest_of_shared_container :
    ∃ store read made, Operated store read made ∧ Forest store ∧
      (store.container? "d").bind Container.previous = some "a" ∧
      (store.container? "a").map Container.next = some ["c", "d"] ∧
      store.container? "b" = none := by
  let draft : Container := .create "a" ⟨0, 0⟩ "node" "en" "v" []
  let first : Container := draft.successor "b" ⟨1, 0⟩ "w" []
  have empty : Operated {} [] [] := .start rfl rfl
  have stored := empty.insert "a" ⟨0, 0⟩ "node" "en" "v" [] (by simp)
    |>.setEdge (.toContainer "main" draft .draft) |>.setEdge (.toContainer "fork" draft .draft)
  have succeeded := stored.read (show Store.container? _ "a" = some draft from rfl)
    |>.succeed "b" ⟨1, 0⟩ "w" [] List.mem_cons_self (by decide)
    |>.succeed "c" ⟨2, 0⟩ "x" [] List.mem_cons_self (by decide)
  have turned := succeeded.commit ⟨"main", "node", "en", .draft⟩
    (List.mem_cons_of_mem _ List.mem_cons_self)
  have shared := turned.read (show Store.container? _ "b" = some first from rfl)
    |>.commit ⟨"fork", "node", "en", .draft⟩ List.mem_cons_self
  have ahead := shared.succeed "d" ⟨3, 0⟩ "x" [] List.mem_cons_self (by decide)
    |>.commit ⟨"main", "node", "en", .draft⟩ List.mem_cons_self
  have spliced := ahead.delete "b"
  exact ⟨_, _, _, spliced, spliced.containers_form_forest, by decide +kernel, by decide +kernel,
    by decide +kernel⟩

end VersionedContent.Store
