import VersionedContent.Proofs.Site.Branching
import VersionedContent.Proofs.Site.Rest

/-!
# Pins move forward

What a branch pins is a stored version of the kind and name that it is pinned for.
A pin never goes once it is there, and only a call that pins a version moves it.
Without force it moves to a version that lies ahead along the links, and that is
one with a higher number, so that over many calls the pinned number grows.
-/

namespace VersionedContent

/-- The number of the version that a branch pins for a name. -/
def Store.pinnedNumber? (store : Store) (branchId : Id) (kind : Kind) (name : String) :
    Option Nat :=
  (store.pin? branchId kind name).bind fun id => (store.version? id).map Version.number

/-- A branch of a store pins what its pins say. -/
theorem Store.pin?_eq_bind_map (store : Store) (branchId : Id) (kind : Kind) (name : String) :
    store.pin? branchId kind name =
      ((store.branch? branchId).map Branch.pins).bind fun pins => Dict.get? (pins kind) name := by
  unfold pin?
  cases store.branch? branchId <;> rfl

namespace Site

variable {site : Site} {branchId : Id} {kind : Kind} {name : String}

/-- No chain gets shorter over many calls. -/
theorem Reachable.length_chainVersions_le (h : Reachable site) {calls : List Call}
    (ha : Call.AreAllowed site calls) (kind : Kind) (name : String) :
    (site.store.chainVersions kind name).length ≤
      ((Call.afterAll site calls).store.chainVersions kind name).length := by
  induction calls generalizing site with
  | nil => exact Nat.le_refl _
  | cons call calls ih =>
    exact (h.sound.length_chainVersions_le ha.1 kind name).trans (ih (h.call call ha.1) ha.2)

/-- A site that has grown has the same branches whether a job is queued or not. -/
theorem branch?_creating (site : Site) (projectId : Id) (branch : Branch) (baseId : Option Id)
    (id : Id) : (site.creating projectId branch baseId).store.branch? id =
      (site.growing projectId branch).store.branch? id := by
  cases baseId <;> rfl

/-- A call that pins no version leaves the pins of every branch as they are. -/
theorem Reachable.pins_after (h : Reachable site) {call : Call} (hc : call.isPinning = false)
    {id : Id} {branch : Branch} (hb : site.store.branch? id = some branch) :
    ∃ kept, (call.after site).store.branch? id = some kept ∧ kept.pins = branch.pins := by
  have htends := h.tends call
  generalize call.after site = next at htends ⊢
  cases htends with
  | settles _ same =>
    have hkept := same id
    rw [hb, Option.map_some] at hkept
    obtain ⟨kept, hfound, he⟩ := Option.map_eq_some_iff.mp hkept
    exact ⟨kept, hfound, (congrArg Branch.pins he :)⟩
  | pins _ pinning => exact absurd (pinning.symm.trans hc) (by decide)
  | @creates projectId _ _ new _ created =>
    have hne : id ≠ new.id := by
      rintro rfl
      rw [created.id_eq, h.branch?_label] at hb
      cases hb
    have hkept := branch?_growing site projectId new id
    rw [if_neg hne, hb, Option.map_some] at hkept
    obtain ⟨kept, hfound, he⟩ := Option.map_eq_some_iff.mp hkept
    exact ⟨kept, (branch?_creating ..).trans hfound, (congrArg Branch.pins he :)⟩

/-- A pin stays where it is, or a version that may be pinned takes its place. -/
theorem Reachable.pin?_after (h : Reachable site) (call : Call) {id : Id}
    (hp : site.store.pin? branchId kind name = some id) :
    (call.after site).store.pin? branchId kind name = some id ∨
      ∃ force branch version former, (force = true → call.Forces branchId) ∧
        site.MayPin branchId force branch version former ∧
        version.kind = kind ∧ version.name = name ∧
        (call.after site).store.pin? branchId kind name = some version.id := by
  obtain ⟨branch, hb, hpinned⟩ := Option.bind_eq_some_iff.mp hp
  cases hc : call.isPinning with
  | false =>
    obtain ⟨kept, hkept, hpins⟩ := h.pins_after hc hb
    refine .inl ?_
    rw [Store.pin?_eq_bind_map, hkept, Option.map_some, Option.bind_some, hpins]
    exact hpinned
  | true =>
    have htends := h.tends call
    generalize call.after site = next at htends ⊢
    cases htends with
    | settles _ same =>
      have hkept := same branchId
      rw [hb, Option.map_some] at hkept
      obtain ⟨kept, hfound, he⟩ := Option.map_eq_some_iff.mp hkept
      have hpins : kept.pins = branch.pins := (congrArg Branch.pins he :)
      refine .inl ?_
      rw [Store.pin?_eq_bind_map, hfound, Option.map_some, Option.bind_some, hpins]
      exact hpinned
    | creates => cases hc
    | @pins _ _ other force found version former _ _ forces may stored =>
      have hother : found.id = other := (site.store.branches.find?_eq_some_iff.mp may.found).2
      have hfind : next.store.branch? branchId =
          if branchId = other then some (found.pin version) else some branch := by
        rw [Store.branch?, stored, Table.find?_insert, Branch.pin_id, hother, ← hb]
        rfl
      unfold Store.pin?
      rw [hfind]
      by_cases he : branchId = other
      · subst he
        obtain rfl := Option.some.inj (hb.symm.trans may.found)
        rw [if_pos rfl, Option.bind_some, Branch.pinned?_pin]
        by_cases hkn : kind = version.kind ∧ name = version.name
        · obtain ⟨rfl, rfl⟩ := hkn
          rw [if_pos ⟨rfl, rfl⟩]
          exact .inr ⟨force, branch, version, former, forces, may, rfl, rfl, rfl⟩
        · rw [if_neg hkn]
          exact .inl hpinned
      · rw [if_neg he]
        exact .inl hpinned

/-- Without force a version may only be pinned in place of one with a lower number. -/
theorem MayPin.number_lt {branch : Branch} {version old : Version}
    (h : site.MayPin branchId false branch version (some old)) (hs : Sound site)
    (hl : (site.store.chainVersions version.kind version.name).length < 4294967296) :
    old.number < version.number := by
  obtain ⟨hold, hlt⟩ := h.behind hs
  exact (hs.chained.number_lt_iff hl hold
    (Store.mem_chainVersions.mpr ⟨h.stored, rfl, rfl⟩)).mpr hlt

/-- What is pinned goes on to be a version with its number. -/
theorem Reachable.number_after (h : Reachable site) {call : Call} (ha : call.Allowed site)
    {version : Version} (hv : version ∈ site.store.versions.rows) :
    ((call.after site).store.version? version.id).map Version.number = some version.number := by
  obtain ⟨link, hlinked, -⟩ := h.sound.persists ha hv
  rw [Store.version?_eq_some_iff.mpr ⟨hlinked, rfl⟩]
  rfl

/-- A call that does not force a pin of a branch lowers no number that it pins. -/
theorem Reachable.pinnedNumber?_after (h : Reachable site) {call : Call} (ha : call.Allowed site)
    (hf : ¬call.Forces branchId)
    (hl : (site.store.chainVersions kind name).length < 4294967296) {number : Nat}
    (hp : site.store.pinnedNumber? branchId kind name = some number) :
    ∃ later, number ≤ later ∧
      (call.after site).store.pinnedNumber? branchId kind name = some later := by
  obtain ⟨id, hpin, hnumber⟩ := Option.bind_eq_some_iff.mp hp
  obtain ⟨old, hold, rfl⟩ := Option.map_eq_some_iff.mp hnumber
  obtain ⟨hrow, rfl⟩ := Store.version?_eq_some_iff.mp hold
  unfold Store.pinnedNumber?
  rcases h.pin?_after call hpin with hkept |
    ⟨force, branch, version, former, hforce, hmay, rfl, rfl, hmoved⟩
  · refine ⟨old.number, Nat.le_refl _, ?_⟩
    rw [hkept, Option.bind_some]
    exact h.number_after ha hrow
  · refine ⟨version.number, ?_, ?_⟩
    · obtain rfl : force = false := Bool.eq_false_iff.mpr fun hforced => hf (hforce hforced)
      have hpinned := hmay.pinned
      rw [Store.pin?, hmay.found, Option.bind_some, hpinned] at hpin
      obtain ⟨current, rfl, hid⟩ := Option.map_eq_some_iff.mp hpin
      have hsame := site.store.versions.eq_of_key_eq (hmay.other current rfl).1 hrow hid
      exact hsame ▸ Nat.le_of_lt (hmay.number_lt h.sound hl)
    · rw [hmoved, Option.bind_some]
      exact h.number_after ha hmay.stored

/-- A pin stays a pin over many calls. -/
theorem Reachable.pin?_afterAll (h : Reachable site) {calls : List Call}
    (ha : Call.AreAllowed site calls) (hp : site.store.pin? branchId kind name ≠ none) :
    (Call.afterAll site calls).store.pin? branchId kind name ≠ none := by
  induction calls generalizing site with
  | nil => exact hp
  | cons call calls ih =>
    refine ih (h.call call ha.1) ha.2 ?_
    obtain ⟨id, hpin⟩ := Option.ne_none_iff_exists'.mp hp
    rcases h.pin?_after call hpin with hkept | ⟨_, _, version, _, -, -, -, -, hmoved⟩
    · simp [hkept]
    · simp [hmoved]

/-- Calls that do not force a pin of a branch lower no number that it pins. -/
theorem Reachable.pinnedNumber?_afterAll (h : Reachable site) {calls : List Call}
    (ha : Call.AreAllowed site calls) (hf : ∀ call ∈ calls, ¬call.Forces branchId)
    (hl : ((Call.afterAll site calls).store.chainVersions kind name).length < 4294967296)
    {number : Nat} (hp : site.store.pinnedNumber? branchId kind name = some number) :
    ∃ later, number ≤ later ∧
      (Call.afterAll site calls).store.pinnedNumber? branchId kind name = some later := by
  induction calls generalizing site number with
  | nil => exact ⟨number, Nat.le_refl _, hp⟩
  | cons call calls ih =>
    have hnext := h.call call ha.1
    have hshort := Nat.lt_of_le_of_lt (h.length_chainVersions_le ha kind name) hl
    obtain ⟨between, hfirst, hbetween⟩ :=
      h.pinnedNumber?_after ha.1 (hf call List.mem_cons_self) hshort hp
    obtain ⟨later, hsecond, hlater⟩ := ih hnext ha.2
      (fun other hm => hf other (List.mem_cons_of_mem _ hm)) hl hbetween
    exact ⟨later, hfirst.trans hsecond, hlater⟩

/-- On every reachable site, what a branch pins is a stored version of the kind and name that it is
pinned for. Over any calls from there a pin stays a pin, and it moves to no lower number unless a
pin of its branch is forced. Calls that pin no version change no pin of a branch. -/
theorem Reachable.pins_move_forward (h : Reachable site) :
    (∀ branch ∈ site.store.branches.rows, ∀ kind, ∀ entry ∈ branch.pins kind,
      ∃ version ∈ site.store.versions.rows,
        version.id = entry.2 ∧ version.kind = kind ∧ version.name = entry.1) ∧
    (∀ calls, Call.AreAllowed site calls → ∀ branchId kind name,
      (site.store.pin? branchId kind name ≠ none →
        (Call.afterAll site calls).store.pin? branchId kind name ≠ none) ∧
      ((∀ call ∈ calls, ¬call.Forces branchId) →
        ((Call.afterAll site calls).store.chainVersions kind name).length < 4294967296 →
        ∀ number, site.store.pinnedNumber? branchId kind name = some number →
          ∃ later, number ≤ later ∧
            (Call.afterAll site calls).store.pinnedNumber? branchId kind name = some later)) ∧
    ∀ call : Call, call.isPinning = false → ∀ id branch, site.store.branch? id = some branch →
      ∃ kept, (call.after site).store.branch? id = some kept ∧ kept.pins = branch.pins := by
  refine ⟨fun branch hm kind entry he => ?_, fun calls ha branchId kind name =>
    ⟨h.pin?_afterAll ha, fun hf hl number => h.pinnedNumber?_afterAll ha hf hl⟩,
    fun call hc id branch hb => h.pins_after hc hb⟩
  have hpins := h.sound.pinned branch hm
  exact hpins.stored kind entry.1 entry.2 ((hpins.sorted kind).get?_of_mem he)

/-- A pin moves up with its chain while one of another branch is forced back. -/
theorem pins_of_forced_neighbour :
    let titled (fields : List FieldSpec) : Definition :=
      { name := "article", fields := { name := "title", type := .string } :: fields }
    let site := Call.afterAll (.empty (.ticking ⟨0, 0⟩) 10 10)
      [.createSchema .schema (titled []), .createBranch "p1" "main" none,
        .createBranch "p2" "main" none, .assignLatest "@b1" .schema "article"]
    let raised := [Call.updateSchema .schema "article"
        (titled [{ name := "lead", type := .html }]) [] none,
      .assignLatest "@b2" .schema "article"]
    let calls := raised ++ [.assign .schema "@b2" (.root "@v1" ⟨0, 0⟩ .schema (titled [])) true,
      .assignLatest "@b1" .schema "article", .runPending]
    site.store.pinnedNumber? "@b1" .schema "article" = some 1 ∧
      (∃ later, 1 ≤ later ∧
        (Call.afterAll site calls).store.pinnedNumber? "@b1" .schema "article" = some later) ∧
      (Call.afterAll site raised).store.pinnedNumber? "@b2" .schema "article" = some 2 ∧
      (Call.afterAll site calls).store.pinnedNumber? "@b2" .schema "article" = some 1 := by
  intro titled site raised calls
  have hreached : Reachable site :=
    (Managed.calls (.empty (.ticking ⟨0, 0⟩) 10 10) (by decide +kernel)).reachable
  have hallowed : Call.AreAllowed site calls :=
    ⟨trivial, trivial, trivial, trivial, trivial, trivial⟩
  have hunforced : ∀ call ∈ calls, ¬call.Forces "@b1" := by
    simp [calls, raised, Call.Forces]
  have hshort : ((Call.afterAll site calls).store.chainVersions .schema "article").length <
      4294967296 := by decide +kernel
  have hpinned : site.store.pinnedNumber? "@b1" .schema "article" = some 1 := by decide +kernel
  obtain ⟨-, hcalls, -⟩ := hreached.pins_move_forward
  exact ⟨hpinned, (hcalls calls hallowed "@b1" .schema "article").2 hunforced hshort 1 hpinned,
    by decide +kernel, by decide +kernel⟩

end Site

end VersionedContent
