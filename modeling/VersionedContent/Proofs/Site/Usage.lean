import VersionedContent.Proofs.Digest.Hex
import VersionedContent.Proofs.Site.Memo

/-!
# What a usage hash tells

The hashed text has one line for each microschema version in use, a name and an
identifier with a colon between them. Nothing says how long either is. Still the lines
can be read back: a name is that of a stored microschema, so there is no colon in it, and
an identifier that was given out has no line break in it. The names increase from line to
line, so the text stands for a finite map and for nothing else: for each microschema that
the version refers to, the identifier of its replacement, else of its pin.
-/

namespace VersionedContent

namespace Dict

variable {α : Type}

/-- Dictionaries with increasing keys that find the same are the same. -/
theorem Sorted.ext {dict other : Dict α} (h : dict.Sorted) (ho : other.Sorted)
    (hg : ∀ key, get? dict key = get? other key) : dict = other := by
  have hirrefl : Std.Irrefl fun a b : String × α => a.1 < b.1 := ⟨fun a => lt_irrefl a.1⟩
  have hantisymm : Std.Antisymm fun a b : String × α => a.1 < b.1 :=
    ⟨fun a b hab hba => absurd hab (lt_asymm hba)⟩
  refine List.Pairwise.eq_of_mem_iff h ho fun ⟨key, value⟩ => ⟨fun hm => ?_, fun hm => ?_⟩
  · exact mem_of_get?_eq_some ((hg key).symm.trans (h.get?_of_mem hm))
  · exact mem_of_get?_eq_some ((hg key).trans (ho.get?_of_mem hm))

/-- A dictionary made from increasing keys finds under each of them what was made of it. -/
theorem get?_filterMap {keys : List String} (hk : keys.Pairwise (· < ·)) (value : String → Option α)
    (key : String) :
    get? (keys.filterMap fun name => (value name).map fun a => (name, a)) key =
      if key ∈ keys then value key else none := by
  induction keys with
  | nil => rfl
  | cons name rest ih =>
    obtain ⟨hfirst, hrest⟩ := List.pairwise_cons.mp hk
    rw [List.filterMap_cons]
    by_cases he : key = name
    · subst he
      have hnot : key ∉ rest := fun hm => lt_irrefl key (hfirst key hm)
      cases hv : value key with
      | none => simp [ih hrest, hnot]
      | some a => simp [get?]
    · cases hv : value name with
      | none => simp [ih hrest, he]
      | some a => simp [get?, ih hrest, he]

end Dict

namespace Definition

/-- Sorted names increase. -/
theorem pairwise_distinctNames (names : List String) : (distinctNames names).Pairwise (· < ·) := by
  have hfold : ∀ (list : List String) (seen : Dict Unit), seen.Sorted →
      (list.foldl (fun seen name => Dict.insert seen name ()) seen).Sorted := by
    intro list
    induction list with
    | nil => exact fun _ hs => hs
    | cons name rest ih => exact fun seen hs => ih _ (hs.insert name ())
  exact List.pairwise_map.mpr (hfold names [] List.Pairwise.nil)

/-- The references of a definition increase. -/
theorem pairwise_microschemaReferences (definition : Definition) :
    definition.microschemaReferences.Pairwise (· < ·) := pairwise_distinctNames _

/-- The version in use of a microschema: of one that some field embeds, the replacement if there
is one, else the version that the branch pins. -/
def inUse? (definition : Definition) (branch : Branch) (replacements : Dict Id) (name : String) :
    Option Id :=
  if definition.fields.any fun field => field.embeds && field.allows name then
    (Dict.get? replacements name).or (branch.pinned? .microschema name)
  else none

/-- The resolved references are in the order of their names. -/
theorem sorted_resolvedReferences (definition : Definition) (branch : Branch)
    (replacements : Dict Id) :
    Dict.Sorted (resolvedReferences definition branch replacements) := by
  refine definition.pairwise_microschemaReferences.filterMap _
    fun name other hlt entry he following hf => ?_
  obtain ⟨_, -, rfl⟩ := Option.map_eq_some_iff.mp he
  obtain ⟨_, -, rfl⟩ := Option.map_eq_some_iff.mp hf
  exact hlt

/-- The resolved references are the microschema versions in use. -/
theorem get?_resolvedReferences (definition : Definition) (branch : Branch)
    (replacements : Dict Id) (name : String) :
    Dict.get? (resolvedReferences definition branch replacements) name =
      definition.inUse? branch replacements name := by
  have hreferred : name ∈ definition.microschemaReferences ↔
      (definition.fields.any fun field => field.embeds && field.allows name) = true := by
    simp [mem_microschemaReferences, FieldSpec.allows]
  have hfound := Dict.get?_filterMap definition.pairwise_microschemaReferences (fun name =>
    (Dict.get? replacements name).or (Dict.get? branch.microschemaVersions name)) name
  exact hfound.trans (if_congr hreferred rfl rfl)

/-- The resolved references are known by the microschema versions in use. -/
theorem resolvedReferences_eq_iff (definition other : Definition) (branch fork : Branch)
    (replacements others : Dict Id) :
    resolvedReferences definition branch replacements = resolvedReferences other fork others ↔
      ∀ name, definition.inUse? branch replacements name = other.inUse? fork others name := by
  simp only [← get?_resolvedReferences]
  constructor
  · intro h name
    rw [h]
  · exact (sorted_resolvedReferences definition branch replacements).ext
      (sorted_resolvedReferences other fork others)

/-- What holds of the identifiers in use holds of those that the resolved references list. -/
theorem forall_inUse?_iff {definition : Definition} {branch : Branch} {replacements : Dict Id}
    {P : Id → Prop} :
    (∀ name id, definition.inUse? branch replacements name = some id → P id) ↔
      ∀ entry ∈ resolvedReferences definition branch replacements, P entry.2 := by
  simp only [← get?_resolvedReferences]
  constructor
  · rintro h ⟨name, id⟩ hm
    exact h name id ((sorted_resolvedReferences definition branch replacements).get?_of_mem hm)
  · exact fun h name id hg => h (name, id) (Dict.mem_of_get?_eq_some hg)

end Definition

/-- A text is split by the first separator in one way. -/
theorem append_cons_inj {α : Type} {separator : α} {front other rest behind : List α}
    (hf : separator ∉ front) (ho : separator ∉ other)
    (h : front ++ separator :: rest = other ++ separator :: behind) :
    front = other ∧ rest = behind := by
  induction front generalizing other with
  | nil =>
    cases other with
    | nil => exact ⟨rfl, (List.cons.inj h).2⟩
    | cons first tail => exact absurd (List.cons.inj h).1 (List.ne_of_not_mem_cons ho)
  | cons first tail ih =>
    cases other with
    | nil => exact absurd (List.cons.inj h).1.symm (List.ne_of_not_mem_cons hf)
    | cons head last =>
      obtain ⟨rfl, hrest⟩ := List.cons.inj h
      obtain ⟨rfl, hbehind⟩ :=
        ih (List.not_mem_of_not_mem_cons hf) (List.not_mem_of_not_mem_cons ho) hrest
      exact ⟨rfl, hbehind⟩

/-- The characters of the line of an entry. -/
def line (entry : String × Id) : List Char := entry.1.toList ++ ':' :: (entry.2.toList ++ ['\n'])

/-- Whether the line of an entry can be read back: there is no colon in the name and no line break
in the identifier. -/
def Legible (entry : String × Id) : Prop := ':' ∉ entry.1.toList ∧ '\n' ∉ entry.2.toList

/-- Lines that can be read back are known by their text. -/
theorem flatMap_line_inj {entries others : List (String × Id)}
    (he : ∀ entry ∈ entries, Legible entry) (ho : ∀ entry ∈ others, Legible entry)
    (h : entries.flatMap line = others.flatMap line) : entries = others := by
  induction entries generalizing others with
  | nil =>
    cases others with
    | nil => rfl
    | cons other behind => simp [line] at h
  | cons entry rest ih =>
    cases others with
    | nil => simp [line] at h
    | cons other behind =>
      obtain ⟨⟨hname, hid⟩, hrest⟩ := List.forall_mem_cons.mp he
      obtain ⟨⟨hcaption, hkey⟩, hbehind⟩ := List.forall_mem_cons.mp ho
      simp only [List.flatMap_cons, line, List.append_assoc, List.cons_append,
        List.nil_append] at h
      -- The first colon ends the name, then the first line break ends the identifier.
      obtain ⟨hnames, htail⟩ := append_cons_inj hname hcaption h
      obtain ⟨hids, hlines⟩ := append_cons_inj hid hkey htail
      have hentry : entry = other :=
        Prod.ext (String.toList_inj.mp hnames) (String.toList_inj.mp hids)
      rw [hentry, ih hrest hbehind hlines]

/-- The hashed text, line by line. -/
theorem toList_usageText (definition : Definition) (branch : Branch) (replacements : Dict Id) :
    (usageText definition branch replacements).toList =
      (resolvedReferences definition branch replacements).flatMap line := by
  simp only [usageText, String.toList_join, List.flatMap_map]
  refine congrArg (List.flatMap · _) (funext fun entry => ?_)
  simp [line]

/-- There is no colon in an identifier. -/
theorem Text.colon_notMem_of_isIdentifier {name : String} (h : Text.isIdentifier name = true) :
    ':' ∉ name.toList := by
  obtain ⟨first, rest, hlist, hfirst, hrest⟩ := (Text.isIdentifier_iff name).mp h
  rw [hlist]
  rintro (_ | ⟨_, hm⟩)
  · exact absurd hfirst (by decide)
  · exact absurd (hrest _ hm) (by decide)

/-- There is no colon in the name of a microschema that a stored version refers to. -/
theorem Store.Chained.colon_notMem {store : Store} {issued : Series} (h : store.Chained issued)
    {version : Version} (hv : version ∈ store.versions.rows) {name : String}
    (hn : name ∈ version.definition.microschemaReferences) : ':' ∉ name.toList := by
  obtain ⟨microschema, hm⟩ := List.exists_mem_of_ne_nil _ (h.referenced version hv name hn)
  obtain ⟨hrow, -, rfl⟩ := Store.mem_chainVersions.mp hm
  rw [h.named microschema hrow]
  have hissues := h.valid microschema hrow
  simp only [Definition.issues, List.append_eq_nil_iff] at hissues
  exact Text.colon_notMem_of_isIdentifier (by_contra fun hno => by simp [hno] at hissues)

namespace Site

variable {site : Site}

/-- The lines of a stored version can be read back while no identifier in use has a line break. -/
theorem Sound.legible (h : Sound site) {version : Version}
    (hv : version ∈ site.store.versions.rows) {branch : Branch} {replacements : Dict Id}
    (hb : ∀ name id, version.definition.inUse? branch replacements name = some id →
      '\n' ∉ id.toList) :
    ∀ entry ∈ resolvedReferences version.definition branch replacements, Legible entry := by
  intro entry hm
  refine ⟨?_, Definition.forall_inUse?_iff.mp hb entry hm⟩
  obtain ⟨name, hn, he⟩ := List.mem_filterMap.mp hm
  obtain ⟨id, -, rfl⟩ := Option.map_eq_some_iff.mp he
  exact h.chained.colon_notMem hv hn

/-- Two stored versions have one usage hash exactly when the same microschema versions are in use,
unless the hashed texts collide. -/
theorem Reachable.hash_eq_iff {later : Site} (h : Reachable site) (hlater : Reachable later)
    {version other : Version} (hv : version ∈ site.store.versions.rows)
    (ho : other ∈ later.store.versions.rows) (branch fork : Branch) (replacements others : Dict Id)
    (hids : ∀ name id, version.definition.inUse? branch replacements name = some id →
      '\n' ∉ id.toList)
    (hothers : ∀ name id, other.definition.inUse? fork others name = some id → '\n' ∉ id.toList)
    (hc : ¬ Sha256.Collides (usageText version.definition branch replacements).toUTF8.toList
      (usageText other.definition fork others).toUTF8.toList) :
    (UsageMemo.hash [] version branch replacements).1 = (UsageMemo.hash [] other fork others).1 ↔
      ∀ name, version.definition.inUse? branch replacements name =
        other.definition.inUse? fork others name := by
  rw [UsageMemo.hash_nil, UsageMemo.hash_nil, usageHash, usageHash, Sha256.hex_eq_iff hc,
    ← Definition.resolvedReferences_eq_iff]
  constructor
  · intro htext
    have hlist := congrArg String.toList htext
    rw [toList_usageText, toList_usageText] at hlist
    exact flatMap_line_inj (h.sound.legible hv hids) (hlater.sound.legible ho hothers) hlist
  · intro hsame
    rw [usageText, hsame, usageText]

/-- Fields in another order with names allowed twice, an identifier from a replacement and a pin
for a name that is not referred to leave the usage hash as it is; another pin does not. -/
theorem hash_of_shuffled_fields :
    let named (name : String) : Definition :=
      { name := name, fields := [{ name := "caption", type := .string }] }
    let cover : FieldSpec := { name := "cover", type := .micronode, allow := ["image"] }
    let aside (allow : List String) : FieldSpec :=
      { name := "aside", type := .list, listType := some .micronode, allow := allow }
    let calls : List Call :=
      [.createSchema .microschema (named "image"), .createSchema .microschema (named "quote"),
        .createSchema .microschema (named "badge"),
        .createSchema .schema { name := "article", fields := [cover, aside ["quote", "image"]] },
        .createSchema .schema { name := "page", fields :=
          [aside ["image", "quote", "image"], cover] },
        .createBranch "p" "main" none, .createBranch "q" "main" none,
        .assignLatest "@b1" .microschema "image", .assignLatest "@b1" .microschema "quote",
        .assignLatest "@b2" .microschema "image", .assignLatest "@b2" .microschema "badge"]
    let site := Call.afterAll (.empty (.ticking ⟨0, 0⟩) 10 10) calls
    ∃ article page main other, site.store.version? "@v4" = some article ∧
      site.store.version? "@v5" = some page ∧ site.store.branch? "@b1" = some main ∧
      site.store.branch? "@b2" = some other ∧
      (UsageMemo.hash [] article main []).1 = (UsageMemo.hash [] page other [("quote", "@v2")]).1 ∧
      (UsageMemo.hash [] article main []).1 ≠ (UsageMemo.hash [] page other []).1 := by
  intro named cover aside calls site
  have hsite : Managed site :=
    Managed.calls (.empty (.ticking ⟨0, 0⟩) 10 10) (by decide +kernel)
  have hall : ((site.store.version? "@v4").bind fun article =>
      (site.store.version? "@v5").bind fun page => (site.store.branch? "@b1").bind fun main =>
        (site.store.branch? "@b2").map fun other =>
          (resolvedReferences article.definition main [],
            resolvedReferences page.definition other [("quote", "@v2")],
            resolvedReferences page.definition other [])) =
      some ([("image", "@v1"), ("quote", "@v2")], [("image", "@v1"), ("quote", "@v2")],
        [("image", "@v1")]) := by decide +kernel
  clear_value site
  obtain ⟨article, ha, hall⟩ := Option.bind_eq_some_iff.mp hall
  obtain ⟨page, hp, hall⟩ := Option.bind_eq_some_iff.mp hall
  obtain ⟨main, hm, hall⟩ := Option.bind_eq_some_iff.mp hall
  obtain ⟨other, ho, hall⟩ := Option.map_eq_some_iff.mp hall
  simp only [Prod.mk.injEq] at hall
  obtain ⟨hfirst, hsecond, hthird⟩ := hall
  have ham := (Store.version?_eq_some_iff.mp ha).1
  have hpm := (Store.version?_eq_some_iff.mp hp).1
  refine ⟨article, page, main, other, ha, hp, hm, ho, ?_, fun he => ?_⟩
  · refine (hsite.reachable.hash_eq_iff hsite.reachable ham hpm main other [] [("quote", "@v2")]
      ?_ ?_ ?_).mpr ?_
    · exact Definition.forall_inUse?_iff.mpr (by rw [hfirst]; decide)
    · exact Definition.forall_inUse?_iff.mpr (by rw [hsecond]; decide)
    · exact fun hc => hc.1 (by rw [usageText, usageText, hfirst, hsecond])
    · exact (Definition.resolvedReferences_eq_iff _ _ _ _ _ _).mp (hfirst.trans hsecond.symm)
  · have hsame := (hsite.reachable.hash_eq_iff hsite.reachable ham hpm main other [] []
      (Definition.forall_inUse?_iff.mpr (by rw [hfirst]; decide))
      (Definition.forall_inUse?_iff.mpr (by rw [hthird]; decide))
      (by rw [usageText, usageText, hfirst, hthird]; decide +kernel)).mp he
    rw [← Definition.resolvedReferences_eq_iff, hfirst, hthird] at hsame
    exact absurd hsame (by decide)

end Site

end VersionedContent
