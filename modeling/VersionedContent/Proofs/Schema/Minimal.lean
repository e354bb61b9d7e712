import Mathlib.Data.List.Perm.Subperm
import VersionedContent.Proofs.Schema.Origin

/-!
# Differences hold no more than they must

A difference holds the renames, a removal for each field that is not carried over, an
update for each carried field that is declared anew, an addition for each field without
an origin, and one reordering and one restatement where these are needed. A reordering
is decided on by carrying out the changes before it: additions at their places restore
the new order just when the carried fields stand in the same order in both definitions.
-/

namespace VersionedContent

/-- Names with those of a list that are not known yet put in, each at its place in the list. -/
def putIn (known : String → Bool) : List String → Nat → List String → List String
  | [], _, names => names
  | name :: rest, position, names =>
    putIn known rest (position + 1)
      (if known name then names else names.take position ++ name :: names.drop position)

/-- Putting names in leaves the known ones in their order. -/
theorem filter_putIn {known : String → Bool} (list : List String) (position : Nat)
    (names : List String) :
    (putIn known list position names).filter known = names.filter known := by
  induction list generalizing position names with
  | nil => rfl
  | cons name rest ih =>
    rw [putIn, ih]
    split_ifs with hk
    · rfl
    · rw [List.filter_append, List.filter_cons_of_neg hk, ← List.filter_append,
        List.take_append_drop]

/-- Where the known names that are to come stand in the order of the list, putting in the others
gives the list. -/
theorem putIn_eq_append {known : String → Bool} (list before : List String) :
    putIn known list before.length (before ++ list.filter known) = before ++ list := by
  -- At each place stands what comes next, or what comes next is put in there.
  induction list generalizing before with
  | nil => rfl
  | cons name rest ih =>
    have hnext := ih (before ++ [name])
    rw [List.length_append, List.append_assoc, List.append_assoc] at hnext
    rw [putIn]
    by_cases hk : known name = true
    · rw [if_pos hk, List.filter_cons_of_pos hk]
      exact hnext
    · rw [if_neg hk, List.filter_cons_of_neg hk, List.take_left, List.drop_left]
      exact hnext

/-- Putting names in gives the list just when the known names stand in its order. -/
theorem putIn_eq_iff {known : String → Bool} {list names : List String}
    (hn : ∀ name ∈ names, known name = true) :
    putIn known list 0 names = list ↔ names = list.filter known := by
  constructor
  · intro h
    have hkept := @filter_putIn known list 0 names
    rw [h, List.filter_eq_self.mpr hn] at hkept
    exact hkept.symm
  · rintro rfl
    exact putIn_eq_append list []

/-- What is kept of a list goes over to another one in its order just when what it comes from there
stands in the order of the list. -/
theorem map_filter_eq_iff {keep : String → Bool} {after before : String → String}
    {list other : List String} (hd : ((list.filter keep).map after).Nodup)
    (hafter : ∀ name ∈ list, keep name = true →
      after name ∈ other ∧ before (after name) = name)
    (hbefore : ∀ name ∈ other, keep (before name) = true ∧ after (before name) = name) :
    (list.filter keep).map after = other ↔ (other.map before).Sublist list := by
  constructor
  · rintro rfl
    have horigins : ((list.filter keep).map after).map before = list.filter keep := by
      rw [List.map_map]
      refine (List.map_congr_left fun name hm => ?_).trans (List.map_id' _)
      obtain ⟨hl, hk⟩ := List.mem_filter.mp hm
      exact (hafter name hl hk).2
    rw [horigins]
    exact List.filter_sublist
  · intro hs
    -- The origins are among what is kept, in its order, and there are as many of them.
    have hsub : (other.map before).Sublist (list.filter keep) := by
      have hfiltered := hs.filter keep
      rwa [List.filter_eq_self.mpr] at hfiltered
      exact List.forall_mem_map.mpr fun name hm => (hbefore name hm).1
    have hlength : (list.filter keep).length ≤ (other.map before).length := by
      have hin : ∀ name ∈ (list.filter keep).map after, name ∈ other := by
        refine List.forall_mem_map.mpr fun name hm => ?_
        obtain ⟨hl, hk⟩ := List.mem_filter.mp hm
        exact (hafter name hl hk).1
      have hle := (List.subperm_of_subset hd hin).length_le
      rwa [List.length_map] at hle ⊢
    rw [← hsub.eq_of_length_le hlength, List.map_map]
    exact (List.map_congr_left fun name hm => (hbefore name hm).2).trans (List.map_id' other)

namespace Definition

variable {old new definition reached : Definition} {renames : List Rename}
  {carried : List FieldSpec}

/-- The revision of one field puts its name in if it is not among the carried ones. -/
theorem fieldNames_of_revision (hd : definition.Distinct) {field : FieldSpec} {position : Nat}
    (h : definition.apply (revision carried field position).toList = .ok reached) :
    reached.fieldNames =
      if (carried.find? fun existing => existing.name = field.name).isSome then
        definition.fieldNames
      else definition.fieldNames.take position ++ field.name ::
        definition.fieldNames.drop position := by
  unfold revision at h
  cases hc : carried.find? fun existing => existing.name = field.name with
  | none =>
    simp only [hc, Option.toList_some, apply_singleton] at h
    obtain ⟨-, rfl⟩ := step_addField_eq_ok_iff.mp h
    simp [fieldNames, insertField]
  | some existing =>
    rw [hc] at h
    by_cases hs : existing.same field = true
    · simp only [hs, ite_true, Option.toList_none, apply_nil] at h
      obtain rfl := Except.ok.inj h
      rfl
    · simp only [hs, Bool.false_eq_true, ite_false, Option.toList_some, apply_singleton] at h
      obtain ⟨-, rfl⟩ := step_updateField_eq_ok_iff.mp h
      exact fieldNames_of_update hd field

/-- The revisions put in the names that are not among the carried ones. -/
theorem fieldNames_of_revisions (hd : definition.Distinct) {fields : List FieldSpec}
    (hn : (fields.map FieldSpec.name).Nodup) {position : Nat}
    (hf : ∀ field ∈ fields, definition.field? field.name =
      carried.find? fun existing => existing.name = field.name)
    (h : definition.apply
      ((fields.zipIdx position).filterMap fun entry => revision carried entry.1 entry.2) =
        .ok reached) :
    reached.fieldNames =
      putIn (fun name => (carried.find? fun existing => existing.name = name).isSome)
        (fields.map FieldSpec.name) position definition.fieldNames := by
  induction fields generalizing definition position with
  | nil =>
    obtain rfl := Except.ok.inj h
    rfl
  | cons field rest ih =>
    rw [List.map_cons, List.nodup_cons] at hn
    obtain ⟨next, ha, -, hdn, hlook⟩ := apply_revision hd position (hf field List.mem_cons_self)
    rw [revisions_cons, apply_append, ha] at h
    have hrest : ∀ other ∈ rest, next.field? other.name =
        carried.find? fun existing => existing.name = other.name := by
      intro other hm
      have hne : other.name ≠ field.name := fun he => hn.1 (he ▸ List.mem_map_of_mem hm)
      rw [hlook, if_neg hne]
      exact hf other (List.mem_cons_of_mem _ hm)
    rw [ih hdn hn.2 hrest h, fieldNames_of_revision hd ha]
    rfl

/-- The names that the fields carried over have in the old definition, in the order of the new
one. -/
def carriedOver (old new : Definition) (renames : List Rename) : List String :=
  new.fieldNames.filterMap fun name => (old.origin? renames name).map FieldSpec.name

/-- What has to be done for a field of the new definition: nothing if its origin is the same under
its name, an update if it is not, and an addition without an origin. -/
def owed (old : Definition) (renames : List Rename) (field : FieldSpec) (position : Nat) :
    Option Change :=
  match old.origin? renames field.name with
  | none => some (.addField field (some position))
  | some before =>
    if FieldSpec.same { before with name := field.name } field then none
    else some (.updateField field)

/-- Just the old fields that are neither renamed nor in the new definition are removed. -/
theorem removals_eq (hfit : RenamesFit old new renames) :
    removals (old.carried renames) new =
      (old.fieldNames.filter fun name =>
        name ∉ renames.map Rename.source ∧ name ∉ new.fieldNames).map .removeField := by
  rw [removals, carried, show old.fieldNames = old.fields.map FieldSpec.name from rfl,
    List.filter_map, List.filter_map, List.map_map, List.map_map]
  have hkeep (name : String) : (new.field? (nameAfter renames name)).isNone = true ↔
      name ∉ renames.map Rename.source ∧ name ∉ new.fieldNames := by
    rw [Option.isNone_iff_eq_none, field?_eq_none_iff]
    by_cases hs : name ∈ renames.map Rename.source
    · obtain ⟨rename, hm, rfl⟩ := List.mem_map.mp hs
      rw [nameAfter, find?_key_eq_some hfit.sources_nodup hm]
      simp [hs, hfit.target_mem_new rename hm]
    · rw [nameAfter_of_notMem hs]
      simp [hs]
  have hfilter : old.fields.filter ((fun field => (new.field? field.name).isNone) ∘
      fun field => { field with name := nameAfter renames field.name }) =
        old.fields.filter ((fun name =>
          decide (name ∉ renames.map Rename.source ∧ name ∉ new.fieldNames)) ∘ FieldSpec.name) := by
    refine List.filter_congr fun field _ => ?_
    rw [Function.comp, Function.comp, Bool.eq_iff_iff, decide_eq_true_eq]
    exact hkeep field.name
  rw [hfilter]
  refine List.map_congr_left fun field hm => ?_
  have hgone := (List.mem_filter.mp hm).2
  simp only [Function.comp, decide_eq_true_eq] at hgone ⊢
  rw [nameAfter_of_notMem hgone.1]

/-- Just what is owed to the new fields is done, in their order. -/
theorem revisions_eq (hfit : RenamesFit old new renames) :
    revisions (old.carried renames) new =
      new.fields.zipIdx.filterMap fun entry => old.owed renames entry.1 entry.2 := by
  refine List.filterMap_congr fun entry hm => ?_
  have hnew : entry.1.name ∈ new.fieldNames :=
    List.mem_map_of_mem (List.fst_mem_of_mem_zipIdx hm)
  unfold revision owed
  rw [find?_carried hfit hnew]
  cases old.origin? renames entry.1.name <;> rfl

/-- Fields that are carried over have their origins under the names before the renames. -/
theorem carriedOver_eq (old new : Definition) (renames : List Rename) :
    carriedOver old new renames =
      (new.fieldNames.filter fun name => (old.origin? renames name).isSome).map
        (nameBefore renames) := by
  unfold carriedOver
  induction new.fieldNames with
  | nil => rfl
  | cons name rest ih =>
    cases hb : old.origin? renames name with
    | none => simp [hb, ih]
    | some before =>
      have hname : before.name = nameBefore renames name := name_of_field? hb
      simp [hb, ih, hname]

/-- The carried fields stand under their new names in the order of the new definition just when
their origins do in the old one. -/
theorem retained_eq_filter_iff (ho : old.Distinct) (hfit : RenamesFit old new renames) :
    (old.retained new renames).fieldNames =
        new.fieldNames.filter (fun name => (old.origin? renames name).isSome) ↔
      (carriedOver old new renames).Sublist old.fieldNames := by
  obtain ⟨-, hd, -⟩ := apply_retained ho hfit
  have hretained : (old.retained new renames).fieldNames =
      (old.fieldNames.filter fun name => nameAfter renames name ∈ new.fieldNames).map
        (nameAfter renames) := by
    rw [show old.fieldNames = old.fields.map FieldSpec.name from rfl, fieldNames, retained, carried,
      List.filter_map, List.filter_map, List.map_map, List.map_map]
    rfl
  rw [Distinct, hretained] at hd
  rw [hretained, carriedOver_eq]
  refine map_filter_eq_iff hd (fun name hold hk => ?_) fun name hm => ?_
  · have hnew := of_decide_eq_true hk
    have hback := (nameAfter_eq_iff hfit hold hnew).mp rfl
    refine ⟨List.mem_filter.mpr ⟨hnew, ?_⟩, hback.symm⟩
    rwa [origin?, field?_isSome_iff, ← hback]
  · obtain ⟨hnew, hfound⟩ := List.mem_filter.mp hm
    rw [origin?, field?_isSome_iff] at hfound
    have hforth := (nameAfter_eq_iff hfit hfound hnew).mpr rfl
    exact ⟨decide_eq_true (by rwa [hforth]), hforth⟩

/-- What the changes of fields reach stands in the new order just when the fields carried over stand
in the same order in both definitions. -/
theorem fieldNames_eq_iff (ho : old.Distinct) (hn : new.Distinct)
    (hfit : RenamesFit old new renames)
    (h : old.apply (renames.map (fun rename => .renameField rename.source rename.target) ++
      removals (old.carried renames) new ++ revisions (old.carried renames) new) = .ok reached) :
    reached.fieldNames = new.fieldNames ↔
      (carriedOver old new renames).Sublist old.fieldNames := by
  obtain ⟨hk, hd, hlook⟩ := apply_retained ho hfit
  rw [apply_append, hk] at h
  have hnames := fieldNames_of_revisions hd hn (fun field hm =>
    (hlook field.name).trans (if_pos (List.mem_map_of_mem hm))) h
  have hknown : ∀ name ∈ (old.retained new renames).fieldNames,
      ((old.carried renames).find? fun existing => existing.name = name).isSome = true := by
    intro name hm
    obtain ⟨field, hf, rfl⟩ := List.mem_map.mp hm
    exact List.find?_isSome.mpr ⟨field, (List.mem_filter.mp hf).1, by simp⟩
  have hfilter : new.fieldNames.filter (fun name =>
      ((old.carried renames).find? fun existing => existing.name = name).isSome) =
        new.fieldNames.filter fun name => (old.origin? renames name).isSome := by
    refine List.filter_congr fun name hm => ?_
    rw [find?_carried hfit hm, Option.isSome_map]
  rw [hnames, ← retained_eq_filter_iff ho hfit, ← hfilter]
  exact putIn_eq_iff hknown

/-- To a field that stands on both sides in the same form, under its own name, nothing is owed. -/
theorem owed_nil_of_same (hn : new.Distinct) (hs : sameFields old.fields new.fields = true)
    {field : FieldSpec} (hm : field ∈ new.fields) (position : Nat) :
    old.owed [] field position = none := by
  have hold : field.name ∈ old.fieldNames := by
    rw [fieldNames, map_name_of_sameFields hs]
    exact List.mem_map_of_mem hm
  obtain ⟨before, hb⟩ := exists_field? hold
  obtain ⟨other, ho, hsame⟩ := find?_of_sameFields hs hb
  obtain rfl : other = field :=
    Option.some.inj (ho.symm.trans ((field?_eq_some_iff hn).mpr ⟨hm, rfl⟩))
  have hkept : { before with name := other.name } = before := by rw [← name_of_field? hb]
  have horigin : old.origin? [] other.name = some before := hb
  simp only [owed, horigin, hkept, hsame, ite_true]

/-- Between definitions that are the same, without renames, nothing has to be done. -/
theorem difference_of_same (hn : new.Distinct) (hs : old.same new = true) :
    difference old new [] = .ok [] := by
  have hfit : RenamesFit old new [] := by constructor <;> simp
  simp only [same, Bool.and_eq_true, beq_iff_eq] at hs
  obtain ⟨⟨⟨⟨-, hdescription⟩, hdisplay⟩, hpurge⟩, hfields⟩ := hs
  have hnames : old.fieldNames = new.fieldNames := map_name_of_sameFields hfields
  have hremovals : removals (old.carried []) new = [] := by
    rw [removals_eq hfit, List.map_eq_nil_iff, List.filter_eq_nil_iff]
    simp [hnames]
  have hrevisions : revisions (old.carried []) new = [] := by
    rw [revisions_eq hfit, List.filterMap_eq_nil_iff]
    exact fun entry hm => owed_nil_of_same hn hfields (List.fst_mem_of_mem_zipIdx hm) entry.2
  have happly : old.apply ([] ++ removals (old.carried []) new ++
      revisions (old.carried []) new) = .ok old := by
    rw [hremovals, hrevisions]
    rfl
  refine difference_eq_ok_iff.mpr ⟨hfit, old, happly, ?_⟩
  rw [hremovals, hrevisions, reordering, if_pos hnames, restatement,
    if_pos ⟨hdescription, hdisplay, hpurge⟩]
  rfl

/-- A difference is the renames as given; then the removals of just the old fields that are neither
renamed nor in the new definition; then, in the new order, an update of just the fields carried over
whose declarations differ and an addition of just the fields that come from none; a reordering just
when the fields carried over stand in another order than before; and a restatement just when what is
said of the schema as a whole differs. There is nothing to do just between definitions that are the
same, without renames. -/
theorem difference_minimal (hname : old.name = new.name) (ho : old.Distinct) (hn : new.Distinct)
    (hfit : RenamesFit old new renames) :
    difference old new renames = .ok
      (renames.map (fun rename => .renameField rename.source rename.target) ++
        (old.fieldNames.filter fun name =>
          name ∉ renames.map Rename.source ∧ name ∉ new.fieldNames).map .removeField ++
        (new.fields.zipIdx.filterMap fun entry => old.owed renames entry.1 entry.2) ++
        (if (carriedOver old new renames).Sublist old.fieldNames then []
          else [.reorderFields new.fieldNames]) ++
        (if old.description = new.description ∧ old.displayField = new.displayField ∧
            old.autoPurge = new.autoPurge then []
          else [.updateSchema new.description new.displayField new.autoPurge])) ∧
    (difference old new renames = .ok [] ↔ renames = [] ∧ old.same new = true) := by
  obtain ⟨reached, happly, -⟩ := apply_fieldChanges ho hn hfit
  have hreordering : reordering reached new =
      if (carriedOver old new renames).Sublist old.fieldNames then []
      else [.reorderFields new.fieldNames] :=
    if_congr (fieldNames_eq_iff ho hn hfit happly) rfl rfl
  refine ⟨?_, fun hnil => ?_, ?_⟩
  · refine difference_eq_ok_iff.mpr ⟨hfit, reached, happly, ?_⟩
    rw [removals_eq hfit, revisions_eq hfit, hreordering, restatement]
  · obtain ⟨-, found, -, hnone⟩ := difference_eq_ok_iff.mp hnil
    have hrenames : renames = [] := by
      simp only [List.nil_eq, List.append_eq_nil_iff, List.map_eq_nil_iff] at hnone
      exact hnone.1.1.1.1
    obtain ⟨same, ha, hsame, -⟩ := reached_of_difference hname ho hn hnil
    obtain rfl := Except.ok.inj ha
    exact ⟨hrenames, hsame⟩
  · rintro ⟨rfl, hs⟩
    exact difference_of_same hn hs

/-- An article whose text is renamed and moved before its title, whose title becomes required, whose
views are dropped and which gets a lead and a description, differs by one change of each kind. -/
theorem difference_of_redesigned_article :
    let article : Definition :=
      { name := "article"
        fields := [{ name := "title", type := .string }, { name := "text", type := .html },
          { name := "views", type := .number }, { name := "draft", type := .boolean }] }
    let redesigned : Definition :=
      { name := "article"
        description := some "An article."
        fields := [{ name := "lead", type := .string }, { name := "body", type := .html },
          { name := "title", type := .string, required := true },
          { name := "draft", type := .boolean }] }
    difference article redesigned [⟨"text", "body"⟩] = .ok
      [.renameField "text" "body", .removeField "views",
        .addField { name := "lead", type := .string } (some 0),
        .updateField { name := "title", type := .string, required := true },
        .reorderFields ["lead", "body", "title", "draft"],
        .updateSchema (some "An article.") none false] := by
  intro article redesigned
  have ho : article.Distinct := by decide +kernel
  have hn : redesigned.Distinct := by decide +kernel
  have hfit : RenamesFit article redesigned [⟨"text", "body"⟩] := by
    constructor <;> simp [article, redesigned, fieldNames]
  have hmoved : ¬ ["text", "title", "draft"].Sublist ["title", "text", "views", "draft"] := by
    decide +kernel
  have hname : article.name = redesigned.name := rfl
  refine (difference_minimal hname ho hn hfit).1.trans ?_
  simp [article, redesigned, fieldNames, carriedOver, owed, origin?, nameBefore, field?,
    List.zipIdx, FieldSpec.same, FieldSpec.sameDefault, hmoved]

end Definition

end VersionedContent
