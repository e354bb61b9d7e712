import VersionedContent.Proofs.Json.Members
import VersionedContent.Proofs.Schema.Difference
import VersionedContent.Proofs.Schema.Validity

/-!
# Definitions and changes written and read back

A definition that was written reads as it was, unless the default of a field is
`null`, which reads as no default. No type has a value that is read from `null`, so
a definition without issues has no such default, and neither have the fields that
a difference adds or declares anew, which are all fields of the new definition.
-/

namespace VersionedContent

/-- A type that was written is read back. -/
theorem FieldType.ofJson_name (type : FieldType) : ofJson (.string type.name) = .ok type := by
  cases type <;> rfl

/-- A type that was written is read back in a tagged record. -/
theorem FieldType.ofTaggedJson_name (type : FieldType) :
    ofTaggedJson (.string type.name) = .ok type := by
  cases type <;> rfl

namespace FieldSpec

/-- What stands under the names of its members where a field has been written. -/
structure Written (field : FieldSpec) (members : Json.Members) : Prop where
  /-- The name is always there. -/
  name : members.entries.lookup "name" = some (.string field.name)
  /-- So is the type. -/
  type : members.entries.lookup "type" = some (.string field.type.name)
  /-- The type of the items is there when there is one. -/
  listType : members.entries.lookup "list_type" =
    field.listType.map fun type => .string type.name
  /-- What is allowed is there when something is. -/
  allow : members.entries.lookup "allow" =
    if field.allow.isEmpty then none else some (Json.ofStrings field.allow)
  /-- Whether the field must be filled is always there. -/
  required : members.entries.lookup "required" = some (.bool field.required)
  /-- The default is there as it was given. -/
  default : members.entries.lookup "default" = field.default
  /-- The label is there when there is one. -/
  label : members.entries.lookup "label" = field.label.map .string

/-- A field is written as a record of its members. -/
theorem exists_written (field : FieldSpec) (expected : String) (names : List String) :
    ∃ members, field.toJson.asRecord expected names = .ok members ∧ field.Written members := by
  have hallow : (if field.allow.isEmpty then [] else [("allow", Json.ofStrings field.allow)]) =
      optionalMember "allow" (if field.allow.isEmpty then none
        else some (Json.ofStrings field.allow)) := by
    split <;> rfl
  refine ⟨_, rfl, ?_⟩
  rw [hallow]
  constructor <;> simp [List.lookup_append, lookup_optionalMember, List.lookup_cons]

/-- The default of a field as it is read back: a default that is `null` is none. -/
def keptDefault (field : FieldSpec) : Option Json :=
  match field.default with
  | some .null => none
  | other => other

/-- Only a default that is `null` is lost. -/
theorem keptDefault_eq_iff (field : FieldSpec) :
    field.keptDefault = field.default ↔ field.default ≠ some .null := by
  unfold keptDefault
  split
  · next h => simp [h]
  · next h => exact ⟨fun _ => h, fun _ => rfl⟩

/-- A field as it is read back. -/
def readBack (field : FieldSpec) : FieldSpec := { field with default := field.keptDefault }

/-- Just the fields whose default is not `null` read as they were written. -/
theorem readBack_eq_iff (field : FieldSpec) :
    field.readBack = field ↔ field.default ≠ some .null := by
  rw [← field.keptDefault_eq_iff]
  constructor
  · exact congrArg FieldSpec.default
  · intro h
    rw [readBack, h]

/-- A field that was written is read back, but for a default that is `null`, however its types are
read. -/
theorem ofJsonWith_toJson {type : Json → Except Mismatch FieldType}
    (htype : ∀ t : FieldType, type (.string t.name) = .ok t) (field : FieldSpec) :
    ofJsonWith type field.toJson = .ok field.readBack := by
  obtain ⟨members, hrecord, h⟩ := field.exists_written "struct FieldSchema" memberNames
  have hlist : members.optional "list_type" type = .ok field.listType :=
    Json.Members.optional_of_lookup h.listType (fun t _ => htype t) fun t _ => by simp
  have hallow : members.withDefault "allow" [] (Json.asList Json.asText) = .ok field.allow := by
    rw [Json.Members.withDefault, h.allow]
    cases field.allow with
    | nil => rfl
    | cons name rest => exact Json.asList_ofStrings (name :: rest)
  have hdefault : members.optional "default" Except.pure = .ok field.keptDefault := by
    rw [Json.Members.optional, h.default, keptDefault]
    split <;> simp_all [Except.map, Except.pure]
  have hlabel : members.optional "label" Json.asText = .ok field.label :=
    Json.Members.optional_text h.label
  simp only [ofJsonWith, hrecord, bind, Except.bind, pure, Except.pure,
    Json.Members.required_of_lookup h.name, Json.Members.required_of_lookup h.type, htype,
    Json.Members.withDefault_of_lookup h.required, hlist, hallow, hdefault, hlabel, Json.asText,
    Json.asBool]
  rfl

/-- A field that was written in a tagged record is read back, unless its default is `null`. -/
theorem ofTaggedJson_toJson {field : FieldSpec} (h : field.default ≠ some .null) :
    ofTaggedJson field.toJson = .ok field := by
  rw [ofTaggedJson, ofJsonWith_toJson FieldType.ofTaggedJson_name, field.readBack_eq_iff.mpr h]

/-- No field has a value that is read from `null`. -/
theorem exists_read_null_eq_error (field : FieldSpec) :
    ∃ cause, field.read .null = .error cause := by
  unfold read
  cases field.type <;> exact ⟨_, rfl⟩

end FieldSpec

namespace Definition

/-- The definition as it is read back: what is lost is the defaults that are `null`. -/
def readBack (definition : Definition) : Definition :=
  { definition with fields := definition.fields.map FieldSpec.readBack }

/-- A definition that was written is read back, but for the defaults that are `null`. -/
theorem ofJson_toJson (definition : Definition) :
    ofJson definition.toJson = .ok definition.readBack := by
  obtain ⟨members, hrecord, hname, hdescription, hdisplay, hpurge, hfields⟩ :
      ∃ members, definition.toJson.asRecord "struct SchemaDefinition" memberNames = .ok members ∧
        members.entries.lookup "name" = some (.string definition.name) ∧
        members.entries.lookup "description" = definition.description.map .string ∧
        members.entries.lookup "display_field" = definition.displayField.map .string ∧
        members.entries.lookup "auto_purge" = some (.bool definition.autoPurge) ∧
        members.entries.lookup "fields" =
          some (.array (definition.fields.map FieldSpec.toJson)) := by
    refine ⟨_, rfl, ?_, ?_, ?_, ?_, ?_⟩ <;>
      simp [List.lookup_append, lookup_optionalMember, List.lookup_cons]
  have hread : Json.asList FieldSpec.ofJson (.array (definition.fields.map FieldSpec.toJson)) =
      .ok definition.readBack.fields :=
    Json.asList_map fun field _ => FieldSpec.ofJsonWith_toJson FieldType.ofJson_name field
  simp only [ofJson, hrecord, bind, Except.bind, pure, Except.pure,
    Json.Members.required_of_lookup hname, Json.Members.optional_text hdescription,
    Json.Members.optional_text hdisplay, Json.Members.withDefault_of_lookup hpurge,
    Json.Members.required_of_lookup hfields, hread, Json.asText, Json.asBool]
  rfl

/-- A default that is `null` is lost. -/
example :
    let text : FieldSpec := { name := "text", type := .string }
    ofJson (toJson { name := "note", fields := [{ text with default := some .null }] }) =
      .ok { name := "note", fields := [text] } := rfl

/-- Just the definitions without a default that is `null` read as they were written. -/
theorem readBack_eq_iff (definition : Definition) :
    definition.readBack = definition ↔ ∀ field ∈ definition.fields, field.default ≠ some .null :=
  calc definition.readBack = definition
    _ ↔ definition.fields.map FieldSpec.readBack = definition.fields.map id := by
      rw [List.map_id]
      exact ⟨congrArg fields, fun h => by rw [readBack, h]⟩
    _ ↔ ∀ field ∈ definition.fields, field.readBack = field := List.map_inj_left
    _ ↔ ∀ field ∈ definition.fields, field.default ≠ some .null :=
      forall₂_congr fun field _ => field.readBack_eq_iff

/-- A definition without issues has no default that is `null`. -/
theorem default_ne_null_of_issues {definition : Definition} {kind : Kind}
    (h : definition.issues kind = []) {field : FieldSpec} (hm : field ∈ definition.fields) :
    field.default ≠ some .null := by
  intro hd
  obtain ⟨value, hok⟩ := exists_read_of_issues h hm hd
  obtain ⟨cause, herror⟩ := field.exists_read_null_eq_error
  rw [herror] at hok
  cases hok

end Definition

namespace Change

/-- Whether a change reads as it was written: the default that it brings in is not `null`, and its
position takes no more than 64 bits. -/
def IsLegible : Change → Prop
  | addField field position =>
    field.default ≠ some .null ∧ ∀ n, position = some n → n < 18446744073709551616
  | updateField field => field.default ≠ some .null
  | _ => True

/-- A legible change that was written is read back. -/
theorem ofJson_toJson {change : Change} (h : change.IsLegible) :
    ofJson change.toJson = .ok change := by
  cases change with
  | addField field position =>
    obtain ⟨hdefault, hposition⟩ := h
    have hfield := FieldSpec.ofTaggedJson_toJson hdefault
    cases position with
    | none =>
      change (FieldSpec.ofTaggedJson field.toJson).bind (fun f => .ok (addField f none)) = _
      rw [hfield]
      rfl
    | some n =>
      change (FieldSpec.ofTaggedJson field.toJson).bind (fun f =>
        ((Json.asNat64 (.integer n)).map some).bind fun p => .ok (addField f p)) = _
      rw [hfield, Json.asNat64_integer (hposition n rfl)]
      rfl
  | updateField field =>
    change (FieldSpec.ofTaggedJson field.toJson).bind (fun f => .ok (updateField f)) = _
    rw [FieldSpec.ofTaggedJson_toJson h]
    rfl
  | removeField field => rfl
  | renameField source target => rfl
  | reorderFields order =>
    change (Json.asList Json.asText (Json.ofStrings order)).bind
      (fun names => .ok (reorderFields names)) = _
    rw [Json.asList_ofStrings]
    rfl
  | updateSchema description displayField autoPurge =>
    cases description <;> cases displayField <;> rfl

/-- What a difference leads to is said in legible changes, if the definition that it leads to has
no issues and no more fields than 64 bits count. -/
theorem isLegible_of_arises {definition : Definition} {kind : Kind}
    (h : definition.issues kind = [])
    (hlength : definition.fields.length ≤ 18446744073709551616) {change : Change}
    (ha : definition.Arises change) : change.IsLegible := by
  cases ha with
  | addition declared =>
    refine ⟨Definition.default_ne_null_of_issues h (List.mem_of_getElem? declared), ?_⟩
    intro n hn
    obtain ⟨hlt, -⟩ := List.getElem?_eq_some_iff.mp declared
    have hle : n = _ := (Option.some.inj hn).symm
    omega
  | update declared => exact Definition.default_ne_null_of_issues h declared
  | rename => trivial
  | removal => trivial
  | reordering => trivial
  | restatement => trivial

end Change

namespace Definition

/-- Definitions without issues read as they were written, and just because their defaults are not
`null`; so do the changes, one by one and as a list, that lead from any definition to one without
issues. -/
theorem definitions_and_changes_survive :
    (∀ kind (definition : Definition), definition.issues kind = [] →
      ofJson definition.toJson = .ok definition) ∧
    (∀ definition : Definition, ofJson definition.toJson = .ok definition ↔
      ∀ field ∈ definition.fields, field.default ≠ some .null) ∧
    ∀ kind (old new : Definition) renames changes, new.issues kind = [] →
      new.fields.length ≤ 18446744073709551616 →
      difference old new renames = .ok changes →
      (∀ change ∈ changes, Change.ofJson change.toJson = .ok change) ∧
        Json.asList Change.ofJson (.array (changes.map Change.toJson)) = .ok changes := by
  have hback (definition : Definition) : ofJson definition.toJson = .ok definition ↔
      ∀ field ∈ definition.fields, field.default ≠ some .null := by
    rw [ofJson_toJson, Except.ok.injEq, readBack_eq_iff]
  refine ⟨fun kind definition h => (hback definition).mpr fun field hm => ?_, hback,
    fun kind old new renames changes h hlength hchanges => ?_⟩
  · exact default_ne_null_of_issues h hm
  · have hread : ∀ change ∈ changes, Change.ofJson change.toJson = .ok change := fun change hm =>
      Change.ofJson_toJson (Change.isLegible_of_arises h hlength (arises_of_difference hchanges hm))
    exact ⟨hread, Json.asList_map_self hread⟩

/-- An article that gets a number of each kind, tags and a caption survives, and so do the changes
that bring these in. -/
theorem tagged_article_survives :
    let article : Definition :=
      { name := "article", fields := [{ name := "title", type := .string }] }
    let views : FieldSpec := { name := "views", type := .number, default := some (.integer 1) }
    let rating : FieldSpec := { name := "rating", type := .number, default := some (.float .one) }
    let tags : FieldSpec :=
      { name := "tags", type := .list, listType := some .string,
        default := some (.array [.string "new"]) }
    let title : FieldSpec := { name := "title", type := .string, label := some "Title" }
    let tagged : Definition :=
      { name := "article", displayField := some "title", fields := [views, rating, tags, title] }
    let changes : List Change :=
      [.addField views (some 0), .addField rating (some 1), .addField tags (some 2),
        .updateField title, .updateSchema none (some "title") false]
    tagged.issues .schema = [] ∧ tagged.fields.length ≤ 18446744073709551616 ∧
      difference article tagged [] = .ok changes ∧ ofJson tagged.toJson = .ok tagged ∧
      Json.asList Change.ofJson (.array (changes.map Change.toJson)) = .ok changes := by
  intro article views rating tags title tagged changes
  have hissues : tagged.issues .schema = [] := by
    rw [← List.isEmpty_iff]
    decide +kernel
  have hlength : tagged.fields.length ≤ 18446744073709551616 := by decide
  have hchanges : difference article tagged [] = .ok changes := rfl
  obtain ⟨hdefinition, -, hchange⟩ := definitions_and_changes_survive
  exact ⟨hissues, hlength, hchanges, hdefinition _ _ hissues,
    (hchange _ _ _ _ _ hissues hlength hchanges).2⟩

end Definition

end VersionedContent
