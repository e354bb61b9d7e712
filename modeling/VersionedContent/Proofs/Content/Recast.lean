import VersionedContent.Content.Container
import VersionedContent.Content.Migration
import VersionedContent.Proofs.Collection.Traversal

/-!
# Embedded content that is recast

Embedded content that follows one version of its microschema is recast when its
fields have been migrated and it follows another version. It stands in a field, or
as an item of a list. Values are recast as a whole: fields keep their names and
lists their items, in order, and what follows any other version stays as it is.
-/

namespace VersionedContent

/-- Whether a field of a container is embedded content, or a list with it as an item. -/
def Container.Embeds (container : Container) (content : Micronode) : Prop :=
  ∃ name value, (name, value) ∈ container.fields ∧
    (value = .micronode content ∨ ∃ items, value = .list items ∧ .micronode content ∈ items)

/-- The embedded content of a value is the value, or an item of it. -/
theorem FieldValue.mem_micronodes {value : FieldValue} {content : Micronode} :
    content ∈ value.micronodes ↔
      value = .micronode content ∨ ∃ items, value = .list items ∧ .micronode content ∈ items := by
  cases value with
  | micronode other => simp [micronodes, eq_comm]
  | list items =>
    have hitem : ∀ item : FieldValue, item.micronode? = some content ↔
        item = .micronode content := by
      intro item
      cases item <;> simp [micronode?]
    simp [micronodes, hitem]
  | _ => simp [micronodes]

/-- The embedded content that is looked through is that of the fields. -/
theorem Container.mem_micronodes {container : Container} {content : Micronode} :
    content ∈ container.micronodes ↔ container.Embeds content := by
  simp only [micronodes, Dict.values, List.mem_flatMap, List.mem_map, Prod.exists,
    FieldValue.mem_micronodes, Embeds]
  constructor
  · rintro ⟨value, ⟨name, _, hm, rfl⟩, hv⟩
    exact ⟨name, _, hm, hv⟩
  · rintro ⟨name, value, hm, hv⟩
    exact ⟨value, ⟨name, value, hm, rfl⟩, hv⟩

/-- A container is found to embed content at a version when it does. -/
theorem Container.holdsMicronodeVersion_iff {container : Container} {versionId : Id} :
    container.holdsMicronodeVersion versionId = true ↔
      ∃ content, container.Embeds content ∧ content.versionId = versionId := by
  simp [holdsMicronodeVersion, mem_micronodes]

namespace Embedding

variable {plan : Embedding}

/-- Whether embedded content can be recast, if it has to be. -/
def Accepts (plan : Embedding) (content : Micronode) : Prop :=
  content.versionId = plan.source →
    ∃ fields, migrateFields content.fields plan.changes plan.definition = .ok fields

/-- What becomes of embedded content. -/
inductive Recast (plan : Embedding) : Micronode → Micronode → Prop
  /-- What follows the source follows the target, with the fields that are migrated. -/
  | moves {content : Micronode} {fields : FieldMap} (follows : content.versionId = plan.source)
      (migrated : migrateFields content.fields plan.changes plan.definition = .ok fields) :
      Recast plan content { content with versionId := plan.target, fields := fields }
  /-- What follows another version stays as it is. -/
  | stays {content : Micronode} (other : content.versionId ≠ plan.source) :
      Recast plan content content

/-- What becomes of a value that is no list, or of an item of a list. -/
inductive RecastItem (plan : Embedding) : FieldValue → FieldValue → Prop
  /-- Embedded content is recast. -/
  | micronode {content recast : Micronode} (recasts : plan.Recast content recast) :
      RecastItem plan (.micronode content) (.micronode recast)
  /-- Any other value stays as it is. -/
  | plain {value : FieldValue} (plain : value.micronode? = none) : RecastItem plan value value

/-- What becomes of the value of a field. -/
inductive RecastValue (plan : Embedding) : FieldValue → FieldValue → Prop
  /-- A list keeps its items, in order, each recast. -/
  | list {items recast : List FieldValue} (recasts : List.Forall₂ plan.RecastItem items recast) :
      RecastValue plan (.list items) (.list recast)
  /-- Any other value is recast as an item is. -/
  | item {value recast : FieldValue} (single : value.type ≠ .list)
      (recasts : plan.RecastItem value recast) : RecastValue plan value recast

/-- What becomes of fields: they keep their names and their order. -/
def RecastFields (plan : Embedding) (fields recast : FieldMap) : Prop :=
  List.Forall₂ (fun entry other => other.1 = entry.1 ∧ plan.RecastValue entry.2 other.2)
    fields recast

/-- Embedded content moves as it is recast. -/
theorem carryMicronode_eq_ok_iff {content recast : Micronode} :
    plan.carryMicronode content = .ok recast ↔ plan.Recast content recast := by
  unfold carryMicronode
  constructor
  · intro h
    split_ifs at h with hs
    · cases hm : migrateFields content.fields plan.changes plan.definition with
      | error error => simp [hm, Except.map] at h
      | ok fields =>
        rw [hm] at h
        obtain rfl := Except.ok.inj h
        exact .moves hs hm
    · obtain rfl := Except.ok.inj h
      exact .stays hs
  · rintro (⟨hs, hm⟩ | hs)
    · rw [if_pos hs, hm]
      rfl
    · rw [if_neg hs]

/-- Items of lists move as they are recast. -/
theorem carryItem_eq_ok_iff {item recast : FieldValue} :
    plan.carryItem item = .ok recast ↔ plan.RecastItem item recast := by
  constructor
  · intro h
    cases item with
    | micronode content =>
      cases hc : plan.carryMicronode content with
      | error error => simp [carryItem, hc, Except.map] at h
      | ok other =>
        simp only [carryItem, hc, Except.map, Except.ok.injEq] at h
        exact h ▸ .micronode (carryMicronode_eq_ok_iff.mp hc)
    | _ => exact Except.ok.inj h ▸ .plain rfl
  · rintro (hr | hp)
    · simp [carryItem, carryMicronode_eq_ok_iff.mpr hr, Except.map]
    · cases item with
      | micronode content => cases hp
      | _ => rfl

/-- Values that are no lists move as items do. -/
theorem carryValue_of_single {value : FieldValue} (h : value.type ≠ .list) :
    plan.carryValue value = plan.carryItem value := by
  cases value with
  | list items => exact absurd rfl h
  | _ => rfl

/-- The values of fields move as they are recast. -/
theorem carryValue_eq_ok_iff {value recast : FieldValue} :
    plan.carryValue value = .ok recast ↔ plan.RecastValue value recast := by
  constructor
  · intro h
    by_cases hl : value.type = .list
    · cases value with
      | list items =>
        cases hm : items.mapM plan.carryItem with
        | error error => simp [carryValue, hm, Except.map] at h
        | ok others =>
          simp only [carryValue, hm, Except.map, Except.ok.injEq] at h
          exact h ▸ .list ((mapM_eq_ok_iff.mp hm).imp fun _ _ => carryItem_eq_ok_iff.mp)
      | _ => cases hl
    · rw [carryValue_of_single hl] at h
      exact .item hl (carryItem_eq_ok_iff.mp h)
  · rintro (hr | ⟨hl, hr⟩)
    · have hm := mapM_eq_ok_iff.mpr (hr.imp fun _ _ => (@carryItem_eq_ok_iff plan _ _).mpr)
      simp [carryValue, hm, Except.map]
    · rw [carryValue_of_single hl]
      exact carryItem_eq_ok_iff.mpr hr

/-- Fields move as they are recast. -/
theorem carry_eq_ok_iff {fields recast : FieldMap} :
    plan.carry fields = .ok recast ↔ plan.RecastFields fields recast := by
  rw [carry, mapM_eq_ok_iff, RecastFields]
  refine iff_of_eq (congrFun (congrFun (congrArg List.Forall₂ ?_) fields) recast)
  funext entry other
  rw [← carryValue_eq_ok_iff, eq_iff_iff]
  cases hv : plan.carryValue entry.2 with
  | error error => simp
  | ok value =>
    simp only [Except.ok.injEq]
    rw [eq_comm, Prod.ext_iff]
    exact and_congr_right fun _ => eq_comm

/-- Embedded content moves when it can be recast. -/
theorem exists_carryMicronode_iff {content : Micronode} :
    (∃ recast, plan.carryMicronode content = .ok recast) ↔ plan.Accepts content := by
  unfold carryMicronode Accepts
  split_ifs with hs
  · rw [exists_map_eq_ok_iff, forall_prop_of_true hs]
  · simp [hs]

/-- A value that is no list, or an item, moves when the content that it is can be recast. -/
theorem exists_carryItem_iff {item : FieldValue} :
    (∃ recast, plan.carryItem item = .ok recast) ↔
      ∀ content, item = .micronode content → plan.Accepts content := by
  cases item with
  | micronode content =>
    refine exists_map_eq_ok_iff.trans (exists_carryMicronode_iff.trans ?_)
    simp
  | _ => simp [carryItem]

/-- The value of a field moves when all its embedded content can be recast. -/
theorem exists_carryValue_iff {value : FieldValue} :
    (∃ recast, plan.carryValue value = .ok recast) ↔
      ∀ content ∈ value.micronodes, plan.Accepts content := by
  by_cases hl : value.type = .list
  · cases value with
    | list items =>
      refine exists_map_eq_ok_iff.trans (exists_mapM_eq_ok_iff.trans ?_)
      simp only [exists_carryItem_iff, FieldValue.mem_micronodes]
      constructor
      · rintro h content (hc | ⟨others, ho, hm⟩)
        · cases hc
        · cases ho
          exact h _ hm content rfl
      · rintro h item hm content rfl
        exact h content (.inr ⟨items, rfl, hm⟩)
    | _ => cases hl
  · rw [carryValue_of_single hl, exists_carryItem_iff]
    refine forall_congr' fun content => imp_congr_left ?_
    rw [FieldValue.mem_micronodes, or_iff_left]
    rintro ⟨items, rfl, -⟩
    exact hl rfl

/-- The fields of a container move when all its embedded content can be recast. -/
theorem exists_carry_iff {container : Container} :
    (∃ fields, plan.carry container.fields = .ok fields) ↔
      ∀ content, container.Embeds content → plan.Accepts content := by
  have hentries : (∃ fields, plan.carry container.fields = .ok fields) ↔
      ∀ entry ∈ container.fields, ∀ content ∈ entry.2.micronodes, plan.Accepts content := by
    refine exists_mapM_eq_ok_iff.trans (forall₂_congr fun entry _ => ?_)
    rw [← exists_carryValue_iff]
    cases plan.carryValue entry.2 <;> simp
  refine hentries.trans ?_
  simp only [FieldValue.mem_micronodes]
  constructor
  · rintro h content ⟨name, value, hm, hv⟩
    exact h (name, value) hm content hv
  · intro h entry hm content hv
    exact h content ⟨entry.1, entry.2, hm, hv⟩

/-- What a recast value embeds has been recast. -/
theorem RecastValue.exists_of_mem_micronodes {value recast : FieldValue}
    (h : plan.RecastValue value recast) {content : Micronode} (hm : content ∈ recast.micronodes) :
    ∃ origin ∈ value.micronodes, plan.Recast origin content := by
  have hitem : ∀ {item : FieldValue}, plan.RecastItem item (.micronode content) →
      ∃ origin, item = .micronode origin ∧ plan.Recast origin content := by
    rintro _ (⟨hr⟩ | hp)
    · exact ⟨_, rfl, hr⟩
    · cases hp
  rw [FieldValue.mem_micronodes] at hm
  cases h with
  | @list items others hr =>
    obtain hm | ⟨_, ⟨⟩, hm⟩ := hm
    · cases hm
    · obtain ⟨item, hi, hr⟩ := exists_of_mem_forall₂ hr _ hm
      obtain ⟨origin, rfl, hrecast⟩ := hitem hr
      exact ⟨origin, FieldValue.mem_micronodes.mpr (.inr ⟨items, rfl, hi⟩), hrecast⟩
  | item single hr =>
    obtain rfl | ⟨items, rfl, -⟩ := hm
    · obtain ⟨origin, rfl, hrecast⟩ := hitem hr
      exact ⟨origin, FieldValue.mem_micronodes.mpr (.inl rfl), hrecast⟩
    · rcases hr with _ | hp
      exact absurd rfl single

/-- What a container with recast fields embeds has been recast. -/
theorem RecastFields.exists_of_embeds {container other : Container}
    (h : plan.RecastFields container.fields other.fields) {content : Micronode}
    (he : other.Embeds content) :
    ∃ origin, container.Embeds origin ∧ plan.Recast origin content := by
  obtain ⟨name, value, hm, hv⟩ := he
  obtain ⟨⟨_, before⟩, hb, -, hr⟩ := exists_of_mem_forall₂ h _ hm
  obtain ⟨origin, ho, hr⟩ := hr.exists_of_mem_micronodes (FieldValue.mem_micronodes.mpr hv)
  exact ⟨origin, ⟨_, before, hb, FieldValue.mem_micronodes.mp ho⟩, hr⟩

/-- Embedded content that does not move follows the source and cannot be migrated. -/
theorem of_carryMicronode_eq_error {content : Micronode} {error : FieldError}
    (h : plan.carryMicronode content = .error error) :
    content.versionId = plan.source ∧
      migrateFields content.fields plan.changes plan.definition = .error error := by
  unfold carryMicronode at h
  split_ifs at h with hs
  cases hm : migrateFields content.fields plan.changes plan.definition with
  | error cause =>
    rw [hm] at h
    exact ⟨hs, congrArg Except.error (Except.error.inj h)⟩
  | ok fields =>
    rw [hm] at h
    cases h

/-- An item does not move when it is embedded content that does not move. -/
theorem of_carryItem_eq_error {item : FieldValue} {error : FieldError}
    (h : plan.carryItem item = .error error) :
    ∃ content, item = .micronode content ∧ plan.carryMicronode content = .error error := by
  cases item with
  | micronode content =>
    refine ⟨content, rfl, ?_⟩
    cases hc : plan.carryMicronode content with
    | error cause =>
      rw [carryItem, hc] at h
      exact congrArg Except.error (Except.error.inj h)
    | ok recast =>
      rw [carryItem, hc] at h
      cases h
  | _ => cases h

/-- A value does not move when some of its embedded content does not move. -/
theorem of_carryValue_eq_error {value : FieldValue} {error : FieldError}
    (h : plan.carryValue value = .error error) :
    ∃ content ∈ value.micronodes, plan.carryMicronode content = .error error := by
  by_cases hl : value.type = .list
  · cases value with
    | list items =>
      cases hm : items.mapM plan.carryItem with
      | error cause =>
        rw [carryValue, hm] at h
        obtain rfl := Except.error.inj h
        obtain ⟨item, hitem, hc⟩ := exists_of_mapM_eq_error hm
        obtain ⟨content, rfl, he⟩ := of_carryItem_eq_error hc
        exact ⟨content, FieldValue.mem_micronodes.mpr (.inr ⟨items, rfl, hitem⟩), he⟩
      | ok recast =>
        rw [carryValue, hm] at h
        cases h
    | _ => cases hl
  · rw [carryValue_of_single hl] at h
    obtain ⟨content, rfl, he⟩ := of_carryItem_eq_error h
    exact ⟨content, FieldValue.mem_micronodes.mpr (.inl rfl), he⟩

/-- What keeps the fields of a container from moving is embedded content whose fields cannot be
migrated; the path leads through the outer field to the inner one. -/
theorem exists_of_carry_eq_error {fields : FieldMap} {error : FieldError}
    (h : plan.carry fields = .error error) :
    ∃ name value content cause, (name, value) ∈ fields ∧ content ∈ value.micronodes ∧
      content.versionId = plan.source ∧
      migrateFields content.fields plan.changes plan.definition = .error cause ∧
      error.field = name ++ "." ++ cause.field ∧ error.cause = cause.cause := by
  obtain ⟨⟨name, value⟩, hm, he⟩ := exists_of_mapM_eq_error h
  dsimp only at he
  cases hv : plan.carryValue value with
  | ok recast =>
    rw [hv] at he
    cases he
  | error cause =>
    rw [hv] at he
    obtain rfl := Except.error.inj he
    obtain ⟨content, hcontent, hc⟩ := of_carryValue_eq_error hv
    obtain ⟨hs, hf⟩ := of_carryMicronode_eq_error hc
    exact ⟨name, value, content, cause, hm, hcontent, hs, hf, rfl, rfl⟩

end Embedding

end VersionedContent
