import VersionedContent.Proofs.Collection.Traversal
import VersionedContent.Proofs.Content.Singles

/-!
# Values that fit their fields

A field of single values holds values of its type, a list holds lists of its
element type, and embedded content is of a microschema that the field admits.
Whatever is read or converted for a field fits it.
-/

namespace VersionedContent

namespace FieldSpec

/-- Whether a field may hold a single value as one of a type. -/
structure FitsAs (field : FieldSpec) (type : FieldType) (value : FieldValue) : Prop where
  /-- The value has the type. -/
  type : value.type = type
  /-- The value is no list. -/
  single : value.type ≠ .list
  /-- Embedded content is of an admitted microschema. -/
  admitted : ∀ content, value = .micronode content → field.admits content = true

/-- Whether a field may hold a value. -/
def Fits (field : FieldSpec) (value : FieldValue) : Prop :=
  match field.type with
  | .list => ∃ items, value = .list items ∧ ∀ item ∈ items, field.FitsAs field.elementType item
  | type => field.FitsAs type value

variable {field : FieldSpec} {type : FieldType}

/-- A list may hold what fits its element type. -/
theorem fits_iff_of_list (h : field.type = .list) {value : FieldValue} :
    field.Fits value ↔ ∃ items, value = .list items ∧
      ∀ item ∈ items, field.FitsAs field.elementType item := by
  rw [Fits, h]

/-- A field that is no list may hold what fits its type. -/
theorem fits_iff_of_single (h : field.type ≠ .list) {value : FieldValue} :
    field.Fits value ↔ field.FitsAs field.type value := by
  unfold Fits
  split
  · contradiction
  · rfl

/-- What is neither a list nor embedded content fits its own type. -/
theorem fitsAs_of_plain {value : FieldValue} (h : value.type = type) (hl : type ≠ .list)
    (hm : type ≠ .micronode) : field.FitsAs type value where
  type := h
  single := h ▸ hl
  admitted content he := by
    rw [he] at h
    exact absurd h.symm hm

/-- Embedded content that passes the check fits. -/
theorem fitsAs_of_checkAllowed {content : Micronode} {value : FieldValue}
    (h : field.checkAllowed content = .ok value) : field.FitsAs .micronode value := by
  unfold checkAllowed at h
  split at h
  · next ha =>
    obtain rfl := Except.ok.inj h
    refine ⟨rfl, by simp [FieldValue.type], fun other he => ?_⟩
    obtain rfl := FieldValue.micronode.inj he
    exact ha
  · cases h

/-- A single value that is read fits the type it is read as. -/
theorem fitsAs_of_readScalar {json : Json} {value : FieldValue}
    (h : field.readScalar type json = .ok value) : field.FitsAs type value := by
  unfold readScalar at h
  split at h
  case h_6 =>
    obtain ⟨instant, -, rfl⟩ := exists_of_map_eq_ok h
    exact fitsAs_of_plain rfl (by decide) (by decide)
  case h_8 =>
    split at h
    · exact fitsAs_of_checkAllowed h
    · cases h
  all_goals
    cases h
    try exact fitsAs_of_plain rfl (by decide) (by decide)

/-- What is read for a field fits it. -/
theorem fits_of_read {json : Json} {value : FieldValue} (h : field.read json = .ok value) :
    field.Fits value := by
  by_cases hl : field.type = .list
  · simp only [read, hl] at h
    split at h
    · obtain ⟨items, hi, rfl⟩ := exists_of_map_eq_ok h
      refine (fits_iff_of_list hl).mpr ⟨items, rfl, fun item hm => ?_⟩
      obtain ⟨json, -, hr⟩ := exists_of_mem_mapM hi item hm
      exact fitsAs_of_readScalar hr
    · cases h
  · rw [read_of_single hl, elementType_of_single hl] at h
    exact (fits_iff_of_single hl).mpr (fitsAs_of_readScalar h)

/-- A single value that is converted fits the type it is converted to. -/
theorem fitsAs_of_convertScalar {value converted : FieldValue}
    (h : field.convertScalar type value = .ok converted) : field.FitsAs type converted := by
  unfold convertScalar at h
  split at h
  -- Texts may be no numbers, dates or truth values, so these conversions have to be read.
  case h_12 | h_13 | h_15 | h_17 | h_18 | h_21 | h_22 =>
    obtain ⟨read, -, rfl⟩ := exists_of_map_eq_ok h
    exact fitsAs_of_plain rfl (by decide) (by decide)
  case h_19 =>
    split at h
    · cases h
      exact fitsAs_of_plain rfl (by decide) (by decide)
    · split at h
      · cases h
        exact fitsAs_of_plain rfl (by decide) (by decide)
      · cases h
  case h_23 =>
    split at h
    · cases h
      exact fitsAs_of_plain rfl (by decide) (by decide)
    · cases h
  case h_25 => exact fitsAs_of_checkAllowed h
  all_goals
    cases h
    try exact fitsAs_of_plain rfl (by decide) (by decide)

/-- What a value is converted to for a field fits it. -/
theorem fits_of_convert {value converted : FieldValue}
    (h : field.convert value = .ok (some converted)) : field.Fits converted := by
  by_cases hl : field.type = .list
  · rw [convert_of_list hl] at h
    obtain ⟨results, hr, he⟩ := exists_of_map_eq_ok h
    obtain rfl := Option.some.inj he
    refine (fits_iff_of_list hl).mpr ⟨results, rfl, fun item hm => ?_⟩
    obtain ⟨source, -, hc⟩ := exists_of_mem_mapM hr item hm
    exact fitsAs_of_convertScalar hc
  · rw [convert_of_single hl, elementType_of_single hl] at h
    split at h
    · cases h
    · obtain ⟨item, hc, he⟩ := exists_of_map_eq_ok h
      obtain rfl := Option.some.inj he
      exact (fits_iff_of_single hl).mpr (fitsAs_of_convertScalar hc)

/-- Fields of the same types that admit the same microschemas hold the same values. -/
theorem Fits.congr {other : FieldSpec} {value : FieldValue} (h : field.Fits value)
    (ht : other.type = field.type) (hl : other.listType = field.listType)
    (ha : other.allow = field.allow) : other.Fits value := by
  have hadmits : other.admits = field.admits := by
    funext content
    rw [admits, admits, allows, allows, ha]
  have helement : other.elementType = field.elementType := by
    rw [elementType, elementType, ht, hl]
  have hfits : ∀ {type value}, field.FitsAs type value → other.FitsAs type value := by
    intro type value hf
    exact ⟨hf.type, hf.single, fun content he => hadmits ▸ hf.admitted content he⟩
  by_cases hlist : field.type = .list
  · obtain ⟨items, rfl, hitems⟩ := (fits_iff_of_list hlist).mp h
    refine (fits_iff_of_list (ht.trans hlist)).mpr ⟨items, rfl, fun item hm => ?_⟩
    rw [helement]
    exact hfits (hitems item hm)
  · apply (fits_iff_of_single (ht ▸ hlist)).mpr
    rw [ht]
    exact hfits ((fits_iff_of_single hlist).mp h)

end FieldSpec

end VersionedContent
