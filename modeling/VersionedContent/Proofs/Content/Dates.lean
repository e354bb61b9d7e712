import VersionedContent.Proofs.Content.Fits
import VersionedContent.Proofs.Content.Steps
import VersionedContent.Proofs.Time.Writing

/-!
# Dates that are stored

A date that is made of a text or a number is stored as the text of an instant. That
text is read back as the same instant in the years of four digits, and in no other: there
a later conversion of the stored date to a number fails.
-/

namespace VersionedContent

/-- A date is read when the text between its blanks is. -/
theorem readDate_eq_ok_iff {text : String} {t : Instant} :
    readDate text = .ok t ↔ Instant.read? (Text.trim text) = some t := by
  delta readDate
  cases Instant.read? (Text.trim text) <;> simp

/-- The text of an instant is a date where its year has four digits, and else none. -/
theorem Instant.Regular.readDate_text {t : Instant} (ht : t.Regular) :
    readDate t.text =
      if 0 ≤ t.date.year ∧ t.date.year ≤ 9999 then .ok t else .error (.notDate t.text) := by
  delta readDate
  rw [Instant.trim_text, ht.read?_text]
  split_ifs <;> rfl

namespace FieldValue

/-- The instant that a text or a number stands for where a date is asked for. -/
def instant? : FieldValue → Option Instant
  | string text | html text => Instant.read? (Text.trim text)
  | number x => Instant.ofMillis? x.truncate
  | _ => none

/-- Texts and numbers stand for regular instants. -/
theorem regular_of_instant? {value : FieldValue} {t : Instant} (h : value.instant? = some t) :
    t.Regular := by
  cases value with
  | string text | html text => exact Instant.regular_of_read? h
  | number x => exact Instant.regular_of_ofMillis? h
  | _ => cases h

end FieldValue

/-- A text that an instant is stored as, and what becomes of it when it is asked for again. -/
structure Instant.StoredAs (t : Instant) (text : String) : Prop where
  /-- It is the text of the instant. -/
  text_eq : text = t.text
  /-- It is read back as the instant where the year has four digits, and else not read. -/
  readDate_eq : readDate text =
    if 0 ≤ t.date.year ∧ t.date.year ≤ 9999 then .ok t else .error (.notDate text)
  /-- As a single value of any field it becomes the milliseconds where the year has four digits, and
  else no number. -/
  convertScalar_eq : ∀ field : FieldSpec, field.convertScalar .number (.date text) =
    if 0 ≤ t.date.year ∧ t.date.year ≤ 9999 then .ok (.number (.ofInt t.toMillis))
    else .error (.notDate text)
  /-- An update of its field to a number succeeds where the year has four digits, and else fails
  because of it. -/
  migrate_eq : ∀ (field : FieldSpec) (fields : FieldMap), field.type = .number →
    Dict.get? fields field.name = some (.date text) →
      (Change.updateField field).migrate fields =
        if 0 ≤ t.date.year ∧ t.date.year ≤ 9999 then
          .ok (Dict.insert fields field.name (.number (.ofInt t.toMillis)))
        else .error ⟨field.name, .notDate text⟩

/-- The text of a regular instant is one that it is stored as. -/
theorem Instant.Regular.storedAs_text {t : Instant} (ht : t.Regular) : t.StoredAs t.text := by
  have hscalar (field : FieldSpec) : field.convertScalar .number (.date t.text) =
      if 0 ≤ t.date.year ∧ t.date.year ≤ 9999 then .ok (.number (.ofInt t.toMillis))
      else .error (.notDate t.text) := by
    simp only [FieldSpec.convertScalar, ht.readDate_text]
    split_ifs <;> rfl
  refine ⟨rfl, ht.readDate_text, hscalar, fun field fields htype hg => ?_⟩
  simp only [Change.migrate, hg, FieldSpec.convert, htype, hscalar]
  split_ifs <;> rfl

namespace FieldSpec

variable {field : FieldSpec}

/-- Each single value of what a value is converted to is converted from the one at its place. -/
theorem exists_source_of_convert {value converted : FieldValue}
    (h : field.convert value = .ok (some converted)) {i : Nat} {item : FieldValue}
    (hi : converted.items[i]? = some item) :
    ∃ source, value.items[i]? = some source ∧
      field.convertScalar field.elementType source = .ok item := by
  by_cases hl : field.type = .list
  · rw [convert_of_list hl] at h
    obtain ⟨results, hr, he⟩ := exists_of_map_eq_ok h
    obtain rfl := Option.some.inj he
    exact exists_of_getElem?_mapM hr hi
  · rw [convert_of_single hl] at h
    split at h
    · cases h
    · next first rest hitems =>
      obtain ⟨result, hc, he⟩ := exists_of_map_eq_ok h
      obtain rfl := Option.some.inj he
      rw [FieldValue.items_of_single (fitsAs_of_convertScalar hc).single,
        List.getElem?_singleton] at hi
      split_ifs at hi with hzero
      obtain rfl := Option.some.inj hi
      exact ⟨first, by rw [hitems, hzero, List.getElem?_cons_zero], hc⟩

/-- A date that comes of a conversion was a date with the same text, or is the text of the instant
that the value stood for. -/
theorem source_of_date {type : FieldType} {source : FieldValue} {text : String}
    (h : field.convertScalar type source = .ok (.date text)) :
    source = .date text ∨ ∃ t, source.instant? = some t ∧ text = t.text := by
  have htype : type = .date := (fitsAs_of_convertScalar h).type.symm
  subst htype
  cases source with
  | string raw | html raw =>
    simp only [convertScalar] at h
    obtain ⟨t, ht, he⟩ := exists_of_map_eq_ok h
    exact .inr ⟨t, readDate_eq_ok_iff.mp ht, (FieldValue.date.inj he).symm⟩
  | number x =>
    simp only [convertScalar] at h
    split at h
    · next t ht => exact .inr ⟨t, ht, (FieldValue.date.inj (Except.ok.inj h)).symm⟩
    · cases h
  | date stored =>
    simp only [convertScalar] at h
    exact .inl (Except.ok.inj h)
  | _ => simp [convertScalar] at h

/-- What stands for an instant is carried to a date as the text of the instant. -/
theorem convert_of_instant? (h : field.type = .date) {source : FieldValue} {t : Instant}
    (ht : source.instant? = some t) : field.convert source = .ok (some (.date t.text)) := by
  cases source with
  | string raw | html raw =>
    have hread : readDate raw = .ok t := readDate_eq_ok_iff.mpr ht
    simp only [convert, h, convertScalar, hread, Except.map]
  | number x =>
    have hmillis : Instant.ofMillis? x.truncate = some t := ht
    simp only [convert, h, convertScalar, hmillis, Except.map]
  | _ => cases ht

/-- Embedded content that comes of a conversion was there as it stands. -/
theorem source_of_micronode {type : FieldType} {source : FieldValue} {content : Micronode}
    (h : field.convertScalar type source = .ok (.micronode content)) :
    source = .micronode content := by
  have htype : type = .micronode := (fitsAs_of_convertScalar h).type.symm
  subst htype
  cases source with
  | micronode stored =>
    simp only [convertScalar, checkAllowed] at h
    split at h
    · exact Except.ok.inj h
    · cases h
  | _ => simp [convertScalar] at h

/-- Each single value that is read is read from the literal at its place. -/
theorem exists_literal_of_read {json : Json} {value : FieldValue}
    (h : field.read json = .ok value) {i : Nat} {item : FieldValue}
    (hi : value.items[i]? = some item) :
    ∃ literal, (field.literals json)[i]? = some literal ∧
      field.readScalar field.elementType literal = .ok item := by
  by_cases hl : field.type = .list
  · simp only [read, hl] at h
    split at h
    · next items =>
      obtain ⟨results, hr, rfl⟩ := exists_of_map_eq_ok h
      simp only [literals, hl]
      exact exists_of_getElem?_mapM hr hi
    · cases h
  · rw [read_of_single hl] at h
    rw [FieldValue.items_of_single (fitsAs_of_readScalar h).single,
      List.getElem?_singleton] at hi
    split_ifs at hi with hzero
    obtain rfl := Option.some.inj hi
    exact ⟨json, by rw [literals_of_single hl, hzero, List.getElem?_cons_zero], h⟩

/-- A date that is read is the text of the instant that a text denotes. -/
theorem literal_of_date {type : FieldType} {literal : Json} {text : String}
    (h : field.readScalar type literal = .ok (.date text)) :
    ∃ raw t, literal = .string raw ∧ readDate raw = .ok t ∧ text = t.text := by
  have htype : type = .date := (fitsAs_of_readScalar h).type.symm
  subst htype
  cases literal with
  | string raw =>
    simp only [readScalar] at h
    obtain ⟨t, ht, he⟩ := exists_of_map_eq_ok h
    exact ⟨raw, t, rfl, ht, (FieldValue.date.inj he).symm⟩
  | _ => simp [readScalar] at h

/-- Embedded content that is read is what the literal denotes as it stands. -/
theorem literal_of_micronode {type : FieldType} {literal : Json} {content : Micronode}
    (h : field.readScalar type literal = .ok (.micronode content)) :
    Embedded.ofJson literal = .ok content := by
  have htype : type = .micronode := (fitsAs_of_readScalar h).type.symm
  subst htype
  simp only [readScalar] at h
  split at h
  · next read hread =>
    simp only [checkAllowed] at h
    split at h
    · rw [hread, FieldValue.micronode.inj (Except.ok.inj h)]
    · cases h
  · cases h

/-- Every date that is made of a text or a number is stored as the text of an instant. In the years
of universal time that have four digits it is read back as that instant, and becomes its
milliseconds where the field is declared a number later; in other years both fail, so numbers make
lasting dates from the first to the last millisecond of those years. Embedded content is taken as
it stands, with its dates. -/
theorem dates_read_back (field : FieldSpec) :
    (∀ value converted : FieldValue, field.convert value = .ok (some converted) →
      (∀ (i : Nat) (text : String), converted.items[i]? = some (.date text) →
        ∃ source, value.items[i]? = some source ∧
          (source = .date text ∨ ∃ t, source.instant? = some t ∧ t.StoredAs text)) ∧
        ∀ (i : Nat) (content : Micronode), converted.items[i]? = some (.micronode content) →
          value.items[i]? = some (.micronode content)) ∧
      (∀ (json : Json) (value : FieldValue), field.read json = .ok value →
        (∀ (i : Nat) (text : String), value.items[i]? = some (.date text) →
          ∃ raw t, (field.literals json)[i]? = some (.string raw) ∧ readDate raw = .ok t ∧
            t.StoredAs text) ∧
          ∀ (i : Nat) (content : Micronode), value.items[i]? = some (.micronode content) →
            ∃ literal, (field.literals json)[i]? = some literal ∧
              Embedded.ofJson literal = .ok content) ∧
      (∀ (source : FieldValue) (t : Instant), field.type = .date → source.instant? = some t →
        field.convert source = .ok (some (.date t.text)) ∧ t.StoredAs t.text) ∧
      ∀ (x : Binary64) (t : Instant), FieldValue.instant? (.number x) = some t →
        ((0 ≤ t.date.year ∧ t.date.year ≤ 9999) ↔
          -62167219200000 ≤ x.truncate ∧ x.truncate < 253402300800000) := by
  refine ⟨fun value converted h => ⟨?_, ?_⟩, fun json value h => ⟨?_, ?_⟩, ?_, ?_⟩
  · intro i text hi
    obtain ⟨source, hs, hc⟩ := exists_source_of_convert h hi
    refine ⟨source, hs, (source_of_date hc).imp_right ?_⟩
    rintro ⟨t, ht, rfl⟩
    exact ⟨t, ht, (FieldValue.regular_of_instant? ht).storedAs_text⟩
  · intro i content hi
    obtain ⟨source, hs, hc⟩ := exists_source_of_convert h hi
    rw [hs, source_of_micronode hc]
  · intro i text hi
    obtain ⟨literal, hl, hr⟩ := exists_literal_of_read h hi
    obtain ⟨raw, t, rfl, ht, rfl⟩ := literal_of_date hr
    have hregular : t.Regular := Instant.regular_of_read? (readDate_eq_ok_iff.mp ht)
    exact ⟨raw, t, hl, ht, hregular.storedAs_text⟩
  · intro i content hi
    obtain ⟨literal, hl, hr⟩ := exists_literal_of_read h hi
    exact ⟨literal, hl, literal_of_micronode hr⟩
  · intro source t hd ht
    exact ⟨convert_of_instant? hd ht, (FieldValue.regular_of_instant? ht).storedAs_text⟩
  · exact fun x t => Instant.year_mem_iff_of_ofMillis?

/-- A time in Paris is stored as that of universal time, whether it is carried over as text, read
as a default or counted in milliseconds, and it becomes those milliseconds again. -/
theorem dates_read_back_of_local_time :
    let published : FieldSpec := { name := "published", type := .date }
    let count : FieldSpec := { name := "published", type := .number }
    let shown := "2024-01-02T04:04:05+01:00"
    let text := "2024-01-02T03:04:05+00:00"
    let t : Instant := ⟨1704164645, 0⟩
    let millis : Binary64 := .ofInt 1704164645000
    let fields : FieldMap := [("published", .date text)]
    published.convert (.string shown) = .ok (some (.date text)) ∧
      published.read (.string shown) = .ok (.date text) ∧
      published.convert (.number millis) = .ok (some (.date text)) ∧
      readDate text = .ok t ∧
      (-62167219200000 ≤ millis.truncate ∧ millis.truncate < 253402300800000) ∧
      ∃ updated, (Change.updateField count).migrate fields = .ok updated ∧
        Dict.get? updated "published" = some (.number millis) := by
  intro published count shown text t millis fields
  obtain ⟨hconverted, hread, hmade, hnumbers⟩ := dates_read_back published
  have hshown : Instant.read? (Text.trim shown) = some t := by decide +kernel
  have hmillis : Instant.ofMillis? millis.truncate = some t := by decide +kernel
  have htext : t.text = text := by decide +kernel
  have hyear : 0 ≤ t.date.year ∧ t.date.year ≤ 9999 := by decide +kernel
  have hcount : t.toMillis = 1704164645000 := by decide
  obtain ⟨hcarried, -⟩ := hmade (.string shown) t rfl hshown
  obtain ⟨hcounted, -⟩ := hmade (.number millis) t rfl hmillis
  rw [htext] at hcarried hcounted
  have hdefault : published.read (.string shown) = .ok (.date text) := by
    have hr : readDate shown = .ok t := readDate_eq_ok_iff.mpr hshown
    simp only [published, read, readScalar, hr, Except.map, htext]
  obtain ⟨raw, _, hraw, hr, hstored⟩ := (hread _ _ hdefault).1 0 text rfl
  obtain rfl := Json.string.inj (Option.some.inj hraw)
  obtain rfl := Option.some.inj (hshown.symm.trans (readDate_eq_ok_iff.mp hr))
  have hback := hstored.readDate_eq
  obtain ⟨source, hs, hkept | ⟨_, ht, hagain⟩⟩ := (hconverted _ _ hcarried).1 0 text rfl
  · rw [hkept] at hs
    cases hs
  obtain rfl := Option.some.inj hs
  obtain rfl := Option.some.inj (hshown.symm.trans ht)
  have hupdated := hagain.migrate_eq count fields rfl rfl
  rw [if_pos hyear] at hback hupdated
  rw [hcount] at hupdated
  exact ⟨hcarried, hdefault, hcounted, hback, (hnumbers millis t hmillis).mp hyear, _, hupdated,
    Dict.get?_insert_self fields "published" (.number millis)⟩

/-- The first millisecond of the year 10000 is stored as a date that nothing reads: declared a
number again, the field fails. -/
theorem exists_date_that_is_lost :
    let day : FieldSpec := { name := "day", type := .date }
    let count : FieldSpec := { name := "day", type := .number }
    let millis : Binary64 := .ofInt 253402300800000
    let text := "+10000-01-01T00:00:00+00:00"
    let fields : FieldMap := [("day", .number millis)]
    day.convert (.number millis) = .ok (some (.date text)) ∧
      readDate text = .error (.notDate text) ∧
      migrateFields fields [.updateField day, .updateField count]
        { name := "article", fields := [count] } = .error ⟨"day", .notDate text⟩ := by
  intro day count millis text fields
  have hmillis : (FieldValue.number millis).instant? = some ⟨253402300800, 0⟩ := by decide +kernel
  have htext : Instant.text ⟨253402300800, 0⟩ = text := by decide +kernel
  have hyear : ¬ (0 ≤ (Instant.date ⟨253402300800, 0⟩).year ∧
      (Instant.date ⟨253402300800, 0⟩).year ≤ 9999) := by decide +kernel
  have hconvert : day.convert (.number millis) = .ok (some (.date _)) :=
    convert_of_instant? rfl hmillis
  have hstored := (FieldValue.regular_of_instant? hmillis).storedAs_text
  rw [htext] at hconvert hstored
  have hg : Dict.get? fields day.name = some (.number millis) := rfl
  have hfirst : (Change.updateField day).migrate fields =
      .ok (Dict.insert fields "day" (.date text)) := by
    simp only [Change.migrate, hg, hconvert, day]
  have hread := hstored.readDate_eq
  have hlost := hstored.migrate_eq count _ rfl
    (Dict.get?_insert_self fields "day" (.date text))
  rw [if_neg hyear] at hread hlost
  refine ⟨hconvert, hread, ?_⟩
  simp only [migrateFields, List.foldlM_cons, hfirst, hlost, Except.map, bind, Except.bind, count]

end FieldSpec

end VersionedContent
