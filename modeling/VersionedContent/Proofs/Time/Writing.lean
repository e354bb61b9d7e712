import Mathlib.Tactic.Ring
import Mathlib.Tactic.SplitIfs
import VersionedContent.Proofs.Time.Calendar
import VersionedContent.Time.Rfc3339

/-!
# Dates read back

The text of an instant leads back to the instant where the year of universal time has four
digits. In other years the text begins with the sign of the year, and the strict form has no
place for it.
-/

namespace VersionedContent

section Digits

variable {width n : Nat}

/-- A padded number has digits only. -/
theorem isDigit_of_mem_padded {c : Char} (h : c ∈ padded width n) : c.isDigit = true := by
  rcases List.mem_append.mp h with h | h
  · obtain rfl := List.eq_of_mem_replicate h
    decide
  · exact Nat.isDigit_of_mem_toDigits (by decide) (by decide) h

/-- Padding leads to the width where the number has room in it. -/
theorem length_padded (hw : 0 < width) (h : n < 10 ^ width) :
    (padded width n).length = width := by
  have hle : (digitsOf n).length ≤ width :=
    (Nat.length_toDigits_le_iff (by decide) hw).mpr h
  simp only [padded, List.length_append, List.length_replicate]
  omega

/-- The digits of a padded number have its value. -/
theorem valueOfDigits_padded : valueOfDigits (padded width n) = n := by
  calc valueOfDigits (padded width n)
      = Nat.ofDigitChars 10 (Nat.toDigits 10 n)
          (Nat.ofDigitChars 10 (List.replicate (width - (digitsOf n).length) '0') 0) :=
        Nat.ofDigitChars_append 0
    _ = Nat.ofDigitChars 10 (Nat.toDigits 10 n) 0 := by
        rw [Nat.ofDigitChars_replicate_zero, Nat.mul_zero]
    _ = n := Nat.ofDigitChars_toDigits (by decide) (by decide)

/-- As many digits as a padded number has are read as the number. -/
theorem readExactDigits_padded (hw : 0 < width) (h : n < 10 ^ width) (rest : List Char) :
    readExactDigits width (padded width n ++ rest) = some (n, rest) := by
  have hlength := length_padded hw h
  have hdigits : (padded width n).all Char.isDigit = true :=
    List.all_eq_true.mpr fun c hm => isDigit_of_mem_padded hm
  simp only [readExactDigits, List.take_left' hlength, List.drop_left' hlength]
  rw [if_pos ⟨hlength, hdigits⟩, valueOfDigits_padded]

/-- Digits after a number make less than a unit of its last place of them. -/
theorem ofDigitChars_lt {digits : List Char} (h : ∀ c ∈ digits, c.isDigit = true) (start : Nat) :
    Nat.ofDigitChars 10 digits start < (start + 1) * 10 ^ digits.length := by
  induction digits generalizing start with
  | nil => simp
  | cons first rest ih =>
    have hfirst : first.toNat - '0'.toNat < 10 := by
      have hc := (Char.isDigit_iff_toNat.mp (h first List.mem_cons_self)).2
      exact Nat.lt_succ_of_le (Nat.sub_le_sub_right hc '0'.toNat)
    rw [Nat.ofDigitChars_cons, List.length_cons]
    calc Nat.ofDigitChars 10 rest (10 * start + (first.toNat - '0'.toNat))
        < (10 * start + (first.toNat - '0'.toNat) + 1) * 10 ^ rest.length :=
          ih (fun c hm => h c (List.mem_cons_of_mem first hm)) _
      _ ≤ 10 * (start + 1) * 10 ^ rest.length := Nat.mul_le_mul_right _ (by omega)
      _ = (start + 1) * 10 ^ (rest.length + 1) := by ring

/-- Digits have a value below the power of ten of their number. -/
theorem valueOfDigits_lt {digits : List Char} (h : ∀ c ∈ digits, c.isDigit = true) :
    valueOfDigits digits < 10 ^ digits.length := by
  have hlt := ofDigitChars_lt h 0
  rwa [Nat.zero_add, Nat.one_mul] at hlt

end Digits

namespace Text

/-- Digits are not blank. -/
theorem isBlank_of_isDigit {c : Char} (h : c.isDigit = true) : isBlank c = false := by
  have hlow : 48 ≤ c.toNat := (Char.isDigit_iff_toNat.mp h).1
  have hhigh : c.toNat ≤ 57 := (Char.isDigit_iff_toNat.mp h).2
  simp only [isBlank, Bool.or_eq_false_iff, Bool.and_eq_false_iff, decide_eq_false_iff_not,
    beq_eq_false_iff_ne]
  omega

/-- No blanks are skipped where the first character is none. -/
theorem dropWhile_isBlank {chars : List Char} (h : ∀ c ∈ chars.head?, isBlank c = false) :
    chars.dropWhile isBlank = chars := by
  cases chars with
  | nil => rfl
  | cons first rest => exact List.dropWhile_cons_of_neg (by simp [h first rfl])

/-- Nothing is trimmed off a text that neither begins nor ends with a blank. -/
theorem trimChars_eq_self {chars : List Char} (hf : ∀ c ∈ chars.head?, isBlank c = false)
    (hl : ∀ c ∈ chars.getLast?, isBlank c = false) : trimChars chars = chars := by
  rw [← List.head?_reverse] at hl
  rw [trimChars, dropWhile_isBlank hf, dropWhile_isBlank hl, List.reverse_reverse]

end Text

namespace ClockReading

/-- What is read goes on with what is left. -/
theorem bind_of_eq_some {α β : Type} {read : Option α} {rest : α → Option β} {a : α}
    (h : read = some a) : (read >>= rest) = rest a := by
  rw [h]
  rfl

section Fraction

variable {mark : Char} (hmark : mark.isDigit = false) (rest : List Char)
include hmark

/-- The digits of a written fraction are read up to the mark that follows them. -/
theorem readFraction_padded {places n : Nat} (hp : 0 < places) (hle : places ≤ 9)
    (h : n < 10 ^ places) :
    readFraction ('.' :: padded places n ++ mark :: rest) =
      some (n * 10 ^ (9 - places), mark :: rest) := by
  have hlength := length_padded hp h
  have hdigits : ∀ c ∈ padded places n, c.isDigit = true := fun c hm => isDigit_of_mem_padded hm
  have htaken : (padded places n ++ mark :: rest).takeWhile Char.isDigit = padded places n := by
    rw [List.takeWhile_append_of_pos hdigits, List.takeWhile_cons_of_neg (by simp [hmark]),
      List.append_nil]
  have hleft : (padded places n ++ mark :: rest).dropWhile Char.isDigit = mark :: rest := by
    rw [List.dropWhile_append_of_pos hdigits, List.dropWhile_cons_of_neg (by simp [hmark])]
  have hne : padded places n ≠ [] := List.ne_nil_of_length_pos (by omega)
  have hkept : (padded places n).take 9 = padded places n := List.take_of_length_le (by omega)
  simp only [readFraction, List.cons_append, htaken, hleft, hkept, hlength, valueOfDigits_padded,
    List.isEmpty_eq_false_iff.mpr hne]
  rfl

/-- A fraction of a second is read as it was written. -/
theorem readFraction_fractionText {nanos : Nat} (h : nanos < 1000000000) (hpoint : mark ≠ '.') :
    readFraction (Instant.fractionText nanos ++ mark :: rest) = some (nanos, mark :: rest) := by
  unfold Instant.fractionText
  split_ifs with hzero hmillis hmicros
  · rw [hzero, List.nil_append, readFraction]
    intro tail he
    exact hpoint (List.cons.inj he).1
  all_goals
    rw [readFraction_padded hmark rest (by decide) (by decide) (by omega)]
    congr 2
    omega

end Fraction

/-- The text of a reading at universal time. -/
def written (r : ClockReading) : List Char :=
  Instant.yearText r.year ++ '-' :: padded 2 r.month ++ '-' :: padded 2 r.day ++
    'T' :: padded 2 r.hour ++ ':' :: padded 2 r.minute ++ ':' :: padded 2 r.second ++
    Instant.fractionText r.nanos ++ ['+', '0', '0', ':', '0', '0']

/-- A reading at universal time whose numbers have room in its text. -/
structure Writable (r : ClockReading) : Prop where
  /-- The month has two digits. -/
  month_lt : r.month < 100
  /-- The day has two digits. -/
  day_lt : r.day < 100
  /-- The hour has two digits. -/
  hour_lt : r.hour < 100
  /-- The minute has two digits. -/
  minute_lt : r.minute < 100
  /-- The second has two digits. -/
  second_lt : r.second < 100
  /-- The fraction is less than a second. -/
  nanos_lt : r.nanos < 1000000000
  /-- The clock shows universal time. -/
  offset_eq : r.offset = 0

namespace Writable

variable {r : ClockReading}

/-- A reading of a year with four digits is read as it was written. -/
theorem read?_written (hr : r.Writable) (hy : 0 ≤ r.year ∧ r.year ≤ 9999) :
    read? r.written = some r := by
  have hyear (rest : List Char) :
      readExactDigits 4 (Instant.yearText r.year ++ rest) = some (r.year.toNat, rest) := by
    rw [Instant.yearText, if_pos hy]
    exact readExactDigits_padded (by decide) (by omega) rest
  have hpair {n : Nat} (hn : n < 100) (rest : List Char) :
      readExactDigits 2 (padded 2 n ++ rest) = some (n, rest) :=
    readExactDigits_padded (by decide) hn rest
  have hfraction :=
    readFraction_fractionText (show '+'.isDigit = false by decide) ['0', '0', ':', '0', '0']
      hr.nanos_lt (by decide)
  have hzone : readOffset (afterChar ':') ['+', '0', '0', ':', '0', '0'] = some (0, []) := by decide
  simp only [written, List.append_assoc, List.cons_append]
  refine (bind_of_eq_some (hyear _)).trans ?_
  refine (bind_of_eq_some rfl).trans ?_
  refine (bind_of_eq_some (hpair hr.month_lt _)).trans ?_
  refine (bind_of_eq_some rfl).trans ?_
  refine (bind_of_eq_some (hpair hr.day_lt _)).trans ?_
  refine (bind_of_eq_some rfl).trans ?_
  refine (bind_of_eq_some (hpair hr.hour_lt _)).trans ?_
  refine (bind_of_eq_some rfl).trans ?_
  refine (bind_of_eq_some (hpair hr.minute_lt _)).trans ?_
  refine (bind_of_eq_some rfl).trans ?_
  refine (bind_of_eq_some (hpair hr.second_lt _)).trans ?_
  refine (bind_of_eq_some hfraction).trans ?_
  refine (bind_of_eq_some hzone).trans ?_
  rw [Int.toNat_of_nonneg hy.1, ← hr.offset_eq]
  rfl

end Writable

/-- The text of a reading begins with a digit or, where the year is not one of four digits, with a
sign. -/
theorem head?_written (r : ClockReading) : ∃ first, r.written.head? = some first ∧
    Text.isBlank first = false ∧ (¬ (0 ≤ r.year ∧ r.year ≤ 9999) → first.isDigit = false) := by
  obtain ⟨first, rest, hyear, hb, hd⟩ : ∃ first rest, Instant.yearText r.year = first :: rest ∧
      Text.isBlank first = false ∧
      (¬ (0 ≤ r.year ∧ r.year ≤ 9999) → first.isDigit = false) := by
    by_cases hy : 0 ≤ r.year ∧ r.year ≤ 9999
    · rw [Instant.yearText, if_pos hy]
      have hlength : (padded 4 r.year.toNat).length = 4 := length_padded (by decide) (by omega)
      obtain ⟨first, rest, he⟩ := List.exists_cons_of_length_eq_add_one hlength
      have hdigit : first.isDigit = true := isDigit_of_mem_padded (he ▸ List.mem_cons_self)
      exact ⟨first, rest, he, Text.isBlank_of_isDigit hdigit, fun h => absurd hy h⟩
    · rw [Instant.yearText, if_neg hy]
      refine ⟨_, _, rfl, ?_, fun _ => ?_⟩ <;> split_ifs <;> decide
  simp only [written, hyear, List.cons_append, List.head?_cons]
  exact ⟨first, rfl, hb, hd⟩

/-- The strict form has no place for the sign of a year. -/
theorem read?_written_eq_none {r : ClockReading} (hy : ¬ (0 ≤ r.year ∧ r.year ≤ 9999)) :
    read? r.written = none := by
  obtain ⟨sign, hsign, -, hdigit⟩ := head?_written r
  obtain ⟨rest, he⟩ := List.head?_eq_some_iff.mp hsign
  have hyear : readExactDigits 4 (sign :: rest) = none := by
    simp [readExactDigits, hdigit hy]
  rw [he, read?, hyear]
  rfl

/-- Nothing is trimmed off the text of a reading. -/
theorem trimChars_written (r : ClockReading) : Text.trimChars r.written = r.written := by
  obtain ⟨first, hfirst, hb, -⟩ := head?_written r
  have hlast : r.written.getLast? = some '0' := by
    rw [written, List.getLast?_append]
    rfl
  apply Text.trimChars_eq_self
  · rw [hfirst]
    rintro c ⟨⟩
    exact hb
  · rw [hlast]
    rintro c ⟨⟩
    decide

/-- A fraction that is read is less than a second. -/
theorem lt_of_readFraction {chars rest : List Char} {nanos : Nat}
    (h : readFraction chars = some (nanos, rest)) : nanos < 1000000000 := by
  unfold readFraction at h
  split at h
  · next digits =>
    dsimp only at h
    split_ifs at h
    obtain ⟨rfl, -⟩ := Prod.mk.inj (Option.some.inj h)
    have hdigits : ∀ c ∈ (digits.takeWhile Char.isDigit).take 9, c.isDigit = true :=
      fun c hm => List.all_eq_true.mp List.all_takeWhile c (List.mem_of_mem_take hm)
    have hle : ((digits.takeWhile Char.isDigit).take 9).length ≤ 9 := List.length_take_le 9 _
    calc valueOfDigits ((digits.takeWhile Char.isDigit).take 9) *
          10 ^ (9 - ((digits.takeWhile Char.isDigit).take 9).length)
        < 10 ^ ((digits.takeWhile Char.isDigit).take 9).length *
            10 ^ (9 - ((digits.takeWhile Char.isDigit).take 9).length) :=
          Nat.mul_lt_mul_of_pos_right (valueOfDigits_lt hdigits) (by positivity)
      _ = 1000000000 := by rw [← Nat.pow_add, Nat.add_sub_cancel' hle]
  · obtain ⟨rfl, -⟩ := Prod.mk.inj (Option.some.inj h)
    decide

/-- An offset that is read is one of whole minutes. -/
theorem emod_of_readOffset {between : List Char → Option (List Char)} {chars rest : List Char}
    {offset : Int} (h : readOffset between chars = some (offset, rest)) : offset % 60 = 0 := by
  unfold readOffset at h
  split at h
  · cases h
  · split at h
    · obtain ⟨rfl, -⟩ := Prod.mk.inj (Option.some.inj h)
      rfl
    · split at h
      · simp only [Option.bind_eq_bind, Option.bind_eq_some_iff] at h
        obtain ⟨⟨hours, _⟩, -, _, -, ⟨minutes, _⟩, -, h⟩ := h
        dsimp only at h
        split at h
        · cases h
        · obtain ⟨rfl, -⟩ := Prod.mk.inj (Option.some.inj h)
          split_ifs <;> omega
      · cases h

/-- A reading in the strict form has less than a second of nanoseconds, and an offset of whole
minutes. -/
theorem bounds_of_read? {chars : List Char} {r : ClockReading} (h : read? chars = some r) :
    r.nanos < 1000000000 ∧ r.offset % 60 = 0 := by
  obtain ⟨⟨_, _⟩, -, h⟩ := Option.bind_eq_some_iff.mp h
  obtain ⟨_, -, h⟩ := Option.bind_eq_some_iff.mp h
  obtain ⟨⟨_, _⟩, -, h⟩ := Option.bind_eq_some_iff.mp h
  obtain ⟨_, -, h⟩ := Option.bind_eq_some_iff.mp h
  obtain ⟨⟨_, _⟩, -, h⟩ := Option.bind_eq_some_iff.mp h
  obtain ⟨_, -, h⟩ := Option.bind_eq_some_iff.mp h
  obtain ⟨⟨_, _⟩, -, h⟩ := Option.bind_eq_some_iff.mp h
  obtain ⟨_, -, h⟩ := Option.bind_eq_some_iff.mp h
  obtain ⟨⟨_, _⟩, -, h⟩ := Option.bind_eq_some_iff.mp h
  obtain ⟨_, -, h⟩ := Option.bind_eq_some_iff.mp h
  obtain ⟨⟨_, _⟩, -, h⟩ := Option.bind_eq_some_iff.mp h
  obtain ⟨⟨nanos, _⟩, hnanos, h⟩ := Option.bind_eq_some_iff.mp h
  obtain ⟨⟨offset, _⟩, hoffset, h⟩ := Option.bind_eq_some_iff.mp h
  dsimp only at h
  split_ifs at h
  obtain rfl := Option.some.inj h
  exact ⟨lt_of_readFraction hnanos, emod_of_readOffset hoffset⟩

end ClockReading

namespace Instant

variable {t : Instant}

/-- What a clock at universal time shows at an instant. -/
def reading (t : Instant) : ClockReading where
  year := t.date.year
  month := t.date.month
  day := t.date.day
  hour := (t.seconds % 86400).toNat / 3600
  minute := (t.seconds % 86400).toNat / 60 % 60
  second := (t.seconds % 86400).toNat % 60 + if 1000000000 ≤ t.nanos then 1 else 0
  nanos := if 1000000000 ≤ t.nanos then t.nanos - 1000000000 else t.nanos
  offset := 0

/-- The text of an instant is that of its reading. -/
theorem text_eq (t : Instant) : t.text = String.ofList t.reading.written := rfl

/-- An instant within the calendar's range, where leap seconds end a minute. -/
structure Regular (t : Instant) : Prop where
  /-- It is not before the calendar's range. -/
  minMillis_le : minMillis ≤ t.seconds * 1000
  /-- It is not after the calendar's range. -/
  le_maxMillis : t.seconds * 1000 ≤ maxMillis
  /-- Only the last second of a minute has twice as many nanoseconds. -/
  nanos_lt : t.nanos < 1000000000 ∨ t.nanos < 2000000000 ∧ t.seconds % 60 = 59

/-- What a clock shows is a regular instant, if its offset is one of whole minutes. -/
theorem regular_of_toInstant? {r : ClockReading} (hn : r.nanos < 1000000000)
    (ho : r.offset % 60 = 0) (h : r.toInstant? = some t) : t.Regular := by
  simp only [ClockReading.toInstant?] at h
  split_ifs at h with hshown hleap hrange hrange
  · obtain rfl := Option.some.inj h
    refine ⟨hrange.1, hrange.2, .inr ?_⟩
    dsimp only
    omega
  · obtain rfl := Option.some.inj h
    exact ⟨hrange.1, hrange.2, .inl hn⟩

/-- An instant that is read is regular. -/
theorem regular_of_read? {text : String} (h : read? text = some t) : t.Regular := by
  obtain ⟨r, hr, ht⟩ := Option.bind_eq_some_iff.mp h
  obtain ⟨hn, ho⟩ := ClockReading.bounds_of_read? hr
  exact regular_of_toInstant? hn ho ht

/-- The instant of a number of milliseconds is regular. -/
theorem regular_of_ofMillis? {millis : Int} (h : ofMillis? millis = some t) : t.Regular := by
  unfold ofMillis? at h
  split_ifs at h with hrange
  obtain rfl := Option.some.inj h
  simp only [minMillis, maxMillis] at hrange
  refine ⟨?_, ?_, .inl ?_⟩ <;> simp only [minMillis, maxMillis] <;> omega

/-- The text of an instant has room for what a clock shows. -/
theorem Regular.writable_reading (ht : t.Regular) : t.reading.Writable := by
  have hn := ht.nanos_lt
  have hdate : t.date.isValid = true := CivilDate.isValid_ofDays _
  simp only [CivilDate.isValid, Bool.and_eq_true, decide_eq_true_eq] at hdate
  have hdays := CivilDate.daysInMonth_le t.date.year t.date.month
  constructor <;> simp only [reading]
  case second_lt => split_ifs <;> omega
  case nanos_lt => split_ifs <;> omega
  all_goals omega

/-- A clock shows the instant that it is read at. -/
theorem Regular.toInstant?_reading (ht : t.Regular)
    (hy : 0 ≤ t.date.year ∧ t.date.year ≤ 9999) : t.reading.toInstant? = some t := by
  have hn := ht.nanos_lt
  have hvalid : t.date.isValid = true := CivilDate.isValid_ofDays _
  have hdays : t.date.toDays = t.seconds / 86400 := CivilDate.toDays_ofDays _
  have hsecond : (if t.reading.second = 60 then 59 else t.reading.second) =
      (t.seconds % 86400).toNat % 60 := by
    simp only [reading]
    split_ifs <;> omega
  have hseconds : t.date.toDays * 86400 + (t.reading.hour * 3600 + t.reading.minute * 60 +
      (if t.reading.second = 60 then 59 else t.reading.second) : Nat) - t.reading.offset =
        t.seconds := by
    rw [hdays, hsecond]
    simp only [reading]
    omega
  have hnanos : (if t.reading.second = 60 then t.reading.nanos + 1000000000
      else t.reading.nanos) = t.nanos := by
    simp only [reading]
    split_ifs <;> omega
  have hshown : firstYear ≤ t.reading.year ∧ t.reading.year ≤ lastYear ∧ t.date.isValid = true ∧
      t.reading.hour ≤ 23 ∧ t.reading.minute ≤ 59 ∧ t.reading.second ≤ 60 ∧
      -86400 < t.reading.offset ∧ t.reading.offset < 86400 := by
    simp only [reading, firstYear, lastYear]
    refine ⟨by omega, by omega, hvalid, by omega, by omega, ?_, by decide, by decide⟩
    split_ifs <;> omega
  have hdate : (⟨t.reading.year, t.reading.month, t.reading.day⟩ : CivilDate) = t.date := rfl
  simp only [ClockReading.toInstant?, hdate]
  rw [if_pos hshown, hseconds, hnanos, if_pos ⟨ht.minMillis_le, ht.le_maxMillis⟩]

/-- The text of an instant is read back where its year has four digits, and else not read at
all. -/
theorem Regular.read?_text (ht : t.Regular) :
    read? t.text = if 0 ≤ t.date.year ∧ t.date.year ≤ 9999 then some t else none := by
  rw [text_eq, read?, String.toList_ofList]
  split_ifs with hy
  · rw [ht.writable_reading.read?_written hy]
    exact ht.toInstant?_reading hy
  · rw [ClockReading.read?_written_eq_none hy]
    rfl

/-- Nothing is trimmed off the text of an instant. -/
theorem trim_text (t : Instant) : Text.trim t.text = t.text := by
  rw [text_eq, Text.trim, String.toList_ofList, ClockReading.trimChars_written]

/-- The years of four digits begin and end with these seconds. -/
theorem year_mem_iff (t : Instant) : (0 ≤ t.date.year ∧ t.date.year ≤ 9999) ↔
    -62167219200 ≤ t.seconds ∧ t.seconds < 253402300800 := by
  have hfirst : 0 ≤ t.date.year ↔ -719528 ≤ t.seconds / 86400 :=
    CivilDate.le_year_ofDays_iff 0 _
  have hnext : 10000 ≤ t.date.year ↔ 2932897 ≤ t.seconds / 86400 :=
    CivilDate.le_year_ofDays_iff 10000 _
  omega

/-- The years of four digits begin and end with these milliseconds. -/
theorem year_mem_iff_of_ofMillis? {millis : Int} (h : ofMillis? millis = some t) :
    (0 ≤ t.date.year ∧ t.date.year ≤ 9999) ↔
      -62167219200000 ≤ millis ∧ millis < 253402300800000 := by
  rw [year_mem_iff]
  unfold ofMillis? at h
  split_ifs at h
  obtain rfl := Option.some.inj h
  dsimp only
  omega

end Instant

end VersionedContent
