import Mathlib.Tactic.SplitIfs
import VersionedContent.Schema.Change

/-!
# Zeros without signs

Two definitions that agree differ in the signs of zeros in their defaults at most:
they are equal once these signs are dropped. No change looks at a default, so a
change list leads definitions that agree to definitions that agree.
-/

namespace VersionedContent

/-- A number, without the sign of a zero. -/
def Binary64.withoutSign (x : Binary64) : Binary64 := if x.rank = 0 then .zero else x

/-- Numbers compare equal when they are equal but for the sign of a zero. -/
theorem Binary64.same_iff_withoutSign {x y : Binary64} :
    x.same y = true ↔ x.withoutSign = y.withoutSign := by
  rw [same_iff, withoutSign, withoutSign]
  by_cases hx : x.rank = 0 <;> by_cases hy : y.rank = 0
  · simp [hx, hy]
  · have hne : x ≠ y := fun he => hy (he ▸ hx)
    have hzero : Binary64.zero ≠ y := fun he => hy (he ▸ rfl)
    simp [hx, hy, hne, hzero]
  · have hne : x ≠ y := fun he => hx (he ▸ hy)
    have hzero : x ≠ Binary64.zero := fun he => hx (he ▸ rfl)
    simp [hx, hy, hne, hzero]
  · simp [hx, hy]

namespace Json

mutual

/-- A value, without the signs of zeros. -/
def withoutSigns : Json → Json
  | .float x => .float x.withoutSign
  | .array items => .array (itemsWithoutSigns items)
  | .object members => .object (membersWithoutSigns members)
  | j => j

/-- The items of a sequence, without the signs of zeros. -/
def itemsWithoutSigns : List Json → List Json
  | [] => []
  | j :: rest => withoutSigns j :: itemsWithoutSigns rest

/-- The members of a dictionary, without the signs of zeros. -/
def membersWithoutSigns : List (String × Json) → List (String × Json)
  | [] => []
  | (k, j) :: rest => (k, withoutSigns j) :: membersWithoutSigns rest

end

mutual

/-- Values are the same when they are equal but for the signs of zeros. -/
theorem same_iff_withoutSigns : ∀ a b : Json, same a b = true ↔ a.withoutSigns = b.withoutSigns
  | .null, b => by cases b <;> simp [same, withoutSigns]
  | .bool _, b => by cases b <;> simp [same, withoutSigns]
  | .integer _, b => by cases b <;> simp [same, withoutSigns]
  | .float _, b => by cases b <;> simp [same, withoutSigns, Binary64.same_iff_withoutSign]
  | .string _, b => by cases b <;> simp [same, withoutSigns]
  | .array items, b => by
    cases b <;> simp [same, withoutSigns, sameItems_iff_withoutSigns items]
  | .object members, b => by
    cases b <;> simp [same, withoutSigns, sameMembers_iff_withoutSigns members]

/-- Sequences are the same when they are equal but for the signs of zeros. -/
theorem sameItems_iff_withoutSigns : ∀ as bs : List Json,
    sameItems as bs = true ↔ itemsWithoutSigns as = itemsWithoutSigns bs
  | [], bs => by cases bs <;> simp [sameItems, itemsWithoutSigns]
  | a :: as, bs => by
    cases bs <;> simp [sameItems, itemsWithoutSigns, same_iff_withoutSigns a,
      sameItems_iff_withoutSigns as]

/-- Dictionaries are the same when they are equal but for the signs of zeros. -/
theorem sameMembers_iff_withoutSigns : ∀ as bs : List (String × Json),
    sameMembers as bs = true ↔ membersWithoutSigns as = membersWithoutSigns bs
  | [], bs => by cases bs <;> simp [sameMembers, membersWithoutSigns]
  | (k, a) :: as, bs => by
    cases bs <;> simp [sameMembers, membersWithoutSigns, same_iff_withoutSigns a,
      sameMembers_iff_withoutSigns as]

end

end Json

namespace FieldSpec

/-- A field whose default is without the signs of zeros. -/
def withoutSigns (field : FieldSpec) : FieldSpec :=
  { field with default := field.default.map Json.withoutSigns }

/-- Fields agree when they are equal but for the signs of zeros. -/
theorem same_iff_withoutSigns {a b : FieldSpec} :
    a.same b = true ↔ a.withoutSigns = b.withoutSigns := by
  have hdefault : sameDefault a.default b.default = true ↔
      a.default.map Json.withoutSigns = b.default.map Json.withoutSigns := by
    cases a.default <;> cases b.default <;> simp [sameDefault, Json.same_iff_withoutSigns]
  simp only [same, Bool.and_eq_true, beq_iff_eq, decide_eq_true_eq, hdefault, withoutSigns,
    FieldSpec.mk.injEq, and_assoc]

end FieldSpec

/-- A change whose field is without the signs of zeros. -/
def Change.withoutSigns : Change → Change
  | addField field position => addField field.withoutSigns position
  | updateField field => updateField field.withoutSigns
  | change => change

namespace Definition

/-- A definition whose defaults are without the signs of zeros. -/
def withoutSigns (definition : Definition) : Definition :=
  { definition with fields := definition.fields.map FieldSpec.withoutSigns }

variable {definition other : Definition}

/-- Definitions agree when they are equal but for the signs of zeros. -/
theorem same_iff_withoutSigns {a b : Definition} :
    a.same b = true ↔ a.withoutSigns = b.withoutSigns := by
  have hfields : ∀ as bs, sameFields as bs = true ↔
      as.map FieldSpec.withoutSigns = bs.map FieldSpec.withoutSigns := by
    intro as bs
    induction as generalizing bs with
    | nil => cases bs <;> simp [sameFields]
    | cons first rest ih =>
      cases bs <;> simp [sameFields, ih, FieldSpec.same_iff_withoutSigns]
  simp only [same, Bool.and_eq_true, beq_iff_eq, hfields, withoutSigns, Definition.mk.injEq,
    and_assoc]

/-- A look-up does not ask for signs. -/
theorem field?_withoutSigns (definition : Definition) (name : String) :
    definition.withoutSigns.field? name =
      (definition.field? name).map FieldSpec.withoutSigns := by
  rw [field?, withoutSigns, List.find?_map, field?]
  rfl

/-- Asking for a field does not ask for signs. -/
theorem require_withoutSigns (definition : Definition) (name : String) :
    definition.withoutSigns.require name =
      (definition.require name).map FieldSpec.withoutSigns := by
  rw [require, field?_withoutSigns, require]
  cases definition.field? name <;> rfl

/-- Asking for a free name does not ask for signs. -/
theorem refuse_withoutSigns (definition : Definition) (name : String) :
    definition.withoutSigns.refuse name = definition.refuse name := by
  rw [refuse, field?_withoutSigns, Option.isSome_map, refuse]

/-- Changing the first field of a name does not ask for signs. -/
theorem map_withoutSigns_modifyField (name : String) {f g : FieldSpec → FieldSpec}
    (h : ∀ field, (f field).withoutSigns = g field.withoutSigns) (fields : List FieldSpec) :
    (modifyField name f fields).map FieldSpec.withoutSigns =
      modifyField name g (fields.map FieldSpec.withoutSigns) := by
  induction fields with
  | nil => rfl
  | cons first rest ih =>
    have hname : first.withoutSigns.name = first.name := rfl
    rw [modifyField, List.map_cons, modifyField, hname]
    split_ifs
    · rw [List.map_cons, h]
    · rw [List.map_cons, ih]

/-- Following an order does not ask for signs. -/
theorem mapM_require_withoutSigns (definition : Definition) (order : List String) :
    order.mapM definition.withoutSigns.require =
      (order.mapM definition.require).map (List.map FieldSpec.withoutSigns) := by
  induction order with
  | nil => rfl
  | cons name rest ih =>
    rw [List.mapM_cons, List.mapM_cons, ih, require_withoutSigns]
    cases definition.require name with
    | error fault => rfl
    | ok field => cases rest.mapM definition.require <;> rfl

/-- A change does not ask for signs. -/
theorem step_withoutSigns (definition : Definition) (change : Change) :
    definition.withoutSigns.step change.withoutSigns =
      (definition.step change).map withoutSigns := by
  cases change with
  | addField field position =>
    have hname : field.withoutSigns.name = field.name := rfl
    simp only [Change.withoutSigns, step, refuse_withoutSigns, hname]
    cases definition.refuse field.name with
    | error fault => rfl
    | ok _ => simp [bind, Except.bind, pure, Except.pure, Except.map, withoutSigns, insertField]
  | removeField name =>
    simp only [Change.withoutSigns, step, require_withoutSigns]
    cases definition.require name with
    | error fault => rfl
    | ok field =>
      simp [bind, Except.bind, pure, Except.pure, Except.map, withoutSigns, List.eraseP_map]
      rfl
  | updateField field =>
    have hname : field.withoutSigns.name = field.name := rfl
    have hmodify := map_withoutSigns_modifyField field.name (f := fun _ => field)
      (g := fun _ => field.withoutSigns) (fun _ => rfl) definition.fields
    simp only [Change.withoutSigns, step, require_withoutSigns, hname]
    cases definition.require field.name with
    | error fault => rfl
    | ok _ => simp [bind, Except.bind, pure, Except.pure, Except.map, withoutSigns, hmodify]
  | renameField source target =>
    have hmodify := map_withoutSigns_modifyField source
      (f := fun field => { field with name := target })
      (g := fun field => { field with name := target }) (fun _ => rfl) definition.fields
    simp only [Change.withoutSigns, step, refuse_withoutSigns, require_withoutSigns]
    cases definition.refuse target with
    | error fault => rfl
    | ok _ =>
      cases definition.require source with
      | error fault => rfl
      | ok _ => simp [bind, Except.bind, pure, Except.pure, Except.map, withoutSigns, hmodify]
  | reorderFields order =>
    simp only [Change.withoutSigns, step, mapM_require_withoutSigns]
    cases order.mapM definition.require with
    | error fault => rfl
    | ok fields =>
      by_cases hl : fields.length = definition.fields.length <;>
        simp [bind, Except.bind, pure, Except.pure, Except.map, withoutSigns, hl, throw, throwThe,
          MonadExceptOf.throw]
  | updateSchema description displayField autoPurge => rfl

/-- A change list does not ask for signs. -/
theorem apply_withoutSigns (definition : Definition) (changes : List Change) :
    definition.withoutSigns.apply (changes.map Change.withoutSigns) =
      (definition.apply changes).map withoutSigns := by
  induction changes generalizing definition with
  | nil => rfl
  | cons change rest ih =>
    rw [List.map_cons, apply_cons, apply_cons, step_withoutSigns]
    cases definition.step change with
    | error fault => rfl
    | ok next => exact ih next

/-- A change list leads definitions that agree to definitions that agree. -/
theorem exists_apply_of_same (h : definition.same other = true) {changes : List Change}
    {reached : Definition} (ha : other.apply changes = .ok reached) :
    ∃ found, definition.apply changes = .ok found ∧ found.same reached = true := by
  have happly : (definition.apply changes).map withoutSigns = .ok reached.withoutSigns := by
    rw [← apply_withoutSigns, same_iff_withoutSigns.mp h, apply_withoutSigns, ha]
    rfl
  cases hf : definition.apply changes with
  | error fault =>
    rw [hf] at happly
    cases happly
  | ok found =>
    rw [hf] at happly
    exact ⟨found, rfl, same_iff_withoutSigns.mpr (Except.ok.inj happly)⟩

/-- Definitions that agree with a third one agree in a row. -/
theorem same_trans {a b c : Definition} (hab : a.same b = true) (hbc : b.same c = true) :
    a.same c = true :=
  same_iff_withoutSigns.mpr
    ((same_iff_withoutSigns.mp hab).trans (same_iff_withoutSigns.mp hbc))

end Definition

end VersionedContent
