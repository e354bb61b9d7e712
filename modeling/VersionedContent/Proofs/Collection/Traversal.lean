import Mathlib.Data.List.Forall2

/-!
# Computations along a list

What a list of computations that may fail comes to: all of its results, in order,
or the failure of the first one that fails.
-/

namespace VersionedContent

variable {ε α β : Type} {f : α → Except ε β} {list : List α}

/-- A result that was worked on further comes from a result. -/
theorem exists_of_map_eq_ok {g : α → β} {result : Except ε α} {b : β}
    (h : result.map g = .ok b) : ∃ a, result = .ok a ∧ g a = b := by
  cases result with
  | error e => cases h
  | ok a => exact ⟨a, rfl, Except.ok.inj h⟩

/-- A computation whose result is worked on further has a result when it has one. -/
theorem exists_map_eq_ok_iff {g : α → β} {result : Except ε α} :
    (∃ b, result.map g = .ok b) ↔ ∃ a, result = .ok a := by
  cases result <;> simp [Except.map]

/-- A list of computations has the results of its computations, in order. -/
theorem mapM_eq_ok_iff {results : List β} :
    list.mapM f = .ok results ↔ List.Forall₂ (fun a b => f a = .ok b) list results := by
  induction list generalizing results with
  | nil => simp [pure, Except.pure, eq_comm]
  | cons first rest ih =>
    rw [List.mapM_cons, List.forall₂_cons_left_iff]
    cases hf : f first with
    | error error => simp [bind, Except.bind]
    | ok b =>
      cases hr : rest.mapM f with
      | error error => simp [bind, Except.bind, ← ih, hr]
      | ok others => simp [bind, Except.bind, pure, Except.pure, ← ih, hr, eq_comm]

/-- Computations that each give back what they are given give back the list. -/
theorem mapM_eq_self {f : α → Except ε α} (h : ∀ a ∈ list, f a = .ok a) :
    list.mapM f = .ok list :=
  mapM_eq_ok_iff.mpr (List.forall₂_same.mpr h)

/-- A list of computations has results when each of them has one. -/
theorem exists_mapM_eq_ok_iff :
    (∃ results, list.mapM f = .ok results) ↔ ∀ a ∈ list, ∃ b, f a = .ok b := by
  simp only [mapM_eq_ok_iff]
  constructor
  · rintro ⟨results, h⟩ a ha
    induction h with
    | nil => cases ha
    | cons hf _ ih =>
      rcases List.mem_cons.mp ha with rfl | ha
      · exact ⟨_, hf⟩
      · exact ih ha
  · intro h
    induction list with
    | nil => exact ⟨[], .nil⟩
    | cons first rest ih =>
      obtain ⟨b, hb⟩ := h first List.mem_cons_self
      obtain ⟨others, ho⟩ := ih fun a ha => h a (List.mem_cons_of_mem first ha)
      exact ⟨b :: others, .cons hb ho⟩

/-- Of two lists that are related item by item, each item of the second is related to one of the
first. -/
theorem exists_of_mem_forall₂ {R : α → β → Prop} {as : List α} {bs : List β}
    (h : List.Forall₂ R as bs) : ∀ b ∈ bs, ∃ a ∈ as, R a b := by
  induction h with
  | nil => simp
  | @cons first b rest others hr _ ih =>
    intro c hm
    rcases List.mem_cons.mp hm with rfl | hm
    · exact ⟨first, List.mem_cons_self, hr⟩
    · obtain ⟨a, ha, hr⟩ := ih c hm
      exact ⟨a, List.mem_cons_of_mem first ha, hr⟩

/-- Every result of a list of computations is the result of one of them. -/
theorem exists_of_mem_mapM {results : List β} (h : list.mapM f = .ok results) :
    ∀ b ∈ results, ∃ a ∈ list, f a = .ok b :=
  exists_of_mem_forall₂ (mapM_eq_ok_iff.mp h)

/-- Every result of a list of computations is that of the computation at its place. -/
theorem exists_of_getElem?_mapM {results : List β} (h : list.mapM f = .ok results) {i : Nat} {b : β}
    (hb : results[i]? = some b) : ∃ a, list[i]? = some a ∧ f a = .ok b := by
  have hall := mapM_eq_ok_iff.mp h
  obtain ⟨hlt, rfl⟩ := List.getElem?_eq_some_iff.mp hb
  have hi : i < list.length := hall.length_eq ▸ hlt
  exact ⟨list[i], List.getElem?_eq_getElem hi, hall.get hi hlt⟩

/-- A list of computations fails as the first of them that fails. -/
theorem mapM_eq_error_iff {error : ε} :
    list.mapM f = .error error ↔ ∃ before a after, list = before ++ a :: after ∧
      (∀ b ∈ before, ∃ result, f b = .ok result) ∧ f a = .error error := by
  induction list with
  | nil => simp [pure, Except.pure]
  | cons first rest ih =>
    rw [List.mapM_cons]
    simp only [List.cons_eq_append_iff]
    cases hf : f first with
    | error cause =>
      constructor
      · intro h
        cases h
        exact ⟨[], first, rest, .inl ⟨rfl, rfl⟩, by simp, hf⟩
      · rintro ⟨before, a, after, ⟨rfl, h⟩ | ⟨others, rfl, -⟩, hbefore, ha⟩
        · cases h
          rw [hf] at ha
          cases ha
          rfl
        · obtain ⟨result, hr⟩ := hbefore first List.mem_cons_self
          rw [hf] at hr
          cases hr
    | ok b =>
      have hrest : (do let others ← rest.mapM f; pure (b :: others)) = Except.error error ↔
          rest.mapM f = .error error := by
        cases rest.mapM f <;> simp [bind, Except.bind, pure, Except.pure]
      refine hrest.trans (ih.trans ⟨?_, ?_⟩)
      · rintro ⟨before, a, after, rfl, hbefore, ha⟩
        refine ⟨first :: before, a, after, .inr ⟨before, rfl, rfl⟩, fun other hm => ?_, ha⟩
        rcases List.mem_cons.mp hm with rfl | hm
        · exact ⟨b, hf⟩
        · exact hbefore other hm
      · rintro ⟨before, a, after, ⟨rfl, h⟩ | ⟨others, rfl, rfl⟩, hbefore, ha⟩
        · cases h
          rw [hf] at ha
          cases ha
        · exact ⟨others, a, after, rfl,
            fun other hm => hbefore other (List.mem_cons_of_mem first hm), ha⟩

/-- A list of computations fails as one of them does. -/
theorem exists_of_mapM_eq_error {error : ε} (h : list.mapM f = .error error) :
    ∃ a ∈ list, f a = .error error := by
  obtain ⟨before, a, after, rfl, -, ha⟩ := mapM_eq_error_iff.mp h
  exact ⟨a, by simp, ha⟩

/-- A run along a list fails at one of its steps, which those before it lead to. -/
theorem exists_of_foldlM_eq_error {σ : Type} {step : σ → α → Except ε σ} {start : σ} {error : ε}
    (h : list.foldlM step start = .error error) :
    ∃ before a after reached, list = before ++ a :: after ∧
      before.foldlM step start = .ok reached ∧ step reached a = .error error := by
  induction list generalizing start with
  | nil => cases h
  | cons first rest ih =>
    rw [List.foldlM_cons] at h
    cases hf : step start first with
    | error cause =>
      rw [hf] at h
      obtain rfl := Except.error.inj h
      exact ⟨[], first, rest, start, rfl, rfl, hf⟩
    | ok next =>
      rw [hf] at h
      obtain ⟨before, a, after, reached, rfl, hr, ha⟩ := ih h
      refine ⟨first :: before, a, after, reached, rfl, ?_, ha⟩
      rw [List.foldlM_cons, hf]
      exact hr

end VersionedContent
