import VersionedContent.Proofs.Schema.Steps

/-!
# Reorderings that are accepted

A reordering is accepted when it names fields that there are, as many as there are.
That comes to a permutation of the fields exactly when it repeats no name, which is
not asked. Every other change keeps names distinct, so a change list leads through
definitions with distinct names, and moves fields only, unless one of its orders
repeats a name.
-/

namespace VersionedContent.Definition

/-- Whether a change list reorders the fields of a definition that it has led to by then. -/
def Reorders (definition : Definition) (changes : List Change) (reached : Definition)
    (order : List String) : Prop :=
  ∃ before after, changes = before ++ .reorderFields order :: after ∧
    definition.apply before = .ok reached

variable {definition next result reached : Definition} {changes : List Change}
  {order : List String}

/-- A change list reorders fields at its first change, or after it. -/
theorem reorders_cons {change : Change} :
    definition.Reorders (change :: changes) reached order ↔
      (change = .reorderFields order ∧ reached = definition) ∨
        ∃ next, definition.step change = .ok next ∧ next.Reorders changes reached order := by
  constructor
  · rintro ⟨before, after, he, hb⟩
    cases before with
    | nil => exact .inl ⟨(List.cons.inj he).1, (Except.ok.inj hb).symm⟩
    | cons first before =>
      obtain ⟨rfl, rfl⟩ := List.cons.inj he
      rw [apply_cons] at hb
      cases hs : definition.step change with
      | error fault =>
        rw [hs] at hb
        cases hb
      | ok next =>
        rw [hs] at hb
        exact .inr ⟨next, rfl, before, after, rfl, hb⟩
  · rintro (⟨rfl, rfl⟩ | ⟨next, hs, before, after, rfl, hb⟩)
    · exact ⟨[], changes, rfl, rfl⟩
    · refine ⟨change :: before, after, rfl, ?_⟩
      rw [apply_cons, hs]
      exact hb

/-- A change list that is carried out is carried out change by change. -/
theorem apply_cons_eq_ok_iff {change : Change} :
    definition.apply (change :: changes) = .ok result ↔
      ∃ next, definition.step change = .ok next ∧ next.apply changes = .ok result := by
  rw [apply_cons]
  cases definition.step change <;> simp [Except.bind]

/-- Where a change list reorders fields that it can be applied to, the reordering is accepted. -/
theorem Reorders.exists_step (h : definition.Reorders changes reached order)
    (ha : definition.apply changes = .ok result) :
    ∃ next, reached.step (.reorderFields order) = .ok next := by
  obtain ⟨before, after, rfl, hb⟩ := h
  rw [apply_append, hb] at ha
  obtain ⟨next, hs, -⟩ := apply_cons_eq_ok_iff.mp ha
  exact ⟨next, hs⟩

/-- A reordering that is accepted names fields that there are, as many as there are, and afterwards
they stand in that order. -/
theorem names_of_step_reorderFields (h : definition.step (.reorderFields order) = .ok next) :
    order.length = definition.fields.length ∧ (∀ name ∈ order, name ∈ definition.fieldNames) ∧
      next.fieldNames = order := by
  obtain ⟨fields, hf, hl, rfl⟩ := step_reorderFields_eq_ok_iff.mp h
  have hnames := map_name_of_map_field? hf
  refine ⟨by rw [← hl, ← hnames, List.length_map], fun name hm => ?_, hnames⟩
  obtain ⟨field, -, hfound⟩ :=
    List.mem_map.mp (hf ▸ List.mem_map_of_mem (f := definition.field?) hm)
  rw [← field?_isSome_iff, ← hfound]
  rfl

/-- A reordering that is accepted lists every field once exactly when it repeats no name. -/
theorem order_perm_iff (hd : definition.Distinct)
    (h : definition.step (.reorderFields order) = .ok next) :
    order.Perm definition.fieldNames ↔ order.Nodup := by
  obtain ⟨hl, hm, -⟩ := names_of_step_reorderFields h
  constructor
  · intro hp
    exact hp.nodup_iff.mpr hd
  · intro hn
    have hsame : definition.fieldNames.length = order.length := by
      rw [hl, fieldNames, List.length_map]
    exact (List.subperm_of_subset hn hm).perm_of_length_le (Nat.le_of_eq hsame)

/-- A change keeps names distinct exactly when an order that it prescribes repeats none. -/
theorem distinct_step_iff (hd : definition.Distinct) {change : Change}
    (h : definition.step change = .ok next) :
    next.Distinct ↔ ∀ order, change = .reorderFields order → order.Nodup := by
  constructor
  · rintro hn order rfl
    obtain ⟨-, -, rfl⟩ := names_of_step_reorderFields h
    exact hn
  · exact fun ho => distinct_of_step hd ho h

/-- A change list whose orders repeat no name leads from distinct names to distinct names, and
reorders fields with distinct names only. -/
theorem distinct_of_apply (hd : definition.Distinct)
    (h : definition.apply changes = .ok result)
    (ho : ∀ order, .reorderFields order ∈ changes → order.Nodup) :
    result.Distinct ∧
      ∀ reached order, definition.Reorders changes reached order → reached.Distinct := by
  induction changes generalizing definition with
  | nil =>
    obtain rfl := Except.ok.inj h
    refine ⟨hd, ?_⟩
    rintro reached order ⟨before, after, he, -⟩
    simp at he
  | cons change rest ih =>
    obtain ⟨next, hs, hr⟩ := apply_cons_eq_ok_iff.mp h
    have hnext := (distinct_step_iff hd hs).mpr fun order he => ho order (he ▸ List.mem_cons_self)
    obtain ⟨hresult, hrest⟩ := ih hnext hr fun order hm => ho order (List.mem_cons_of_mem _ hm)
    refine ⟨hresult, fun reached order hreorders => ?_⟩
    rcases reorders_cons.mp hreorders with ⟨-, rfl⟩ | ⟨other, hother, hlater⟩
    · exact hd
    · obtain rfl := Except.ok.inj (hs.symm.trans hother)
      exact hrest reached order hlater

/-- A change list each of whose reorderings lists every field once repeats no name in its orders. -/
theorem nodup_of_permutes (hd : definition.Distinct)
    (h : definition.apply changes = .ok result)
    (hp : ∀ reached order, definition.Reorders changes reached order →
      order.Perm reached.fieldNames) :
    ∀ order, .reorderFields order ∈ changes → order.Nodup := by
  induction changes generalizing definition with
  | nil => simp
  | cons change rest ih =>
    obtain ⟨next, hs, hr⟩ := apply_cons_eq_ok_iff.mp h
    have hfirst : ∀ order, change = .reorderFields order → order.Nodup := by
      rintro order rfl
      exact (order_perm_iff hd hs).mp (hp definition order (reorders_cons.mpr (.inl ⟨rfl, rfl⟩)))
    have hlater := ih ((distinct_step_iff hd hs).mpr hfirst) hr fun reached order hreorders =>
      hp reached order (reorders_cons.mpr (.inr ⟨next, hs, hreorders⟩))
    intro order hm
    rcases List.mem_cons.mp hm with he | hm
    · exact hfirst order he.symm
    · exact hlater order hm

/-- Of a change list that is carried out on distinct names, every reordering names fields that there
are by then, as many as there are. Each of them lists every field once exactly when none of the
orders repeats a name; then the names stay distinct and each reordering only moves fields. -/
theorem reorderings_permute_iff (hd : definition.Distinct)
    (h : definition.apply changes = .ok result) :
    (∀ reached order, definition.Reorders changes reached order →
      order.length = reached.fields.length ∧ ∀ name ∈ order, name ∈ reached.fieldNames) ∧
    ((∀ reached order, definition.Reorders changes reached order →
        order.Perm reached.fieldNames) ↔
      ∀ order, .reorderFields order ∈ changes → order.Nodup) ∧
    ((∀ order, .reorderFields order ∈ changes → order.Nodup) →
      result.Distinct ∧ ∀ reached order, definition.Reorders changes reached order →
        ∃ next, reached.step (.reorderFields order) = .ok next ∧
          next.fields.Perm reached.fields) := by
  have hmem {reached : Definition} {order : List String}
      (hr : definition.Reorders changes reached order) : .reorderFields order ∈ changes := by
    obtain ⟨before, after, rfl, -⟩ := hr
    simp
  refine ⟨fun reached order hr => ?_, ⟨nodup_of_permutes hd h, fun ho reached order hr => ?_⟩,
    fun ho => ?_⟩
  · obtain ⟨next, hs⟩ := hr.exists_step h
    obtain ⟨hl, hm, -⟩ := names_of_step_reorderFields hs
    exact ⟨hl, hm⟩
  · obtain ⟨next, hs⟩ := hr.exists_step h
    exact (order_perm_iff ((distinct_of_apply hd h ho).2 reached order hr) hs).mpr
      (ho order (hmem hr))
  · obtain ⟨hresult, hreached⟩ := distinct_of_apply hd h ho
    refine ⟨hresult, fun reached order hr => ?_⟩
    obtain ⟨next, hs⟩ := hr.exists_step h
    exact ⟨next, hs,
      perm_of_step_reorderFields (hreached reached order hr) (ho order (hmem hr)) hs⟩

/-- An article whose text is renamed and moved to the front before it gets a lead keeps every field
through both of its reorderings. -/
theorem reorderings_permute_of_moved_text :
    let article : Definition :=
      { name := "article"
        fields := [{ name := "title", type := .string }, { name := "text", type := .html },
          { name := "views", type := .number }] }
    let changes : List Change :=
      [.renameField "text" "body", .reorderFields ["body", "views", "title"],
        .addField { name := "lead", type := .string } (some 1),
        .reorderFields ["title", "lead", "body", "views"]]
    ∃ result, article.Distinct ∧ article.apply changes = .ok result ∧
      (∀ order, .reorderFields order ∈ changes → order.Nodup) ∧ result.Distinct ∧
      result.fieldNames = ["title", "lead", "body", "views"] ∧
      ∀ reached order, article.Reorders changes reached order →
        ∃ next, reached.step (.reorderFields order) = .ok next ∧
          next.fields.Perm reached.fields := by
  intro article changes
  have hd : article.Distinct := by decide +kernel
  have ho : ∀ order, .reorderFields order ∈ changes → order.Nodup := by simp [changes]
  obtain ⟨result, ha⟩ : ∃ result, article.apply changes = .ok result := ⟨_, rfl⟩
  obtain ⟨-, -, hkept⟩ := reorderings_permute_iff hd ha
  obtain ⟨hresult, hmoved⟩ := hkept ho
  have hnames : (article.apply changes).toOption.map fieldNames =
      some ["title", "lead", "body", "views"] := by decide +kernel
  rw [ha] at hnames
  exact ⟨result, hd, ha, ho, hresult, Option.some.inj hnames, hmoved⟩

/-- An order that lists one of two fields twice is accepted, and the other field is lost. -/
theorem exists_reordering_that_loses_field :
    let article : Definition :=
      { name := "article"
        fields := [{ name := "title", type := .string }, { name := "body", type := .html }] }
    ∃ result, article.Distinct ∧
      article.apply [.reorderFields ["title", "title"]] = .ok result ∧
      result.fieldNames = ["title", "title"] ∧ ¬ result.Distinct ∧
      ¬ ["title", "title"].Perm article.fieldNames := by
  intro article
  have hnames : ((article.apply [.reorderFields ["title", "title"]]).toOption.map fieldNames) =
      some ["title", "title"] := by decide +kernel
  obtain ⟨result, ha⟩ : ∃ result,
      article.apply [.reorderFields ["title", "title"]] = .ok result := ⟨_, rfl⟩
  rw [ha] at hnames
  have hresult : result.fieldNames = ["title", "title"] := Option.some.inj hnames
  refine ⟨result, by decide +kernel, ha, hresult, ?_, by decide +kernel⟩
  rw [Distinct, hresult]
  decide +kernel

end VersionedContent.Definition
