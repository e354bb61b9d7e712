import VersionedContent.Proofs.Site.Action

/-!
# Reading in pages

Going through pages comes to the same as visiting a listing as a whole, provided
that a visit leaves what is past the page as it is. What is listed may show more
than the visit looks at, so that only a view of it has to stay.
-/

namespace VersionedContent.Site

open VersionedContent.Action

variable {α β γ : Type}

/-- Two lists in a row may be gone through one after the other. -/
theorem filterMapM_append {f : α → Action (Option β)} (a b : List α) :
    (a ++ b).filterMapM f = do return (← a.filterMapM f) ++ (← b.filterMapM f) := by
  induction a with
  | nil => simp
  | cons first rest ih =>
    rw [List.cons_append, List.filterMapM_cons, List.filterMapM_cons, ih, bind_assoc]
    congr 1
    funext found
    cases found <;> simp

/-- What looks at a view only may be done to the view. -/
theorem filterMapM_view {f : α → Action (Option β)} {g : γ → Action (Option β)} {view : α → γ}
    (h : ∀ a, f a = g (view a)) (list : List α) :
    list.filterMapM f = (list.map view).filterMapM g := by
  induction list with
  | nil => rfl
  | cons first rest ih => rw [List.map_cons, List.filterMapM_cons, List.filterMapM_cons, h, ih]

/-- Whether a listing by container type and cursor can be read in pages while they are visited. -/
structure Paged (I : Site → Prop) (bucket : Nat)
    (list : ContainerType → Option Cursor → Store → List α) (cursorOf : α → Cursor)
    (view : α → γ) (visit : List α → Action (List β)) : Prop where
  /-- A page holds something. -/
  positive : 0 < bucket
  /-- There is nothing to do on an empty page. -/
  nil : visit [] = pure []
  /-- Two pages are visited one after the other. -/
  append : ∀ a b, visit (a ++ b) = do return (← visit a) ++ (← visit b)
  /-- A visit looks at the view only. -/
  congr : ∀ a b, a.map view = b.map view → visit a = visit b
  /-- Past the last item of a page stands the rest of the listing. -/
  past : ∀ site type cursor last, I site →
    ((list type cursor site.store).take bucket).getLast? = some last →
      list type (some (cursorOf last)) site.store = (list type cursor site.store).drop bucket
  /-- Visiting what is listed first leaves a site that can be listed. -/
  keeps : ∀ site type cursor size, I site →
    I (outcome (visit ((list type cursor site.store).take size)) site).2
  /-- Visiting a page leaves what is past it. -/
  frame : ∀ site type cursor last, I site →
    ((list type cursor site.store).take bucket).getLast? = some last →
      (list type (some (cursorOf last))
          (outcome (visit ((list type cursor site.store).take bucket)) site).2.store).map view =
        (list type (some (cursorOf last)) site.store).map view

variable {I : Site → Prop} {bucket : Nat} {list : ContainerType → Option Cursor → Store → List α}
  {cursorOf : α → Cursor} {view : α → γ} {visit : List α → Action (List β)}

/-- Visiting all that is listed leaves a site that can be listed. -/
theorem Paged.keeps_all (h : Paged I bucket list cursorOf view visit) {site : Site} (hi : I site)
    (type : ContainerType) (cursor : Option Cursor) :
    I (outcome (visit (list type cursor site.store)) site).2 := by
  have hnext := h.keeps site type cursor (list type cursor site.store).length hi
  rwa [List.take_length] at hnext

/-- After a visit to a page the rest of the listing is there as before, and is shorter. -/
theorem Paged.past_page (h : Paged I bucket list cursorOf view visit) {type : ContainerType}
    {cursor : Option Cursor} {site next : Site} (hi : I site) {last : α}
    (hlast : ((list type cursor site.store).take bucket).getLast? = some last)
    {answer : Except Failure (List β)}
    (hvisit : outcome (visit ((list type cursor site.store).take bucket)) site = (answer, next)) :
    I next ∧
      (list type (some (cursorOf last)) next.store).map view =
        ((list type cursor site.store).drop bucket).map view ∧
      (list type (some (cursorOf last)) next.store).length <
        (list type cursor site.store).length := by
  have hnext := h.keeps site type cursor bucket hi
  have hrest := h.frame site type cursor last hi hlast
  rw [hvisit, h.past site type cursor last hi hlast] at hrest
  rw [hvisit] at hnext
  have hsame := congrArg List.length hrest
  rw [List.length_map, List.length_map, List.length_drop] at hsame
  have hsome := List.length_pos_of_mem (List.mem_of_mem_take (List.mem_of_getLast? hlast))
  have hbucket := h.positive
  exact ⟨hnext, hrest, by dsimp only at hsame; omega⟩

/-- Pages gathered from a cursor come to visiting all that is listed past it. -/
theorem Paged.outcome_gather (h : Paged I bucket list cursorOf view visit) (type : ContainerType)
    (fuel : Nat) {cursor : Option Cursor} {site : Site} (hi : I site)
    (hf : (list type cursor site.store).length < fuel) :
    outcome (gather .ample bucket (fun cursor => query fun store =>
        (list type cursor store).take bucket) cursorOf visit fuel cursor) site =
      outcome (visit (list type cursor site.store)) site := by
  induction fuel generalizing cursor site with
  | zero => exact absurd hf (Nat.not_lt_zero _)
  | succ fuel ih =>
    obtain ⟨page, hpage⟩ : ∃ page, page = (list type cursor site.store).take bucket := ⟨_, rfl⟩
    have hlength : page.length = min bucket (list type cursor site.store).length := by
      rw [hpage, List.length_take]
    rw [gather, outcome_bind_of_ok (outcome_query _ site), ← hpage]
    cases hlast : page.getLast? with
    | none =>
      have hempty := List.getLast?_eq_none_iff.mp hlast
      have hnothing : list type cursor site.store = [] := by
        rw [hempty] at hlength
        have := h.positive
        exact List.length_eq_zero_iff.mp (by simp at hlength; omega)
      rw [hnothing, h.nil]
    | some last =>
      dsimp only
      rw [hpage] at hlast
      by_cases hfull : page.length = bucket
      · simp only [hfull, if_true]
        conv =>
          rhs
          rw [← List.take_append_drop bucket (list type cursor site.store), h.append, ← hpage]
        rw [outcome_bind, outcome_bind]
        rcases hvisit : outcome (visit page) site with ⟨failure | found, next⟩
        · rfl
        · obtain ⟨hnext, hrest, hless⟩ := h.past_page hi hlast (hpage ▸ hvisit)
          dsimp only
          rw [outcome_bind, outcome_bind, ih hnext (by omega), h.congr _ _ hrest]
      · have hall : list type cursor site.store = page := by
          rw [hpage, List.take_of_length_le]
          omega
        simp only [hfull, if_false, bind_pure]
        rw [hall]

/-- The drafts and the published content of a branch, gathered in pages, come to visiting all of
them in a row, when visiting the drafts leaves the published content. -/
theorem Paged.outcome_gatherAll {site : Site}
    (h : Paged I site.bucketSize list cursorOf view visit) (hi : I site)
    (hf : ∀ type, (list type none site.store).length ≤ site.store.edges.size)
    (happart : (list .published none
        (outcome (visit (list .draft none site.store)) site).2.store).map view =
      (list .published none site.store).map view) :
    outcome (gatherAll .ample (fun type cursor size => query fun store =>
        (list type cursor store).take size) cursorOf visit) site =
      outcome (visit (list .draft none site.store ++ list .published none site.store)) site := by
  have hall : ContainerType.all = [.draft, .published] := rfl
  unfold gatherAll
  rw [outcome_bind_of_ok (outcome_get site), h.append]
  simp only [hall, List.mapM_cons, List.mapM_nil, bind_assoc, pure_bind, Limit.rounds_ample]
  rw [outcome_bind, outcome_bind, h.outcome_gather .draft _ hi (Nat.lt_succ_of_le (hf .draft))]
  have hnext := h.keeps_all hi .draft none
  rcases hvisit : outcome (visit (list .draft none site.store)) site with ⟨failure | drafts, next⟩
  · rfl
  · rw [hvisit] at happart hnext
    dsimp only at happart hnext
    have hshort : (list .published none next.store).length < site.store.edges.size + 1 := by
      have hsame := congrArg List.length happart
      rw [List.length_map, List.length_map] at hsame
      rw [hsame]
      exact Nat.lt_succ_of_le (hf .published)
    dsimp only
    rw [outcome_bind, outcome_bind, h.outcome_gather .published _ hnext hshort,
      h.congr _ _ happart]
    rcases outcome (visit (list .published none site.store)) next with ⟨_ | _, _⟩ <;> simp

end VersionedContent.Site
