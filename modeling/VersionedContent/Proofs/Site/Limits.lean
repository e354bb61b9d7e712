import Mathlib.Order.MinMax
import VersionedContent.Proofs.Site.Action

/-!
# Loops that are never cut short

The loops of a job have no counter: pages are read until one is not full, links are followed
until they end, and jobs are claimed until none is eligible. A `Limit` says how often a loop
may go round and what is done when it would go on. An action whose loops come to an end by
themselves comes to the same under any limit that leaves its loops rounds enough, whatever
would be done then: a loop that were cut short could leave what nothing else leaves.
-/

namespace VersionedContent.Action

variable {α β : Type} {run : Limit → Action α} {action : Action α} {site : Site}

/-- Whether an action ends on a site as another one does: it comes to the same under every limit
by which its loops may go round often enough, whatever is done when one of them is cut short. -/
def EndsAs (run : Limit → Action α) (action : Action α) (site : Site) : Prop :=
  ∃ enough, ∀ limit : Limit, (∀ n, enough ≤ limit.rounds n) →
    outcome (run limit) site = outcome action site

/-- An action without such loops ends as it does. -/
theorem endsAs_const (action : Action α) (site : Site) : EndsAs (fun _ => action) action site :=
  ⟨0, fun _ _ => rfl⟩

/-- Nothing follows a failure. -/
theorem endsAs_throw_bind (failure : Failure) (f : Limit → α → Action β) (g : α → Action β)
    (site : Site) : EndsAs (fun limit => throw failure >>= f limit) (throw failure >>= g) site :=
  ⟨0, fun _ _ => rfl⟩

/-- A loop may be taken to go round a number of times and some more. -/
theorem EndsAs.of_rounds (loop : Limit → Nat → Action α) {fuel n : Nat}
    (h : EndsAs (fun limit => loop limit (limit.rounds n - fuel + fuel)) action site) :
    EndsAs (fun limit => loop limit (limit.rounds n)) action site := by
  obtain ⟨enough, h⟩ := h
  refine ⟨max enough fuel, fun limit hr => ?_⟩
  have hends := h limit fun n => le_of_max_le_left (hr n)
  dsimp only at hends
  rwa [Nat.sub_add_cancel (le_of_max_le_right (hr n))] at hends

/-- Of two actions in a row the second one starts where the first one ends. -/
theorem EndsAs.bind {f : Limit → α → Action β} {g : α → Action β} (h : EndsAs run action site)
    (hf : ∀ a next, outcome action site = (.ok a, next) →
      EndsAs (fun limit => f limit a) (g a) next) :
    EndsAs (fun limit => run limit >>= f limit) (action >>= g) site := by
  obtain ⟨enough, h⟩ := h
  rcases ho : outcome action site with ⟨failure | a, next⟩
  · refine ⟨enough, fun limit hr => ?_⟩
    rw [outcome_bind, outcome_bind, h limit hr, ho]
  · obtain ⟨more, hmore⟩ := hf a next ho
    refine ⟨max enough more, fun limit hr => ?_⟩
    rw [outcome_bind, outcome_bind, h limit fun n => le_of_max_le_left (hr n), ho]
    exact hmore limit fun n => le_of_max_le_right (hr n)

/-- What follows an answer that is known. -/
theorem EndsAs.bind_of_ok {f : Limit → α → Action β} {g : α → Action β} {a : α} {next : Site}
    (h : EndsAs run action site) (ho : outcome action site = (.ok a, next))
    (hf : EndsAs (fun limit => f limit a) (g a) next) :
    EndsAs (fun limit => run limit >>= f limit) (action >>= g) site := by
  refine h.bind fun other last hother => ?_
  obtain ⟨hanswer, rfl⟩ := Prod.mk.inj (hother.symm.trans ho)
  rw [Except.ok.inj hanswer]
  exact hf

/-- Nothing follows a failure that is known. -/
theorem EndsAs.bind_of_error {f : Limit → α → Action β} {g : α → Action β} {failure : Failure}
    {next : Site} (h : EndsAs run action site) (ho : outcome action site = (.error failure, next)) :
    EndsAs (fun limit => run limit >>= f limit) (action >>= g) site := by
  refine h.bind fun a last ha => ?_
  cases congrArg Prod.fst (ha.symm.trans ho)

/-- What is caught ends as it does uncaught. -/
theorem EndsAs.attempt (h : EndsAs run action site) :
    EndsAs (fun limit => (run limit).attempt) action.attempt site := by
  obtain ⟨enough, h⟩ := h
  refine ⟨enough, fun limit hr => ?_⟩
  rw [outcome_attempt, outcome_attempt, h limit hr]

/-- An action for each element of a list. -/
theorem endsAs_mapM {I : Site → Prop} {f : Limit → α → Action β} {g : α → Action β}
    {list : List α}
    (h : ∀ a ∈ list, ∀ site, I site →
      EndsAs (fun limit => f limit a) (g a) site ∧ I (outcome (g a) site).2)
    (hi : I site) : EndsAs (fun limit => list.mapM (f limit)) (list.mapM g) site := by
  induction list generalizing site with
  | nil => exact endsAs_const _ _
  | cons a rest ih =>
    simp only [List.mapM_cons]
    obtain ⟨hends, hleft⟩ := h a List.mem_cons_self site hi
    refine hends.bind fun b next hnext => ?_
    rw [hnext] at hleft
    exact (ih (fun c hc => h c (List.mem_cons_of_mem _ hc)) hleft).bind fun _ _ _ =>
      endsAs_const _ _

/-- An action for each element of a list, for its effect. -/
theorem endsAs_forM {I : Site → Prop} {f : Limit → α → Action PUnit} {g : α → Action PUnit}
    {list : List α}
    (h : ∀ a ∈ list, ∀ site, I site →
      EndsAs (fun limit => f limit a) (g a) site ∧ I (outcome (g a) site).2)
    (hi : I site) : EndsAs (fun limit => list.forM (f limit)) (list.forM g) site := by
  induction list generalizing site with
  | nil => exact endsAs_const _ _
  | cons a rest ih =>
    obtain ⟨hends, hleft⟩ := h a List.mem_cons_self site hi
    refine hends.bind fun b next hnext => ?_
    rw [hnext] at hleft
    exact ih (fun c hc => h c (List.mem_cons_of_mem _ hc)) hleft

end VersionedContent.Action
