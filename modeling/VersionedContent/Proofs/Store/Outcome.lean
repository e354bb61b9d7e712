import VersionedContent.Store.Transaction

/-!
# Outcomes

Transactions and actions are computations that change a state and may fail. The
outcome of one is its answer, or its failure, together with the state that is
left in either case.
-/

namespace VersionedContent

variable {ε σ α β : Type}

/-- What a computation answers in a state, and the state it leaves. -/
def outcome (computation : ExceptT ε (StateM σ) α) (state : σ) : Except ε α × σ :=
  computation.run.run state

@[simp] theorem outcome_pure (a : α) (state : σ) :
    outcome (pure a : ExceptT ε (StateM σ) α) state = (.ok a, state) := rfl

@[simp] theorem outcome_throw (failure : ε) (state : σ) :
    outcome (throw failure : ExceptT ε (StateM σ) α) state = (.error failure, state) := rfl

@[simp] theorem outcome_get (state : σ) :
    outcome (get : ExceptT ε (StateM σ) σ) state = (.ok state, state) := rfl

@[simp] theorem outcome_set (next state : σ) :
    outcome (set next : ExceptT ε (StateM σ) PUnit) state = (.ok ⟨⟩, next) := rfl

@[simp] theorem outcome_modify (f : σ → σ) (state : σ) :
    outcome (modify f : ExceptT ε (StateM σ) PUnit) state = (.ok ⟨⟩, f state) := rfl

/-- A second computation goes on from where the first one ends, unless that fails. -/
theorem outcome_bind (first : ExceptT ε (StateM σ) α) (f : α → ExceptT ε (StateM σ) β)
    (state : σ) :
    outcome (first >>= f) state =
      match outcome first state with
      | (.ok a, next) => outcome (f a) next
      | (.error failure, next) => (.error failure, next) := by
  have h : outcome (first >>= f) state =
      (ExceptT.bindCont f (outcome first state).1).run (outcome first state).2 := rfl
  rw [h]
  obtain ⟨answer, next⟩ := outcome first state
  cases answer <;> rfl

/-- A function of the answer leaves the state alone. -/
@[simp] theorem outcome_map (f : α → β) (computation : ExceptT ε (StateM σ) α) (state : σ) :
    outcome (f <$> computation) state =
      ((outcome computation state).1.map f, (outcome computation state).2) := by
  rw [map_eq_pure_bind, outcome_bind]
  rcases outcome computation state with ⟨_ | _, _⟩ <;> rfl

/-- After an answer the second computation goes on. -/
theorem outcome_bind_of_ok {first : ExceptT ε (StateM σ) α} {state next : σ} {a : α}
    (h : outcome first state = (.ok a, next)) (f : α → ExceptT ε (StateM σ) β) :
    outcome (first >>= f) state = outcome (f a) next := by
  rw [outcome_bind, h]

/-- After a failure nothing more happens. -/
theorem outcome_bind_of_error {first : ExceptT ε (StateM σ) α} {state next : σ} {failure : ε}
    (h : outcome first state = (.error failure, next)) (f : α → ExceptT ε (StateM σ) β) :
    outcome (first >>= f) state = (.error failure, next) := by
  rw [outcome_bind, h]

/-- The second computation goes on alike from first ones that come to the same. -/
theorem outcome_bind_congr {first other : ExceptT ε (StateM σ) α} {state : σ}
    (h : outcome first state = outcome other state) (f : α → ExceptT ε (StateM σ) β) :
    outcome (first >>= f) state = outcome (other >>= f) state := by
  rw [outcome_bind, outcome_bind, h]

/-- What two computations in a row answer, the first one has answered and the second one has gone on
from there. -/
theorem of_outcome_bind_eq_ok {first : ExceptT ε (StateM σ) α}
    {f : α → ExceptT ε (StateM σ) β} {state next : σ} {b : β}
    (h : outcome (first >>= f) state = (.ok b, next)) :
    ∃ a middle, outcome first state = (.ok a, middle) ∧ outcome (f a) middle = (.ok b, next) := by
  rw [outcome_bind] at h
  rcases hfirst : outcome first state with ⟨failure | a, middle⟩
  · rw [hfirst] at h
    cases congrArg Prod.fst h
  · rw [hfirst] at h
    exact ⟨a, middle, rfl, h⟩

end VersionedContent
