import Mathlib.Order.Defs.Unbundled
import VersionedContent.Proofs.Store.Outcome
import VersionedContent.Site.Worker

/-!
# What actions do to sites

The outcome of an action on a site is an answer and the site that is left. The
equations of this module follow an action through its parts. `Within` says that
an action goes from any site only to sites that stand in a given relation to it;
for a relation that is reflexive and transitive this passes through every way of
composing actions, whether they fail or not.
-/

namespace VersionedContent.Action

variable {α β : Type}

@[simp] theorem outcome_query (question : Store → α) (site : Site) :
    outcome (query question) site = (.ok (question site.store), site) := rfl

/-- A transaction changes the store only, and answers for it. -/
theorem outcome_transact (transaction : Transaction α) (site : Site) :
    outcome (transact transaction) site =
      ((outcome transaction site.store).1.mapError Failure.store,
        { site with store := (outcome transaction site.store).2 }) := by
  rw [transact, outcome_bind_of_ok (outcome_get site), outcome.eq_def transaction]
  rcases transaction.run.run site.store with ⟨fault | a, store⟩ <;> rfl

@[simp] theorem outcome_attempt (action : Action α) (site : Site) :
    outcome action.attempt site = (.ok (outcome action site).1, (outcome action site).2) := by
  have h := outcome_bind action (fun a => (pure (Except.ok a) : Action (Except Failure α))) site
  unfold outcome at h ⊢
  rw [attempt, ExceptT.run_tryCatch, StateT.run_bind, h]
  rcases action.run.run site with ⟨_ | _, _⟩ <;> rfl

/-- A site after its clock has been read. -/
def ticked (site : Site) : Site :=
  { site with clock := { site.clock with reads := site.clock.reads + 1 } }

/-- Reading the clock makes it tick. -/
@[simp] theorem outcome_now (site : Site) :
    outcome now site = (.ok (site.clock.reading site.clock.reads), ticked site) := rfl

/-- Without outages every operation is carried out. -/
theorem outcome_unlessOut {operation : StoreOperation} {declined : α} {action : Action α}
    {site : Site} (h : site.outages = []) :
    outcome (unlessOut operation declined action) site = outcome action site :=
  unlessOut_of_outages_eq_nil operation declined action h

@[simp] theorem outcome_orNotFound_some (what id : String) (a : α) (site : Site) :
    outcome (orNotFound what id (some a)) site = (.ok a, site) := rfl

/-- Whether an action, on a site with a property, goes only to sites with this property that are
related to it, and answers only with what passes a test. -/
def Within (I : Site → Prop) (R : Site → Site → Prop) (P : α → Prop) (action : Action α) : Prop :=
  ∀ site, I site → I (outcome action site).2 ∧ R site (outcome action site).2 ∧
    ∀ a, (outcome action site).1 = .ok a → P a

section Within

variable {I : Site → Prop} {R : Site → Site → Prop} {P : α → Prop} {Q : β → Prop}

/-- An operation of the store that may be out of order goes where the bare operation goes. -/
theorem within_unlessOut (hI : ∀ site, I site → site.outages = []) {operation : StoreOperation}
    {declined : α} {action : Action α} (h : Within I R P action) :
    Within I R P (unlessOut operation declined action) := by
  intro site hi
  rw [outcome_unlessOut (hI site hi)]
  exact h site hi

/-- What is caught goes where it would go uncaught. -/
theorem within_attempt {action : Action α} (h : Within I R P action) :
    Within I R (fun answer => ∀ a, answer = .ok a → P a) action.attempt := by
  intro site hi
  rw [outcome_attempt]
  obtain ⟨hn, hr, hp⟩ := h site hi
  refine ⟨hn, hr, fun answer he => ?_⟩
  obtain rfl := Except.ok.inj he
  exact hp

/-- Where an action goes. -/
theorem Within.leads {action : Action α} (h : Within I R P action) {site : Site} (hi : I site) :
    I (outcome action site).2 ∧ R site (outcome action site).2 :=
  ⟨(h site hi).1, (h site hi).2.1⟩

/-- An action may be known to answer with less. -/
theorem Within.imp {action : Action α} {P' : α → Prop} (h : Within I R P action)
    (hp : ∀ a, P a → P' a) : Within I R P' action := by
  intro site hi
  obtain ⟨hn, hr, ha⟩ := h site hi
  exact ⟨hn, hr, fun a he => hp a (ha a he)⟩

/-- A change goes where it leads. -/
theorem within_modify {f : Site → Site} (h : ∀ site, I site → I (f site) ∧ R site (f site)) :
    Within I R (fun _ => True) (modify f : Action PUnit) := by
  intro site hi
  rw [outcome_modify]
  exact ⟨(h site hi).1, (h site hi).2, fun _ _ => trivial⟩

variable [Std.Refl R]

theorem within_pure {a : α} (h : P a) : Within I R P (pure a) := by
  intro site hi
  refine ⟨hi, refl site, fun b he => ?_⟩
  obtain rfl := Except.ok.inj he
  exact h

theorem within_throw (failure : Failure) : Within I R P (throw failure : Action α) := by
  intro site hi
  exact ⟨hi, refl site, fun b he => by cases he⟩

/-- Nothing follows a failure. -/
theorem within_throw_bind (failure : Failure) (f : α → Action β) :
    Within I R Q (throw failure >>= f) := by
  intro site hi
  exact ⟨hi, refl site, fun b he => by cases he⟩

/-- A question to the store is answered from any site with the property. -/
theorem within_query {question : Store → α} (h : ∀ site, I site → P (question site.store)) :
    Within I R P (query question) := by
  intro site hi
  refine ⟨hi, refl site, fun b he => ?_⟩
  obtain rfl := Except.ok.inj he
  exact h site hi

/-- An answer that is there is what was asked for. -/
theorem within_orNotFound {what id : String} {answer : Option α}
    (h : ∀ a, answer = some a → P a) : Within I R P (orNotFound what id answer) := by
  cases answer with
  | none => exact within_throw _
  | some a => exact within_pure (h a rfl)

omit [Std.Refl R] in
/-- What depends on the site may be shown for each site. -/
theorem within_get_bind {f : Site → Action β}
    (h : ∀ site, I site → I (outcome (f site) site).2 ∧ R site (outcome (f site) site).2 ∧
      ∀ b, (outcome (f site) site).1 = .ok b → Q b) : Within I R Q (get >>= f) := by
  intro site hi
  rw [outcome_bind_of_ok (outcome_get site)]
  exact h site hi

variable [IsTrans Site R]

omit [Std.Refl R] in
/-- Of two actions in a row each may go as far as the relation says. -/
theorem within_bind {action : Action α} {f : α → Action β} (h : Within I R P action)
    (hf : ∀ a, P a → Within I R Q (f a)) : Within I R Q (action >>= f) := by
  intro site hi
  have hfirst := h site hi
  rw [outcome_bind]
  rcases hact : outcome action site with ⟨failure | a, next⟩
  · rw [hact] at hfirst
    exact ⟨hfirst.1, hfirst.2.1, fun b he => by cases he⟩
  · rw [hact] at hfirst
    obtain ⟨hn, hr, hq⟩ := hf a (hfirst.2.2 a rfl) next hfirst.1
    exact ⟨hn, IsTrans.trans _ _ _ hfirst.2.1 hr, hq⟩

/-- An action for each element of a list; what is known of each answer is known of all. -/
theorem within_mapM {Q : α → β → Prop} {f : α → Action β} {list : List α}
    (hf : ∀ a ∈ list, Within I R (Q a) (f a)) :
    Within I R (fun answers => ∀ b ∈ answers, ∃ a ∈ list, Q a b) (list.mapM f) := by
  induction list with
  | nil => exact within_pure fun b hb => (List.not_mem_nil hb).elim
  | cons a rest ih =>
    rw [List.mapM_cons]
    refine within_bind (hf a List.mem_cons_self) fun b hb => ?_
    refine within_bind (ih fun b hb => hf b (List.mem_cons_of_mem _ hb)) fun bs hbs => ?_
    refine within_pure fun c hc => ?_
    rcases List.mem_cons.mp hc with rfl | hc
    · exact ⟨a, List.mem_cons_self, hb⟩
    · obtain ⟨other, hm, hq⟩ := hbs c hc
      exact ⟨other, List.mem_cons_of_mem _ hm, hq⟩

/-- An action for each element of a list, for its effect. -/
theorem within_forM {f : α → Action PUnit} {list : List α}
    (hf : ∀ a ∈ list, Within I R (fun _ => True) (f a)) :
    Within I R (fun _ => True) (forM list f) := by
  induction list with
  | nil => exact within_pure trivial
  | cons a rest ih =>
    rw [List.forM_cons]
    refine within_bind (hf a List.mem_cons_self) fun _ _ => ?_
    exact ih fun b hb => hf b (List.mem_cons_of_mem _ hb)

/-- An action for each element of a list, some of which give a result. -/
theorem within_filterMapM {f : α → Action (Option β)} {list : List α}
    (hf : ∀ a ∈ list, Within I R (fun _ => True) (f a)) :
    Within I R (fun _ => True) (list.filterMapM f) := by
  induction list with
  | nil => exact within_pure trivial
  | cons a rest ih =>
    rw [List.filterMapM_cons]
    have hrest := ih fun b hb => hf b (List.mem_cons_of_mem _ hb)
    refine within_bind (hf a List.mem_cons_self) fun found _ => ?_
    cases found with
    | none => exact hrest
    | some b => exact within_bind hrest fun bs _ => within_pure trivial

/-- Pages gathered one after the other; what is fetched may be known to pass a test. -/
theorem within_gather {bucket : Nat} {fetch : Option Cursor → Action (List α)}
    {cursorOf : α → Cursor} {visit : List α → Action (List β)}
    (hf : ∀ cursor, Within I R (fun page => ∀ a ∈ page, P a) (fetch cursor))
    (hv : ∀ page, (∀ a ∈ page, P a) → Within I R (fun _ => True) (visit page)) (fuel : Nat)
    (cursor : Option Cursor) :
    Within I R (fun _ => True) (Site.gather .ample bucket fetch cursorOf visit fuel cursor) := by
  induction fuel generalizing cursor with
  | zero => exact within_pure trivial
  | succ fuel ih =>
    rw [Site.gather]
    refine within_bind (hf cursor) fun page hp => ?_
    cases page.getLast? with
    | none => exact within_pure trivial
    | some last =>
      refine within_bind (hv page hp) fun found _ => ?_
      split
      · exact within_bind (ih _) fun more _ => within_pure trivial
      · exact within_pure trivial

/-- Pages of drafts and of published content. -/
theorem within_gatherAll {fetch : ContainerType → Option Cursor → Nat → Action (List α)}
    {cursorOf : α → Cursor} {visit : List α → Action (List β)}
    (hf : ∀ type cursor size, Within I R (fun page => ∀ a ∈ page, P a) (fetch type cursor size))
    (hv : ∀ page, (∀ a ∈ page, P a) → Within I R (fun _ => True) (visit page)) :
    Within I R (fun _ => True) (Site.gatherAll .ample fetch cursorOf visit) := by
  unfold Site.gatherAll
  refine within_get_bind fun site hi => ?_
  refine within_bind (within_mapM (Q := fun _ _ => True) fun type _ => ?_)
    (fun found _ => within_pure trivial) site hi
  exact within_gather (fun cursor => hf type cursor _) hv _ _

end Within

end VersionedContent.Action
