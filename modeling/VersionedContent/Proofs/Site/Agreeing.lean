import VersionedContent.Proofs.Site.Work

/-!
# Sites that plan alike

What a migration is planned from are the versions that are stored and the answers
for their places. Two sites that are alike in these plan alike: this holds of
each part of planning, and passes through every way of composing the parts.
-/

namespace VersionedContent.Site

open VersionedContent.Action

/-- Whether two sites have the same versions, and answer alike for their places. -/
structure Likewise (site other : Site) : Prop where
  /-- The versions are the same. -/
  versions : other.store.versions = site.store.versions
  /-- The answer for each place is the same. -/
  answers : ∀ key, (outcome (compiledAt key) other).1 = (outcome (compiledAt key) site).1

instance : Std.Refl Likewise := ⟨fun _ => ⟨rfl, fun _ => rfl⟩⟩

variable {site other : Site}

theorem Likewise.symm (h : Likewise site other) : Likewise other site :=
  ⟨h.versions.symm, fun key => (h.answers key).symm⟩

theorem Likewise.trans {third : Site} (h : Likewise site other) (h' : Likewise other third) :
    Likewise site third :=
  ⟨h'.versions.trans h.versions, fun key => (h'.answers key).trans (h.answers key)⟩

/-- Compiling leaves the versions and the answers for their places as they are. -/
theorem likewise_compiledAt (key : CacheKey) (site : Site) :
    Likewise site (outcome (compiledAt key) site).2 := by
  have hcompiled := within_compiledAt (I := fun _ => True) (R := Likewise)
    (fun _ _ _ _ hm hc ho => ⟨trivial, rfl, (Compiles.insert hm hc ho).answers⟩) key
  exact (hcompiled site trivial).2.1

/-- Whether an action does the same on sites that are alike, and leaves them alike. -/
def Agrees {α : Type} (action : Action α) : Prop :=
  ∀ site other, Likewise site other →
    (outcome action other).1 = (outcome action site).1 ∧
      Likewise (outcome action site).2 (outcome action other).2

variable {α β : Type}

theorem agrees_pure (a : α) : Agrees (pure a) := fun _ _ h => ⟨rfl, h⟩

theorem agrees_throw (failure : Failure) : Agrees (throw failure : Action α) :=
  fun _ _ h => ⟨rfl, h⟩

/-- Nothing follows a failure. -/
theorem agrees_throw_bind (failure : Failure) (f : α → Action β) :
    Agrees (throw failure >>= f) :=
  fun _ _ h => ⟨rfl, h⟩

/-- A question about versions is answered alike. -/
theorem agrees_query {question : Store → α}
    (h : ∀ store other : Store, other.versions = store.versions →
      question other = question store) : Agrees (query question) :=
  fun site other hl => ⟨congrArg Except.ok (h site.store other.store hl.versions), hl⟩

/-- What is there is answered with alike. -/
theorem agrees_orNotFound (what id : String) (answer : Option α) :
    Agrees (orNotFound what id answer) := by
  cases answer with
  | none => exact agrees_throw _
  | some a => exact agrees_pure a

/-- Two actions in a row do the same when each of them does. -/
theorem agrees_bind {action : Action α} {f : α → Action β} (h : Agrees action)
    (hf : ∀ a, Agrees (f a)) : Agrees (action >>= f) := by
  intro site other hl
  obtain ⟨hanswer, hnext⟩ := h site other hl
  rw [outcome_bind, outcome_bind]
  rcases hs : outcome action site with ⟨answer, next⟩
  rcases ho : outcome action other with ⟨answer', next'⟩
  rw [hs, ho] at hanswer hnext
  dsimp only at hanswer hnext
  rw [hanswer]
  cases answer with
  | error failure => exact ⟨rfl, hnext⟩
  | ok a => exact hf a next next' hnext

/-- The version of a place is compiled alike. -/
theorem agrees_compiledAt (key : CacheKey) : Agrees (compiledAt key) :=
  fun site other h => ⟨h.answers key,
    (likewise_compiledAt key site).symm.trans (h.trans (likewise_compiledAt key other))⟩

/-- A version is looked up alike. -/
theorem agrees_version (id : Id) : Agrees (version id) := by
  unfold version
  refine agrees_bind (agrees_query fun store other hv => ?_) fun found => agrees_orNotFound _ _ _
  rw [Store.version?, hv, Store.version?]

/-- Links are followed alike. -/
theorem agrees_stepsTo (target : Id) (fuel : Nat) (start : Option Id) :
    Agrees (stepsTo .ample target fuel start) := by
  induction fuel generalizing start with
  | zero => cases start <;> exact agrees_pure _
  | succ fuel ih =>
    cases start with
    | none => exact agrees_pure _
    | some id =>
      rw [stepsTo]
      refine agrees_bind (agrees_version id) fun step => ?_
      split
      · exact agrees_pure _
      · exact agrees_bind (ih step.next) fun steps => agrees_pure _

/-- The versions between two others are found alike. -/
theorem agrees_versionsBetween (source target : Version) :
    Agrees (versionsBetween source target) := by
  unfold versionsBetween
  dsimp only
  split
  · exact agrees_throw_bind _ _
  · split
    · exact agrees_pure _
    · refine agrees_bind (agrees_query fun store other hv => by rw [hv]) fun size => ?_
      refine agrees_bind (agrees_stepsTo target.id _ _) fun steps => ?_
      cases steps with
      | none => exact agrees_throw _
      | some steps => exact agrees_pure _

/-- Migrations are planned alike. -/
theorem agrees_plan (kind : Kind) (sourceId targetId : Id) :
    Agrees (plan kind sourceId targetId) := by
  unfold plan
  refine agrees_bind (agrees_version sourceId) fun source => ?_
  refine agrees_bind (agrees_version targetId) fun target => ?_
  dsimp only
  split
  · exact agrees_throw_bind _ _
  · refine agrees_bind (agrees_versionsBetween source target) fun steps => ?_
    refine agrees_bind (agrees_compiledAt (.ofVersion source)) fun _ => ?_
    exact agrees_bind (agrees_compiledAt (.ofVersion target)) fun _ => agrees_pure _

end VersionedContent.Site
