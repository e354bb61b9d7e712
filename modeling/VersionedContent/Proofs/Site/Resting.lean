import VersionedContent.Proofs.Site.Pinning

/-!
# Calls that leave content alone

Versions, branches, pins, usage hashes and the log of jobs are kept without
writing to any container or edge. What is said here of each action that keeps them
holds whether the action fails or not.
-/

namespace VersionedContent.Site

open VersionedContent.Action

/-- Whether containers and edges have been left alone. -/
structure Rests (site next : Site) : Prop where
  /-- The containers are the same. -/
  containers : next.store.containers = site.store.containers
  /-- The edges are the same. -/
  edges : next.store.edges = site.store.edges

instance : Std.Refl Rests := ⟨fun _ => ⟨rfl, rfl⟩⟩

instance : IsTrans Site Rests where
  trans _ _ _ hab hbc :=
    ⟨hbc.containers.trans hab.containers, hbc.edges.trans hab.edges⟩

/-- Whether an action leaves containers and edges alone while no outage is planned. -/
abbrev Resting {α : Type} (action : Action α) : Prop :=
  Within (fun site => site.outages = []) Rests (fun _ => True) action

variable {α : Type}

/-- Calls on the log leave containers and edges alone. -/
theorem resting_logs : Logs (fun site => site.outages = []) Rests :=
  logs_of_aside fun _ _ hs _ _ => ⟨by rw [hs], by rw [hs]⟩

/-- Branches may be stored. -/
theorem resting_upsertBranch (branch : Branch) : Resting (upsertBranch branch) := by
  intro site ho
  rw [outcome_upsertBranch ho]
  exact ⟨ho, ⟨rfl, rfl⟩, fun _ _ => trivial⟩

/-- Pins may be moved. -/
theorem resting_repin (branchId : Id) (branch : Branch) (version : Version)
    (former : Option Version) : Resting (repin branchId branch version former) := by
  have hqueue := within_queueBelow resting_logs branchId version former
  refine within_bind (resting_upsertBranch _) fun _ _ => ?_
  dsimp only
  split
  · exact within_bind (within_forgetUsage resting_logs branchId) fun _ _ => hqueue
  · exact hqueue

/-- Versions may be pinned. -/
theorem resting_pinVersion (branchId : Id) (requested : Version) (force : Bool) :
    Resting (pinVersion branchId requested force) := by
  intro site ho
  rcases outcome_pinVersion site branchId requested force with
    ⟨answer, hkept⟩ | ⟨branch, version, former, -, -, hmoved⟩
  · rw [hkept]
    exact ⟨ho, refl site, fun _ _ => trivial⟩
  · rw [hmoved]
    exact resting_repin branchId branch version former site ho

/-- Branches may be created. -/
theorem resting_createBranch (projectId : Id) (name : String) (baseId : Option Id) :
    Resting (createBranch projectId name baseId) := by
  intro site ho
  rcases outcome_createBranch ho projectId name baseId with ⟨failure, hf⟩ | ⟨branch, job, -, hc⟩
  · rw [hf]
    exact ⟨ho, refl site, fun _ _ => trivial⟩
  · rw [hc]
    cases baseId <;> exact ⟨ho, ⟨rfl, rfl⟩, fun _ _ => trivial⟩

/-- Usage hashes may be computed. -/
theorem resting_computeHash (versionId branchId : Id) (replacements : Dict Id) :
    Resting (computeHash versionId branchId replacements) :=
  within_computeHash (fun _ _ ho => ⟨ho, ⟨rfl, rfl⟩⟩) versionId branchId replacements

/-- Versions may be compiled by their places. -/
theorem resting_compiledAt (key : CacheKey) : Resting (compiledAt key) :=
  within_compiledAt (fun _ _ _ ho _ _ _ => ⟨ho, ⟨rfl, rfl⟩⟩) key

end VersionedContent.Site
