import VersionedContent.Jobs.Backoff
import VersionedContent.Site.Migration

/-!
# Workers

A worker claims one job at a time while writes are allowed, and waits when it
finds none. A claim that fails is tried again after a wait. A site that is one of
several may have to hold back its writes; a guard tells workers of it.
-/

namespace VersionedContent

/-- Tells whether writes are allowed. -/
inductive WriteGuard where
  /-- They always are. -/
  | always
  /-- A flag says so. -/
  | flag (allowed : Bool)
  deriving DecidableEq, Repr

namespace WriteGuard

/-- Whether writes are allowed. -/
def isWriteAllowed : WriteGuard → Bool
  | always => true
  | flag allowed => allowed

/-- Sets the flag of a guard that has one. -/
def set (allowed : Bool) : WriteGuard → WriteGuard
  | always => always
  | flag _ => flag allowed

/-- A flag that was set is what is read. -/
theorem isWriteAllowed_set_flag (before allowed : Bool) :
    ((flag before).set allowed).isWriteAllowed = allowed := rfl

end WriteGuard

/-- What a worker did when it looked for work. -/
inductive Poll where
  /-- It ran a job. -/
  | ran (job : Option Job)
  /-- It is to wait. -/
  | wait (delay : Duration)
  /-- It stopped, since the time to wait next is no duration. -/
  | stopped

namespace Site

/-- What a worker does that found no work. -/
def idle (backoff : Backoff) : Poll × Backoff :=
  match backoff.nextDelay? with
  | some (delay, next) => (.wait delay, next)
  | none => (.stopped, backoff)

/-- Looks for work once. -/
def poll (guard : WriteGuard) (backoff : Backoff) : Action (Poll × Backoff) := do
  let claimed ←
    if guard.isWriteAllowed then claimNext.attempt else pure (Except.ok none)
  match claimed with
  | .ok (some job) =>
    let finished ← process job
    return (.ran finished, backoff.reset)
  | _ => return idle backoff

/-- Whether a job waits or runs. -/
def hasWork : Action Bool := .query fun store =>
  store.jobs.jobs.any fun job => !job.status.isTerminal

/-- Looks for work until there is none, at most a number of times. -/
def work (guard : WriteGuard) : Nat → Backoff → Action Unit
  | 0, _ => return
  | fuel + 1, backoff => do
    if ← hasWork then
      match ← poll guard backoff with
      | (.stopped, _) => return
      | (_, backoff) => work guard fuel backoff

/-- Runs a worker until nothing waits or runs. A look that finds no eligible job met an
outage, or finds none ever after. -/
def runWorker (guard : WriteGuard) (settings : MigrationSettings) : Action Unit := do
  let site ← get
  let passing := site.outages.foldl (fun calls outage => calls + outage.after + 1) 0
  work guard (site.store.jobs.waiting + passing + 1) (.ofSettings settings)

end Site

end VersionedContent
