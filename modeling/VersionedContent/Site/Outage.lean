import VersionedContent.Schema.Kind

/-!
# Planned outages

An outage makes one call of a store operation fail, or decline, without
reaching the store. Outages of one operation come about in the order in which
they were planned; each lets a number of calls pass first.
-/

namespace VersionedContent

/-- Store operations that may be out of order. -/
inductive StoreOperation where
  /-- Looks up the first version of a chain. -/
  | rootVersion
  /-- Stores a version. -/
  | appendVersion
  /-- Stores a branch. -/
  | upsertBranch
  /-- Logs a job. -/
  | insertJob
  /-- Starts a job. -/
  | claimNextJob
  /-- Ends a job. -/
  | finishJob
  /-- Stores an edge. -/
  | setEdge
  /-- Stores a successor. -/
  | commitSuccessor
  /-- Takes a container out. -/
  | deleteContainerVersion
  deriving DecidableEq, Repr

/-- The operations under their names. -/
def StoreOperation.byName : List (String × StoreOperation) :=
  [("get_root_version", .rootVersion), ("append_version", .appendVersion),
    ("upsert_branch", .upsertBranch), ("insert_job", .insertJob),
    ("claim_next_job", .claimNextJob), ("finish_job", .finishJob), ("set_edge", .setEdge),
    ("commit_successor", .commitSuccessor),
    ("delete_container_version", .deleteContainerVersion)]

/-- What an operation does that is out of order. -/
inductive OutageMode where
  /-- It declines. -/
  | decline
  /-- It fails. -/
  | fail (cause : String) (context : Option String)
  deriving DecidableEq, Repr

/-- One planned outage. -/
structure Outage where
  /-- The operation. -/
  operation : StoreOperation
  /-- What it does. -/
  mode : OutageMode
  /-- How many calls pass before. -/
  after : Nat
  deriving DecidableEq, Repr

namespace Outage

/-- Reads a planned outage. -/
def ofJson (json : Json) : Except Mismatch Outage := do
  let members ← json.asRecord "an outage" ["method", "mode", "message", "context", "after"]
  let operation ← members.required "method" (Json.asWord StoreOperation.byName)
  let mode ← match ← members.required "mode" Json.asText with
    | "refuse" => pure OutageMode.decline
    | "error" => pure (.fail (← members.required "message" Json.asText)
        (← members.optional "context" Json.asText))
    | mode => throw (.unknownName mode ["refuse", "error"])
  let after ← members.optional "after" Json.asNat64
  pure { operation := operation, mode := mode, after := after.getD 0 }

/-- What becomes of a call: the outage that it meets, if any, and the outages left. -/
def meet (operation : StoreOperation) : List Outage → Option OutageMode × List Outage
  | [] => (none, [])
  | outage :: rest =>
    if outage.operation = operation then
      match outage.after with
      | 0 => (some outage.mode, rest)
      | after + 1 => (none, { outage with after := after } :: rest)
    else
      let (mode, rest) := meet operation rest
      (mode, outage :: rest)

end Outage

end VersionedContent
