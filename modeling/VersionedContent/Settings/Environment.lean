import VersionedContent.Settings.Encoding
import VersionedContent.Settings.Statement

/-!
# Settings from the environment

A variable `MESH_<SECTION>__<KEY>` overrides one setting: its text is put where
its name leads to, over the default settings. Variables that name no setting are
ignored. A section may be given as a list, with its settings in their order.
-/

namespace VersionedContent

/-- The backend that a statement names; it may be named by a part instead of a value. -/
def Backend.ofStatement? : Statement → Option Backend
  | .single (.text name) => byName.lookup (Variable.lower name)
  | .parts [(name, _)] => byName.lookup name
  | _ => none

namespace DatabaseSettings

/-- The names of the settings, in order. -/
def keys : List String := ["backend", "connection_string", "max_connections"]

/-- The most connections that can be asked for. -/
def connectionLimit : Nat := 4294967295

/-- A count of connections. -/
def connections? (value : Variable) : Option Nat :=
  value.asCount.bind fun n => if n ≤ connectionLimit then some n else none

/-- Settings as a statement. -/
def statement (settings : DatabaseSettings) : Statement :=
  .parts (Dict.ofList [("backend", .single (.text settings.backend.name)),
    ("connection_string",
      (settings.connectionString.map fun text => .single (.text text)).getD .absent),
    ("max_connections",
      (settings.maxConnections.map fun n => .single (.integer n)).getD .absent)])

/-- The settings that a statement makes. -/
def ofStatement? (statement : Statement) : Option DatabaseSettings := do
  let [backend, connectionString, maxConnections] ← statement.select? keys | none
  return {
    backend := ← Backend.ofStatement? backend
    connectionString := ← connectionString.optional? fun value => some value.asText
    maxConnections := ← maxConnections.optional? connections? }

end DatabaseSettings

namespace MigrationSettings

/-- The names of the settings, in order. -/
def keys : List String :=
  ["bucket_size", "worker_count", "poll_interval_ms", "poll_max_backoff_ms", "event_buffer"]

/-- The counts, in the order of their names. -/
def counts (settings : MigrationSettings) : List Nat :=
  [settings.bucketSize, settings.workerCount, settings.pollIntervalMs, settings.pollMaxBackoffMs,
    settings.eventBuffer]

/-- Settings as a statement. -/
def statement (settings : MigrationSettings) : Statement :=
  .parts (Dict.ofList (keys.zip (settings.counts.map fun (n : Nat) => .single (.integer n))))

/-- The settings that a statement makes. -/
def ofStatement? (statement : Statement) : Option MigrationSettings := do
  let counts ← (← statement.select? keys).mapM fun part => part.value?.bind Variable.asCount
  let [bucketSize, workerCount, pollIntervalMs, pollMaxBackoffMs, eventBuffer] := counts | none
  return {
    bucketSize := bucketSize, workerCount := workerCount, pollIntervalMs := pollIntervalMs,
    pollMaxBackoffMs := pollMaxBackoffMs, eventBuffer := eventBuffer }

end MigrationSettings

namespace Settings

/-- The names of the sections. -/
def sections : List String := ["database", "migration", "cluster"]

/-- Settings as a statement. -/
def statement (settings : Settings) : Statement :=
  .parts (Dict.ofList [("database", settings.database.statement),
    ("migration", settings.migration.statement),
    ("cluster", .parts [("write_allowed", .single (.boolean settings.writeAllowed))])])

/-- The settings that a statement makes. -/
def ofStatement? (statement : Statement) : Option Settings := do
  let [database, migration, cluster] ← statement.select? sections | none
  let [writeAllowed] ← cluster.select? ["write_allowed"] | none
  return {
    database := ← DatabaseSettings.ofStatement? database
    migration := ← MigrationSettings.ofStatement? migration
    writeAllowed := ← writeAllowed.value?.bind Variable.asBoolean }

/-- Puts a variable where its name leads to, if it is a name for settings. -/
def override (statement : Statement) (entry : String × String) : Statement :=
  match PathStep.ofName? entry.1 with
  | some way => statement.put (.read entry.2) way
  | none => statement

/-- The settings of an environment; none when a variable says what its setting cannot be. -/
def ofEnvironment? (environment : List (String × String)) : Option Settings :=
  ofStatement? (environment.foldl override ({} : Settings).statement)

end Settings

end VersionedContent
