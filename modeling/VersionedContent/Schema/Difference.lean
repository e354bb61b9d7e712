import VersionedContent.Schema.Change

/-!
# The difference of two definitions

`Definition.difference` computes a change list that turns one definition into
another. Fields are matched by name, or by a rename that was asked for; a field
on both sides is updated, never removed and added again. The list holds the
renames, then the removals in the old order, then updates and additions in the
new order, then one reordering and one change of the schema as a whole where
they are needed.
-/

namespace VersionedContent

/-- Why a rename is refused. -/
inductive RenameFault where
  /-- Both names are the same. -/
  | identity (name : String)
  /-- The old definition has no such field. -/
  | unknownSource (name : String)
  /-- The new definition has no such field. -/
  | unknownTarget (name : String)
  /-- The old definition has the target or the new one has the source. -/
  | collision (source target : String)
  /-- An earlier rename has the source or the target. -/
  | repeated (source : String)
  deriving DecidableEq, Repr

namespace RenameFault

/-- The message of a fault. -/
def message : RenameFault → String
  | identity name => "rename of '" ++ name ++ "' must change the name"
  | unknownSource name =>
    "renamed field '" ++ name ++ "' does not exist in the previous version"
  | unknownTarget name =>
    "rename target '" ++ name ++ "' does not exist in the new definition"
  | collision source target =>
    "rename '" ++ source ++ "' -> '" ++ target ++ "' collides with an existing field"
  | repeated source => "field '" ++ source ++ "' is renamed more than once"

end RenameFault

/-- Why two definitions have no difference. -/
inductive DifferenceFault where
  /-- A rename is refused. -/
  | rename (fault : RenameFault)
  /-- The computed changes do not fit. -/
  | change (fault : ChangeFault)
  deriving DecidableEq, Repr

namespace DifferenceFault

/-- The message of a fault. -/
def message : DifferenceFault → String
  | rename fault => fault.message
  | change fault => fault.message

end DifferenceFault

namespace Definition

/-- Checks one rename, given the ones before it. -/
def checkRename (old new : Definition) (earlier : List Rename) (rename : Rename) :
    Except RenameFault Unit :=
  if rename.source = rename.target then .error (.identity rename.source)
  else if (old.field? rename.source).isNone then .error (.unknownSource rename.source)
  else if (new.field? rename.target).isNone then .error (.unknownTarget rename.target)
  else if (old.field? rename.target).isSome ∨ (new.field? rename.source).isSome then
    .error (.collision rename.source rename.target)
  else if rename.source ∈ earlier.map Rename.source ∨ rename.target ∈ earlier.map Rename.target then
    .error (.repeated rename.source)
  else .ok ()

/-- Checks renames in order; `earlier` holds those checked already. -/
def checkRenames (old new : Definition) (earlier : List Rename) :
    List Rename → Except RenameFault Unit
  | [] => .ok ()
  | rename :: rest =>
    match checkRename old new earlier rename with
    | .ok () => checkRenames old new (earlier ++ [rename]) rest
    | .error fault => .error fault

/-- The name of an old field after the renames. -/
def nameAfter (renames : List Rename) (name : String) : String :=
  match renames.find? fun rename => rename.source = name with
  | some rename => rename.target
  | none => name

/-- The old fields under their names after the renames. -/
def carried (old : Definition) (renames : List Rename) : List FieldSpec :=
  old.fields.map fun field => { field with name := nameAfter renames field.name }

/-- One removal for every carried field that the new definition lacks. -/
def removals (carried : List FieldSpec) (new : Definition) : List Change :=
  (carried.filter fun field => (new.field? field.name).isNone).map fun field =>
    .removeField field.name

/-- What happens to one field of the new definition. -/
def revision (carried : List FieldSpec) (field : FieldSpec) (position : Nat) : Option Change :=
  match carried.find? fun existing => existing.name = field.name with
  | some existing => if existing.same field then none else some (.updateField field)
  | none => some (.addField field (some position))

/-- The updates and additions, in the new order. -/
def revisions (carried : List FieldSpec) (new : Definition) : List Change :=
  new.fields.zipIdx.filterMap fun entry => revision carried entry.1 entry.2

/-- The reordering that is left to do. -/
def reordering (reached new : Definition) : List Change :=
  if reached.fieldNames = new.fieldNames then [] else [.reorderFields new.fieldNames]

/-- The change of what is said of the schema as a whole. -/
def restatement (old new : Definition) : List Change :=
  if old.description = new.description ∧ old.displayField = new.displayField ∧
      old.autoPurge = new.autoPurge then []
  else [.updateSchema new.description new.displayField new.autoPurge]

/-- The change list that turns the old definition into the new one. -/
def difference (old new : Definition) (renames : List Rename) :
    Except DifferenceFault (List Change) := do
  (checkRenames old new [] renames).mapError .rename
  let carried := old.carried renames
  let changes := renames.map (fun rename => .renameField rename.source rename.target) ++
    removals carried new ++ revisions carried new
  let reached ← (old.apply changes).mapError .change
  pure (changes ++ reordering reached new ++ restatement old new)

end Definition

end VersionedContent
