import VersionedContent.Schema.Kind

/-!
# Store faults

Why the store fails, as against why it declines.
-/

namespace VersionedContent

/-- A failure of the store. -/
inductive StoreFault where
  /-- The version that a new one should follow is not stored. -/
  | versionMissing (id : Id)
  /-- A container is not stored. -/
  | containerMissing (id : Id)
  /-- A container given as a successor succeeds none. -/
  | noPredecessor (id : Id)
  /-- A container is stored already. -/
  | containerPresent (id : Id)
  /-- A container is pointed at by an edge. -/
  | stillReferenced (id : Id)
  /-- The store itself is out of order; the context says what was tried. -/
  | outage (cause : String) (context : Option String)
  deriving DecidableEq, Repr

namespace StoreFault

/-- The outermost message of a fault. -/
def message : StoreFault → String
  | versionMissing id => "Previous version not found: " ++ id
  | containerMissing id => "Container not found: " ++ id
  | noPredecessor id => "Successor container " ++ id ++ " has no predecessor"
  | containerPresent id => "Container " ++ id ++ " already exists"
  | stillReferenced id => "Container " ++ id ++ " is still referenced by a branch"
  | outage cause context => context.getD cause

/-- The message with its cause behind it. -/
def fullMessage : StoreFault → String
  | outage cause (some context) => context ++ ": " ++ cause
  | fault => fault.message

end StoreFault

end VersionedContent
