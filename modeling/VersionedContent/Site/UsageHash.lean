import VersionedContent.Branching.Branch
import VersionedContent.Digest.Sha256

/-!
# Usage hashes

The usage hash of a schema version on a branch is a fingerprint of the
microschema versions that its content may embed there: one line per microschema
the version refers to, in name order, with the identifier of the version that is
in use. A replacement takes precedence over the pin of the branch; names with
neither are left out.

The memo keeps hashes by version, branch and replacements. It does not look at
what the branch pins: who changes that must make it forget the branch.
-/

namespace VersionedContent

/-- The microschema versions in use, in name order. -/
def resolvedReferences (definition : Definition) (branch : Branch) (replacements : Dict Id) :
    List (String × Id) :=
  definition.microschemaReferences.filterMap fun name =>
    ((Dict.get? replacements name).or (Dict.get? branch.microschemaVersions name)).map
      fun id => (name, id)

/-- One line per microschema version in use. -/
def usageText (definition : Definition) (branch : Branch) (replacements : Dict Id) : String :=
  String.join <|
    (resolvedReferences definition branch replacements).map fun entry =>
      entry.1 ++ ":" ++ entry.2 ++ "\n"

/-- The fingerprint of the microschema versions in use. -/
def usageHash (version : Version) (branch : Branch) (replacements : Dict Id) : String :=
  Sha256.hex (usageText version.definition branch replacements)

/-- What the memo keeps a hash under. -/
structure UsageKey where
  /-- The schema version. -/
  versionId : Id
  /-- The branch. -/
  branchId : Id
  /-- The replacements in name order. -/
  replacements : List (String × Id)
  deriving DecidableEq, Repr

/-- Hashes computed before. -/
abbrev UsageMemo := List (UsageKey × String)

namespace UsageMemo

/-- The hash of a version on a branch: the one kept, else a new one, which is kept. -/
def hash (memo : UsageMemo) (version : Version) (branch : Branch) (replacements : Dict Id) :
    String × UsageMemo :=
  let key : UsageKey := ⟨version.id, branch.id, replacements⟩
  match memo.lookup key with
  | some hash => (hash, memo)
  | none =>
    let hash := usageHash version branch replacements
    (hash, (key, hash) :: memo)

/-- Forgets the hashes of a branch. -/
def forget (memo : UsageMemo) (branchId : Id) : UsageMemo :=
  memo.filter fun entry => entry.1.branchId ≠ branchId

/-- An empty memo answers with the hash itself. -/
theorem hash_nil (version : Version) (branch : Branch) (replacements : Dict Id) :
    (hash [] version branch replacements).1 = usageHash version branch replacements := rfl

end UsageMemo

end VersionedContent
