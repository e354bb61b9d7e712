import VersionedContent.Jobs.Job
import VersionedContent.Schema.Difference
import VersionedContent.Schema.Validation
import VersionedContent.Store.Fault

/-!
# Failures

Why a call on a site fails. Each class of failures has a headline, which stands
in front of the detail.
-/

namespace VersionedContent

/-- Why a request is not valid. -/
inductive Refusal where
  /-- The definition has issues. -/
  | definition (kind : Kind) (name : String) (issues : List Issue)
  /-- The definition names a microschema that does not exist. -/
  | unknownMicroschema (kind : Kind) (name microschema : String)
  /-- The definition has another name than its schema. -/
  | renamedSchema (kind : Kind) (name newName : String)
  /-- The definition is the one of the latest version. -/
  | unchanged (kind : Kind) (name : String) (number : Nat)
  /-- Renames were asked for in a first version. -/
  | renamesWithoutVersion
  /-- No change list leads from the one definition to the other. -/
  | difference (fault : DifferenceFault)
  /-- Two versions belong to different chains. -/
  | differentChains (fromKind : Kind) (fromName : String) (toKind : Kind) (toName : String)
  /-- A version is of the other kind. -/
  | otherKind (name : String) (expected : Kind)
  /-- A branch has no name. -/
  | emptyBranchName
  /-- A branch that is not the first of its project has no base. -/
  | baseRequired
  /-- A branch and its base belong to different projects. -/
  | foreignBase (baseId : Id)

namespace Refusal

/-- The detail of a refusal. -/
def message : Refusal → String
  | definition kind name issues =>
    kind.name ++ " '" ++ name ++ "': " ++ "; ".intercalate (issues.map Issue.message)
  | unknownMicroschema kind name microschema =>
    kind.name ++ " '" ++ name ++ "' references unknown microschema '" ++ microschema ++ "'"
  | renamedSchema kind name newName =>
    kind.name ++ " '" ++ name ++ "' cannot be renamed to '" ++ newName ++ "'"
  | unchanged kind name number =>
    kind.name ++ " '" ++ name ++ "' has no changes compared to version " ++ toString number
  | renamesWithoutVersion => "renames require an existing version"
  | difference fault => fault.message
  | differentChains fromKind fromName toKind toName =>
    fromKind.name ++ " '" ++ fromName ++ "' and " ++ toKind.name ++ " '" ++ toName ++
      "' belong to different chains"
  | otherKind name expected => "'" ++ name ++ "' is not a " ++ expected.name ++ " version"
  | emptyBranchName => "branch name must not be empty"
  | baseRequired => "a base branch is required once a project has branches"
  | foreignBase baseId => "base branch " ++ baseId ++ " belongs to another project"

end Refusal

/-- Why a request does not fit the state of the site. -/
inductive Conflict where
  /-- The chain exists. -/
  | chainExists (kind : Kind) (name : String)
  /-- The edit was based on a version that is no longer the latest. -/
  | staleEdit (kind : Kind) (name : String) (latest expected : Nat)
  /-- The latest version got a successor in the meantime. -/
  | superseded (kind : Kind) (name : String) (number : Nat)
  /-- The one version is not reached from the other one. -/
  | notAhead (kind : Kind) (name : String) (target source : Nat)
  /-- The project has a branch of that name. -/
  | branchExists (name : String) (projectId : Id)
  /-- The job is in a status that does not lead to the one asked for. -/
  | noTransition (jobId : Id) (current next : JobStatus)
  /-- A job runs. -/
  | queueBusy
  /-- The job runs. -/
  | jobBusy (jobId : Id) (status : JobStatus)
  /-- The job has not failed. -/
  | notFailed (jobId : Id) (status : JobStatus)

namespace Conflict

/-- The detail of a conflict. -/
def message : Conflict → String
  | chainExists kind name => kind.name ++ " '" ++ name ++ "' already exists"
  | staleEdit kind name latest expected =>
    kind.name ++ " '" ++ name ++ "' is at version " ++ toString latest ++
      ", update was based on version " ++ toString expected
  | superseded kind name number =>
    kind.name ++ " '" ++ name ++ "' version " ++ toString number ++ " was superseded concurrently"
  | notAhead kind name target source =>
    kind.name ++ " '" ++ name ++ "' version " ++ toString target ++ " is not ahead of version " ++
      toString source
  | branchExists name projectId =>
    "branch '" ++ name ++ "' already exists in project " ++ projectId
  | noTransition jobId current next =>
    "job " ++ jobId ++ " cannot move from " ++ current.name ++ " to " ++ next.name
  | queueBusy => "cannot clear the job queue while a job is running"
  | jobBusy jobId status => "job " ++ jobId ++ " is " ++ status.name ++ " and cannot be deleted"
  | notFailed jobId status =>
    "only failed jobs can be retried, job " ++ jobId ++ " is " ++ status.name

end Conflict

/-- Why a job cannot go on. -/
inductive Breakdown where
  /-- The links of a chain lead back to a version passed before. -/
  | chainLoops (kind : Kind) (name : String) (number : Nat)
  /-- A migration of one kind is asked for between versions of another one. -/
  | wrongKind (kind fromKind : Kind) (fromName : String) (toKind : Kind) (toName : String)
  /-- A branch to be copied has no base. -/
  | noBase (branchId : Id)

namespace Breakdown

/-- The detail of a breakdown. -/
def message : Breakdown → String
  | chainLoops kind name number =>
    kind.name ++ " '" ++ name ++ "' chain loops back to version " ++ toString number
  | wrongKind kind fromKind fromName toKind toName =>
    kind.name ++ " migration between " ++ fromKind.name ++ " '" ++ fromName ++ "' and " ++
      toKind.name ++ " '" ++ toName ++ "'"
  | noBase branchId => "branch " ++ branchId ++ " has no base branch"

end Breakdown

/-- Classes of failures. -/
inductive FailureClass where
  /-- A request that is not valid. -/
  | validation
  /-- A request that does not fit the state. -/
  | conflict
  /-- A record that is not there. -/
  | notFound
  /-- A container that cannot be migrated. -/
  | container
  /-- A job that cannot go on. -/
  | execution
  /-- A failure of the store. -/
  | store
  deriving DecidableEq, Repr

namespace FailureClass

/-- What stands in front of the detail. -/
def headline : FailureClass → String
  | validation => "validation failed: "
  | conflict => "conflict: "
  | container => "container migration failed: "
  | execution => "job execution failed: "
  | notFound => ""
  | store => ""

/-- The message of a failure of this class. -/
def message (failureClass : FailureClass) (detail : String) : String :=
  failureClass.headline ++ detail

end FailureClass

/-- Why a call on a site fails. -/
inductive Failure where
  /-- The request is not valid. -/
  | validation (cause : Refusal)
  /-- The request does not fit the state. -/
  | conflict (cause : Conflict)
  /-- A record is not there. -/
  | notFound (what : String) (id : String)
  /-- A container cannot be migrated. -/
  | container (error : ContainerError)
  /-- A job cannot go on. -/
  | execution (cause : Breakdown)
  /-- The store fails. -/
  | store (fault : StoreFault)

namespace Failure

/-- The class of a failure. -/
def failureClass : Failure → FailureClass
  | validation _ => .validation
  | conflict _ => .conflict
  | notFound .. => .notFound
  | container _ => .container
  | execution _ => .execution
  | store _ => .store

/-- The detail of a failure. -/
def detail : Failure → String
  | validation cause => cause.message
  | conflict cause => cause.message
  | notFound what id => what ++ " '" ++ id ++ "' not found"
  | container error => error.text
  | execution cause => cause.message
  | store fault => fault.message

/-- The message of a failure. -/
def message (failure : Failure) : String := failure.failureClass.message failure.detail

end Failure

end VersionedContent
