import Catalyst.ExecutionWorkspaces.Model
import Catalyst.Jobs.Executor

/-!
# Workspace commands and their runners

A command is a row and a job; the worker that claims the job runs the command. Its runner reads
the files of the workspace, runs the process, and writes what the process changed file by file, each
in a transaction of its own. Only the claim of the row and the record of its end go through the
transaction that checks the job's lease.

The executor is the one of `Catalyst.Jobs`, here with the jobs of commands alone. A runner may stall
between any two of its steps, and may be killed at any of them.
-/

namespace Catalyst.WorkspaceCommands

open Library Jobs
open ExecutionWorkspaces (WorkspaceFile UpsertWorkspaceFileInput DeleteWorkspaceFileInput JsonObject)

def WORKSPACE_COMMAND_LEASE_MS : Nat := 120000

def WORKSPACE_COMMAND_HEARTBEAT_MS : Nat := 30000

def LOST_COMMAND_LEASE_MS : Nat := 60000

def runWorkspaceCommandJob : JobKind where
  kind := "workspace.command"
  maxAttempts := 1
  backoff := ⟨0, 0⟩
  leaseMs := WORKSPACE_COMMAND_LEASE_MS
  heartbeatMs := some WORKSPACE_COMMAND_HEARTBEAT_MS
  concurrency := ⟨none, some 1⟩
  maxAttempts_pos := Nat.one_pos
  leaseMs_pos := by decide
  globally_pos := by decide
  perKey_pos := by decide
  heartbeat_lt := by decide
  backoff_le := Nat.le.refl

def catalog : Catalog := ⟨[runWorkspaceCommandJob], by decide⟩

/-- `workspaceCommandJobOptions` -/
def workspaceCommandJobOptions (instanceId : ClientInstanceId) (commandId workspaceId : String) : EnqueueJobOptions where
  clientInstanceId := instanceId
  runAfter := none
  dedupeKey := some (subjectDedupeKey runWorkspaceCommandJob.kind commandId)
  concurrencyKey := some workspaceId
  delayMs := 0

def commandPayload (commandId : String) : Payload := [("commandId", commandId)]

def commandIdOf (row : JobRow) : String := ((row.payload.find? fun f => f.1 = "commandId").map (·.2)).getD ""

inductive WorkspaceCommandStatus
  | queued | running | cancelling | completed | failed | cancelled
  deriving DecidableEq

structure WorkspaceCommand where
  id : String
  workspaceId : String
  conversationId : String
  status : WorkspaceCommandStatus
  /-- `job:<id>` -/
  leaseOwner : Option JobId
  leaseToken : Option LeaseToken
  leaseExpiresAt : Option Time
  attempts : Nat
  deriving DecidableEq

namespace WorkspaceCommand

def Claimed (c : WorkspaceCommand) : Prop := c.status = .running ∨ c.status = .cancelling
  deriving Decidable

def Waiting (c : WorkspaceCommand) : Prop := c.status = .queued ∨ c.Claimed
  deriving Decidable

def claimable (owner : JobId) (now : Time) (c : WorkspaceCommand) : Prop :=
  c.status = .queued ∨
    (c.Claimed ∧ ((∀ e ∈ c.leaseExpiresAt, e ≤ now) ∨ c.leaseOwner = some owner))
  deriving Decidable

/-- `claimedCommandWhere` -/
def claimedBy (commandId : String) (token : Option LeaseToken) (c : WorkspaceCommand) : Prop :=
  c.id = commandId ∧ token.isSome ∧ c.leaseToken = token ∧ c.Claimed
  deriving Decidable

end WorkspaceCommand

def claimedCommand (owner : JobId) (token : LeaseToken) (leaseMs : Nat) (now : Time) (c : WorkspaceCommand) :
    WorkspaceCommand :=
  { c with
    status := .running
    leaseOwner := some owner
    leaseToken := some token
    leaseExpiresAt := some (now + leaseMs)
    attempts := c.attempts + 1 }

inductive SubjectRowClaim
  | claimed (row : WorkspaceCommand)
  | held
  | finished
  deriving DecidableEq

def claimWorkspaceCommand (commands : List WorkspaceCommand) (commandId : String) (owner : JobId)
    (token : LeaseToken) (leaseMs : Nat) (now : Time) : SubjectRowClaim × List WorkspaceCommand :=
  match commands.find? fun c => c.id = commandId with
  | none => (.finished, commands)
  | some c =>
    if c.claimable owner now then
      (.claimed (claimedCommand owner token leaseMs now c),
        updateWhere (fun x => x.id = commandId) (claimedCommand owner token leaseMs now) commands)
    else if c.Claimed then (.held, commands)
    else (.finished, commands)

def renewClaimedWorkspaceCommandLease (commands : List WorkspaceCommand) (commandId : String)
    (token : LeaseToken) (now : Time) : List WorkspaceCommand :=
  updateWhere (WorkspaceCommand.claimedBy commandId (some token))
    (fun c => { c with leaseExpiresAt := some (now + WORKSPACE_COMMAND_LEASE_MS) }) commands

inductive Ending
  | completed | failed | cancelled
  deriving DecidableEq

def Ending.status : Ending → WorkspaceCommandStatus
  | completed => .completed
  | failed => .failed
  | cancelled => .cancelled

def endedCommand (ending : Ending) (c : WorkspaceCommand) : WorkspaceCommand :=
  { c with status := ending.status, leaseOwner := none, leaseToken := none, leaseExpiresAt := none }

/-- `completeWorkspaceCommand`, `failWorkspaceCommand` and `cancelClaimedWorkspaceCommand`: nothing
where the row is no longer held under the token. -/
def endClaimedCommand (commands : List WorkspaceCommand) (commandId : String) (token : Option LeaseToken)
    (ending : Ending) : Option (List WorkspaceCommand) :=
  if ∃ c ∈ commands, c.claimedBy commandId token then
    some (updateWhere (WorkspaceCommand.claimedBy commandId token) (endedCommand ending) commands)
  else none

def cancellationOf (c : WorkspaceCommand) : WorkspaceCommand :=
  if c.status = .queued then endedCommand .cancelled c else { c with status := .cancelling }

def requestWorkspaceCommandCancellation (commands : List WorkspaceCommand) (commandId : String) :
    List WorkspaceCommand :=
  updateWhere (fun c => c.id = commandId ∧ c.Waiting) cancellationOf commands

def queuedCommand (commandId workspaceId conversationId : String) : WorkspaceCommand :=
  ⟨commandId, workspaceId, conversationId, .queued, none, none, none, 0⟩

/-- `failAfterWorkerLoss`: the row is claimed for the dead job and failed in one transaction. -/
def failAfterWorkerLoss (commands : List WorkspaceCommand) (job : JobRow) (token : LeaseToken) (now : Time) :
    List WorkspaceCommand :=
  match claimWorkspaceCommand commands (commandIdOf job) job.id token LOST_COMMAND_LEASE_MS now with
  | (.claimed c, claimed) => (endClaimedCommand claimed c.id c.leaseToken .failed).getD claimed
  | (_, commands) => commands

def isEnded (commands : List WorkspaceCommand) (commandId : String) : Prop :=
  ∀ c ∈ commands, c.id = commandId → ¬ c.Waiting
  deriving Decidable

structure ScannedFile where
  path : String
  byteSize : Nat
  checksum : String
  mimeType : Option String
  deriving DecidableEq

inductive SyncItem
  | put (file : ScannedFile) (metadata : JsonObject)
  | remove (path : String)
  deriving DecidableEq

def listWorkspaceFiles (files : List WorkspaceFile) (workspaceId : String) : List WorkspaceFile :=
  files.filter fun f => f.workspaceId = workspaceId ∧ f.deletedAt = none

def sameContent (file : ScannedFile) (baseline : WorkspaceFile) : Prop :=
  baseline.checksum = file.checksum ∧ baseline.byteSize = file.byteSize
  deriving Decidable

/-- The two loops of `syncChangedFiles`: the files that differ from the baseline, then those of the
baseline that are gone. -/
def syncItems (baseline : List WorkspaceFile) (scanned : List ScannedFile) : List SyncItem :=
  scanned.filterMap (fun file =>
      match baseline.find? fun b => b.path = file.path with
      | none => some (.put file [])
      | some b => if sameContent file b then none else some (.put file b.metadata)) ++
    (baseline.filter fun b => b.path ∉ scanned.map (·.path)).map fun b => .remove b.path

inductive FileWrite
  | put (input : UpsertWorkspaceFileInput) (conversationId : String)
  | remove (input : DeleteWorkspaceFileInput)
  deriving DecidableEq

def FileWrite.workspaceId : FileWrite → String
  | put input _ => input.workspaceId
  | remove input => input.workspaceId

def FileWrite.apply (files : List WorkspaceFile) : FileWrite → List WorkspaceFile
  | put input conversationId =>
    let existing := files.find? fun f => f.key = (input.workspaceId, input.path)
    upsert WorkspaceFile.key (input.row conversationId existing existing) files
  | remove input =>
    match files.find? fun f => f.key = (input.workspaceId, input.path) ∧ f.deletedAt = none with
    | none => files
    | some existing => upsert WorkspaceFile.key (input.row existing existing) files

def replay (files : List WorkspaceFile) (writes : List FileWrite) : List WorkspaceFile :=
  writes.foldl FileWrite.apply files

def filesOf (workspaceId : String) (files : List WorkspaceFile) : List WorkspaceFile :=
  files.filter fun f => f.workspaceId = workspaceId

/-- `WorkspaceFileObjectKeyFactory` -/
abbrev ObjectKeyFactory := WorkspaceCommand → ScannedFile → String

/-- `{ ...metadata, source: "workspace.exec" }` -/
def syncedMetadata (metadata : JsonObject) : JsonObject := metadata.set "source" (.other "\"workspace.exec\"")

def SyncItem.write (keyOf : ObjectKeyFactory) (command : WorkspaceCommand) (updatedAt : Time) : SyncItem → FileWrite
  | put file metadata =>
    .put ⟨command.workspaceId, file.path, keyOf command file, file.byteSize, file.checksum, file.mimeType,
      syncedMetadata metadata, some command.id, updatedAt⟩ command.conversationId
  | remove path => .remove ⟨command.workspaceId, path, some command.id, updatedAt⟩

end Catalyst.WorkspaceCommands
