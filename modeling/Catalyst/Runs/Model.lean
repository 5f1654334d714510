import Catalyst.Jobs.Model
import Catalyst.Library.Transaction

/-!
# Agent runs and their observation logs

The tables a run lives in and the statements of the run worker's store
(`postgres-agent-run-worker-operations.ts`) with the acceptance of a run. Every
function is a transaction or the part of one: `now` is when the transaction
began, `clock` a reading of `clock_timestamp()` inside it. The times that come
from a process's own clock (`createdAt` of an event or a message) are inputs.
-/

namespace Catalyst.Runs

open Library Library.Tx Jobs

abbrev RunId := String
abbrev ConversationId := String
abbrev UserId := String
abbrev MessageId := String

-- -----------------
-- Rows
-- -----------------

inductive AgentRunStatus
  | queued | running | waitingForPermission | cancelling | completed | failed | cancelled
  deriving DecidableEq

structure AgentRunError where
  code : String
  message : String
  category : String
  deriving DecidableEq

inductive EventType
  | messageDelta | reasoningDelta | messageCompleted | toolCallPreparing
  | toolCallPreparationCancelled | toolCallStarted | toolPermissionRequested
  | toolCallCompleted | toolCallFailed | runCompleted | runCancelled | runFailed
  deriving DecidableEq

/-- The fields of an event that the store reads. What a message or a tool call
carries beside its type is stored as it is. -/
inductive EventBody
  | runCancelled (reason : Option String)
  | runFailed (error : AgentRunError)
  | runCompleted
  | toolPermissionRequested (payload : Payload)
  | messageDelta (payload : Payload)
  | reasoningDelta (payload : Payload)
  | messageCompleted (payload : Payload)
  | toolCallPreparing (payload : Payload)
  | toolCallPreparationCancelled (payload : Payload)
  | toolCallStarted (payload : Payload)
  | toolCallCompleted (payload : Payload)
  | toolCallFailed (payload : Payload)
  deriving DecidableEq

def EventBody.type : EventBody → EventType
  | .runCancelled _ => .runCancelled
  | .runFailed _ => .runFailed
  | .runCompleted => .runCompleted
  | .toolPermissionRequested _ => .toolPermissionRequested
  | .messageDelta _ => .messageDelta
  | .reasoningDelta _ => .reasoningDelta
  | .messageCompleted _ => .messageCompleted
  | .toolCallPreparing _ => .toolCallPreparing
  | .toolCallPreparationCancelled _ => .toolCallPreparationCancelled
  | .toolCallStarted _ => .toolCallStarted
  | .toolCallCompleted _ => .toolCallCompleted
  | .toolCallFailed _ => .toolCallFailed

structure AgentRuntimeEvent where
  runId : RunId
  sequence : Nat
  createdAt : Time
  body : EventBody
  deriving DecidableEq

structure AgentRun where
  id : RunId
  clientInstanceId : ClientInstanceId
  conversationId : ConversationId
  ownerUserId : UserId
  inputMessageId : MessageId
  status : AgentRunStatus
  startedAt : Time
  updatedAt : Time
  completedAt : Option Time
  cancelledAt : Option Time
  failedAt : Option Time
  lastSequence : Nat
  error : Option AgentRunError
  leaseOwner : Option String
  leaseToken : Option LeaseToken
  leaseExpiresAt : Option Time
  heartbeatAt : Option Time
  cancellationRequestedAt : Option Time
  cancellationReason : Option String
  deriving DecidableEq

structure RunObservation where
  clientInstanceId : ClientInstanceId
  runId : RunId
  conversationId : ConversationId
  ownerUserId : UserId
  sequence : Nat
  type : EventType
  payload : AgentRuntimeEvent
  createdAt : Time
  deriving DecidableEq

inductive MessageRole
  | user | assistant | tool
  deriving DecidableEq

structure Message where
  id : MessageId
  clientInstanceId : ClientInstanceId
  conversationId : ConversationId
  role : MessageRole
  text : String
  createdAt : Time
  storageOrdinal : Nat
  deriving DecidableEq

structure Conversation where
  id : ConversationId
  clientInstanceId : ClientInstanceId
  collaborationWorkspaceId : String
  active : Bool
  isPrivate : Bool
  createdByUserId : UserId
  updatedAt : Time
  deriving DecidableEq

structure Workspace where
  id : String
  clientInstanceId : ClientInstanceId
  personal : Bool
  deletionRequestedAt : Option Time
  deriving DecidableEq

structure ProductUser where
  id : UserId
  clientInstanceId : ClientInstanceId
  deletionRequestedAt : Option Time
  deriving DecidableEq

structure ProviderContinuation where
  clientInstanceId : ClientInstanceId
  conversationId : ConversationId
  providerId : String
  state : String
  sourceMessageId : MessageId
  sourceStorageOrdinal : Nat
  updatedAt : Time
  deriving DecidableEq

structure ApprovalRequest where
  id : String
  clientInstanceId : ClientInstanceId
  kind : String
  createdAt : Time
  deriving DecidableEq

structure AuditEvent where
  clientInstanceId : ClientInstanceId
  type : String
  subject : String
  conversationId : ConversationId
  errorCode : String
  deriving DecidableEq

structure Db where
  queue : Queue
  runs : List AgentRun
  observations : List RunObservation
  messages : List Message
  conversations : List Conversation
  workspaces : List Workspace
  users : List ProductUser
  continuations : List ProviderContinuation
  approvals : List ApprovalRequest
  audit : List AuditEvent
  storageOrdinal : Nat
  deriving DecidableEq

inductive RunError
  | app (error : AppError)
  | jobLeaseLost (jobId : JobId)
  deriving DecidableEq

def appError (code : AppErrorCode) (message : String) : RunError := .app ⟨code, message⟩

namespace AgentRun

def ofRow (instanceId : ClientInstanceId) (runId : RunId) (r : AgentRun) : Prop :=
  r.clientInstanceId = instanceId ∧ r.id = runId
  deriving Decidable

/-- STARTED_STATUSES -/
def Started (r : AgentRun) : Prop :=
  r.status = .running ∨ r.status = .waitingForPermission ∨ r.status = .cancelling
  deriving Decidable

/-- RUN_IN_PROGRESS_STATUSES -/
def InProgress (r : AgentRun) : Prop := r.status = .queued ∨ r.Started
  deriving Decidable

/-- Someone other than `leaseOwnerId` holds the run under a lease that has not run out. -/
def heldByAnother (leaseOwnerId : String) (now : Time) (r : AgentRun) : Prop :=
  (∃ e ∈ r.leaseExpiresAt, now < e) ∧ r.leaseOwner ≠ some leaseOwnerId
  deriving Decidable

def noLease (r : AgentRun) : AgentRun :=
  { r with leaseOwner := none, leaseToken := none, leaseExpiresAt := none, heartbeatAt := none }

def notAfter (a b : AgentRun) : Prop :=
  a.startedAt < b.startedAt ∨ (a.startedAt = b.startedAt ∧ a.id ≤ b.id)
  deriving Decidable

end AgentRun

def updateRuns (p : AgentRun → Prop) [DecidablePred p] (f : AgentRun → AgentRun) :
    Tx Db RunError (List AgentRun) := do
  let db ← get
  modify fun db => { db with runs := updateWhere p f db.runs }
  pure ((db.runs.filter p).map f)

def insertObservations (rows : List RunObservation) : Tx Db RunError Unit :=
  modify fun db => { db with observations := db.observations ++ rows }

def observationOf (run : AgentRun) (event : AgentRuntimeEvent) : RunObservation :=
  { clientInstanceId := run.clientInstanceId
    runId := run.id
    conversationId := run.conversationId
    ownerUserId := run.ownerUserId
    sequence := event.sequence
    type := event.body.type
    payload := event
    createdAt := event.createdAt }

def requireJobLease (lease : JobLease) (clock : Time) : Tx Db RunError Unit := do
  let db ← get
  require (∃ r ∈ db.queue.rows, r.heldBy lease clock) (.jobLeaseLost lease.jobId)

structure ClaimedRun where
  clientInstanceId : ClientInstanceId
  runId : RunId
  lease : JobLease
  deriving DecidableEq

def claimedRunWhere (claim : ClaimedRun) (r : AgentRun) : Prop :=
  r.ofRow claim.clientInstanceId claim.runId ∧ r.leaseToken = some claim.lease.token ∧ r.Started
  deriving Decidable

def requireClaimedAgentRun (claim : ClaimedRun) (clock : Time) : Tx Db RunError Unit := do
  requireJobLease claim.lease clock
  let db ← get
  require (∃ r ∈ db.runs, claimedRunWhere claim r) (appError .conflict "Agent run has ended")

def executeAgentRunJob : JobKind where
  kind := "agent_run.execute"
  maxAttempts := 1
  backoff := ⟨0, 0⟩
  leaseMs := 90 * 1000
  heartbeatMs := some (15 * 1000)
  concurrency := ⟨none, none⟩
  maxAttempts_pos := Nat.one_pos
  leaseMs_pos := by decide
  globally_pos := by decide
  perKey_pos := by decide
  heartbeat_lt := by decide
  backoff_le := by decide

def subjectRowLeaseOwnerId (jobId : JobId) : String := "job:" ++ toString jobId

inductive AgentRunJobClaim
  | claimed (row : AgentRun)
  | finished
  | held
  | started
  deriving DecidableEq

def claimedRun (lease : JobLease) (leaseMs : Nat) (now : Time) (r : AgentRun) : AgentRun :=
  { r with
    status := .running
    leaseOwner := subjectRowLeaseOwnerId lease.jobId
    leaseToken := lease.token
    leaseExpiresAt := now + leaseMs
    heartbeatAt := now
    updatedAt := now }

def claimOfCurrent (jobId : JobId) (now : Time) : Option AgentRun → AgentRunJobClaim
  | none => .finished
  | some current =>
    if ¬ current.Started then .finished
    else if current.heldByAnother (subjectRowLeaseOwnerId jobId) now then .held
    else .started

/-- A run is executed only by the attempt whose claim moves the row from queued to
running here. -/
def claimAgentRunForJob (claim : ClaimedRun) (leaseMs : Nat) (now : Time) :
    Tx Db RunError AgentRunJobClaim := do
  let rows ← updateRuns
    (fun r => r.ofRow claim.clientInstanceId claim.runId ∧ r.status = .queued)
    (claimedRun claim.lease leaseMs now)
  let db ← get
  match rows with
  | row :: _ => pure (.claimed row)
  | [] =>
    pure (claimOfCurrent claim.lease.jobId now
      (db.runs.find? fun r => r.ofRow claim.clientInstanceId claim.runId))

def renewAgentRunJobLease (claim : ClaimedRun) (leaseMs : Nat) (now : Time) :
    Tx Db RunError Bool := do
  let rows ← updateRuns (claimedRunWhere claim)
    fun r => { r with leaseExpiresAt := now + leaseMs, heartbeatAt := now, updatedAt := now }
  pure (0 < rows.length)

def cancelledRun (requestedAt : Time) (reason : Option String) (r : AgentRun) : AgentRun :=
  { r with
    status := .cancelled
    cancellationRequestedAt := requestedAt
    cancellationReason := reason
    cancelledAt := requestedAt
    updatedAt := requestedAt
    lastSequence := r.lastSequence + 1 }

def cancellingRun (requestedAt : Time) (reason : Option String) (r : AgentRun) : AgentRun :=
  { r with
    status := .cancelling
    cancellationRequestedAt := requestedAt
    cancellationReason := reason
    updatedAt := requestedAt }

def requestAgentRunCancellation (instanceId : ClientInstanceId) (runId : RunId)
    (requestedAt : Time) (reason : Option String) : Tx Db RunError AgentRun := do
  let db ← get
  let locked ← need (db.runs.find? fun r => r.ofRow instanceId runId)
    (appError .notFound "Agent run is not available")
  if locked.status = .queued then
    let rows ← updateRuns (fun r => r.ofRow instanceId runId ∧ r.status = .queued)
      (cancelledRun requestedAt reason)
    let row ← need rows.head?
      (appError .conflict "Agent run status changed during cancellation")
    insertObservations
      [observationOf row ⟨runId, row.lastSequence, requestedAt, .runCancelled reason⟩]
    pure row
  else if locked.Started then
    let rows ← updateRuns (fun r => r.ofRow instanceId runId) (cancellingRun requestedAt reason)
    need rows.head? (appError .notFound "Agent run is not available")
  else
    pure locked

def AgentRuntimeEvent.endsOrSuspendsRun (event : AgentRuntimeEvent) : Prop :=
  event.body.type = .runCompleted ∨ event.body.type = .runFailed ∨
    event.body.type = .toolPermissionRequested
  deriving Decidable

/-- The row an event leaves: `terminalStatusPatch` over the status of a permission request. -/
def observedRun (event : AgentRuntimeEvent) (r : AgentRun) : AgentRun :=
  let r := { r with lastSequence := event.sequence, updatedAt := event.createdAt }
  match event.body with
  | .runCompleted => { r.noLease with status := .completed, completedAt := event.createdAt }
  | .runCancelled reason =>
    { r.noLease with
      status := .cancelled, cancelledAt := event.createdAt, cancellationReason := reason }
  | .runFailed error =>
    { r.noLease with status := .failed, failedAt := event.createdAt, error := error }
  | .toolPermissionRequested _ => { r with status := .waitingForPermission }
  | _ => r

def insertClaimedRunObservation (claim : ClaimedRun) (event : AgentRuntimeEvent) :
    Tx Db RunError RunObservation := do
  require (event.runId = claim.runId)
    (appError .validationFailed "Run observation belongs to another agent run")
  let rows ← updateRuns
    (fun r => claimedRunWhere claim r ∧ r.lastSequence + 1 = event.sequence ∧
      (event.endsOrSuspendsRun → r.status = .running ∨ r.status = .waitingForPermission))
    (observedRun event)
  let run ← need rows.head?
    (appError .conflict "Agent run has ended, was asked to cancel, or its sequence is stale")
  insertObservations [observationOf run event]
  pure (observationOf run event)

def appendClaimedRunObservation (claim : ClaimedRun) (event : AgentRuntimeEvent)
    (clock : Time) : Tx Db RunError RunObservation := do
  requireJobLease claim.lease clock
  insertClaimedRunObservation claim event

structure ClaimedMessage where
  id : MessageId
  conversationId : ConversationId
  role : MessageRole
  text : String
  /-- The provider's state to resume from, with the provider. -/
  providerContinuation : Option (String × String)
  createdAt : Time
  deriving DecidableEq

/-- The users whose deletion closes a conversation for a write of `runOwnerUserId`. -/
def closingUsers (c : Conversation) (w : Workspace) (runOwnerUserId : UserId) : List UserId :=
  if c.isPrivate ∨ w.personal then [c.createdByUserId, runOwnerUserId] else [runOwnerUserId]

def requireActiveConversationLock (instanceId : ClientInstanceId)
    (conversationId : ConversationId) (runOwnerUserId : UserId) : Tx Db RunError Unit := do
  let db ← get
  let unavailable := appError .notFound "Conversation is not available"
  let c ← need (db.conversations.find? fun c =>
    c.clientInstanceId = instanceId ∧ c.id = conversationId ∧ c.active) unavailable
  let w ← need (db.workspaces.find? fun w =>
    w.clientInstanceId = instanceId ∧ w.id = c.collaborationWorkspaceId) unavailable
  require (w.deletionRequestedAt = none ∧ ∀ u ∈ db.users, u.clientInstanceId = instanceId →
      u.id ∈ closingUsers c w runOwnerUserId → u.deletionRequestedAt = none)
    (appError .conflict "Conversation no longer accepts messages")

def ProviderContinuation.ofRow (instanceId : ClientInstanceId) (conversationId : ConversationId)
    (providerId : String) (p : ProviderContinuation) : Prop :=
  p.clientInstanceId = instanceId ∧ p.conversationId = conversationId ∧ p.providerId = providerId
  deriving Decidable

/-- ON CONFLICT the row is replaced only by a later message's state. -/
def upsertContinuation (row : ProviderContinuation) (t : List ProviderContinuation) :
    List ProviderContinuation :=
  let sameRow := ProviderContinuation.ofRow row.clientInstanceId row.conversationId row.providerId
  if ∃ p ∈ t, sameRow p then
    updateWhere (fun p => sameRow p ∧ p.sourceStorageOrdinal < row.sourceStorageOrdinal)
      (fun _ => row) t
  else t ++ [row]

def insertClaimedAgentRunMessage (claim : ClaimedRun) (message : ClaimedMessage) :
    Tx Db RunError Unit := do
  let db ← get
  let run ← need (db.runs.find? fun r => claimedRunWhere claim r)
    (appError .conflict "Agent run has ended")
  require (message.conversationId = run.conversationId)
    (appError .conflict "Agent run message belongs to another conversation")
  requireActiveConversationLock claim.clientInstanceId run.conversationId run.ownerUserId
  require (∀ m ∈ db.messages, m.id ≠ message.id)
    (appError .internal "Agent run message was not persisted")
  let row : Message :=
    { id := message.id, clientInstanceId := claim.clientInstanceId
      conversationId := run.conversationId, role := message.role, text := message.text
      createdAt := message.createdAt, storageOrdinal := db.storageOrdinal }
  let continuation := fun (p : String × String) =>
    ({ clientInstanceId := claim.clientInstanceId, conversationId := run.conversationId
       providerId := p.1, state := p.2, sourceMessageId := row.id
       sourceStorageOrdinal := row.storageOrdinal, updatedAt := message.createdAt } :
      ProviderContinuation)
  modify fun db =>
    { db with
      messages := db.messages ++ [row]
      storageOrdinal := db.storageOrdinal + 1
      conversations := updateWhere
        (fun c => c.clientInstanceId = claim.clientInstanceId ∧ c.id = run.conversationId ∧
          c.active)
        (fun c => { c with updatedAt := message.createdAt }) db.conversations
      continuations :=
        match message.role, message.providerContinuation with
        | .assistant, some p => upsertContinuation (continuation p) db.continuations
        | _, _ => db.continuations }

def appendClaimedAgentRunMessage (claim : ClaimedRun) (message : ClaimedMessage)
    (clock : Time) : Tx Db RunError Unit := do
  requireJobLease claim.lease clock
  insertClaimedAgentRunMessage claim message

/-- The end of a run in one transaction: its last message, when one is given, and its
events through the one that ends it. -/
def appendClaimedAgentRunEnd (claim : ClaimedRun) (message : Option ClaimedMessage)
    (events : List AgentRuntimeEvent) (clock : Time) : Tx Db RunError Unit := do
  requireJobLease claim.lease clock
  each (insertClaimedAgentRunMessage claim) message.toList
  each (fun event => do let _ ← insertClaimedRunObservation claim event) events

def createApprovalRequest (claim : ClaimedRun) (request : ApprovalRequest) (clock : Time) :
    Tx Db RunError Unit := do
  requireClaimedAgentRun claim clock
  modify fun db => { db with approvals := db.approvals ++ [request] }

def deleteModelProviderContinuation (claim : ClaimedRun) (conversationId : ConversationId)
    (providerId : String) (clock : Time) : Tx Db RunError Unit := do
  requireClaimedAgentRun claim clock
  modify fun db => { db with
    continuations := deleteWhere
      (ProviderContinuation.ofRow claim.clientInstanceId conversationId providerId)
      db.continuations }

def failedRun (now : Time) (error : AgentRunError) (r : AgentRun) : AgentRun :=
  { r.noLease with
    status := .failed
    failedAt := now
    updatedAt := now
    lastSequence := r.lastSequence + 1
    error := error }

def runFailedObservation (now : Time) (error : AgentRunError) (r : AgentRun) : RunObservation :=
  observationOf r ⟨r.id, r.lastSequence, now, .runFailed error⟩

def failLostAgentRun (instanceId : ClientInstanceId) (runId : RunId) (jobId : JobId)
    (error : AgentRunError) (now : Time) : Tx Db RunError (Option AgentRun) := do
  let rows ← updateRuns
    (fun r => r.ofRow instanceId runId ∧ r.Started ∧
      ¬ r.heldByAnother (subjectRowLeaseOwnerId jobId) now)
    (failedRun now error)
  insertObservations (rows.map (runFailedObservation now error))
  pure rows.head?

def AGENT_RUN_WORKER_LOST_ERROR : AgentRunError :=
  ⟨"AGENT_RUN_WORKER_LOST", "The worker of this agent run was lost before the run ended",
    "runtime_interrupted"⟩

def AGENT_RUN_NOT_STARTED_ERROR : AgentRunError :=
  ⟨"AGENT_RUN_NOT_STARTED", "No worker took this agent run in time", "runtime_interrupted"⟩

/-- Ends the run of a job whose worker is gone, with its audit event. -/
def failAgentRunOfLostJob (instanceId : ClientInstanceId) (runId : RunId) (jobId : JobId)
    (now : Time) : Tx Db RunError Unit := do
  let failed ← failLostAgentRun instanceId runId jobId AGENT_RUN_WORKER_LOST_ERROR now
  modify fun db => { db with
    audit := db.audit ++ failed.toList.map fun run =>
      ⟨run.clientInstanceId, "agent_run.recovered", run.id, run.conversationId,
        AGENT_RUN_WORKER_LOST_ERROR.code⟩ }

/-- Fails up to `limit` runs that meet `condition`, oldest first, each with a
`run_failed` event. -/
def failAgentRunsWhere (instanceId : ClientInstanceId) (error : AgentRunError) (limit : Nat)
    (now : Time) (condition : Db → AgentRun → Prop) [∀ db, DecidablePred (condition db)] :
    Tx Db RunError (List AgentRun) := do
  let db ← get
  let chosen := (((db.runs.filter fun r => r.clientInstanceId = instanceId ∧ condition db r
    ).insertionSort AgentRun.notAfter).take limit).map (·.id)
  let rows ← updateRuns
    (fun r => r.clientInstanceId = instanceId ∧ condition db r ∧ r.id ∈ chosen)
    (failedRun now error)
  insertObservations (rows.map (runFailedObservation now error))
  pure rows

def queuedTooLong (queuedMs : Nat) (now : Time) (r : AgentRun) : Prop :=
  r.status = .queued ∧ r.startedAt + queuedMs < now
  deriving Decidable

def failAgentRunsQueuedTooLong (instanceId : ClientInstanceId) (error : AgentRunError)
    (limit queuedMs : Nat) (now : Time) : Tx Db RunError (List AgentRun) :=
  failAgentRunsWhere instanceId error limit now fun _ r => queuedTooLong queuedMs now r

/-- A started run whose lease ran out and that no running job of `jobKind` executes. -/
def withoutWorker (jobKind : String) (now : Time) (db : Db) (r : AgentRun) : Prop :=
  r.Started ∧ (∀ e ∈ r.leaseExpiresAt, e ≤ now) ∧
    ¬ ∃ job ∈ db.queue.rows, job.ofKind r.clientInstanceId jobKind ∧
      job.dedupeKey = some (subjectDedupeKey jobKind r.id) ∧ job.Running
  deriving Decidable

def failAgentRunsWithoutWorker (instanceId : ClientInstanceId) (error : AgentRunError)
    (limit : Nat) (jobKind : String) (now : Time) : Tx Db RunError (List AgentRun) :=
  failAgentRunsWhere instanceId error limit now (withoutWorker jobKind now)

structure AcceptedRun where
  clientInstanceId : ClientInstanceId
  conversationId : ConversationId
  ownerUserId : UserId
  runId : RunId
  userMessageId : MessageId
  text : String
  createdAt : Time
  deriving DecidableEq

def AcceptedRun.row (input : AcceptedRun) : AgentRun :=
  { id := input.runId
    clientInstanceId := input.clientInstanceId
    conversationId := input.conversationId
    ownerUserId := input.ownerUserId
    inputMessageId := input.userMessageId
    status := .queued
    startedAt := input.createdAt
    updatedAt := input.createdAt
    completedAt := none
    cancelledAt := none
    failedAt := none
    lastSequence := 0
    error := none
    leaseOwner := none
    leaseToken := none
    leaseExpiresAt := none
    heartbeatAt := none
    cancellationRequestedAt := none
    cancellationReason := none }

def AcceptedRun.message (input : AcceptedRun) (storageOrdinal : Nat) : Message :=
  { id := input.userMessageId
    clientInstanceId := input.clientInstanceId
    conversationId := input.conversationId
    role := .user
    text := input.text
    createdAt := input.createdAt
    storageOrdinal := storageOrdinal }

def agentRunJobOptions (input : AcceptedRun) : EnqueueJobOptions :=
  ⟨input.clientInstanceId, none, some (subjectDedupeKey executeAgentRunJob.kind input.runId),
    none, 0⟩

/-- The run and its job are accepted together. The last two conditions are the primary
keys of the two tables. -/
def prepareConversationRunStart (input : AcceptedRun) (now : Time) : Tx Db RunError AgentRun := do
  let db ← get
  require (∃ c ∈ db.conversations, c.clientInstanceId = input.clientInstanceId ∧
      c.id = input.conversationId ∧ c.active)
    (appError .notFound "Conversation is not available")
  require (¬ ∃ r ∈ db.runs, r.clientInstanceId = input.clientInstanceId ∧
      r.conversationId = input.conversationId ∧ r.InProgress)
    (appError .conflict "Conversation already has an active agent run")
  require ((∀ m ∈ db.messages, m.id ≠ input.userMessageId) ∧ ∀ r ∈ db.runs, r.id ≠ input.runId)
    (appError .internal "duplicate key value violates unique constraint")
  modify fun db =>
    { db with
      messages := db.messages ++ [input.message db.storageOrdinal]
      storageOrdinal := db.storageOrdinal + 1
      runs := db.runs ++ [input.row]
      conversations := updateWhere
        (fun c => c.clientInstanceId = input.clientInstanceId ∧ c.id = input.conversationId)
        (fun c => { c with updatedAt := input.createdAt }) db.conversations
      queue := (enqueueJob db.queue now executeAgentRunJob [("runId", input.runId)]
        (agentRunJobOptions input)).2 }
  pure input.row

end Catalyst.Runs
