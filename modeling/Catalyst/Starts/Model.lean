import Catalyst.Library.Processes
import Catalyst.Runs.Model
import Mathlib.Logic.Function.Basic

/-!
# Run starts

A request starts a run in a conversation, or creates the conversation with its first run.
Under an idempotency key it claims a command first, and a repeated request reads from the
command which run was started. Each statement is one step, and so is each group of calls
elsewhere: other requests and the rest of the product go between any two of them.

A request comes with a script: the ids and times it uses, what it catches from its calls,
and which of its statements fail, before or after they were committed.
-/

namespace Catalyst.Starts

open Library Library.Tx Runs

inductive CommandKind
  | startConversationRun | createConversationRun
  deriving DecidableEq

structure CommandKey where
  clientInstanceId : ClientInstanceId
  ownerUserId : UserId
  kind : CommandKind
  idempotencyKey : String
  deriving DecidableEq

inductive CommandStatus
  | pending | completed | failed
  deriving DecidableEq

/-- `claim` numbers the claim that made the command pending; no statement reads it. -/
structure RunStartCommand where
  status : CommandStatus
  conversationId : Option ConversationId
  userMessageId : Option MessageId
  runId : Option RunId
  updatedAt : Time
  claim : Nat
  deriving DecidableEq

structure Claim where
  claimedAt : Time
  number : Nat
  deriving DecidableEq

structure CreatedConversation where
  key : CommandKey
  claim : Nat
  conversationId : ConversationId
  deriving DecidableEq

structure CreatedRun where
  key : CommandKey
  runId : RunId
  deriving DecidableEq

structure Db where
  work : Runs.Db
  commands : CommandKey → Option RunStartCommand
  claims : Nat
  conversations : List CreatedConversation
  runs : List CreatedRun

inductive Thrown
  | run (error : RunError)
  | store
  deriving DecidableEq

def thrown (code : AppErrorCode) (message : String) : Thrown := .run (appError code message)

def pendingCommand (now : Time) (claim : Nat) : RunStartCommand := ⟨.pending, none, none, none, now, claim⟩

def Db.claimed (db : Db) (key : CommandKey) (now : Time) : Option Claim × Db :=
  (some ⟨now, db.claims⟩,
    { db with
      commands := Function.update db.commands key (some (pendingCommand now db.claims))
      claims := db.claims + 1 })

def insertCommand (db : Db) (key : CommandKey) (now : Time) : Option Claim × Db :=
  match db.commands key with
  | none => db.claimed key now
  | some _ => (none, db)

def RunStartCommand.reclaimable (c : RunStartCommand) (before : Time) : Prop := c.status = .pending ∧ c.updatedAt < before

instance : Decidable (RunStartCommand.reclaimable c before) := inferInstanceAs (Decidable (_ ∧ _))

def reclaimCommand (db : Db) (key : CommandKey) (now before : Time) : Option Claim × Db :=
  match db.commands key with
  | some command => if command.reclaimable before then db.claimed key now else (none, db)
  | none => (none, db)

/-- `runStartCommandPendingClaimWhere` -/
def RunStartCommand.pendingAt (c : RunStartCommand) (claimedAt : Time) : Prop := c.status = .pending ∧ c.updatedAt = claimedAt

instance : Decidable (RunStartCommand.pendingAt c claimedAt) := inferInstanceAs (Decidable (_ ∧ _))

def completeRunStartCommand (db : Db) (key : CommandKey) (claimedAt : Time) (conversationId : ConversationId)
    (userMessageId : MessageId) (runId : RunId) (updatedAt : Time) : Except Thrown Db :=
  match db.commands key with
  | some command =>
    if command.pendingAt claimedAt then
      .ok { db with
        commands := Function.update db.commands key
          (some ⟨.completed, some conversationId, some userMessageId, some runId, updatedAt, command.claim⟩) }
    else .error (thrown .notFound "Run start command is not available")
  | none => .error (thrown .notFound "Run start command is not available")

def releaseRunStartCommand (db : Db) (key : CommandKey) (claimedAt : Time) : Db :=
  match db.commands key with
  | some command =>
    if command.pendingAt claimedAt then { db with commands := Function.update db.commands key none } else db
  | none => db

inductive Target
  | existing (conversationId : ConversationId)
  | new (title : String)
  deriving DecidableEq

/-- `expectedConversationId` -/
def Target.expects (conversationId : ConversationId) : Target → Bool
  | existing expected => conversationId = expected
  | new _ => true

structure StartRequest where
  clientInstanceId : ClientInstanceId
  ownerUserId : UserId
  idempotencyKey : Option String
  target : Target
  text : String
  deriving DecidableEq

def Target.kind : Target → CommandKind
  | existing _ => .startConversationRun
  | new _ => .createConversationRun

def StartRequest.key (r : StartRequest) : Option CommandKey :=
  (r.idempotencyKey.filter (· ≠ "")).map fun key => ⟨r.clientInstanceId, r.ownerUserId, r.target.kind, key⟩

inductive Fault
  | none | beforeCommit | afterCommit
  deriving DecidableEq

structure Script where
  conversationId : ConversationId
  userMessageId : MessageId
  runId : RunId
  /-- The workspace a new conversation is created in. -/
  workspaceId : String
  isPrivate : Bool
  /-- The time of a claim, by how often the request has waited for it. -/
  now : Nat → Time
  reclaimPendingBefore : Time
  startedAt : Time
  /-- By the number of steps the request has taken. -/
  throws : Nat → Option Thrown
  fault : Nat → Fault

/-- `IDEMPOTENCY_WAIT_MS / IDEMPOTENCY_WAIT_STEP_MS` -/
def idempotencyWaits : Nat := 100

inductive Phase
  | accessing
  | inserting (waited : Nat)
  | reclaiming (waited : Nat)
  | reading (waited : Nat)
  | resolving (command : RunStartCommand)
  | checking
  | creating
  | created (conversationId : ConversationId)
  | preparing (conversationId : ConversationId)
  | starting (conversationId : ConversationId) (runId : RunId)
  | completing (conversationId : ConversationId) (runId : RunId)
  | releasing (error : Thrown)
  deriving DecidableEq

structure Starting where
  request : StartRequest
  script : Script
  steps : Nat
  claim : Option Claim
  phase : Phase

structure Answered where
  key : Option CommandKey
  answer : Except Thrown RunId

abbrev StepResult := Option Answered × Option Starting × Db

/-- The transaction that creates the run and, in an existing conversation, completes the command with it. -/
def prepareRun (db : Db) (input : AcceptedRun) (command : Option (CommandKey × Claim)) : Except Thrown Db :=
  match prepareConversationRunStart input input.createdAt db.work with
  | .error e => .error (.run e)
  | .ok (_, work) =>
    match command with
    | none => .ok { db with work }
    | some (key, claim) =>
      completeRunStartCommand { db with work } key claim.claimedAt input.conversationId input.userMessageId
        input.runId input.createdAt

def createConversation (work : Runs.Db) (conversation : Conversation) : Except Thrown Runs.Db :=
  if ∃ c ∈ work.conversations, c.id = conversation.id then .error .store
  else .ok { work with conversations := work.conversations ++ [conversation] }

def startedRunFromCommand (work : Runs.Db) (clientInstanceId : ClientInstanceId) (target : Target)
    (command : RunStartCommand) : Except Thrown RunId :=
  match command.conversationId, command.userMessageId, command.runId with
  | some conversationId, some _, some runId =>
    if ¬ target.expects conversationId then .error (thrown .notFound "Agent run is not available")
    else match work.runs.find? fun r =>
        r.clientInstanceId = clientInstanceId ∧ r.conversationId = conversationId ∧ r.id = runId with
      | none => .error (thrown .notFound "Agent run is not available")
      | some run =>
        if ∃ m ∈ work.messages, m.conversationId = run.conversationId ∧ m.id = run.inputMessageId then .ok run.id
        else .error (thrown .internal "Agent run input message was not persisted")
  | _, _, _ => .error (thrown .conflict "Run start command is still pending")

namespace Starting

variable (s : Starting) (db : Db)

def key : Option CommandKey := s.request.key

def answers (answer : Except Thrown RunId) : StepResult := (some ⟨s.key, answer⟩, none, db)

def goesTo (phase : Phase) : StepResult := (none, some { s with phase, steps := s.steps + 1 }, db)

def claims (claim : Claim) : StepResult :=
  (none, some { s with claim := some claim, phase := .checking, steps := s.steps + 1 }, db)

def fails (error : Thrown) : StepResult :=
  match s.claim with
  | none => s.answers db (.error error)
  | some _ => s.goesTo db (.releasing error)

/-- After a statement: `done` where it did not fail. -/
def after (db' : Db) (failed : Db → StepResult) (done : StepResult) : StepResult :=
  match s.script.fault s.steps with
  | .beforeCommit => failed db
  | .afterCommit => failed db'
  | .none => done

def called (failed : Thrown → StepResult) (done : StepResult) : StepResult :=
  match s.script.throws s.steps with
  | some e => failed e
  | none => done

def begins : Phase := if s.key.isSome then .inserting 0 else .checking

def asks (claimed : Option Claim × Db) (otherwise : Phase) : StepResult :=
  s.after db claimed.2 (fun db => s.answers db (.error .store))
    (match claimed.1 with
      | some claim => s.claims claimed.2 claim
      | none => s.goesTo claimed.2 otherwise)

def reads (key : CommandKey) (waited : Nat) : StepResult :=
  s.after db db (fun db => s.answers db (.error .store))
    (match db.commands key with
      | none => s.answers db (.error (thrown .conflict "Run start command idempotency key already exists"))
      | some command =>
        if waited = idempotencyWaits then s.answers db (.error (thrown .conflict "Run start command is still pending"))
        else match command.status with
          | .completed => s.goesTo db (.resolving command)
          | .failed => s.answers db (.error (thrown .conflict "Run start command previously failed"))
          | .pending => s.goesTo db (.inserting (waited + 1)))

def conversation : Conversation :=
  ⟨s.script.conversationId, s.request.clientInstanceId, s.script.workspaceId, true, s.script.isPrivate,
    s.request.ownerUserId, s.script.startedAt⟩

def accepted (conversationId : ConversationId) : AcceptedRun :=
  ⟨s.request.clientInstanceId, conversationId, s.request.ownerUserId, s.script.runId, s.script.userMessageId,
    s.request.text, s.script.startedAt⟩

/-- The conversation is recorded with the claim it was created for. -/
def recordConversation (work : Runs.Db) : Db :=
  { db with
    work
    conversations := match s.key, s.claim with
      | some key, some claim => ⟨key, claim.number, s.script.conversationId⟩ :: db.conversations
      | _, _ => db.conversations }

def recordRun : Db :=
  { db with
    runs := match s.key with
      | some key => ⟨key, s.script.runId⟩ :: db.runs
      | none => db.runs }

def ownCommand : Option (CommandKey × Claim) :=
  match s.request.target, s.key, s.claim with
  | .existing _, some key, some claim => some (key, claim)
  | _, _, _ => none

def step : StepResult :=
  match s.phase with
  | .accessing => s.called (fun e => s.answers db (.error e)) (s.goesTo db s.begins)
  | .inserting waited =>
    match s.key with
    | some key => s.asks db (insertCommand db key (s.script.now waited)) (.reclaiming waited)
    | none => s.goesTo db .checking
  | .reclaiming waited =>
    match s.key with
    | some key =>
      s.asks db (reclaimCommand db key (s.script.now waited) s.script.reclaimPendingBefore) (.reading waited)
    | none => s.goesTo db .checking
  | .reading waited =>
    match s.key with
    | some key => s.reads db key waited
    | none => s.goesTo db .checking
  | .resolving command =>
    s.called (fun e => s.answers db (.error e))
      (s.answers db (startedRunFromCommand db.work s.request.clientInstanceId s.request.target command))
  | .checking =>
    s.called (s.fails db) (match s.request.target with
      | .existing conversationId => s.goesTo db (.preparing conversationId)
      | .new _ => s.goesTo db .creating)
  | .creating =>
    match createConversation db.work s.conversation with
    | .error e => s.fails db e
    | .ok work =>
      let db' := s.recordConversation db work
      s.after db db' (s.fails · .store) (s.goesTo db' (.created s.script.conversationId))
  -- The record of the audit, and what the start of a run in this conversation checks.
  | .created conversationId => s.called (s.fails db) (s.goesTo db (.preparing conversationId))
  | .preparing conversationId =>
    match prepareRun db (s.accepted conversationId) s.ownCommand with
    | .error e => s.fails db e
    | .ok db₁ =>
      let db' := s.recordRun db₁
      s.after db db' (s.fails · .store) (s.goesTo db' (.starting conversationId s.script.runId))
  | .starting conversationId runId =>
    s.called (s.fails db) (match s.request.target with
      | .existing _ => s.answers db (.ok runId)
      | .new _ => if s.claim.isSome then s.goesTo db (.completing conversationId runId) else s.answers db (.ok runId))
  | .completing conversationId runId =>
    match s.key, s.claim with
    | some key, some claim =>
      match completeRunStartCommand db key claim.claimedAt conversationId s.script.userMessageId runId s.script.startedAt with
      | .error e => s.fails db e
      | .ok db' => s.after db db' (s.fails · .store) (s.answers db' (.ok runId))
    | _, _ => s.answers db (.ok runId)
  | .releasing error =>
    match s.key, s.claim with
    | some key, some claim =>
      let db' := releaseRunStartCommand db key claim.claimedAt
      s.after db db' (fun db => s.answers db (.error .store)) (s.answers db' (.error error))
    | _, _ => s.answers db (.error error)

end Starting

def startOf (input : StartRequest × Script) : Starting :=
  let s : Starting := ⟨input.1, input.2, 0, none, .accessing⟩
  match input.1.target with
  | .existing _ => s
  | .new _ => { s with phase := s.begins }

/-- Any number of requests; one that aborts is one whose process has crashed. The rest of the product may
leave any other tables behind. -/
def runStarts : Processes Db (StartRequest × Script) Starting Runs.Db Answered where
  start := startOf
  blocks _ _ := False
  step db s := s.step db
  env db work := (none, { db with work })

end Catalyst.Starts
