import Catalyst.Library.Check
import Catalyst.Library.Processes
import Catalyst.Library.Table
import Catalyst.Runs.Model

/-!
# One conversation and its writers

The rows of one conversation, with the calls that add to them or end them. A transaction that
locks the conversation's row reads what is committed when each of its statements runs, and
what it writes is committed with its last one. While it holds the lock nobody else changes the
row, and nobody inserts a row that refers to it.
-/

namespace Catalyst.Conversations

open Library
open Runs (AgentRunStatus MessageRole)

inductive ConversationStatus
  | active | deleted | retentionExpired
  deriving DecidableEq

inductive ConversationVisibility
  | workspace | «private»
  deriving DecidableEq

structure Conversation where
  collaborationWorkspaceId : String
  visibility : ConversationVisibility
  title : String
  status : ConversationStatus
  updatedAt : Time
  retainedUntil : Time
  deletedAt : Option Time
  deriving DecidableEq

structure Message where
  id : String
  role : MessageRole
  text : String
  createdAt : Time
  deriving DecidableEq

inductive ConversationAttachmentStatus
  | queued | preprocessing | ready | failed | unsupported | deleted
  deriving DecidableEq

structure ConversationAttachment where
  id : String
  messageId : Option String
  status : ConversationAttachmentStatus
  updatedAt : Time
  deletedAt : Option Time
  deriving DecidableEq

structure ManagedArtifact where
  id : String
  createdAt : Time
  deriving DecidableEq

structure StructuredDataResource where
  resourceKey : String
  title : String
  state : String
  revision : Nat
  updatedAt : Time
  deriving DecidableEq

structure AgentRun where
  id : String
  inputMessageId : String
  status : AgentRunStatus
  updatedAt : Time
  deriving DecidableEq

structure Db where
  conversation : Conversation
  messages : List Message
  attachments : List ConversationAttachment
  artifacts : List ManagedArtifact
  structuredData : List StructuredDataResource
  runs : List AgentRun
  deriving DecidableEq

def Db.Active (db : Db) : Prop := db.conversation.status = .active
  deriving Decidable

def AgentRun.InProgress (run : AgentRun) : Prop :=
  run.status = .queued ∨ run.status = .running ∨ run.status = .waitingForPermission ∨ run.status = .cancelling
  deriving Decidable

def ConversationAttachment.Draft (attachment : ConversationAttachment) : Prop :=
  attachment.messageId = none ∧ attachment.status ≠ .deleted
  deriving Decidable

def Db.Idle (db : Db) : Prop := ∀ run ∈ db.runs, ¬ run.InProgress
  deriving Decidable

inductive ExpiryReason
  | retentionDue | abandonedDraft
  deriving DecidableEq

structure ExpiryInput where
  now : Option Time
  abandonedBefore : Option Time
  deriving DecidableEq

/-- `conversationExpiryCriteria` -/
def Db.Meets (db : Db) (input : ExpiryInput) : ExpiryReason → Prop
  | .retentionDue => (∃ now ∈ input.now, db.conversation.retainedUntil ≤ now) ∧ db.Idle
  | .abandonedDraft => (∃ before ∈ input.abandonedBefore, db.conversation.updatedAt ≤ before) ∧
      db.messages = [] ∧ (∀ a ∈ db.attachments, ¬ a.Draft) ∧ db.Idle

instance (db : Db) (input : ExpiryInput) : DecidablePred (db.Meets input)
  | .retentionDue => inferInstanceAs (Decidable (_ ∧ _))
  | .abandonedDraft => inferInstanceAs (Decidable (_ ∧ _ ∧ _ ∧ _))

def notAvailable : AppError := ⟨.notFound, "Conversation is not available"⟩

def duplicateKey : AppError := ⟨.internal, "duplicate key value violates unique constraint"⟩

def Db.touch (db : Db) (updatedAt : Time) : Db := { db with conversation.updatedAt := updatedAt }

/-- The part of `prepareConversationRunStart`'s input that its statements read here; `now` is the
database's clock. -/
structure RunStart where
  messageId : String
  text : String
  runId : String
  status : AgentRunStatus
  createdAt : Time
  claimReadyDraftAttachments : Bool
  extendRetentionDays : Option Nat
  now : Time
  deriving DecidableEq

inductive Write
  | appendMessage (message : Message)
  | prepareConversationRunStart (input : RunStart)
  | createConversationAttachment (id : String) (status : ConversationAttachmentStatus) (now : Time)
  | reactivateDraftAttachment (id : String) (status : ConversationAttachmentStatus) (now : Time)
  | createManagedArtifact (artifact : ManagedArtifact)
  | deleteConversation (deletedAt : Time) (inCollaborationWorkspaceId : Option String)
  deriving DecidableEq

def Write.workspace? : Write → Option String
  | deleteConversation _ inCollaborationWorkspaceId => inCollaborationWorkspaceId
  | _ => none

def markLockedConversationDeleted (db : Db) (deletedAt : Time) (status : ConversationStatus) : Db :=
  { db with
    attachments := updateWhere (fun a => a.status ≠ .deleted)
      (fun a => { a with status := .deleted, deletedAt := some deletedAt, updatedAt := deletedAt }) db.attachments
    messages := []
    structuredData := []
    conversation := { db.conversation with status := status, deletedAt := some deletedAt, updatedAt := deletedAt } }

def insertMessage (db : Db) (message : Message) : Except AppError Db := do
  Check.require (∀ m ∈ db.messages, m.id ≠ message.id) duplicateKey
  return { db with messages := db.messages ++ [message] }

def dayMs : Nat := 24 * 60 * 60 * 1000

def RunStart.run (input : RunStart) : AgentRun := ⟨input.runId, input.messageId, input.status, input.createdAt⟩

def RunStart.claims (input : RunStart) (attachments : List ConversationAttachment) : List ConversationAttachment :=
  if input.claimReadyDraftAttachments then
    updateWhere (fun a => a.status = .ready ∧ a.messageId = none)
      (fun a => { a with messageId := some input.messageId, updatedAt := input.createdAt }) attachments
  else attachments

def RunStart.retains (input : RunStart) (retainedUntil : Time) : Time :=
  match input.extendRetentionDays with
  | none => retainedUntil
  | some days => max retainedUntil (input.now + days * dayMs)

def prepareConversationRunStart (db : Db) (input : RunStart) : Except AppError Db := do
  Check.require (∀ run ∈ db.runs, ¬ run.InProgress) ⟨.conflict, "Conversation already has an active agent run"⟩
  let db ← insertMessage db ⟨input.messageId, .user, input.text, input.createdAt⟩
  Check.require (∀ run ∈ db.runs, run.id ≠ input.runId) duplicateKey
  return { db with
    attachments := input.claims db.attachments
    runs := db.runs ++ [input.run]
    conversation := { db.conversation with
      updatedAt := input.createdAt
      retainedUntil := input.retains db.conversation.retainedUntil } }

def ConversationAttachment.Removed (attachment : ConversationAttachment) (id : String) : Prop :=
  attachment.id = id ∧ attachment.messageId = none ∧ attachment.status = .deleted
  deriving Decidable

def reactivateDraftAttachment (db : Db) (id : String) (status : ConversationAttachmentStatus) (now : Time) :
    Except AppError Db := do
  Check.require (∃ a ∈ db.attachments, a.Removed id) ⟨.notFound, "Draft attachment is not available"⟩
  let attachments := updateWhere (·.Removed id)
    (fun a => { a with status := status, deletedAt := none, updatedAt := now }) db.attachments
  return ({ db with attachments := attachments } : Db).touch now

def createConversationAttachment (db : Db) (id : String) (status : ConversationAttachmentStatus) (now : Time) :
    Except AppError Db := do
  Check.require (∀ a ∈ db.attachments, a.id ≠ id) duplicateKey
  let attachment : ConversationAttachment := ⟨id, none, status, now, none⟩
  return ({ db with attachments := db.attachments ++ [attachment] } : Db).touch now

def createManagedArtifact (db : Db) (artifact : ManagedArtifact) : Except AppError Db := do
  Check.require (∀ a ∈ db.artifacts, a.id ≠ artifact.id) duplicateKey
  return { db with artifacts := db.artifacts ++ [artifact] }

def appendMessage (db : Db) (message : Message) : Except AppError Db := do
  let db ← insertMessage db message
  return db.touch message.createdAt

def Write.apply (db : Db) : Write → Except AppError Db
  | appendMessage message => Conversations.appendMessage db message
  | prepareConversationRunStart input => Conversations.prepareConversationRunStart db input
  | createConversationAttachment id status now => Conversations.createConversationAttachment db id status now
  | reactivateDraftAttachment id status now => Conversations.reactivateDraftAttachment db id status now
  | createManagedArtifact artifact => Conversations.createManagedArtifact db artifact
  | deleteConversation deletedAt _ => .ok (markLockedConversationDeleted db deletedAt .deleted)

def moveConversation (db : Db) (fromWorkspace toWorkspace : String) (visibility : ConversationVisibility) :
    Except AppError Db := do
  Check.require (db.Active ∧ db.conversation.collaborationWorkspaceId = fromWorkspace)
    ⟨.conflict, "Conversation workspace changed during the move"⟩
  return { db with conversation := { db.conversation with
    collaborationWorkspaceId := toWorkspace
    visibility := visibility } }

def updateConversationTitle (db : Db) (title : String) (updatedAt : Time) : Except AppError Db := do
  Check.require db.Active notAvailable
  return { db with conversation := { db.conversation with title := title, updatedAt := updatedAt } }

structure Published where
  resourceKey : String
  title : String
  state : String
  now : Time
  deriving DecidableEq

def Db.publishedBefore (db : Db) (input : Published) : Prop :=
  ∃ r ∈ db.structuredData, r.resourceKey = input.resourceKey
  deriving Decidable

def republish (db : Db) (input : Published) : Db :=
  { db with
    structuredData := updateWhere (fun r => r.resourceKey = input.resourceKey)
      (fun r => { r with title := input.title, state := input.state, revision := r.revision + 1, updatedAt := input.now })
      db.structuredData }

def publishStructuredDataResource (db : Db) (input : Published) : Db :=
  if db.publishedBefore input then republish db input
  else { db with
    structuredData := db.structuredData ++ [⟨input.resourceKey, input.title, input.state, 1, input.now⟩] }

def deleteDraftAttachment (db : Db) (id : String) (deletedAt : Time) : Except AppError Db := do
  Check.require (∃ a ∈ db.attachments, a.id = id ∧ a.messageId = none)
    ⟨.notFound, "Draft attachment is not available"⟩
  return { db with
    attachments := updateWhere (fun a => a.id = id ∧ a.messageId = none)
      (fun a => { a with status := .deleted, deletedAt := some deletedAt, updatedAt := deletedAt }) db.attachments }

def updateAgentRunStatus (db : Db) (runId : String) (status : AgentRunStatus) (updatedAt : Time) : Db :=
  { db with
    runs := updateWhere (fun run => run.id = runId ∧ run.InProgress)
      (fun run => { run with status := status, updatedAt := updatedAt }) db.runs }

inductive Call
  | write (write : Write)
  | expireConversation (expiredAt : Time) (input : ExpiryInput)
  | moveConversation (fromWorkspace toWorkspace : String) (visibility : ConversationVisibility)
  | updateConversationTitle (title : String) (updatedAt : Time)
  | publishStructuredDataResource (input : Published)
  | deleteDraftAttachment (id : String) (deletedAt : Time)
  | updateAgentRunStatus (runId : String) (status : AgentRunStatus) (updatedAt : Time)
  deriving DecidableEq

/-- Where a call stands: what it does next. -/
inductive Phase
  | starting
  /-- The conversation is locked. -/
  | writing (write : Write)
  | evaluating (expiredAt : Time) (input : ExpiryInput) (reason : ExpiryReason)
  | expiring (expiredAt : Time) (input : ExpiryInput) (reason : ExpiryReason)
  /-- No row has the key: a new one waits for the conversation it refers to. -/
  | inserting (input : Published)
  /-- `touchConversation` after the removal of a draft. -/
  | touching (updatedAt : Time)
  deriving DecidableEq

structure Going where
  call : Call
  phase : Phase
  deriving DecidableEq

inductive Answer
  | done
  | refused (error : AppError)
  | deleted
  | expired (input : ExpiryInput) (reason : ExpiryReason)
  | notExpired
  deriving DecidableEq

def Answer.Ended : Answer → Prop
  | deleted | expired _ _ => True
  | _ => False

instance : DecidablePred Answer.Ended := fun a => by
  unfold Answer.Ended
  split <;> infer_instance

abbrev StepResult := Option Answer × Option Going × Db

namespace Going

def answers (db : Db) (answer : Answer) : StepResult := (some answer, none, db)

def goesTo (g : Going) (db : Db) (phase : Phase) : StepResult := (none, some { g with phase := phase }, db)

def commits (db : Db) (answer : Answer) : Except AppError Db → StepResult
  | .ok db' => (some answer, none, db')
  | .error e => (some (.refused e), none, db)

/-- `lockActiveConversation` -/
def Locks (db : Db) (workspace? : Option String) : Prop :=
  db.Active ∧ ∀ w ∈ workspace?, db.conversation.collaborationWorkspaceId = w
  deriving Decidable

def starts (g : Going) (db : Db) : StepResult :=
  match g.call with
  | .write write =>
    if Locks db write.workspace? then g.goesTo db (.writing write) else answers db (.refused notAvailable)
  | .expireConversation expiredAt input =>
    if Locks db none then g.goesTo db (.evaluating expiredAt input .retentionDue) else answers db .notExpired
  | .moveConversation fromWorkspace toWorkspace visibility =>
    commits db .done (Conversations.moveConversation db fromWorkspace toWorkspace visibility)
  | .updateConversationTitle title updatedAt =>
    commits db .done (Conversations.updateConversationTitle db title updatedAt)
  | .publishStructuredDataResource input =>
    if db.publishedBefore input then (some .done, none, republish db input) else g.goesTo db (.inserting input)
  | .deleteDraftAttachment id deletedAt =>
    match Conversations.deleteDraftAttachment db id deletedAt with
    | .ok db' => g.goesTo db' (.touching deletedAt)
    | .error e => answers db (.refused e)
  | .updateAgentRunStatus runId status updatedAt =>
    (some .done, none, Conversations.updateAgentRunStatus db runId status updatedAt)

def Write.answer : Write → Answer
  | .deleteConversation _ _ => .deleted
  | _ => .done

def evaluates (g : Going) (db : Db) (expiredAt : Time) (input : ExpiryInput) (reason : ExpiryReason) : StepResult :=
  if db.Meets input reason then g.goesTo db (.expiring expiredAt input reason)
  else match reason with
    | .retentionDue => g.goesTo db (.evaluating expiredAt input .abandonedDraft)
    | .abandonedDraft => answers db .notExpired

def step (db : Db) (g : Going) : StepResult :=
  match g.phase with
  | .starting => g.starts db
  | .writing write => commits db (Write.answer write) (write.apply db)
  | .evaluating expiredAt input reason => g.evaluates db expiredAt input reason
  | .expiring expiredAt input reason =>
    (some (.expired input reason), none, markLockedConversationDeleted db expiredAt .retentionExpired)
  | .inserting input => (some .done, none, publishStructuredDataResource db input)
  | .touching updatedAt => (some .done, none, db.touch updatedAt)

def Holds (g : Going) : Prop :=
  match g.phase with
  | .writing _ | .evaluating _ _ _ | .expiring _ _ _ => True
  | _ => False

instance : DecidablePred Holds := fun g => by
  unfold Holds
  split <;> infer_instance

def Call.Beside : Call → Prop
  | .publishStructuredDataResource _ | .deleteDraftAttachment _ _ | .updateAgentRunStatus _ _ _ => True
  | _ => False

instance : DecidablePred Call.Beside := fun call => by
  unfold Call.Beside
  split <;> infer_instance

def Waits (g : Going) : Prop :=
  match g.phase with
  | .starting => ¬ Call.Beside g.call
  | .inserting _ | .touching _ => True
  | _ => False

instance : DecidablePred Waits := fun g => by
  unfold Waits
  split <;> infer_instance

end Going

def conversationCalls : Processes Db Call Going Empty Answer where
  start call := ⟨call, .starting⟩
  blocks p q := p.Holds ∧ q.Waits
  step := Going.step
  env _ e := e.elim

abbrev ConversationPool := Pool Db Going

abbrev ConversationMove := Move Call Empty

end Catalyst.Conversations
