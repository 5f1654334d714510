import Catalyst.ChatUi.Projection
import Catalyst.Library.Transition

/-!
# The controller of a conversation

The page keeps one run with the number of its last applied observation. Threads read from
the server and observations from the stream come in any order; a thread may be older than
what the page has seen of the run it reports.
-/

namespace Catalyst.ChatUi

open Library Runs

inductive SnapshotStatus
  | loading | ready | error
  deriving DecidableEq

inductive ConnectionStatus
  | idle | connecting | connected | reconnecting | caughtUp | disconnected
  deriving DecidableEq

inductive ErrorClass
  | streamDisconnected | runFailed | runCancelled
  deriving DecidableEq

structure ControllerError where
  errorClass : ErrorClass
  message : String
  category : Option String := none
  code : Option String := none
  deriving DecidableEq

structure ActiveRunSummary where
  id : RunId
  conversationId : ConversationId
  status : AgentRunStatus
  startedAt : Time
  updatedAt : Time
  lastSequence : Nat
  deriving DecidableEq

structure ChatMessage where
  id : MessageId
  clientInstanceId : ClientInstanceId
  conversationId : ConversationId
  role : MessageRole
  text : String
  createdAt : Time
  metadata : Option Json
  deriving DecidableEq

abbrev CompletedRunProjections := Option (List (RunId × AgentRunProjection))

structure SnapshotRun where
  run : ActiveRunSummary
  projection : AgentRunProjection
  deriving DecidableEq

structure ConversationThreadSnapshot where
  conversationId : ConversationId
  messages : List ChatMessage
  completedRunProjections : CompletedRunProjections
  activeRun : Option SnapshotRun
  deriving DecidableEq

structure ActiveRun where
  run : ActiveRunSummary
  projection : AgentRunProjection
  lastAppliedSequence : Nat
  deriving DecidableEq

structure ConversationControllerState where
  snapshotStatus : SnapshotStatus
  connectionStatus : ConnectionStatus
  conversationId : Option ConversationId := none
  messages : List ChatMessage := []
  completedRunProjections : CompletedRunProjections := none
  activeRun : Option ActiveRun := none
  error : Option ControllerError := none
  deriving DecidableEq

def toActiveRunSummary (run : AgentRun) : ActiveRunSummary :=
  ⟨run.id, run.conversationId, run.status, run.startedAt, run.updatedAt, run.lastSequence⟩

/-- What the server reads for a thread: the row of the run in progress or of the latest run,
and then that run's observations. -/
structure ThreadRead where
  conversationId : ConversationId
  messages : List ChatMessage
  completedRunProjections : CompletedRunProjections
  activeRun : Option AgentRun
  latestRun : Option AgentRun
  /-- How many observations were stored when they were read. -/
  stored : Nat
  deriving DecidableEq

def ThreadRead.runForSnapshot (read : ThreadRead) : Option AgentRun :=
  read.activeRun <|> read.latestRun.filter fun run => run.status = .failed ∨ run.status = .cancelled

def getThreadSnapshot (read : ThreadRead) (listRunObservations : RunId → List RunObservation) :
    ConversationThreadSnapshot where
  conversationId := read.conversationId
  messages := read.messages
  completedRunProjections := read.completedRunProjections
  activeRun := read.runForSnapshot.map fun run =>
    ⟨toActiveRunSummary run, projectAgentRun run (listRunObservations run.id)⟩

def createInitialControllerState : ConversationControllerState where
  snapshotStatus := .ready
  connectionStatus := .idle

def controllerStateForConversation (state : ConversationControllerState) (conversationId : Option ConversationId) :
    ConversationControllerState :=
  if state.conversationId = none ∨ state.conversationId = conversationId then state
  else { createInitialControllerState with snapshotStatus := .loading }

def isLiveRunStatus : AgentRunStatus → Bool
  | .queued | .running | .waitingForPermission | .cancelling => true
  | .completed | .failed | .cancelled => false

def isUserVisibleTerminalRunStatus (status : AgentRunStatus) : Bool := status = .cancelled || status = .failed

def ActiveRun.isAheadOf (seen : ActiveRun) (snapshotRun : SnapshotRun) : Bool :=
  seen.run.id = snapshotRun.run.id &&
    (snapshotRun.projection.lastSequence < seen.lastAppliedSequence ||
      (!isLiveRunStatus seen.run.status && isLiveRunStatus snapshotRun.run.status))

def activeRunForSnapshot (snapshot : ConversationThreadSnapshot) (previousState : ConversationControllerState) :
    Option SnapshotRun :=
  match snapshot.activeRun with
  | some snapshotRun =>
    match previousState.activeRun with
    | some seen => if seen.isAheadOf snapshotRun then some ⟨seen.run, seen.projection⟩ else some snapshotRun
    | none => some snapshotRun
  | none =>
    (previousState.activeRun.filter fun seen =>
      seen.run.conversationId = snapshot.conversationId && isUserVisibleTerminalRunStatus seen.run.status).map
        fun seen => ⟨seen.run, seen.projection⟩

def isUserVisibleTerminalControllerError (error : ControllerError) : Bool :=
  error.errorClass = .runCancelled || error.errorClass = .runFailed

def preservedTerminalErrorForSnapshotRun (snapshotRun : Option SnapshotRun)
    (previousState : ConversationControllerState) : Option ControllerError :=
  match snapshotRun, previousState.activeRun with
  | some snapshotRun, some seen =>
    if seen.run.id = snapshotRun.run.id ∧ ¬ seen.lastAppliedSequence < snapshotRun.projection.lastSequence then
      previousState.error.filter isUserVisibleTerminalControllerError
    else none
  | _, _ => none

def terminalErrorFromSnapshot (snapshotRun : SnapshotRun) : Option ControllerError :=
  let error := snapshotRun.projection.error
  match snapshotRun.run.status with
  | .failed => some
    { errorClass := .runFailed
      message := (error.map (·.message)).getD "Run failed"
      category := error.map (·.category)
      code := error.map (·.code) }
  | .cancelled => some { errorClass := .runCancelled, message := "Run cancelled" }
  | _ => none

def createControllerStateFromSnapshot (snapshot : ConversationThreadSnapshot)
    (previousState : ConversationControllerState) : ConversationControllerState :=
  let snapshotRun := activeRunForSnapshot snapshot previousState
  { snapshotStatus := .ready
    connectionStatus :=
      match snapshotRun with
      | some active => if isLiveRunStatus active.run.status then .connecting else .caughtUp
      | none => .idle
    conversationId := some snapshot.conversationId
    messages := snapshot.messages
    completedRunProjections := snapshot.completedRunProjections
    activeRun := snapshotRun.map fun active => ⟨active.run, active.projection, active.projection.lastSequence⟩
    error := preservedTerminalErrorForSnapshotRun snapshotRun previousState <|>
      snapshotRun.bind terminalErrorFromSnapshot }

def applyObservationToRunSummary (run : ActiveRunSummary) (observation : RunObservation) : ActiveRunSummary :=
  { run with
    status := statusAfterEvent run.status observation.payload.body
    lastSequence := max run.lastSequence observation.sequence
    updatedAt := observation.createdAt }

def applyObservationToMessages (messages : List ChatMessage) (observation : RunObservation) : List ChatMessage :=
  match observation.payload.body with
  | .messageCompleted message =>
    let completed : ChatMessage :=
      { id := message.id
        clientInstanceId := observation.clientInstanceId
        conversationId := observation.conversationId
        role := .assistant
        text := message.text
        createdAt := observation.payload.createdAt
        metadata := message.metadata }
    if ∃ candidate ∈ messages, candidate.id = completed.id then
      messages.map fun candidate => if candidate.id = completed.id then completed else candidate
    else messages ++ [completed]
  | _ => messages

def terminalError (observation : RunObservation) : Option ControllerError :=
  match observation.payload.body with
  | .runFailed error => some
    { errorClass := .runFailed
      message := error.message
      category := some error.category
      code := some error.code }
  | .runCancelled reason => some { errorClass := .runCancelled, message := reason.getD "Run cancelled" }
  | _ => none

structure ApplyResult where
  state : ConversationControllerState
  applied : Bool
  refreshRequired : Bool
  deriving DecidableEq

def askForRefresh (state : ConversationControllerState) : ConversationControllerState :=
  { state with
    connectionStatus := .reconnecting
    error := some { errorClass := .streamDisconnected, message := "Run observation sequence gap detected" } }

def applyRunObservationToControllerState (state : ConversationControllerState) (observation : RunObservation) :
    ApplyResult :=
  match state.activeRun with
  | none => ⟨state, false, false⟩
  | some activeRun =>
    if activeRun.run.id ≠ observation.runId then ⟨state, false, false⟩
    else if observation.sequence ≤ activeRun.lastAppliedSequence then ⟨state, false, false⟩
    else if activeRun.lastAppliedSequence + 1 < observation.sequence then ⟨askForRefresh state, false, true⟩
    else
      let applied : ActiveRun :=
        { run := applyObservationToRunSummary activeRun.run observation
          projection := applyAgentRunObservation activeRun.projection observation
          lastAppliedSequence := observation.sequence }
      { state :=
          { state with
            connectionStatus := if isTerminalEvent observation.payload.body then .caughtUp else .connected
            messages := applyObservationToMessages state.messages observation
            activeRun := some applied
            error := terminalError observation <|> state.error }
        applied := true
        refreshRequired := false }

def completeRunObservationStreamInControllerState (state : ConversationControllerState)
    (sawObservation streamCaughtUp : Bool) : ConversationControllerState :=
  if streamCaughtUp || sawObservation then
    { state with
      connectionStatus := .caughtUp
      error := state.error.filter (·.errorClass ≠ .streamDisconnected) }
  else
    { state with
      connectionStatus := .disconnected
      error := some { errorClass := .streamDisconnected, message := "Run observation stream disconnected" } }

structure RunLogs where
  observations : RunId → List RunObservation
  numbered : ∀ runId, (observations runId).map (·.sequence) = List.range' 1 (observations runId).length
  of_run : ∀ runId, ∀ o ∈ observations runId, o.runId = runId

/-- What reaches the controller of a page. -/
inductive PageEvent
  | observation (observation : RunObservation)
  | thread (read : ThreadRead)
  | select (conversationId : Option ConversationId)
  | threadLoading
  | threadFailed (message : String)
  | disable
  | connect
  | completeStream (sawObservation streamCaughtUp : Bool)
  | failStream (message : String)
  deriving DecidableEq

def RunLogs.thread (logs : RunLogs) (read : ThreadRead) : ConversationThreadSnapshot :=
  getThreadSnapshot read fun runId => (logs.observations runId).take read.stored

/-- An observation that some run has stored, and a thread of any age. A run's row is read
before its observations, which are appended with it. -/
def RunLogs.Delivers (logs : RunLogs) : PageEvent → Prop
  | .observation o => o ∈ logs.observations o.runId
  | .thread read => ∀ run ∈ read.runForSnapshot,
    run.lastSequence ≤ read.stored ∧ read.stored ≤ (logs.observations run.id).length
  | _ => True

/-- `useConversationController` -/
def handle (logs : RunLogs) (state : ConversationControllerState) : PageEvent → ApplyResult
  | .observation o => applyRunObservationToControllerState state o
  | .thread read => ⟨createControllerStateFromSnapshot (logs.thread read) state, false, false⟩
  | .select conversationId => ⟨controllerStateForConversation state conversationId, false, false⟩
  | .threadLoading =>
    let snapshotStatus := if state.snapshotStatus = .ready then .ready else .loading
    ⟨{ state with snapshotStatus := snapshotStatus }, false, false⟩
  | .threadFailed message =>
    let error : ControllerError := { errorClass := .streamDisconnected, message }
    ⟨{ createInitialControllerState with snapshotStatus := .error, error := some error }, false, false⟩
  | .disable => ⟨createInitialControllerState, false, false⟩
  | .connect =>
    let connectionStatus := if state.connectionStatus = .disconnected then .reconnecting else .connecting
    ⟨{ state with connectionStatus := connectionStatus }, false, false⟩
  | .completeStream sawObservation streamCaughtUp =>
    ⟨completeRunObservationStreamInControllerState state sawObservation streamCaughtUp, false, false⟩
  | .failStream message =>
    let error : ControllerError := { errorClass := .streamDisconnected, message }
    ⟨{ state with connectionStatus := .disconnected, error := some error }, false, false⟩

/-- A page with what reaches it; the answer says what was applied and whether a thread is asked for. -/
def page (logs : RunLogs) : Machine ConversationControllerState PageEvent (Bool × Bool) where
  init state := state = createInitialControllerState
  enabled _ event := logs.Delivers event
  step state event :=
    let result := handle logs state event
    ((result.applied, result.refreshRequired), result.state)

end Catalyst.ChatUi
