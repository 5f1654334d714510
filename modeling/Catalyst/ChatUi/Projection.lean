import Catalyst.Runs.Model

/-!
# The projection of a run

What a page shows of a run is a fold over the run's observations: text, reasoning, tool
calls and how the run stands. The server folds what it has read, and the page goes on from
there with what is delivered. A JSON value is kept by its text.
-/

namespace Catalyst.ChatUi

open Library Runs

abbrev Json := String

/-- Replaces the first element that `p` finds, or adds one at the end. -/
def putFirst (p : α → Bool) (x : α) : List α → List α
  | [] => [x]
  | y :: l => if p y then x :: l else y :: putFirst p x l

structure ToolExecutionError where
  code : String
  message : String
  details : Option Json
  deriving DecidableEq

inductive ToolExecutionResult
  | success (output display structuredResult artifacts : Option Json)
  | failure (status : String) (error : ToolExecutionError)
  deriving DecidableEq

structure AssistantMessage where
  id : MessageId
  text : String
  metadata : Option Json
  deriving DecidableEq

/-- What an event carries that a page reads. -/
inductive EventBody
  | messageDelta (delta : String)
  | reasoningDelta (id : String) (delta : String)
  | messageCompleted (message : AssistantMessage)
  | toolCallPreparing (toolCallId toolName : String)
  | toolCallPreparationCancelled (toolCallId : String)
  | toolCallStarted (toolCallId toolName : String) (input : Json)
  | toolPermissionRequested (toolCallId toolName : String)
  | toolCallCompleted (toolCallId toolName : String) (result : ToolExecutionResult) (projectionNotice : Option Json)
  | toolCallFailed (toolCallId toolName : String) (result : ToolExecutionResult)
  | runCompleted
  | runCancelled (reason : Option String)
  | runFailed (error : AgentRunError)
  deriving DecidableEq

structure AgentRuntimeEvent where
  createdAt : Time
  body : EventBody
  deriving DecidableEq

structure RunObservation where
  clientInstanceId : ClientInstanceId
  runId : RunId
  conversationId : ConversationId
  sequence : Nat
  payload : AgentRuntimeEvent
  createdAt : Time
  deriving DecidableEq

def isTerminalEvent : EventBody → Bool
  | .runCompleted | .runCancelled _ | .runFailed _ => true
  | _ => false

def statusAfterEvent (currentStatus : AgentRunStatus) : EventBody → AgentRunStatus
  | .runCompleted => .completed
  | .runCancelled _ => .cancelled
  | .runFailed _ => .failed
  | _ => currentStatus

structure ReasoningEntry where
  id : String
  text : String
  isOpen : Bool
  deriving DecidableEq

inductive ToolCallState
  | inputAvailable | waitingForPermission | outputAvailable | outputError
  deriving DecidableEq

inductive ToolOutput
  | success (output display structuredResult artifacts projectionNotice : Option Json)
  | failure (status : String) (error : ToolExecutionError) (projectionNotice : Option Json)
  deriving DecidableEq

structure ToolCall where
  toolCallId : String
  toolName : String
  input : Option Json
  state : ToolCallState
  output : Option ToolOutput := none
  errorText : Option String := none
  deriving DecidableEq

inductive AgentRunProjectionPart
  | text (text : String)
  | reasoning (entry : ReasoningEntry)
  | toolCall (toolCall : ToolCall)
  deriving DecidableEq

structure PreparingTool where
  toolCallId : String
  toolName : String
  deriving DecidableEq

structure AgentRunProjection where
  runId : RunId
  lastSequence : Nat
  status : AgentRunStatus
  durationMs : Option Nat
  parts : List AgentRunProjectionPart
  text : String
  reasoning : List ReasoningEntry
  preparingTool : Option PreparingTool
  activeToolCalls : List ToolCall
  error : Option AgentRunError
  deriving DecidableEq

def createAgentRunProjection (run : AgentRun) : AgentRunProjection where
  runId := run.id
  lastSequence := run.lastSequence
  status := run.status
  durationMs := (run.completedAt <|> run.cancelledAt <|> run.failedAt).map (· - run.startedAt)
  parts := []
  text := ""
  reasoning := []
  preparingTool := none
  activeToolCalls := []
  error := run.error

def cloneParts (projection : AgentRunProjection) : List AgentRunProjectionPart :=
  if projection.parts ≠ [] then projection.parts
  else
    let parts := projection.reasoning.map .reasoning ++ projection.activeToolCalls.map .toolCall
    if projection.text ≠ "" ∨ parts = [] then parts ++ [.text projection.text] else parts

def appendText (parts : List AgentRunProjectionPart) (delta : String) : List AgentRunProjectionPart :=
  if delta = "" then parts
  else
    match parts.getLast? with
    | some (.text text) => parts.dropLast ++ [.text (text ++ delta)]
    | _ => parts ++ [.text delta]

def observedText (parts : List AgentRunProjectionPart) : String :=
  "".intercalate (parts.filterMap fun | .text text => some text | _ => none)

def reconcileCompletedText (parts : List AgentRunProjectionPart) (completedText : String) :
    List AgentRunProjectionPart :=
  let observed := (observedText parts).toList
  let completed := completedText.toList
  if observed = [] then
    if completed ≠ [] ∨ parts = [] then parts ++ [.text completedText] else parts
  else if completed = observed ∨ (completed ≠ [] ∧ completed <:+ observed) then parts
  else if observed <+: completed then appendText parts (String.ofList (completed.drop observed.length))
  else if completed ≠ [] then appendText parts completedText
  else parts

/-- A part of the same call, or the same reasoning; text is never replaced. -/
def AgentRunProjectionPart.same (part : AgentRunProjectionPart) : AgentRunProjectionPart → Bool
  | .toolCall candidate => match part with
    | .toolCall call => candidate.toolCallId == call.toolCallId
    | _ => false
  | .reasoning candidate => match part with
    | .reasoning entry => candidate.id == entry.id
    | _ => false
  | .text _ => false

def upsertPart (parts : List AgentRunProjectionPart) (part : AgentRunProjectionPart) : List AgentRunProjectionPart :=
  putFirst part.same part parts

def upsertToolCall (projection : AgentRunProjection) (toolCall : ToolCall) : AgentRunProjection :=
  { projection with
    activeToolCalls := putFirst (·.toolCallId == toolCall.toolCallId) toolCall projection.activeToolCalls
    parts := upsertPart projection.parts (.toolCall toolCall) }

def findToolCallInput (projection : AgentRunProjection) (toolCallId : String) : Option Json :=
  (projection.activeToolCalls.find? (·.toolCallId = toolCallId)).bind (·.input)

def toToolOutput (result : ToolExecutionResult) (projectionNotice : Option Json) : ToolOutput :=
  match result with
  | .success output display structuredResult artifacts =>
    .success output display structuredResult artifacts projectionNotice
  | .failure status error => .failure status error projectionNotice

def toToolError : ToolExecutionResult → String
  | .success .. => "Tool call failed"
  | .failure _ error => error.message

def appendReasoning (projection : AgentRunProjection) (id delta : String) : AgentRunProjection :=
  let found := (projection.reasoning.find? (·.id = id)).getD ⟨id, "", true⟩
  let entry := { found with text := found.text ++ delta, isOpen := true }
  { projection with
    reasoning := putFirst (·.id == id) entry projection.reasoning
    parts := upsertPart projection.parts (.reasoning entry) }

def AgentRunProjectionPart.close : AgentRunProjectionPart → AgentRunProjectionPart
  | .reasoning entry => .reasoning { entry with isOpen := false }
  | part => part

def forgetPreparing (preparingTool : Option PreparingTool) (toolCallId : String) : Option PreparingTool :=
  preparingTool.filter (·.toolCallId ≠ toolCallId)

/-- What an event changes of the content. -/
def applyEvent (projection : AgentRunProjection) : EventBody → AgentRunProjection
  | .messageDelta delta =>
    { projection with text := projection.text ++ delta, parts := appendText projection.parts delta }
  | .messageCompleted message =>
    { projection with text := message.text, parts := reconcileCompletedText projection.parts message.text }
  | .reasoningDelta id delta => appendReasoning projection id delta
  | .toolCallPreparing toolCallId toolName => { projection with preparingTool := some ⟨toolCallId, toolName⟩ }
  | .toolCallPreparationCancelled toolCallId =>
    { projection with preparingTool := forgetPreparing projection.preparingTool toolCallId }
  | .toolCallStarted toolCallId toolName input =>
    upsertToolCall { projection with preparingTool := forgetPreparing projection.preparingTool toolCallId }
      { toolCallId, toolName, input := some input, state := .inputAvailable }
  | .toolPermissionRequested toolCallId toolName =>
    let input := findToolCallInput projection toolCallId
    upsertToolCall projection { toolCallId, toolName, input, state := .waitingForPermission }
  | .toolCallCompleted toolCallId toolName result projectionNotice =>
    let input := findToolCallInput projection toolCallId
    let output := some (toToolOutput result projectionNotice)
    upsertToolCall projection { toolCallId, toolName, input, state := .outputAvailable, output }
  | .toolCallFailed toolCallId toolName result =>
    let input := findToolCallInput projection toolCallId
    let errorText := some (toToolError result)
    upsertToolCall projection { toolCallId, toolName, input, state := .outputError, errorText }
  | .runFailed error => { projection with error := some error }
  | .runCompleted | .runCancelled _ => projection

def closeAll (projection : AgentRunProjection) : AgentRunProjection :=
  { projection with
    preparingTool := none
    reasoning := projection.reasoning.map ({ · with isOpen := false })
    parts := projection.parts.map .close }

def applyAgentRunObservation (projection : AgentRunProjection) (observation : RunObservation) : AgentRunProjection :=
  let event := observation.payload.body
  let applied := applyEvent { projection with parts := cloneParts projection } event
  let closed := if isTerminalEvent event then closeAll applied else applied
  { closed with
    lastSequence := max projection.lastSequence observation.sequence
    status := statusAfterEvent projection.status event }

def projectAgentRun (run : AgentRun) (observations : List RunObservation) : AgentRunProjection :=
  observations.foldl applyAgentRunObservation (createAgentRunProjection run)

theorem projectAgentRun_append (run : AgentRun) (observations : List RunObservation) (observation : RunObservation) :
    projectAgentRun run (observations ++ [observation]) =
      applyAgentRunObservation (projectAgentRun run observations) observation := by
  rw [projectAgentRun, List.foldl_append]
  rfl

end Catalyst.ChatUi
