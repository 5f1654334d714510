import Catalyst.Runs.Worker

/-!
# A run of the local runtime

The turn loop calls the model and its tools and emits events. A call of `cancel`
stores what was streamed so far and then ends the run, while the turn loop goes
on from wherever it awaits. Both end the same `RunState`; the first one does.
-/

namespace Catalyst.Runs

open Library Jobs

structure RunState where
  status : AgentRunStatus
  sequence : Nat
  closed : Bool
  cancellationStarted : Bool
  messageCompleted : Bool
  streamedText : String
  reasoningById : List (String × String)
  events : List AgentRuntimeEvent
  /-- How many events the event write queue is through with. -/
  persisted : Nat
  persistenceFailed : Bool
  deriving DecidableEq

/-- What is thrown into `toRunFailureError`. -/
inductive RunThrown
  | app (error : AppError)
  | error (aborted : Bool)
  | unknown
  deriving DecidableEq

def toRunFailureError : RunThrown → AgentRunError
  | .app e =>
    if e.code = .internal then ⟨e.code.text, "Agent run failed", "internal_error"⟩
    else ⟨e.code.text, e.message, "app_error"⟩
  | .error aborted => ⟨AppErrorCode.internal.text, "Agent run failed", if aborted then "abort_error" else "internal_error"⟩
  | .unknown => ⟨AppErrorCode.internal.text, "Agent run failed", "unknown_error"⟩

def OBSERVATION_PERSISTENCE_FAILED : AgentRunError :=
  ⟨"OBSERVATION_PERSISTENCE_FAILED", "Agent run observation persistence failed", "internal_error"⟩

def textOf (field : String) (payload : Payload) : String := (payload.lookup field).getD ""

def addReasoning (id delta : String) : List (String × String) → List (String × String)
  | [] => [(id, delta)]
  | (key, text) :: rest => if key = id then (key, text ++ delta) :: rest else (key, text) :: addReasoning id delta rest

def summaries (reasoning : List (String × String)) : List (String × String) := reasoning.filter (·.2 ≠ "")

inductive AssistantMetadata
  | final (reasoning : List (String × String))
  | cancelled (reasoning : List (String × String)) (cancellationReason : Option String)
  | toolCalls (reasoning : List (String × String))
  deriving DecidableEq

structure AssistantMessage where
  id : MessageId
  text : String
  metadata : AssistantMetadata
  deriving DecidableEq

def messageCompletedBody (message : AssistantMessage) : EventBody :=
  .messageCompleted [("id", message.id), ("text", message.text)]

namespace RunState

def noted (s : RunState) : EventBody → RunState
  | .messageDelta payload => { s with streamedText := s.streamedText ++ textOf "delta" payload }
  | .reasoningDelta payload =>
    { s with reasoningById := addReasoning (textOf "id" payload) (textOf "delta" payload) s.reasoningById }
  | .messageCompleted payload => { s with messageCompleted := true, streamedText := textOf "text" payload }
  | _ => s

/-- `emitRuntimeEvent` -/
def emitRuntimeEvent (runId : RunId) (now : Time) (body : EventBody) (allowDuringCancellation : Bool) (s : RunState) :
    RunState :=
  if s.closed ∨ (s.cancellationStarted ∧ ¬ allowDuringCancellation) then s
  else
    { s.noted body with
      sequence := s.sequence + 1
      events := s.events ++ [⟨runId, s.sequence + 1, now, body⟩] }

def emit (runId : RunId) (now : Time) (body : EventBody) (s : RunState) : RunState :=
  s.emitRuntimeEvent runId now body false

def message (runId : RunId) (now : Time) (m : AssistantMessage) (s : RunState) : RunState :=
  (s.emit runId now (.messageDelta [("delta", m.text)])).emit runId now (messageCompletedBody m)

def close (s : RunState) : RunState := { s with closed := true }

def beginCancellation (s : RunState) : RunState × Option String :=
  if s.closed then (s, none)
  else
    ({ s with status := .cancelling, cancellationStarted := true },
      if ¬ s.messageCompleted ∧ s.streamedText ≠ "" then some s.streamedText else none)

def complete (runId : RunId) (now : Time) (s : RunState) : RunState :=
  if s.closed then s
  else ({ s with status := .completed }.emitRuntimeEvent runId now .runCompleted true).close

def fail (runId : RunId) (now : Time) (failure : AgentRunError) (s : RunState) : RunState :=
  if s.closed then s
  else ({ s with status := .failed }.emitRuntimeEvent runId now (.runFailed failure) true).close

def cancel (runId : RunId) (now : Time) (reason : Option String) (partialMessage : Option AssistantMessage)
    (s : RunState) : RunState :=
  if s.closed then s
  else
    let s := { s with cancellationStarted := true, status := .cancelled }
    let s := match partialMessage with
      | some m => if s.messageCompleted then s else s.emitRuntimeEvent runId now (messageCompletedBody m) true
      | none => s
    (s.emitRuntimeEvent runId now (.runCancelled reason) true).close

def eventWritten (runId : RunId) (now : Time) (ok : Bool) (s : RunState) : RunState :=
  let s := { s with persisted := s.persisted + 1 }
  if ok ∨ s.closed ∨ s.persistenceFailed then s
  else { s with persistenceFailed := true }.fail runId now OBSERVATION_PERSISTENCE_FAILED

def isCancellationRequested (s : RunState) : Bool := s.status = .cancelling ∨ s.status = .cancelled

end RunState

structure ToolCall where
  toolCallId : String
  toolName : String
  input : String
  deriving DecidableEq

structure ModelCompletion where
  text : String
  toolCalls : List ToolCall
  deriving DecidableEq

/-- What `streamModelCall` keeps of one call. -/
structure Streamed where
  text : String
  emittedDeltas : Bool
  reasoning : List (String × String)
  deriving DecidableEq

/-- Where the turn loop awaits. -/
inductive TurnPhase
  | preparing
  | calling (step : Nat) (streamed : Streamed) (completion : Option ModelCompletion)
  /-- Dropping a continuation the provider rejected and loading the history anew. -/
  | dropping (step : Nat)
  | answering (text : String) (streamed : Streamed)
  | storingAnswer (text : String) (streamed : Streamed)
  | callingTools (step : Nat) (completion : ModelCompletion) (streamed : Streamed)
  | storingToolCalls (step : Nat) (completion : ModelCompletion) (streamed : Streamed)
  | executing (step : Nat) (call : ToolCall) (rest : List ToolCall)
  | toolResult (step : Nat) (rest : List ToolCall)
  | storingToolResult (step : Nat) (rest : List ToolCall)
  | ended
  deriving DecidableEq

namespace TurnPhase

def called : TurnPhase → Option (Option ModelCompletion)
  | calling _ _ completion => some completion
  | _ => none

def isDropping : TurnPhase → Bool
  | dropping _ => true
  | _ => false

def isExecuting : TurnPhase → Bool
  | executing .. => true
  | _ => false

end TurnPhase

/-- Where a call of `cancel` awaits. -/
inductive CancelPhase
  | updating (reason : Option String) (partialText : Option String)
  | effect (reason : Option String) (partialText : String)
  | appending (reason : Option String) (partialText : String)
  | flushing
  | done
  | threw
  deriving DecidableEq

def CancelPhase.awaitsStore : CancelPhase → Bool
  | updating .. | effect .. | appending .. => true
  | _ => false

structure LocalRun where
  state : RunState
  turn : TurnPhase
  carriesEarlierContinuation : Bool
  /-- The abort controller of the run has fired. -/
  aborted : Bool
  /-- The assistant messages the run stored in its conversation. -/
  messages : List AssistantMessage
  cancels : List CancelPhase
  deriving DecidableEq

structure LocalConfig where
  runId : RunId
  maxSteps : Nat
  streaming : Bool
  /-- `completedWithoutTextFallback` of the run's locale. -/
  fallback : String
  deriving DecidableEq

inductive LocalAction
  | prepared (carriesEarlierContinuation : Bool)
  /-- An event of the model's stream. -/
  | streams (body : EventBody)
  | completes (completion : ModelCompletion)
  | callEnds
  | rejected
  | rebuilt
  /-- A call before an effect, or of the conversation, went well. -/
  | goes (id : MessageId)
  | toolEnds (succeeded : Bool) (payload : Payload)
  | needsApproval (payload : Payload)
  /-- What the turn loop awaits rejects. -/
  | throws (e : RunThrown)
  /-- The caller's signal aborts the run. -/
  | aborts
  | cancel (reason : Option String)
  /-- What a call of `cancel` awaits is there, or rejects. -/
  | cancelGoes (i : Nat) (id : MessageId)
  | cancelFails (i : Nat)
  | eventWritten (ok : Bool)
  deriving DecidableEq

structure LocalMove where
  now : Time
  action : LocalAction
  deriving DecidableEq

variable (cfg : LocalConfig) (now : Time)

def getUnstreamedCompletionText (completionText : String) (streamed : Streamed) : String :=
  if completionText = "" then ""
  else if ¬ streamed.emittedDeltas then completionText
  else if streamed.text.toList.isPrefixOf completionText.toList then
    String.ofList (completionText.toList.drop streamed.text.length)
  else ""

namespace LocalRun

def failed (s : LocalRun) (e : RunThrown) : LocalRun :=
  { s with state := s.state.fail cfg.runId now (toRunFailureError e), turn := .ended }

def startStep (s : LocalRun) (step : Nat) : LocalRun :=
  if step < cfg.maxSteps then { s with turn := .calling step ⟨"", false, []⟩ none }
  else
    s.failed cfg now (.app ⟨.conflict, "Agent exceeded the maximum step limit of " ++ toString cfg.maxSteps⟩)

def dispatchToolCalls (s : LocalRun) (step : Nat) : List ToolCall → LocalRun
  | [] => s.startStep cfg now (step + 1)
  | call :: rest =>
    if s.aborted then { s with turn := .ended }
    else
      { s with
        state := s.state.emit cfg.runId now
          (.toolCallStarted [("toolCallId", call.toolCallId), ("toolName", call.toolName), ("input", call.input)])
        turn := .executing step call rest }

/-- What the stream's event leaves in `streamModelCall`. An empty delta is dropped. -/
def streams (s : LocalRun) (step : Nat) (streamed : Streamed) (body : EventBody) : LocalRun :=
  let shown (streamed : Streamed) : LocalRun :=
    { s with state := s.state.emit cfg.runId now body, turn := .calling step streamed none }
  match body with
  | .messageDelta payload =>
    if textOf "delta" payload = "" then s
    else shown { streamed with text := streamed.text ++ textOf "delta" payload, emittedDeltas := true }
  | .reasoningDelta payload =>
    if textOf "delta" payload = "" then s
    else shown { streamed with
      reasoning := addReasoning (textOf "id" payload) (textOf "delta" payload) streamed.reasoning }
  | .toolCallPreparing _ | .toolCallPreparationCancelled _ | .toolCallStarted _ | .toolCallCompleted _ => shown streamed
  | _ => s

/-- The completion is there. Text that was not streamed is shown at once. -/
def completes (s : LocalRun) (step : Nat) (streamed : Streamed) (completion : ModelCompletion) : LocalRun :=
  let unstreamed := getUnstreamedCompletionText completion.text streamed
  if ¬ cfg.streaming ∨ unstreamed = "" then { s with turn := .calling step streamed (some completion) }
  else
    { s with
      state := s.state.emit cfg.runId now (.messageDelta [("delta", unstreamed)])
      turn := .calling step { streamed with emittedDeltas := true } (some completion) }

def callEnds (s : LocalRun) (step : Nat) (streamed : Streamed) : Option ModelCompletion → LocalRun
  | none => s.failed cfg now (.app ⟨.internal, "Model provider stream ended without a completion"⟩)
  | some completion =>
    let s := { s with carriesEarlierContinuation := false }
    match completion.toolCalls with
    | [] =>
      if s.aborted ∨ s.state.isCancellationRequested then { s with turn := .ended }
      else
        { s with turn := .answering (if completion.text = "" then cfg.fallback else completion.text) streamed }
    | _ => { s with turn := .callingTools step completion streamed }

/-- A call before an effect, or of the conversation, went well. -/
def goes (s : LocalRun) (id : MessageId) : LocalRun :=
  match s.turn with
  | .answering text streamed => { s with turn := .storingAnswer text streamed }
  | .storingAnswer text streamed =>
    let persisted : AssistantMessage := ⟨id, text, .final (summaries streamed.reasoning)⟩
    let state :=
      if streamed.emittedDeltas then s.state.emit cfg.runId now (messageCompletedBody persisted)
      else s.state.message cfg.runId now persisted
    { s with
      messages := s.messages ++ [persisted], state := state.complete cfg.runId now, turn := .ended }
  | .callingTools step completion streamed => { s with turn := .storingToolCalls step completion streamed }
  | .storingToolCalls step completion streamed =>
    let persisted : AssistantMessage := ⟨id, completion.text, .toolCalls (summaries streamed.reasoning)⟩
    { s with messages := s.messages ++ [persisted] }.dispatchToolCalls cfg now step completion.toolCalls
  | .toolResult step rest => { s with turn := .storingToolResult step rest }
  | .storingToolResult step rest => s.dispatchToolCalls cfg now step rest
  | _ => s

def toolEnds (s : LocalRun) (step : Nat) (rest : List ToolCall) (succeeded : Bool) (payload : Payload) : LocalRun :=
  let body := if succeeded then EventBody.toolCallCompleted payload else .toolCallFailed payload
  let s := { s with state := s.state.emit cfg.runId now body }
  if s.state.isCancellationRequested then { s with turn := .ended } else { s with turn := .toolResult step rest }

/-- The call of `cancel`, up to its first `await`. -/
def cancel (s : LocalRun) (reason : Option String) : LocalRun :=
  let (state, partialText) := s.state.beginCancellation
  { s with state, aborted := true, cancels := s.cancels ++ [.updating reason partialText] }

/-- What a call of `cancel` does when what it awaits is there. -/
def cancelGoes (s : LocalRun) (i : Nat) (id : MessageId) : CancelPhase → LocalRun
  | .updating reason none =>
    { s with state := s.state.cancel cfg.runId now reason none, cancels := s.cancels.set i .flushing }
  | .updating reason (some text) => { s with cancels := s.cancels.set i (.effect reason text) }
  | .effect reason text => { s with cancels := s.cancels.set i (.appending reason text) }
  | .appending reason text =>
    let message : AssistantMessage := ⟨id, text, .cancelled (summaries s.state.reasoningById) reason⟩
    { s with
      messages := s.messages ++ [message]
      state := s.state.cancel cfg.runId now reason (some message)
      cancels := s.cancels.set i .flushing }
  | .flushing => { s with cancels := s.cancels.set i .done }
  | .done | .threw => s

def Enabled (s : LocalRun) : LocalAction → Prop
  | .prepared _ => s.turn = .preparing
  | .streams _ | .completes _ => s.turn.called = some none
  | .callEnds => s.turn.called.isSome
  | .rejected => s.turn.called.isSome ∧ s.carriesEarlierContinuation
  | .rebuilt => s.turn.isDropping
  | .goes _ | .aborts | .cancel _ => True
  | .toolEnds .. | .needsApproval _ => s.turn.isExecuting
  | .throws _ => s.turn ≠ .ended
  | .cancelGoes i _ => s.cancels[i]? = some .flushing → s.state.persisted = s.state.events.length
  | .cancelFails i => s.cancels[i]?.any CancelPhase.awaitsStore
  | .eventWritten _ => s.state.persisted < s.state.events.length

instance (s : LocalRun) : DecidablePred s.Enabled
  | .prepared _ => inferInstanceAs (Decidable (s.turn = .preparing))
  | .streams _ | .completes _ => inferInstanceAs (Decidable (s.turn.called = some none))
  | .callEnds => inferInstanceAs (Decidable (s.turn.called.isSome = true))
  | .rejected => inferInstanceAs (Decidable (s.turn.called.isSome = true ∧ s.carriesEarlierContinuation = true))
  | .rebuilt => inferInstanceAs (Decidable (s.turn.isDropping = true))
  | .goes _ | .aborts | .cancel _ => .isTrue trivial
  | .toolEnds .. | .needsApproval _ => inferInstanceAs (Decidable (s.turn.isExecuting = true))
  | .throws _ => inferInstanceAs (Decidable (s.turn ≠ .ended))
  | .cancelGoes i _ =>
    inferInstanceAs (Decidable (s.cancels[i]? = some .flushing → s.state.persisted = s.state.events.length))
  | .cancelFails i => inferInstanceAs (Decidable (s.cancels[i]?.any CancelPhase.awaitsStore = true))
  | .eventWritten _ => inferInstanceAs (Decidable (s.state.persisted < s.state.events.length))

def step (s : LocalRun) : LocalAction → LocalRun
  | .prepared carries => { s with carriesEarlierContinuation := carries }.startStep cfg now 0
  | .streams body =>
    match s.turn with
    | .calling step streamed none => s.streams cfg now step streamed body
    | _ => s
  | .completes completion =>
    match s.turn with
    | .calling step streamed none => s.completes cfg now step streamed completion
    | _ => s
  | .callEnds =>
    match s.turn with
    | .calling step streamed completion => s.callEnds cfg now step streamed completion
    | _ => s
  | .rejected =>
    match s.turn with
    | .calling step _ _ => { s with carriesEarlierContinuation := false, turn := .dropping step }
    | _ => s
  | .rebuilt =>
    match s.turn with
    | .dropping step => { s with turn := .calling step ⟨"", false, []⟩ none }
    | _ => s
  | .goes id => s.goes cfg now id
  | .toolEnds succeeded payload =>
    match s.turn with
    | .executing step _ rest => s.toolEnds cfg now step rest succeeded payload
    | _ => s
  | .needsApproval payload =>
    { s with state := s.state.emit cfg.runId now (.toolPermissionRequested payload) }.failed cfg now
      (.app ⟨.conflict, "Tool approval is required, but this v1 request path does not resume paused runs"⟩)
  | .throws e => s.failed cfg now e
  | .aborts => { s with aborted := true }
  | .cancel reason => s.cancel reason
  | .cancelGoes i id =>
    match s.cancels[i]? with
    | some phase => s.cancelGoes cfg now i id phase
    | none => s
  | .cancelFails i => { s with cancels := s.cancels.set i .threw }
  | .eventWritten ok => { s with state := s.state.eventWritten cfg.runId now ok }

end LocalRun

def localRun : Machine LocalRun LocalMove Unit where
  init s := s = ⟨⟨.running, 0, false, false, false, "", [], [], 0, false⟩, .preparing, false, false, [], []⟩
  enabled s move := s.Enabled move.action
  step s move := ((), s.step cfg move.now move.action)

instance (s : LocalRun) : DecidablePred ((localRun cfg).enabled s) :=
  fun move => inferInstanceAs (Decidable (s.Enabled move.action))

end Catalyst.Runs
