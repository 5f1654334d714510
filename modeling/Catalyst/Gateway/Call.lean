import Catalyst.Gateway.Model
import Catalyst.Library.Transition

/-!
# A call as a machine

The gateway runs a call as a generator. It is suspended where it awaits the
admission, the adapter, a wait or the settlement, and where it hands an event to
its caller; the environment decides what happens there.
-/

namespace Catalyst.Gateway

open Catalyst.Library

structure Attempt where
  retrySafe : Bool := true
  answering : Bool := false
  preparingToolCallIds : List String := []
  deriving DecidableEq

/-- `SeenOfCall` -/
structure Seen where
  completion : Option ModelCompletion := none
  reportedUsage : Option ModelCallUsage := none
  received : InterruptedCallSize := {}
  deriving DecidableEq

inductive Ended
  | completed
  | failed (error : Thrown)
  | leftUnread
  deriving DecidableEq

inductive Outcome
  | ended (how : Ended)
  /-- The answer was handed on and could not be settled. -/
  | unrecorded
  deriving DecidableEq

structure ModelCallAdmission where
  providerId : String
  model : String
  bindingId : Option String
  fastMode : Bool
  inputCharacters : Nat
  deriving DecidableEq

inductive Phase
  /-- The caller has not asked for an event yet. -/
  | opened
  | admitting (admission : ModelCallAdmission)
  /-- The adapter's next event, or its completion, is awaited. -/
  | calling (attempt : Attempt)
  /-- At the `yield` of an event of a stream. -/
  | handing (attempt : Attempt)
  /-- At the `yield` of the completion of a call that is not streamed. -/
  | answered
  /-- At the `yield` of a cancelled preparation. -/
  | cancelling (left : List String) (failure : Thrown)
  | waiting (failure : Thrown)
  | settling (how : Ended)
  | done (outcome : Outcome)
  deriving DecidableEq

structure CallState where
  phase : Phase := .opened
  policy : ModelRetryPolicy := {}
  seen : Seen := {}
  /-- The caller's signal. -/
  aborted : Bool := false
  /-- The timer of the deadline has fired. -/
  expired : Bool := false
  deriving DecidableEq

structure Moment where
  now : Nat
  random : Nat := 0
  deriving DecidableEq

inductive CallMove
  /-- The caller aborts its signal. -/
  | stops
  | deadlinePasses
  | opens (now : Nat)
  | refused (error : Thrown)
  | admitted (now : Nat)
  | gives (event : AdapterEvent) (m : Moment)
  | ends (m : Moment)
  | answers (completion : ModelCompletion) (m : Moment)
  | fails (error : Thrown) (m : Moment)
  /-- The caller asks for the next event. -/
  | takes
  /-- The caller leaves the stream at a `yield`. -/
  | leaves
  | wakes (now : Nat)
  /-- The wait ends because the signal was aborted. -/
  | interrupted
  | settled (recorded : Bool)
  deriving DecidableEq

inductive Effect
  /-- The ledger admitted the call. -/
  | admitted (admission : ModelCallAdmission)
  /-- An attempt sends the request to the adapter. -/
  | send
  | deliver (event : CallEvent)
  | settle (usage : Option ModelCallUsage)
  deriving DecidableEq

section Machine

variable (options : ModelGatewayOptions) (call : ModelCall) (streaming : Bool)

def Seen.usage (seen : Seen) : Option ModelCallUsage :=
  (seen.completion.map ModelCompletion.usage).or (seen.reportedUsage.or
    (if 0 < seen.received.outputCharacters then some (estimateInterruptedCallUsage seen.received) else none))

/-- The `finally` of an admitted call. -/
def CallState.finish (s : CallState) (how : Ended) : List Effect × CallState :=
  ([.settle s.seen.usage], { s with phase := .settling how })

def CallState.start (s : CallState) (now : Nat) : List Effect × CallState :=
  match assertAttemptMayStart call.deadline s.aborted now with
  | .error e => s.finish (.failed e)
  | .ok () => ([.send], { s with phase := .calling {} })

def CallState.cancel (s : CallState) (failure : Thrown) : List String → List Effect × CallState
  | [] => ([], { s with phase := .waiting failure })
  | id :: left => ([.deliver (.toolCallPreparationCancelled id)], { s with phase := .cancelling left failure })

/-- The `catch` of an attempt. -/
def CallState.caught (s : CallState) (attempt : Attempt) (thrown : Thrown) (m : Moment) : List Effect × CallState :=
  if s.aborted then s.finish (.failed (stopOf call.stopReason thrown))
  else if s.expired then s.finish (.failed deadlinePassed)
  else
    let error := normalizeModelAdapterError thrown
    -- the provider counted an answer it then refused
    let s := { s with seen := { s.seen with reportedUsage := error.usage.or s.seen.reportedUsage } }
    match waitBeforeRetryMs s.policy call.deadline s.aborted error attempt.retrySafe m.now m.random with
    | .error failure => s.finish (.failed failure)
    | .ok (_, policy) =>
      { s with policy }.cancel (modelCallFailureFor error) attempt.preparingToolCallIds

/-- The provider read the request of the attempt once more to answer it. -/
def Seen.receive (seen : Seen) (answering : Bool) (event : AdapterEvent) : Seen :=
  match receivedWith event with
  | none => seen
  | some size => { seen with received :=
      { inputCharacters := seen.received.inputCharacters +
          (if answering then 0 else requestCharacters call estimatedCharacters)
        outputCharacters := seen.received.outputCharacters + size.characters
        webSearchCallCount := seen.received.webSearchCallCount + size.webSearchCalls } }

def Attempt.receive (attempt : Attempt) (event : AdapterEvent) : Attempt :=
  { attempt with answering := attempt.answering || (receivedWith event).isSome }

def CompletionEvent.closes : CompletionEvent → Bool
  | textDelta delta | reasoningDelta _ delta => !delta.isEmpty
  | toolCallPreparing .. => false
  | providerToolStarted .. | providerToolCompleted .. | completed _ => true

def CallState.hand (s : CallState) (attempt : Attempt) (event : CompletionEvent) : List Effect × CallState :=
  ([.deliver (.answer event)], { s with phase := .handing attempt })

/-- One round of the loop over the adapter's stream. -/
def CallState.read (s : CallState) (attempt : Attempt) (event : AdapterEvent) (m : Moment) :
    List Effect × CallState :=
  match event with
  | .usageReported usage => ([], { s with seen := { s.seen with reportedUsage := some usage } })
  | .toolCallInputDelta _ =>
    ([], { s with
      phase := .calling (attempt.receive event), seen := s.seen.receive call attempt.answering event })
  | .answer e =>
    let s := { s with seen := s.seen.receive call attempt.answering event }
    let attempt := attempt.receive event
    match e with
    | .toolCallPreparing id _ =>
      s.hand { attempt with preparingToolCallIds := attempt.preparingToolCallIds ++ [id] } e
    | .completed completion =>
      let attempt := { attempt with retrySafe := false }
      let s := { s with seen := { s.seen with completion := some completion } }
      match assertAnswersInFormat options call completion with
      | .error thrown => s.caught call attempt thrown m
      | .ok () => s.hand attempt e
    | e => s.hand { attempt with retrySafe := attempt.retrySafe && !e.closes } e

def streamEndedWithoutCompletion : Thrown :=
  .app ⟨.internal, "Model provider stream ended without a completion"⟩

def CallState.open (s : CallState) (now : Nat) : List Effect × CallState :=
  let refuse (e : Thrown) := { s with phase := .done (.ended (.failed e)) }
  match resolve options call.binding with
  | .error e => ([], refuse (.app e))
  | .ok target =>
    match assertWithinCapabilities call target streaming with
    | .error e => ([], refuse (.app e))
    | .ok () =>
      match assertAttemptMayStart call.deadline s.aborted now with
      | .error e => ([], refuse e)
      | .ok () =>
        let admission : ModelCallAdmission :=
          { providerId := target.provider.id, model := target.model, bindingId := target.bindingId
            fastMode := call.fastTier = some true, inputCharacters := requestCharacters call jsLength }
        ([], { s with phase := .admitting admission })

def callStep (s : CallState) (a : CallMove) : List Effect × CallState :=
  match s.phase, a with
  | _, .stops => ([], { s with aborted := true })
  | _, .deadlinePasses => ([], { s with expired := true })
  | .opened, .opens now => s.open options call streaming now
  | .opened, .leaves => ([], { s with phase := .done (.ended .leftUnread) })
  | .admitting _, .refused e => ([], { s with phase := .done (.ended (.failed e)) })
  | .admitting admission, .admitted now =>
    let (effects, s) := s.start call now
    (.admitted admission :: effects, s)
  | .calling attempt, .gives event m => s.read options call attempt event m
  | .calling attempt, .ends m =>
    match s.seen.completion with
    | none => s.caught call attempt streamEndedWithoutCompletion m
    | some _ => s.finish .completed
  | .calling attempt, .answers completion m =>
    let s := { s with seen := { s.seen with completion := some completion } }
    match assertAnswersInFormat options call completion with
    | .error thrown => s.caught call { attempt with retrySafe := false } thrown m
    | .ok () => ([.deliver (.answer (.completed completion))], { s with phase := .answered })
  | .calling attempt, .fails thrown m => s.caught call attempt thrown m
  | .handing attempt, .takes => ([], { s with phase := .calling attempt })
  | .answered, .takes => s.finish .completed
  | .cancelling left failure, .takes => s.cancel failure left
  | .handing _, .leaves | .answered, .leaves | .cancelling .., .leaves => s.finish .leftUnread
  | .waiting _, .wakes now => s.start call now
  | .waiting failure, .interrupted => s.finish (.failed failure)
  | .settling how, .settled recorded =>
    ([], { s with phase := .done (if !recorded && how = .completed then .unrecorded else .ended how) })
  | _, _ => ([], s)

def callEnabled (s : CallState) (a : CallMove) : Bool :=
  match a, s.phase with
  | .stops, _ => true
  | .deadlinePasses, .opened | .deadlinePasses, .admitting _ => false
  | .deadlinePasses, .settling _ | .deadlinePasses, .done _ => false
  | .deadlinePasses, _ => call.deadline.isSome
  | .opens _, .opened | .refused _, .admitting _ | .admitted _, .admitting _ => true
  | .gives .., .calling _ | .ends _, .calling _ => streaming
  | .answers .., .calling _ => !streaming
  | .fails .., .calling _ => true
  | .takes, .handing _ | .takes, .answered | .takes, .cancelling .. => true
  | .leaves, .opened | .leaves, .handing _ | .leaves, .answered | .leaves, .cancelling .. => true
  | .wakes _, .waiting _ => true
  | .interrupted, .waiting _ => s.aborted
  | .settled _, .settling _ => true
  | _, _ => false

def callMachine : Machine CallState CallMove (List Effect) where
  init s := s = {}
  enabled s a := callEnabled call streaming s a
  step s a := callStep options call streaming s a

end Machine

namespace Example

def vertex : ModelGatewayOptions where
  providers := [⟨"vertex", "model"⟩]
  bindings := []
  adapters _ := some fun _ => ⟨[], [], true, true, true, true, true, true⟩
  parsesAsJson _ := true

def question : ModelCall := { binding := .provider "vertex" none, messages := [.systemOrUser (.text "text")] }

def dropped : Thrown := .provider { kind := .network, message := "Model provider connection failed" }

instance : Decidable ((callMachine vertex question streaming).enabled s a) :=
  inferInstanceAs (Decidable (callEnabled question streaming s a = true))

end Example

end Catalyst.Gateway
