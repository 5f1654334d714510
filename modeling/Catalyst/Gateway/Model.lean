import Catalyst.Core
import Mathlib.Data.List.Basic
import Mathlib.Algebra.Order.Ring.Nat

/-!
# Model calls

What a call carries and what an adapter gives back, the checks before a call is
admitted, how a failure is read, when a failed attempt is sent again, and what a
call that was cut off is taken to have used.

A JSON value is given by its text.
-/

namespace Catalyst.Gateway

inductive UsageSource
  | providerReported | notReported | estimated
  deriving DecidableEq

structure ModelCallUsage where
  inputTokens : Nat
  cachedInputTokens : Nat
  outputTokens : Nat
  totalTokens : Nat
  source : UsageSource
  webSearchCallCount : Nat
  providerServiceTier : Option String := none
  deriving DecidableEq

structure ModelToolCall where
  toolCallId : String
  toolName : String
  input : Option String
  deriving DecidableEq

structure ModelCompletion where
  text : String
  toolCalls : List ModelToolCall
  usage : ModelCallUsage
  deriving DecidableEq

/-- `ModelCompletionStreamEvent` -/
inductive CompletionEvent
  | textDelta (delta : String)
  | reasoningDelta (id delta : String)
  | toolCallPreparing (toolCallId toolName : String)
  | providerToolStarted (toolCallId toolName : String) (input : Option String)
  | providerToolCompleted (toolCallId toolName : String) (output : Option String)
  | completed (completion : ModelCompletion)
  deriving DecidableEq

/-- `ModelAdapterStreamEvent`: the last two are for the gateway alone. -/
inductive AdapterEvent
  | answer (event : CompletionEvent)
  | usageReported (usage : ModelCallUsage)
  | toolCallInputDelta (delta : String)
  deriving DecidableEq

/-- `ModelCallStreamEvent` -/
inductive CallEvent
  | answer (event : CompletionEvent)
  | toolCallPreparationCancelled (toolCallId : String)
  deriving DecidableEq

inductive ModelContentPart
  | text (text : String)
  | image
  | document
  deriving DecidableEq

inductive ModelContent
  | text (text : String)
  | parts (parts : List ModelContentPart)
  deriving DecidableEq

inductive ModelMessage
  | systemOrUser (content : ModelContent)
  | assistant (content : ModelContent) (toolCalls : List ModelToolCall)
  | tool (content : ModelContent)
  deriving DecidableEq

def ModelMessage.content : ModelMessage → ModelContent
  | systemOrUser content | assistant content _ | tool content => content

inductive ModelTool
  | function (name description : String) (inputJsonSchema : Option String)
  | provider (name : String)
  deriving DecidableEq

def ModelTool.name : ModelTool → String
  | function name _ _ | provider name => name

inductive ModelBindingRef
  | binding (bindingId : String)
  | provider (providerId : String) (model : Option String)
  deriving DecidableEq

structure ModelBindingConfig where
  id : String
  providerId : String
  model : Option String
  deriving DecidableEq

structure ModelProviderConfig where
  id : String
  model : String
  deriving DecidableEq

structure ModelCapabilities where
  reasoningEfforts : List String
  nativeTools : List String
  toolCalls : Bool
  continuation : Bool
  fastTier : Bool
  documentInput : Bool
  structuredOutput : Bool
  streaming : Bool
  deriving DecidableEq

inductive ModelProviderErrorKind
  | rateLimit | serverError | timeout | network | contextLengthExceeded | continuationRejected
  | invalidRequest | invalidResponse
  deriving DecidableEq

/-- `RETRYABLE_KINDS` -/
def ModelProviderErrorKind.isRetryable : ModelProviderErrorKind → Bool
  | rateLimit | serverError | timeout | network => true
  | _ => false

structure ModelProviderError where
  kind : ModelProviderErrorKind
  message : String
  retryable : Bool := kind.isRetryable
  retryAfterMs : Option Nat := none
  usage : Option ModelCallUsage := none
  deriving DecidableEq

/-- Anything an adapter may throw. An untyped error is its codes along the chain of causes. -/
inductive Thrown
  | provider (error : ModelProviderError)
  | app (error : AppError)
  | abort
  | untyped (codes : List (Option String))
  deriving DecidableEq

def connectionErrorCodes : List String :=
  ["ECONNRESET", "ECONNREFUSED", "EPIPE", "ETIMEDOUT", "UND_ERR_SOCKET"]

def hasConnectionErrorCode (codes : List (Option String)) : Bool :=
  (codes.take 4).any fun code => code.any (· ∈ connectionErrorCodes)

def normalizeModelAdapterError : Thrown → Thrown
  | .provider e => .provider e
  | .app e => if e.code = .timeout then .provider { kind := .timeout, message := e.message } else .app e
  | .abort => .abort
  | .untyped codes =>
    if hasConnectionErrorCode codes then
      .provider { kind := .network, message := "Model provider connection failed" }
    else .untyped codes

def Thrown.usage : Thrown → Option ModelCallUsage
  | provider e => e.usage
  | _ => none

/-- What a call fails with: for a rate limit an error whose message the user may read. -/
def modelCallFailureFor : Thrown → Thrown
  | .provider e =>
    if e.kind = .rateLimit then
      .app ⟨.rateLimited, "The model is receiving too many requests. Try again in a minute."⟩
    else .provider e
  | t => t

def stopOf (reason : Option Thrown) : Thrown → Thrown
  | .provider _ => reason.getD .abort
  | t => t

def deadlinePassed : Thrown := .app ⟨.timeout, "The model call did not finish before its deadline"⟩

/-- One call to a model, with the reason its caller may stop it with. -/
structure ModelCall where
  binding : ModelBindingRef
  messages : List ModelMessage
  tools : List ModelTool := []
  output : Option String := none
  reasoningEffort : Option String := none
  fastTier : Option Bool := none
  continuation : Option String := none
  deadline : Option Nat := none
  stopReason : Option Thrown := none
  deriving DecidableEq

structure ModelGatewayOptions where
  providers : List ModelProviderConfig
  bindings : List ModelBindingConfig
  adapters : String → Option (String → ModelCapabilities)
  /-- Whether `JSON.parse` takes the text. -/
  parsesAsJson : String → Bool

def utf16Length (c : Char) : Nat := if c.val ≤ 0xffff then 1 else 2

def jsLength (text : String) : Nat := (text.toList.map utf16Length).sum

/-- `ESTIMATED_CHARACTERS_PER_TOKEN` -/
def estimatedCharactersPerToken : Nat := 3

def estimatedCharacters (text : String) : Nat :=
  let others := ((text.toList.filter fun c => 0x7f < c.val).map utf16Length).sum
  jsLength text + others * (estimatedCharactersPerToken - 1)

/-- `MAX_ESTIMATED_TOKENS_PER_CALL` -/
def maxEstimatedTokensPerCall : Nat := 10000000

/-- `MAX_ESTIMATED_WEB_SEARCHES_PER_CALL` -/
def maxEstimatedWebSearchesPerCall : Nat := 1000

structure InterruptedCallSize where
  inputCharacters : Nat := 0
  outputCharacters : Nat := 0
  webSearchCallCount : Nat := 0
  deriving DecidableEq

def estimateInterruptedCallUsage (received : InterruptedCallSize) : ModelCallUsage :=
  let tokens characters :=
    min maxEstimatedTokensPerCall ((characters + (estimatedCharactersPerToken - 1)) / estimatedCharactersPerToken)
  let inputTokens := tokens received.inputCharacters
  let outputTokens := max 1 (tokens received.outputCharacters)
  { inputTokens, cachedInputTokens := 0, outputTokens, totalTokens := inputTokens + outputTokens,
    source := .estimated,
    webSearchCallCount := min maxEstimatedWebSearchesPerCall received.webSearchCallCount }

structure ReceivedSize where
  characters : Nat
  webSearchCalls : Nat := 0
  deriving DecidableEq

def webSearchModelToolName : String := "web_search"

def jsonSize (value : Option String) : Nat := (value.map estimatedCharacters).getD 0

/-- What one event shows the provider to have produced. Nothing for an empty delta. -/
def receivedWith : AdapterEvent → Option ReceivedSize
  | .answer (.textDelta delta) | .answer (.reasoningDelta _ delta) | .toolCallInputDelta delta =>
    if delta.isEmpty then none else some ⟨estimatedCharacters delta, 0⟩
  | .answer (.toolCallPreparing _ toolName) => some ⟨jsLength toolName, 0⟩
  | .answer (.providerToolStarted _ toolName input) =>
    some ⟨jsLength toolName + jsonSize input, if toolName = webSearchModelToolName then 1 else 0⟩
  | .answer (.providerToolCompleted _ toolName output) => some ⟨jsLength toolName + jsonSize output, 0⟩
  | .answer (.completed _) | .usageReported _ => none

def requestCharacters (call : ModelCall) (sizeOf : String → Nat) : Nat :=
  let part : ModelContentPart → Nat
    | .text text => sizeOf text
    | .image | .document => 0
  let content : ModelContent → Nat
    | .text text => sizeOf text
    | .parts parts => (parts.map part).sum
  let toolCall (t : ModelToolCall) := sizeOf t.toolName + sizeOf (t.input.getD "null")
  let message : ModelMessage → Nat
    | .assistant c toolCalls => content c + (toolCalls.map toolCall).sum
    | m => content m.content
  let tool : ModelTool → Nat
    | .function name description schema => sizeOf name + (sizeOf description + sizeOf (schema.getD "\x7b\x7d"))
    | .provider name => sizeOf name
  (call.messages.map message).sum + (call.tools.map tool).sum + (call.output.map sizeOf).getD 0

structure ResolvedModelTarget where
  provider : ModelProviderConfig
  capabilities : String → ModelCapabilities
  model : String
  bindingId : Option String

def resolve (options : ModelGatewayOptions) (ref : ModelBindingRef) : Except AppError ResolvedModelTarget := do
  let (providerId, model, bindingId) ← match ref with
    | .binding bindingId =>
      match options.bindings.find? (·.id = bindingId) with
      | none => .error ⟨.notFound, "Model binding '" ++ bindingId ++ "' is not defined"⟩
      | some binding => .ok (binding.providerId, binding.model, some bindingId)
    | .provider providerId model => .ok (providerId, model, none)
  match options.providers.find? (·.id = providerId), options.adapters providerId with
  | some provider, some capabilities =>
    .ok ⟨provider, capabilities, model.getD provider.model, bindingId⟩
  | _, _ => .error ⟨.notFound, "Model provider '" ++ providerId ++ "' is not defined"⟩

def ModelTool.isFunction : ModelTool → Bool
  | function .. => true
  | provider _ => false

def carriesToolUse (call : ModelCall) : Bool :=
  call.messages.any fun
    | .tool _ => true
    | .assistant _ toolCalls => !toolCalls.isEmpty
    | .systemOrUser _ => false

def carriesDocument (message : ModelMessage) : Bool :=
  match message.content with
  | .text _ => false
  | .parts parts => parts.any (· = .document)

def missingCapabilities (call : ModelCall) (c : ModelCapabilities) (streaming : Bool) : List String :=
  (if streaming && !c.streaming then ["streaming"] else []) ++
    (match call.reasoningEffort with
      | some effort => if effort ∈ c.reasoningEfforts then [] else ["reasoning effort '" ++ effort ++ "'"]
      | none => []) ++
    (call.tools.filter fun t => !t.isFunction && t.name ∉ c.nativeTools).map
      (fun t => "native tool '" ++ t.name ++ "'") ++
    (if !c.toolCalls && (call.tools.any (·.isFunction) || carriesToolUse call) then ["tool calls"] else []) ++
    (if call.continuation.isSome && !c.continuation then ["continuation"] else []) ++
    (if call.fastTier = some true && !c.fastTier then ["fast tier"] else []) ++
    (if call.output.isSome && !c.structuredOutput then ["structured output"] else []) ++
    (if !c.documentInput && call.messages.any carriesDocument then ["document input"] else [])

def assertWithinCapabilities (call : ModelCall) (target : ResolvedModelTarget) (streaming : Bool) :
    Except AppError Unit :=
  match missingCapabilities call (target.capabilities target.model) streaming with
  | [] => .ok ()
  | missing => .error ⟨.validationFailed, "Model '" ++ target.model ++ "' of provider '" ++
      target.provider.id ++ "' does not support: " ++ ", ".intercalate missing⟩

def assertAnswersInFormat (options : ModelGatewayOptions) (call : ModelCall) (completion : ModelCompletion) :
    Except Thrown Unit :=
  if call.output.isNone || !completion.toolCalls.isEmpty || options.parsesAsJson completion.text then .ok ()
  else .error (.provider { kind := .invalidResponse, message := "Model answer is not valid JSON" })

/-- `MODEL_PROVIDER_RETRY_WAITS_MS` -/
def modelProviderRetryWaitsMs : List Nat := [1000, 4000]

/-- `MODEL_PROVIDER_RATE_LIMIT_WAIT_TOTAL_MS` -/
def modelProviderRateLimitWaitTotalMs : Nat := 60000

/-- `MODEL_PROVIDER_RATE_LIMIT_FIRST_WAIT_MS` -/
def modelProviderRateLimitFirstWaitMs : Nat := 4000

/-- `MODEL_PROVIDER_RETRY_AFTER_MAX_MS` -/
def modelProviderRetryAfterMaxMs : Nat := 60000

structure ModelRetryPolicy where
  transientFailures : Nat := 0
  rateLimitFailures : Nat := 0
  rateLimitWaitLeftMs : Nat := modelProviderRateLimitWaitTotalMs
  deriving DecidableEq

/-- `random` is what `Math.random` gave, in parts of `2 ^ 53`. A fifth in both directions. -/
def withRetryJitter (waitMs random : Nat) : Nat :=
  (waitMs * (8 * 2 ^ 53 + 4 * random) + 5 * 2 ^ 53) / (10 * 2 ^ 53)

def retryWaitMs (failedAttempt random : Nat) : Nat :=
  withRetryJitter (modelProviderRetryWaitsMs.getD (failedAttempt - 1) 0) random

def rateLimitWaitMs (failedAttempt random : Nat) : Nat :=
  withRetryJitter (modelProviderRateLimitFirstWaitMs * 2 ^ (failedAttempt - 1)) random

/-- Never sooner than the provider asks, and never past what is left of the minute. -/
def ModelRetryPolicy.rateLimitWait (policy : ModelRetryPolicy) (retryAfterMs : Option Nat) (random : Nat) :
    Option (Nat × ModelRetryPolicy) :=
  let failures := policy.rateLimitFailures + 1
  let waitMs := min (max (retryAfterMs.getD 0) (rateLimitWaitMs failures random)) policy.rateLimitWaitLeftMs
  if waitMs = 0 || policy.rateLimitWaitLeftMs < retryAfterMs.getD 0 then none
  else some (waitMs, { policy with
    rateLimitFailures := failures, rateLimitWaitLeftMs := policy.rateLimitWaitLeftMs - waitMs })

def ModelRetryPolicy.transientWait (policy : ModelRetryPolicy) (retryAfterMs : Option Nat) (random : Nat) :
    Option (Nat × ModelRetryPolicy) :=
  let failures := policy.transientFailures + 1
  let waitMs := retryAfterMs.getD (retryWaitMs failures random)
  if modelProviderRetryWaitsMs.length < failures || modelProviderRetryAfterMaxMs < waitMs then none
  else some (waitMs, { policy with transientFailures := failures })

/-- The wait before the next attempt, or what the call fails with when it is not sent again. -/
def waitBeforeRetryMs (policy : ModelRetryPolicy) (deadline : Option Nat) (aborted : Bool) (error : Thrown)
    (retrySafe : Bool) (now random : Nat) : Except Thrown (Nat × ModelRetryPolicy) :=
  match error with
  | .provider e =>
    if !retrySafe || aborted || !e.retryable then .error (modelCallFailureFor error)
    else
      match if e.kind = .rateLimit then policy.rateLimitWait e.retryAfterMs random
        else policy.transientWait e.retryAfterMs random with
      | none => .error (modelCallFailureFor error)
      | some (waitMs, policy) =>
        if deadline.any (· ≤ now + waitMs) then .error (modelCallFailureFor error)
        else .ok (waitMs, policy)
  | _ => .error (modelCallFailureFor error)

def assertAttemptMayStart (deadline : Option Nat) (aborted : Bool) (now : Nat) : Except Thrown Unit :=
  if aborted then
    .error (.app ⟨.conflict, "The model call was stopped before the provider was called"⟩)
  else if deadline.any (· ≤ now) then
    .error (.app ⟨.timeout, "The model call's deadline passed before the provider was called"⟩)
  else .ok ()

end Catalyst.Gateway
