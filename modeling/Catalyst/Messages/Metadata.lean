import Mathlib
import Catalyst.Library.JsonNumbers
import Catalyst.Operations.InputHash

/-!
# The runtime's metadata of a message

What the agent runtime keeps with a message is one of five kinds of record. A creator takes it as
typed values and writes it as JSON; the reader takes JSON of any origin, tests each field and builds
the record anew of what it recognizes. A payload is of the type `P`: any value of JavaScript where it
is given to a creator, JSON where it is kept.
-/

namespace Catalyst.Messages

open Library

-- -----------------
-- Records
-- -----------------

structure StoredReasoningSummary where
  id : Units
  text : Units

structure StoredModelContextSnapshot where
  inputTokens : JsNumber
  compactThresholdTokens : JsNumber
  compacted : Bool

structure StoredModelProviderContinuation (P : Type) where
  providerId : Units
  state : P

structure StoredToolCall (P : Type) where
  toolCallId : Units
  toolName : Units
  input : P

inductive WebSourceProvider
  | openaiNative | serper | tavily | firecrawl | browserbase | direct
  deriving DecidableEq

structure WebSource where
  id : Units
  url : Units
  provider : WebSourceProvider
  title : Option Units
  query : Option Units
  retrievedAt : Option Units
  snippet : Option Units
  contentHash : Option Units
  resultPosition : Option JsNumber

/-- `start` and `end` -/
structure CharacterRange where
  start : JsNumber
  stop : JsNumber

structure MessageCitation where
  sourceId : Units
  label : Option Units
  quote : Option Units
  characterRange : Option CharacterRange

inductive FinishStatus
  | completed | cancelled
  deriving DecidableEq

/-- `ApprovalRequestStatus` but for `pending` -/
inductive DecidedStatus
  | approved | rejected | changesRequested | superseded | withdrawn | reverted
  deriving DecidableEq

structure ApprovalDecisionMessageMetadata where
  requestId : Units
  requestKind : Units
  status : DecidedStatus
  decidedBy : Units
  decidedByLabel : Units
  decidedAt : Units
  summary : Units
  comment : Option Units
  requestedBy : Option Units

structure AssistantToolCallsMetadata (P : Type) where
  runId : Units
  toolCalls : List (StoredToolCall P)
  reasoning : Option (List StoredReasoningSummary)
  modelContext : Option StoredModelContextSnapshot
  providerContinuation : Option (StoredModelProviderContinuation P)

structure AssistantFinalMetadata (P : Type) where
  runId : Units
  finishStatus : FinishStatus
  cancellationReason : Option Units
  reasoning : Option (List StoredReasoningSummary)
  sources : Option (List WebSource)
  citations : Option (List MessageCitation)
  modelContext : Option StoredModelContextSnapshot
  providerContinuation : Option (StoredModelProviderContinuation P)

structure ToolResultMetadata (P : Type) where
  runId : Units
  toolCallId : Units
  toolName : Units
  input : P
  result : P
  modelOutput : Units
  projectionNotice : Option (List (Units × JsonValue))

inductive AgentRuntimeMessageMetadata (P : Type)
  | approvalDecision (m : ApprovalDecisionMessageMetadata)
  | userMessage (attachmentManifest : P)
  | assistantToolCalls (m : AssistantToolCallsMetadata P)
  | assistantFinal (m : AssistantFinalMetadata P)
  | toolResult (m : ToolResultMetadata P)

-- -----------------
-- Records as objects of JavaScript
-- -----------------

abbrev Fields := List (String × Option Unknown)

def record (fields : Fields) : Unknown :=
  .object (fields.filterMap fun f => f.2.map fun v => (ascii f.1, v))

def text (s : String) : Unknown := .string (ascii s)

def MESSAGE_METADATA_VERSION : JsonNumber := ⟨ascii "1", by decide, by decide⟩

def StoredReasoningSummary.fields (s : StoredReasoningSummary) : Fields :=
  [("id", some (.string s.id)), ("text", some (.string s.text))]

def StoredReasoningSummary.toUnknown (s : StoredReasoningSummary) : Unknown := record s.fields

def StoredModelContextSnapshot.fields (m : StoredModelContextSnapshot) : Fields :=
  [("inputTokens", some (.number m.inputTokens)),
    ("compactThresholdTokens", some (.number m.compactThresholdTokens)), ("compacted", some (.boolean m.compacted))]

def StoredModelContextSnapshot.toUnknown (m : StoredModelContextSnapshot) : Unknown := record m.fields

def StoredModelProviderContinuation.fields (m : StoredModelProviderContinuation JsonValue) : Fields :=
  [("providerId", some (.string m.providerId)), ("state", some (asUnknown m.state))]

def StoredModelProviderContinuation.toUnknown (m : StoredModelProviderContinuation JsonValue) : Unknown := record m.fields

def StoredToolCall.fields (c : StoredToolCall JsonValue) : Fields :=
  [("toolCallId", some (.string c.toolCallId)), ("toolName", some (.string c.toolName)),
    ("input", some (asUnknown c.input))]

def StoredToolCall.toUnknown (c : StoredToolCall JsonValue) : Unknown := record c.fields

def WebSourceProvider.name : WebSourceProvider → String
  | openaiNative => "openai-native"
  | serper => "serper"
  | tavily => "tavily"
  | firecrawl => "firecrawl"
  | browserbase => "browserbase"
  | direct => "direct"

def WebSource.fields (s : WebSource) : Fields :=
  [("id", some (.string s.id)), ("url", some (.string s.url)), ("provider", some (text s.provider.name)),
    ("title", s.title.map .string), ("query", s.query.map .string), ("retrievedAt", s.retrievedAt.map .string),
    ("snippet", s.snippet.map .string), ("contentHash", s.contentHash.map .string),
    ("resultPosition", s.resultPosition.map .number)]

def WebSource.toUnknown (s : WebSource) : Unknown := record s.fields

def CharacterRange.fields (r : CharacterRange) : Fields :=
  [("start", some (.number r.start)), ("end", some (.number r.stop))]

def CharacterRange.toUnknown (r : CharacterRange) : Unknown := record r.fields

def MessageCitation.fields (c : MessageCitation) : Fields :=
  [("sourceId", some (.string c.sourceId)), ("label", c.label.map .string), ("quote", c.quote.map .string),
    ("characterRange", c.characterRange.map (·.toUnknown))]

def MessageCitation.toUnknown (c : MessageCitation) : Unknown := record c.fields

def FinishStatus.name : FinishStatus → String
  | completed => "completed"
  | cancelled => "cancelled"

def DecidedStatus.name : DecidedStatus → String
  | approved => "approved"
  | rejected => "rejected"
  | changesRequested => "changes_requested"
  | superseded => "superseded"
  | withdrawn => "withdrawn"
  | reverted => "reverted"

/-- `isWebSourceProvider`, with the provider of that name -/
def provider? (name : Units) : Option WebSourceProvider :=
  [.openaiNative, .serper, .tavily, .firecrawl, .browserbase, .direct].find? fun p => ascii p.name = name

def decidedStatus? (name : Units) : Option DecidedStatus :=
  [.approved, .rejected, .changesRequested, .superseded, .withdrawn, .reverted].find? fun s => ascii s.name = name

def listOf (f : α → Unknown) (l : List α) : Unknown := .array (l.map f)

def header (kind : String) : Fields :=
  [("version", some (.number (.finite MESSAGE_METADATA_VERSION))), ("kind", some (text kind))]

def ApprovalDecisionMessageMetadata.fields (m : ApprovalDecisionMessageMetadata) : Fields :=
  header "approval_decision" ++
    [("requestId", some (.string m.requestId)), ("requestKind", some (.string m.requestKind)),
      ("status", some (text m.status.name)), ("decidedBy", some (.string m.decidedBy)),
      ("decidedByLabel", some (.string m.decidedByLabel)), ("decidedAt", some (.string m.decidedAt)),
      ("summary", some (.string m.summary)), ("comment", m.comment.map .string),
      ("requestedBy", m.requestedBy.map .string)]

def userMessageFields (attachmentManifest : JsonValue) : Fields :=
  header "user_message" ++ [("attachmentManifest", some (asUnknown attachmentManifest))]

def AssistantToolCallsMetadata.fields (m : AssistantToolCallsMetadata JsonValue) : Fields :=
  header "assistant_tool_calls" ++
    [("runId", some (.string m.runId)), ("toolCalls", some (listOf (·.toUnknown) m.toolCalls)),
      ("reasoning", m.reasoning.map (listOf (·.toUnknown))), ("modelContext", m.modelContext.map (·.toUnknown)),
      ("providerContinuation", m.providerContinuation.map (·.toUnknown))]

def AssistantFinalMetadata.fields (m : AssistantFinalMetadata JsonValue) : Fields :=
  header "assistant_final" ++
    [("runId", some (.string m.runId)), ("finishStatus", some (text m.finishStatus.name)),
      ("cancellationReason", m.cancellationReason.map .string), ("reasoning", m.reasoning.map (listOf (·.toUnknown))),
      ("sources", m.sources.map (listOf (·.toUnknown))), ("citations", m.citations.map (listOf (·.toUnknown))),
      ("modelContext", m.modelContext.map (·.toUnknown)),
      ("providerContinuation", m.providerContinuation.map (·.toUnknown))]

def ToolResultMetadata.fields (m : ToolResultMetadata JsonValue) : Fields :=
  header "tool_result" ++
    [("runId", some (.string m.runId)), ("toolCallId", some (.string m.toolCallId)),
      ("toolName", some (.string m.toolName)), ("input", some (asUnknown m.input)),
      ("result", some (asUnknown m.result)), ("modelOutput", some (.string m.modelOutput)),
      ("projectionNotice", m.projectionNotice.map fun fields => asUnknown (.object fields))]

def AgentRuntimeMessageMetadata.fields : AgentRuntimeMessageMetadata JsonValue → Fields
  | approvalDecision m => m.fields
  | userMessage attachmentManifest => userMessageFields attachmentManifest
  | assistantToolCalls m => m.fields
  | assistantFinal m => m.fields
  | toolResult m => m.fields

abbrev JsonObject := List (Units × JsonValue)

def wrapAgentRuntimeMetadata (runtime : AgentRuntimeMessageMetadata JsonValue) : JsonObject :=
  [(ascii "agentRuntime", unknownToJsonValue (record runtime.fields))]

structure AttachmentManifest where
  attachments : List (List (Units × Unknown))

def AttachmentManifest.fields (manifest : AttachmentManifest) : Fields :=
  [("version", some (.number (.finite MESSAGE_METADATA_VERSION))),
    ("attachments", some (listOf .object manifest.attachments))]

def AttachmentManifest.toUnknown (manifest : AttachmentManifest) : Unknown := record manifest.fields

structure ToolCallInput where
  toolCallId : Units
  toolName : Units
  input : Unknown

structure Decision where
  decidedBy : Units
  decidedByLabel : Units
  decidedAt : Units
  comment : Option Units

structure Reversion where
  revertedBy : Units
  revertedByLabel : Units
  revertedAt : Units

structure ApprovalRequest where
  id : Units
  kind : Units
  summary : Units
  requestedById : Units
  requestedByLabel : Units
  /-- The conversation it comes from. -/
  origin : Option Units
  /-- None while it is pending. -/
  status : Option DecidedStatus
  decision : Option Decision
  reversion : Option Reversion
  updatedAt : Units

/-- What the creators are given, by the kind of metadata they make. -/
inductive MetadataInput
  | approvalDecision (request : ApprovalRequest)
  | userMessage (attachmentManifest : Option AttachmentManifest)
  | assistantToolCalls (runId : Units) (toolCalls : List ToolCallInput)
      (reasoning : Option (List StoredReasoningSummary)) (modelContext : Option StoredModelContextSnapshot)
  | assistantFinal (runId : Units) (reasoning : Option (List StoredReasoningSummary))
      (sources : Option (List WebSource)) (citations : Option (List MessageCitation))
      (finishStatus : Option FinishStatus) (cancellationReason : Option Units)
      (modelContext : Option StoredModelContextSnapshot)
  | toolResult (runId : Units) (toolCall : ToolCallInput) (result : Unknown) (modelOutput : Units)
      (notice : Option JsonObject)

def unlessEmpty (l : List α) : Option (List α) := if l = [] then none else some l

def createReasoningMetadata (reasoning : Option (List StoredReasoningSummary)) : Option (List StoredReasoningSummary) :=
  unlessEmpty ((reasoning.getD []).filter fun summary => summary.text ≠ [])

def createSources (sources : Option (List WebSource)) : Option (List WebSource) :=
  unlessEmpty ((sources.getD []).filter fun source => source.id ≠ [] ∧ source.url ≠ [])

def createCitations (citations : Option (List MessageCitation)) : Option (List MessageCitation) :=
  unlessEmpty ((citations.getD []).filter fun citation => citation.sourceId ≠ [])

/-- `...(value ? { field: value } : {})` of a string -/
def unlessBlank (value : Option Units) : Option Units := value.filter fun s => s ≠ []

/-- The event of `createApprovalDecisionMessage`. -/
def approvalEvent (request : ApprovalRequest) (status : DecidedStatus) : ApprovalDecisionMessageMetadata :=
  let reversion := if status = .reverted then request.reversion else none
  { requestId := request.id
    requestKind := request.kind
    status := status
    decidedBy := (reversion.map (·.revertedBy) <|> request.decision.map (·.decidedBy)).getD request.requestedById
    decidedByLabel :=
      (reversion.map (·.revertedByLabel) <|> request.decision.map (·.decidedByLabel)).getD request.requestedByLabel
    decidedAt := (reversion.map (·.revertedAt) <|> request.decision.map (·.decidedAt)).getD request.updatedAt
    summary := request.summary
    comment := if status ≠ .reverted then unlessBlank (request.decision.bind (·.comment)) else none
    requestedBy := some request.requestedById }

def storedToolCall (call : ToolCallInput) : StoredToolCall JsonValue :=
  ⟨call.toolCallId, call.toolName, unknownToJsonValue call.input⟩

/-- The record that a creator wraps; none where it makes no metadata. -/
def created : MetadataInput → Option (AgentRuntimeMessageMetadata JsonValue)
  | .approvalDecision request =>
    if request.origin = none then none else request.status.map fun status => .approvalDecision (approvalEvent request status)
  | .userMessage manifest =>
    (manifest.filter fun m => m.attachments.length ≠ 0).map fun m => .userMessage (unknownToJsonValue m.toUnknown)
  | .assistantToolCalls runId toolCalls reasoning modelContext =>
    some (.assistantToolCalls
      ⟨runId, toolCalls.map storedToolCall, createReasoningMetadata reasoning, modelContext, none⟩)
  | .assistantFinal runId reasoning sources citations finishStatus cancellationReason modelContext =>
    some (.assistantFinal
      ⟨runId, finishStatus.getD .completed, unlessBlank cancellationReason, createReasoningMetadata reasoning,
        createSources sources, createCitations citations, modelContext, none⟩)
  | .toolResult runId toolCall result modelOutput notice =>
    some (.toolResult
      ⟨runId, toolCall.toolCallId, toolCall.toolName, unknownToJsonValue toolCall.input, unknownToJsonValue result,
        modelOutput, notice⟩)

/-- `createApprovalDecisionMessage` (its metadata), `createUserMessageMetadata`,
`createAssistantToolCallsMetadata`, `createAssistantFinalMetadata` and `createToolResultMetadata` -/
def createMetadata (input : MetadataInput) : Option JsonObject := (created input).map wrapAgentRuntimeMetadata

/-- `value[name]`, where `none` is `undefined` -/
def field (fields : JsonObject) (name : String) : Option JsonValue := fields.lookup (ascii name)

def string? : Option JsonValue → Option Units
  | some (.string s) => some s
  | _ => none

def number? : Option JsonValue → Option JsonNumber
  | some (.number n) => some n
  | _ => none

def boolean? : Option JsonValue → Option Bool
  | some (.boolean b) => some b
  | _ => none

/-- `isUnknownRecord` -/
def record? : Option JsonValue → Option JsonObject
  | some (.object fields) => some fields
  | _ => none

def items (value : Option JsonValue) : List JsonValue :=
  match value with
  | some (.array items) => items
  | _ => []

/-- `unknownToJsonValue` of a field that may be missing -/
def jsonOf (value : Option JsonValue) : JsonValue := unknownToJsonValue (value.elim .undefined asUnknown)

def filled? (value : Option JsonValue) : Option Units := (string? value).filter fun s => s ≠ []

def readStoredToolCall (candidate : JsonValue) : Option (StoredToolCall JsonValue) := do
  let call ← record? candidate
  let toolCallId ← filled? (field call "toolCallId")
  let toolName ← filled? (field call "toolName")
  return ⟨toolCallId, toolName, jsonOf (field call "input")⟩

def readStoredToolCalls (value : Option JsonValue) : List (StoredToolCall JsonValue) :=
  (items value).filterMap readStoredToolCall

def readReasoningSummary (candidate : JsonValue) : Option StoredReasoningSummary := do
  let summary ← record? candidate
  let id ← filled? (field summary "id")
  let text ← filled? (field summary "text")
  return ⟨id, text⟩

def readReasoningMetadata (value : Option JsonValue) : Option (List StoredReasoningSummary) :=
  unlessEmpty ((items value).filterMap readReasoningSummary)

def readModelContextMetadata (value : Option JsonValue) : Option StoredModelContextSnapshot := do
  let context ← record? value
  let inputTokens ← number? (field context "inputTokens")
  let compactThresholdTokens ← number? (field context "compactThresholdTokens")
  let compacted ← boolean? (field context "compacted")
  return ⟨.finite (.atLeast 0 inputTokens.trunc), .finite (.atLeast 1 compactThresholdTokens.trunc), compacted⟩

def readProviderContinuationMetadata (value : Option JsonValue) : Option (StoredModelProviderContinuation JsonValue) := do
  let continuation ← record? value
  let providerId ← string? (field continuation "providerId")
  return ⟨providerId, jsonOf (field continuation "state")⟩

def readWebSource (candidate : JsonValue) : Option WebSource := do
  let source ← record? candidate
  let id ← filled? (field source "id")
  let url ← filled? (field source "url")
  let provider ← (string? (field source "provider")).bind provider?
  return ⟨id, url, provider, string? (field source "title"), string? (field source "query"),
    string? (field source "retrievedAt"), string? (field source "snippet"), string? (field source "contentHash"),
    (number? (field source "resultPosition")).map .finite⟩

def readWebSources (value : Option JsonValue) : Option (List WebSource) :=
  unlessEmpty ((items value).filterMap readWebSource)

/-- `typeof value === "number" && Number.isInteger(value)` -/
def integer? (value : Option JsonValue) : Option JsonNumber := (number? value).filter fun n => n.IsInteger

def readCitationCharacterRange (value : Option JsonValue) : Option CharacterRange := do
  let range ← record? value
  let start ← integer? (field range "start")
  let stop ← integer? (field range "end")
  return ⟨.finite start, .finite stop⟩

def readMessageCitation (candidate : JsonValue) : Option MessageCitation := do
  let citation ← record? candidate
  let sourceId ← string? (field citation "sourceId")
  return ⟨sourceId, string? (field citation "label"), string? (field citation "quote"),
    readCitationCharacterRange (field citation "characterRange")⟩

def readMessageCitations (value : Option JsonValue) : Option (List MessageCitation) :=
  unlessEmpty ((items value).filterMap readMessageCitation)

def readApprovalDecision (runtime : JsonObject) : Option ApprovalDecisionMessageMetadata := do
  let requestId ← string? (field runtime "requestId")
  let requestKind ← string? (field runtime "requestKind")
  let decidedBy ← string? (field runtime "decidedBy")
  let decidedByLabel ← string? (field runtime "decidedByLabel")
  let decidedAt ← string? (field runtime "decidedAt")
  let summary ← string? (field runtime "summary")
  let status ← (string? (field runtime "status")).bind decidedStatus?
  return ⟨requestId, requestKind, status, decidedBy, decidedByLabel, decidedAt, summary,
    string? (field runtime "comment"), string? (field runtime "requestedBy")⟩

def readAssistantToolCalls (runtime : JsonObject) : Option (AssistantToolCallsMetadata JsonValue) := do
  let runId ← string? (field runtime "runId")
  return ⟨runId, readStoredToolCalls (field runtime "toolCalls"), readReasoningMetadata (field runtime "reasoning"),
    readModelContextMetadata (field runtime "modelContext"),
    readProviderContinuationMetadata (field runtime "providerContinuation")⟩

def readAssistantFinal (runtime : JsonObject) : Option (AssistantFinalMetadata JsonValue) := do
  let runId ← string? (field runtime "runId")
  let cancelled := string? (field runtime "finishStatus") = some (ascii "cancelled")
  return ⟨runId, if cancelled then .cancelled else .completed, string? (field runtime "cancellationReason"),
    readReasoningMetadata (field runtime "reasoning"), readWebSources (field runtime "sources"),
    readMessageCitations (field runtime "citations"), readModelContextMetadata (field runtime "modelContext"),
    readProviderContinuationMetadata (field runtime "providerContinuation")⟩

def readToolResult (runtime : JsonObject) : Option (ToolResultMetadata JsonValue) := do
  let runId ← string? (field runtime "runId")
  let toolCallId ← string? (field runtime "toolCallId")
  let toolName ← string? (field runtime "toolName")
  return ⟨runId, toolCallId, toolName, jsonOf (field runtime "input"), jsonOf (field runtime "result"),
    (string? (field runtime "modelOutput")).getD [], record? (jsonOf (field runtime "projectionNotice"))⟩

def readAgentRuntimeMessageMetadata (metadata : JsonObject) : Option (AgentRuntimeMessageMetadata JsonValue) := do
  let runtime ← record? (field metadata "agentRuntime")
  if number? (field runtime "version") ≠ some MESSAGE_METADATA_VERSION then none
  else
    let kind ← string? (field runtime "kind")
    if kind = ascii "approval_decision" then (readApprovalDecision runtime).map .approvalDecision
    else if kind = ascii "user_message" then some (.userMessage (jsonOf (field runtime "attachmentManifest")))
    else if kind = ascii "assistant_tool_calls" then (readAssistantToolCalls runtime).map .assistantToolCalls
    else if kind = ascii "assistant_final" then (readAssistantFinal runtime).map .assistantFinal
    else if kind = ascii "tool_result" then (readToolResult runtime).map .toolResult
    else none

end Catalyst.Messages
