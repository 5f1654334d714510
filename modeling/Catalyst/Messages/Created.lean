import Mathlib
import Catalyst.Messages.RoundTrip

/-!
# Created metadata read back

The reader gives back what was created, and that is what the creator was given, exactly where each
list is missing or has elements, each element has the texts that the reader asks for, and the numbers
are whole.
-/

namespace Catalyst.Messages

open Library Operations

theorem fields_plain (m : AgentRuntimeMessageMetadata JsonValue) : Plain m.fields := by
  cases m with
  | approvalDecision m => exact m.plain
  | userMessage manifest => exact userMessage_plain manifest
  | assistantToolCalls m => exact m.plain
  | assistantFinal m => exact m.plain
  | toolResult m => exact m.plain

/-- `kind` -/
def AgentRuntimeMessageMetadata.kind : AgentRuntimeMessageMetadata P → String
  | approvalDecision _ => "approval_decision"
  | userMessage _ => "user_message"
  | assistantToolCalls _ => "assistant_tool_calls"
  | assistantFinal _ => "assistant_final"
  | toolResult _ => "tool_result"

theorem field_version (m : AgentRuntimeMessageMetadata JsonValue) :
    field (fieldsOf m.fields) "version" = some (.number MESSAGE_METADATA_VERSION) := by
  rw [field_fieldsOf (fields_plain m).names]
  cases m <;> rfl

theorem field_kind (m : AgentRuntimeMessageMetadata JsonValue) :
    field (fieldsOf m.fields) "kind" = some (.string (ascii m.kind)) := by
  rw [field_fieldsOf (fields_plain m).names]
  cases m <;> rfl

theorem read_wrap (m : AgentRuntimeMessageMetadata JsonValue) (hp : m.ProtoFree) :
    readAgentRuntimeMessageMetadata (wrapAgentRuntimeMetadata m) = some m.read := by
  have hfield : field (wrapAgentRuntimeMetadata m) "agentRuntime" = some (.object (fieldsOf m.fields)) := by
    rw [wrapAgentRuntimeMetadata, unknownToJsonValue_record (fields_plain m)]
    simp [field]
  unfold readAgentRuntimeMessageMetadata
  rw [hfield]
  simp only [record?_object, Option.bind_eq_bind, Option.bind_some, field_version, field_kind, number?_number,
    string?_string, ne_eq, not_true_eq_false, if_false]
  cases m with
  | approvalDecision m =>
    rw [AgentRuntimeMessageMetadata.kind, if_pos rfl]
    exact congrArg _ (readApprovalDecision_eq m)
  | userMessage manifest =>
    rw [AgentRuntimeMessageMetadata.kind, if_neg (by decide), if_pos rfl]
    have hmanifest : field (fieldsOf (userMessageFields manifest)) "attachmentManifest"
        = some (unknownToJsonValue (asUnknown manifest)) := by
      rw [field_fieldsOf (userMessage_plain manifest).names]
      rfl
    exact congrArg (fun v => some (AgentRuntimeMessageMetadata.userMessage v)) (by
      rw [AgentRuntimeMessageMetadata.fields, hmanifest, jsonOf_payload hp])
  | assistantToolCalls m =>
    rw [AgentRuntimeMessageMetadata.kind, if_neg (by decide), if_neg (by decide), if_pos rfl]
    exact congrArg _ (readAssistantToolCalls_eq m hp.1 hp.2)
  | assistantFinal m =>
    rw [AgentRuntimeMessageMetadata.kind, if_neg (by decide), if_neg (by decide), if_neg (by decide), if_pos rfl]
    exact congrArg _ (readAssistantFinal_eq m hp)
  | toolResult m =>
    rw [AgentRuntimeMessageMetadata.kind, if_neg (by decide), if_neg (by decide), if_neg (by decide), if_neg (by decide), if_pos rfl]
    exact congrArg _ (readToolResult_eq m hp.1 hp.2.1 hp.2.2)

theorem filterMap_eq_self_iff {h : α → Option α} (l : List α) : l.filterMap h = l ↔ ∀ a ∈ l, h a = some a := by
  constructor
  · intro heq
    induction l with
    | nil => simp
    | cons a l ih =>
      cases ha : h a with
      | none =>
        rw [List.filterMap_cons_none ha] at heq
        have hlen : (l.filterMap h).length ≤ l.length := List.length_filterMap_le h l
        rw [heq, List.length_cons] at hlen
        exact absurd hlen (Nat.not_succ_le_self _)
      | some b =>
        rw [List.filterMap_cons_some ha, List.cons.injEq] at heq
        exact List.forall_mem_cons.mpr ⟨ha.trans (congrArg some heq.1), ih heq.2⟩
  · intro hall
    calc l.filterMap h = l.filterMap some := List.filterMap_congr hall
      _ = l := List.filterMap_some

theorem kept_iff {h : α → Option α} (o : Option (List α)) :
    unlessEmpty ((o.getD []).filterMap h) = o ↔ ∀ l ∈ o, l ≠ [] ∧ ∀ a ∈ l, h a = some a := by
  cases o with
  | none => simp [unlessEmpty]
  | some l =>
    have hkept : unlessEmpty (l.filterMap h) = some l ↔ l ≠ [] ∧ l.filterMap h = l := by
      unfold unlessEmpty
      split
      case isTrue hnil =>
        rw [hnil]
        exact iff_of_false (Option.some_ne_none _).symm fun hl => hl.1 hl.2.symm
      case isFalse hcons =>
        rw [Option.some.injEq]
        exact ⟨fun heq => ⟨heq ▸ hcons, heq⟩, fun hl => hl.2⟩
    rw [Option.getD_some, hkept, filterMap_eq_self_iff]
    simp

theorem getD_unlessEmpty (l : List α) : (unlessEmpty l).getD [] = l := by
  unfold unlessEmpty
  split
  case isTrue hnil => exact hnil.symm
  case isFalse => rfl

theorem bind_eq_self_iff {h : α → Option α} (o : Option α) : o.bind h = o ↔ ∀ a ∈ o, h a = some a := by
  cases o <;> simp

def WholeFrom (least : ℤ) (n : JsNumber) : Prop := ∃ m, n = .finite m ∧ m.IsInteger ∧ (least : ℚ) ≤ m.value

def StoredModelContextSnapshot.Plain (m : StoredModelContextSnapshot) : Prop :=
  WholeFrom 0 m.inputTokens ∧ WholeFrom 1 m.compactThresholdTokens

def PlainReasoning (reasoning : Option (List StoredReasoningSummary)) : Prop :=
  ∀ l ∈ reasoning, l ≠ [] ∧ ∀ s ∈ l, s.id ≠ [] ∧ s.text ≠ []

def StoredToolCall.Named (c : StoredToolCall P) : Prop := c.toolCallId ≠ [] ∧ c.toolName ≠ []

def JsNumber.IsFinite (n : JsNumber) : Prop := ∃ m, n = .finite m

def JsNumber.Whole (n : JsNumber) : Prop := ∃ m, n = .finite m ∧ m.IsInteger

def PlainSources (sources : Option (List WebSource)) : Prop :=
  ∀ l ∈ sources, l ≠ [] ∧ ∀ s ∈ l, s.id ≠ [] ∧ s.url ≠ [] ∧ ∀ n ∈ s.resultPosition, JsNumber.IsFinite n

def PlainCitations (citations : Option (List MessageCitation)) : Prop :=
  ∀ l ∈ citations, l ≠ [] ∧ ∀ c ∈ l, c.sourceId ≠ [] ∧
    ∀ r ∈ c.characterRange, JsNumber.Whole r.start ∧ JsNumber.Whole r.stop

theorem finite?_eq_some : finite? n = some m ↔ n = .finite m := by
  cases n <;> simp [finite?]

theorem atLeast_eq_iff (hleast : (JsonNumber.ofInt least).value = least) (n : JsNumber) :
    (finite? n).map (fun m => JsNumber.finite (.atLeast least m.trunc)) = some n ↔ WholeFrom least n := by
  constructor
  · intro h
    obtain ⟨m, hm, hn⟩ := Option.map_eq_some_iff.mp h
    obtain rfl := finite?_eq_some.mp hm
    exact ⟨m, rfl, (JsonNumber.atLeast_trunc_eq_iff hleast).mp (JsNumber.finite.inj hn)⟩
  · rintro ⟨m, rfl, hm⟩
    exact congrArg (fun k => some (JsNumber.finite k)) ((JsonNumber.atLeast_trunc_eq_iff hleast).mpr hm)

theorem zero_value : (JsonNumber.ofInt 0).value = (0 : ℤ) := by with_unfolding_all decide
theorem one_value : (JsonNumber.ofInt 1).value = (1 : ℤ) := by with_unfolding_all decide

theorem StoredModelContextSnapshot.read?_eq_iff (m : StoredModelContextSnapshot) : m.read? = some m ↔ m.Plain := by
  obtain ⟨inputTokens, threshold, compacted⟩ := m
  rw [Plain, ← atLeast_eq_iff zero_value, ← atLeast_eq_iff one_value]
  cases inputTokens <;> cases threshold <;> simp [read?, finite?]

theorem readCalls_eq_iff (calls : List (StoredToolCall JsonValue)) : readCalls calls = calls ↔ ∀ c ∈ calls, c.Named := by
  rw [readCalls, List.filter_eq_self]
  simp [StoredToolCall.Named]

theorem readSummaries_eq_iff (reasoning : Option (List StoredReasoningSummary)) :
    readSummaries reasoning = reasoning ↔ PlainReasoning reasoning := by
  rw [readSummaries, ← filterMap_ite, kept_iff]
  simp [PlainReasoning]

theorem readSummaries_create (reasoning : Option (List StoredReasoningSummary)) :
    readSummaries (createReasoningMetadata reasoning) = readSummaries reasoning := by
  rw [readSummaries, createReasoningMetadata, getD_unlessEmpty, List.filter_filter]
  simp [readSummaries]

theorem map_finite_eq_iff (o : Option JsNumber) : (o.bind finite?).map .finite = o ↔ ∀ n ∈ o, JsNumber.IsFinite n := by
  cases o with
  | none => simp
  | some n => cases n <;> simp [finite?, JsNumber.IsFinite]

theorem WebSource.read?_eq_iff (s : WebSource) :
    s.read? = some s ↔ s.id ≠ [] ∧ s.url ≠ [] ∧ ∀ n ∈ s.resultPosition, JsNumber.IsFinite n := by
  rw [← map_finite_eq_iff]
  obtain ⟨id, url, provider, title, query, retrievedAt, snippet, contentHash, resultPosition⟩ := s
  unfold read?
  split <;> simp_all

theorem readSources_eq_iff (sources : Option (List WebSource)) : readSources sources = sources ↔ PlainSources sources := by
  rw [readSources, kept_iff]
  simp only [WebSource.read?_eq_iff, PlainSources]

theorem readSources_create (sources : Option (List WebSource)) :
    readSources (createSources sources) = readSources sources := by
  rw [readSources, createSources, getD_unlessEmpty, readSources, ← filterMap_ite, List.filterMap_filterMap]
  refine congrArg _ (List.filterMap_congr fun s _ => ?_)
  by_cases h : s.id ≠ [] ∧ s.url ≠ []
  · simp [h]
  · simp [WebSource.read?, h]

theorem CharacterRange.read?_eq_iff (r : CharacterRange) :
    r.read? = some r ↔ JsNumber.Whole r.start ∧ JsNumber.Whole r.stop := by
  obtain ⟨start, stop⟩ := r
  have hwhole : ∀ n : JsNumber, ((finite? n).filter fun m => m.IsInteger).map .finite = some n ↔ JsNumber.Whole n := by
    intro n
    cases n <;> simp [finite?, JsNumber.Whole, Option.filter]
  rw [← hwhole, ← hwhole]
  simp only [read?]
  cases (finite? start).filter fun m => m.IsInteger <;>
    cases (finite? stop).filter fun m => m.IsInteger <;> simp

theorem MessageCitation.read_eq_iff (c : MessageCitation) :
    c.read = c ↔ ∀ r ∈ c.characterRange, JsNumber.Whole r.start ∧ JsNumber.Whole r.stop := by
  simp only [← CharacterRange.read?_eq_iff]
  rw [← bind_eq_self_iff]
  obtain ⟨sourceId, label, quote, characterRange⟩ := c
  simp [read]

theorem readCitations_eq_iff (citations : Option (List MessageCitation)) :
    readCitations citations = citations ↔ ∀ l ∈ citations, l ≠ [] ∧ ∀ c ∈ l, c.read = c := by
  rw [readCitations, ← congrFun List.filterMap_eq_map', kept_iff]
  simp

theorem readCitations_create_eq_iff (citations : Option (List MessageCitation)) :
    readCitations (createCitations citations) = citations ↔ PlainCitations citations := by
  have hkept : readCitations (createCitations citations) = unlessEmpty ((citations.getD []).filterMap fun c =>
      if c.sourceId ≠ [] then some c.read else none) := by
    rw [readCitations, createCitations, getD_unlessEmpty, ← filterMap_ite, List.map_filterMap]
    refine congrArg _ (List.filterMap_congr fun c _ => ?_)
    split <;> rfl
  rw [hkept, kept_iff]
  simp only [PlainCitations, ← MessageCitation.read_eq_iff]
  simp

theorem unlessBlank_eq_iff (value : Option Units) : unlessBlank value = value ↔ ∀ s ∈ value, s ≠ [] := by
  cases value with
  | none => simp [unlessBlank]
  | some s =>
    by_cases hs : s = []
    · simp [unlessBlank, Option.filter, hs]
    · simp [unlessBlank, Option.filter, hs]

def StoredToolCall.map (f : P → Q) (c : StoredToolCall P) : StoredToolCall Q := ⟨c.toolCallId, c.toolName, f c.input⟩

def StoredModelProviderContinuation.map (f : P → Q) (m : StoredModelProviderContinuation P) :
    StoredModelProviderContinuation Q := ⟨m.providerId, f m.state⟩

def AgentRuntimeMessageMetadata.map (f : P → Q) : AgentRuntimeMessageMetadata P → AgentRuntimeMessageMetadata Q
  | approvalDecision m => .approvalDecision m
  | userMessage attachmentManifest => .userMessage (f attachmentManifest)
  | assistantToolCalls m => .assistantToolCalls
      ⟨m.runId, m.toolCalls.map (·.map f), m.reasoning, m.modelContext, m.providerContinuation.map (·.map f)⟩
  | assistantFinal m => .assistantFinal
      ⟨m.runId, m.finishStatus, m.cancellationReason, m.reasoning, m.sources, m.citations, m.modelContext,
        m.providerContinuation.map (·.map f)⟩
  | toolResult m => .toolResult
      ⟨m.runId, m.toolCallId, m.toolName, f m.input, f m.result, m.modelOutput, m.projectionNotice⟩

def ToolCallInput.toStored (c : ToolCallInput) : StoredToolCall Unknown := ⟨c.toolCallId, c.toolName, c.input⟩

/-- The metadata as it is given, with its defaults; none where there is none to keep. -/
def MetadataInput.given : MetadataInput → Option (AgentRuntimeMessageMetadata Unknown)
  | approvalDecision request =>
    if request.origin = none then none
    else request.status.map fun status => .approvalDecision (approvalEvent request status)
  | userMessage manifest => (manifest.filter fun m => m.attachments.length ≠ 0).map fun m => .userMessage m.toUnknown
  | assistantToolCalls runId toolCalls reasoning modelContext => some
      (.assistantToolCalls ⟨runId, toolCalls.map (·.toStored), reasoning, modelContext, none⟩)
  | assistantFinal runId reasoning sources citations finishStatus cancellationReason modelContext => some
      (.assistantFinal ⟨runId, finishStatus.getD .completed, cancellationReason, reasoning, sources, citations,
        modelContext, none⟩)
  | toolResult runId toolCall result modelOutput notice => some
      (.toolResult ⟨runId, toolCall.toolCallId, toolCall.toolName, toolCall.input, result, modelOutput, notice⟩)

def IsJson (u : Unknown) : Prop := asUnknown (unknownToJsonValue u) = u

def MetadataInput.Json : MetadataInput → Prop
  | approvalDecision _ => True
  | userMessage manifest => ∀ m ∈ manifest, IsJson m.toUnknown
  | assistantToolCalls _ toolCalls _ _ => ∀ c ∈ toolCalls, IsJson c.input
  | assistantFinal .. => True
  | toolResult _ toolCall result _ notice =>
    IsJson toolCall.input ∧ IsJson result ∧ ∀ fields ∈ notice, ProtoFree (.object fields)

/-- Nothing of what is given is what the creator leaves out or the reader does not recognize. -/
def MetadataInput.Plain : MetadataInput → Prop
  | approvalDecision _ => True
  | userMessage _ => True
  | assistantToolCalls _ toolCalls reasoning modelContext =>
    (∀ c ∈ toolCalls, c.toStored.Named) ∧ PlainReasoning reasoning ∧ ∀ m ∈ modelContext, m.Plain
  | assistantFinal _ reasoning sources citations _ cancellationReason modelContext =>
    (∀ s ∈ cancellationReason, s ≠ []) ∧ PlainReasoning reasoning ∧ PlainSources sources ∧
      PlainCitations citations ∧ ∀ m ∈ modelContext, m.Plain
  | toolResult .. => True

def AgentRuntimeMessageMetadata.Readable : AgentRuntimeMessageMetadata JsonValue → Prop
  | approvalDecision _ => True
  | userMessage _ => True
  | assistantToolCalls m =>
    (∀ c ∈ m.toolCalls, c.Named) ∧ PlainReasoning m.reasoning ∧ ∀ c ∈ m.modelContext, c.Plain
  | assistantFinal m =>
    PlainReasoning m.reasoning ∧ PlainSources m.sources ∧ (∀ l ∈ m.citations, l ≠ [] ∧ ∀ c ∈ l, c.read = c) ∧
      ∀ c ∈ m.modelContext, c.Plain
  | toolResult _ => True

theorem withoutProto_unknownToJsonValue (h : IsJson u) : ProtoFree (unknownToJsonValue u) := by
  rw [ProtoFree, ← unknownToJsonValue_asUnknown, h]

theorem created_protoFree (hx : x.Json) (hm : created x = some m) : m.ProtoFree := by
  cases x with
  | approvalDecision request =>
    rw [created] at hm
    split at hm
    case isTrue => cases hm
    case isFalse =>
      obtain ⟨status, -, rfl⟩ := Option.map_eq_some_iff.mp hm
      trivial
  | userMessage manifest =>
    obtain ⟨manifest, hmanifest, rfl⟩ := Option.map_eq_some_iff.mp hm
    exact withoutProto_unknownToJsonValue (hx _ ((Option.mem_filter_iff.mp hmanifest).1))
  | assistantToolCalls runId toolCalls reasoning modelContext =>
    obtain rfl := Option.some.inj hm
    refine ⟨fun c hc => ?_, fun p hp => absurd hp (Option.not_mem_none p)⟩
    obtain ⟨call, hcall, rfl⟩ := List.mem_map.mp hc
    exact withoutProto_unknownToJsonValue (hx call hcall)
  | assistantFinal runId reasoning sources citations finishStatus cancellationReason modelContext =>
    obtain rfl := Option.some.inj hm
    exact fun p hp => absurd hp (Option.not_mem_none p)
  | toolResult runId toolCall result modelOutput notice =>
    obtain rfl := Option.some.inj hm
    exact ⟨withoutProto_unknownToJsonValue hx.1, withoutProto_unknownToJsonValue hx.2.1, hx.2.2⟩

theorem read_eq_iff (m : AgentRuntimeMessageMetadata JsonValue) : m.read = m ↔ m.Readable := by
  cases m with
  | approvalDecision m => exact iff_of_true rfl trivial
  | userMessage manifest => exact iff_of_true rfl trivial
  | assistantToolCalls m =>
    obtain ⟨runId, toolCalls, reasoning, modelContext, continuation⟩ := m
    simp only [AgentRuntimeMessageMetadata.read, AgentRuntimeMessageMetadata.Readable,
      AgentRuntimeMessageMetadata.assistantToolCalls.injEq, AssistantToolCallsMetadata.mk.injEq, readCalls_eq_iff,
      readSummaries_eq_iff, bind_eq_self_iff, StoredModelContextSnapshot.read?_eq_iff, true_and, and_true]
  | assistantFinal m =>
    obtain ⟨runId, finishStatus, reason, reasoning, sources, citations, modelContext, continuation⟩ := m
    simp only [AgentRuntimeMessageMetadata.read, AgentRuntimeMessageMetadata.Readable,
      AgentRuntimeMessageMetadata.assistantFinal.injEq, AssistantFinalMetadata.mk.injEq, readSummaries_eq_iff,
      readSources_eq_iff, readCitations_eq_iff, bind_eq_self_iff, StoredModelContextSnapshot.read?_eq_iff, true_and,
      and_true]
  | toolResult m => exact iff_of_true rfl trivial

theorem readCalls_given_iff (calls : List ToolCallInput) (hjson : ∀ c ∈ calls, IsJson c.input) :
    (readCalls (calls.map storedToolCall)).map (·.map asUnknown) = calls.map (·.toStored) ↔
      ∀ c ∈ calls, c.toStored.Named := by
  have hkept : (readCalls (calls.map storedToolCall)).map (·.map asUnknown)
      = (calls.filter fun c => c.toolCallId ≠ [] ∧ c.toolName ≠ []).map (·.toStored) := by
    rw [readCalls, List.filter_map, List.map_map]
    refine List.map_congr_left fun c hc => ?_
    have hinput := hjson c (List.mem_filter.mp hc).1
    exact congrArg (StoredToolCall.mk c.toolCallId c.toolName) hinput
  have hall : calls.filter (fun c => c.toolCallId ≠ [] ∧ c.toolName ≠ []) = calls ↔ ∀ c ∈ calls, c.toStored.Named := by
    rw [List.filter_eq_self]
    simp [StoredToolCall.Named, ToolCallInput.toStored]
  rw [hkept, ← hall]
  constructor
  · intro heq
    have hlen := congrArg List.length heq
    rw [List.length_map, List.length_map] at hlen
    exact List.filter_sublist.eq_of_length hlen
  · exact congrArg _

theorem read_given_iff (hx : x.Json) (hm : created x = some m) : some (m.read.map asUnknown) = x.given ↔ x.Plain := by
  cases x with
  | approvalDecision request =>
    rw [created] at hm
    rw [MetadataInput.given]
    split at hm
    case isTrue => cases hm
    case isFalse horigin =>
      obtain ⟨status, hstatus, rfl⟩ := Option.map_eq_some_iff.mp hm
      rw [if_neg horigin, hstatus]
      exact iff_of_true rfl trivial
  | userMessage manifest =>
    obtain ⟨given, hgiven, rfl⟩ := Option.map_eq_some_iff.mp hm
    have hjson : IsJson given.toUnknown := hx given (Option.mem_filter_iff.mp hgiven).1
    rw [MetadataInput.given, hgiven]
    exact iff_of_true (congrArg (fun u => some (AgentRuntimeMessageMetadata.userMessage u)) hjson) trivial
  | assistantToolCalls runId toolCalls reasoning modelContext =>
    obtain rfl := Option.some.inj hm
    simp only [MetadataInput.given, AgentRuntimeMessageMetadata.read, AgentRuntimeMessageMetadata.map,
      Option.some.injEq, AgentRuntimeMessageMetadata.assistantToolCalls.injEq, AssistantToolCallsMetadata.mk.injEq,
      readCalls_given_iff toolCalls hx, readSummaries_create, readSummaries_eq_iff, bind_eq_self_iff,
      StoredModelContextSnapshot.read?_eq_iff, Option.map_none, true_and, and_true, MetadataInput.Plain]
  | assistantFinal runId reasoning sources citations finishStatus cancellationReason modelContext =>
    obtain rfl := Option.some.inj hm
    simp only [MetadataInput.given, AgentRuntimeMessageMetadata.read, AgentRuntimeMessageMetadata.map,
      Option.some.injEq, AgentRuntimeMessageMetadata.assistantFinal.injEq, AssistantFinalMetadata.mk.injEq,
      unlessBlank_eq_iff, readSummaries_create, readSummaries_eq_iff, readSources_create, readSources_eq_iff,
      readCitations_create_eq_iff, bind_eq_self_iff, StoredModelContextSnapshot.read?_eq_iff, Option.map_none, true_and,
      and_true, MetadataInput.Plain]
  | toolResult runId toolCall result modelOutput notice =>
    obtain rfl := Option.some.inj hm
    have hinput : asUnknown (unknownToJsonValue toolCall.input) = toolCall.input := hx.1
    have hresult : asUnknown (unknownToJsonValue result) = result := hx.2.1
    refine iff_of_true ?_ trivial
    simp only [MetadataInput.given, AgentRuntimeMessageMetadata.read, AgentRuntimeMessageMetadata.map, hinput, hresult]

/-- The round trip: read is what was given, or the record that was created, exactly where nothing of it
is what the creator leaves out or the reader does not recognize. -/
theorem readAgentRuntimeMessageMetadata_created (hx : x.Json) (hm : created x = some m) :
    ((readAgentRuntimeMessageMetadata (wrapAgentRuntimeMetadata m)).map (·.map asUnknown) = x.given ↔ x.Plain) ∧
      (readAgentRuntimeMessageMetadata (wrapAgentRuntimeMetadata m) = some m ↔ m.Readable) := by
  rw [read_wrap m (created_protoFree hx hm)]
  refine ⟨read_given_iff hx hm, ?_⟩
  rw [Option.some.injEq]
  exact read_eq_iff m

namespace Example

def called (name : String) : MetadataInput :=
  .assistantToolCalls (ascii "run") [⟨ascii "call", ascii name, .null⟩] none none

def calledRecord (name : String) : AgentRuntimeMessageMetadata JsonValue :=
  .assistantToolCalls ⟨ascii "run", [⟨ascii "call", ascii name, .null⟩], none, none, none⟩

theorem called_json (name : String) : (called name).Json := by
  intro c hc
  obtain rfl := List.mem_singleton.mp hc
  rfl

end Example

open Example

theorem readAgentRuntimeMessageMetadata_created_called :
    ((readAgentRuntimeMessageMetadata (wrapAgentRuntimeMetadata (calledRecord "search"))).map (·.map asUnknown)
        = (called "search").given ↔ (called "search").Plain) ∧
      (readAgentRuntimeMessageMetadata (wrapAgentRuntimeMetadata (calledRecord "search"))
        = some (calledRecord "search") ↔ (calledRecord "search").Readable) :=
  readAgentRuntimeMessageMetadata_created (called_json _) rfl

/-- A call with an id but without a name is not read back. -/
theorem unnamed_call_dropped :
    createMetadata (called "") = some (wrapAgentRuntimeMetadata (calledRecord "")) ∧
      readAgentRuntimeMessageMetadata (wrapAgentRuntimeMetadata (calledRecord ""))
        = some (.assistantToolCalls ⟨ascii "run", [], none, none, none⟩) ∧
      (readAgentRuntimeMessageMetadata (wrapAgentRuntimeMetadata (calledRecord ""))).map (·.map asUnknown)
        ≠ (called "").given := by
  have hread : readAgentRuntimeMessageMetadata (wrapAgentRuntimeMetadata (calledRecord ""))
      = some (.assistantToolCalls ⟨ascii "run", [], none, none, none⟩) :=
    read_wrap (calledRecord "") (created_protoFree (called_json "") rfl)
  refine ⟨rfl, hread, ?_⟩
  rw [hread]
  simp [MetadataInput.given, AgentRuntimeMessageMetadata.map, called]

end Catalyst.Messages
