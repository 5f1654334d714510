import Mathlib
import Catalyst.Messages.Metadata

/-!
# Metadata read back

What is read of a record's JSON is the record but for what the reader does not recognize: calls and
summaries without a name or a text, numbers that are not whole. Each list of fields is looked up by
name in what `unknownToJsonValue` makes of the record.
-/

namespace Catalyst.Messages

open Library Operations

def Defined : Unknown → Prop
  | .undefined | .symbol _ | .function _ => False
  | _ => True

theorem ascii_inj (h : ascii s = ascii t) : s = t := by
  have hchars : s.toList = t.toList := List.map_injective_iff.mpr (fun a b hab => Char.toNat_inj.mp hab) h
  exact String.toList_inj.mp hchars

theorem unknownEntries_defined (hv : Defined v) (hkey : key ≠ protoKey) (entries : List (Units × Unknown)) :
    unknownEntries ((key, v) :: entries) = (key, unknownToJsonValue v) :: unknownEntries entries := by
  cases v with
  | undefined | symbol _ | function _ => exact hv.elim
  | _ => simp only [unknownEntries, assign, if_neg hkey]

structure Plain (fields : Fields) : Prop where
  names : (fields.map Prod.fst).Nodup
  proto : "__proto__" ∉ fields.map Prod.fst
  defined : ∀ f ∈ fields, ∀ v ∈ f.2, Defined v

def fieldsOf (fields : Fields) : JsonObject :=
  fields.filterMap fun f => f.2.map fun v => (ascii f.1, unknownToJsonValue v)

theorem unknownToJsonValue_record (h : Plain fields) : unknownToJsonValue (record fields) = .object (fieldsOf fields) := by
  have hentries : ∀ fs : Fields, "__proto__" ∉ fs.map Prod.fst →
      (∀ f ∈ fs, ∀ v ∈ f.2, Defined v) →
      unknownEntries (fs.filterMap fun f => f.2.map fun v => (ascii f.1, v)) = fieldsOf fs := by
    intro fs hproto hdefined
    induction fs with
    | nil => rfl
    | cons f fs ih =>
      rw [List.map_cons, List.mem_cons, not_or] at hproto
      have ih := ih hproto.2 fun g hg => hdefined g (List.mem_cons_of_mem _ hg)
      obtain ⟨name, value⟩ := f
      cases value with
      | none => exact ih
      | some v =>
        have hkey : ascii name ≠ protoKey := fun he => hproto.1 (ascii_inj he).symm
        have hv : Defined v := hdefined _ List.mem_cons_self v rfl
        exact (unknownEntries_defined hv hkey _).trans (congrArg _ ih)
  rw [record, unknownToJsonValue, hentries fields h.proto h.defined]

theorem field_fieldsOf (hnames : (fields.map Prod.fst).Nodup) (name : String) :
    field (fieldsOf fields) name = ((fields.lookup name).join).map unknownToJsonValue := by
  induction fields with
  | nil => rfl
  | cons f fs ih =>
    obtain ⟨key, value⟩ := f
    rw [List.map_cons, List.nodup_cons] at hnames
    have ih := ih hnames.2
    by_cases hk : name = key
    · subst hk
      have habsent : fs.lookup name = none := by
        rw [List.lookup_eq_none_iff]
        intro g hg
        have hne : name ≠ g.1 := by
          rintro rfl
          exact hnames.1 (List.mem_map.mpr ⟨g, hg, rfl⟩)
        simpa using hne
      rw [List.lookup_cons_self]
      cases value with
      | none =>
        rw [habsent] at ih
        exact ih
      | some v => simp [field, fieldsOf]
    · have hkeys : (ascii name == ascii key) = false := by
        rw [beq_eq_false_iff_ne]
        exact fun he => hk (ascii_inj he)
      have hname : (name == key) = false := by simpa using hk
      rw [List.lookup_cons, hname]
      cases value with
      | none => exact ih
      | some v =>
        refine Eq.trans ?_ ih
        simp [field, fieldsOf, List.lookup_cons, hkeys]

@[simp] theorem defined_string : Defined (.string s) := trivial
@[simp] theorem defined_number : Defined (.number n) := trivial
@[simp] theorem defined_boolean : Defined (.boolean b) := trivial
@[simp] theorem defined_text : Defined (text s) := trivial
@[simp] theorem defined_listOf : Defined (listOf f l) := trivial
@[simp] theorem defined_record : Defined (record fields) := trivial

@[simp] theorem defined_asUnknown (v : JsonValue) : Defined (asUnknown v) := by
  cases v <;> trivial

theorem unknownItems_eq (vs : List Unknown) : unknownItems vs = vs.map unknownToJsonValue := by
  induction vs with
  | nil => rfl
  | cons v vs ih => rw [unknownItems, ih, List.map_cons]

theorem items_listOf (f : α → Unknown) (l : List α) :
    items (some (unknownToJsonValue (listOf f l))) = l.map fun a => unknownToJsonValue (f a) := by
  rw [listOf, unknownToJsonValue, unknownItems_eq, List.map_map]
  rfl

def ProtoFree (v : JsonValue) : Prop := withoutProto v = v

theorem jsonOf_payload (h : ProtoFree v) : jsonOf (some (unknownToJsonValue (asUnknown v))) = v := by
  rw [jsonOf, Option.elim_some, unknownToJsonValue_asUnknown, unknownToJsonValue_asUnknown, h, h]

theorem StoredToolCall.plain (c : StoredToolCall JsonValue) : Plain c.fields where
  names := by simp [fields]
  proto := by simp [fields]
  defined := by simp [fields]

@[simp] theorem toJson_string : unknownToJsonValue (.string s) = .string s := rfl
@[simp] theorem toJson_text : unknownToJsonValue (text s) = .string (ascii s) := rfl
@[simp] theorem toJson_number : unknownToJsonValue (.number (.finite n)) = .number n := rfl
@[simp] theorem toJson_boolean : unknownToJsonValue (.boolean b) = .boolean b := rfl

@[simp] theorem string?_none : string? none = none := rfl
@[simp] theorem record?_none : record? none = none := rfl
@[simp] theorem string?_string : string? (some (.string s)) = some s := rfl
@[simp] theorem number?_number : number? (some (.number n)) = some n := rfl
@[simp] theorem boolean?_boolean : boolean? (some (.boolean b)) = some b := rfl
@[simp] theorem record?_object : record? (some (.object fields)) = some fields := rfl

@[simp] theorem filled?_string (s : Units) : filled? (some (.string s)) = if s ≠ [] then some s else none := by
  simp [filled?, Option.filter_some]

theorem readStoredToolCall_eq (c : StoredToolCall JsonValue) (hp : ProtoFree c.input) :
    readStoredToolCall (unknownToJsonValue c.toUnknown)
      = if c.toolCallId ≠ [] ∧ c.toolName ≠ [] then some c else none := by
  have hread : readStoredToolCall (unknownToJsonValue c.toUnknown) = do
      let toolCallId ← filled? (some (.string c.toolCallId))
      let toolName ← filled? (some (.string c.toolName))
      return ⟨toolCallId, toolName, c.input⟩ := by
    rw [StoredToolCall.toUnknown, unknownToJsonValue_record c.plain, readStoredToolCall]
    simp only [field_fieldsOf c.plain.names, record?_object, Option.bind_eq_bind, Option.bind_some]
    simp [StoredToolCall.fields, List.lookup, jsonOf_payload hp]
  rw [hread]
  by_cases hid : c.toolCallId = []
  · simp [hid]
  · by_cases hname : c.toolName = []
    · simp [hid, hname]
    · simp [hid, hname]

def finite? : JsNumber → Option JsonNumber
  | .finite n => some n
  | _ => none

@[simp] theorem number?_toJson (n : JsNumber) : number? (some (unknownToJsonValue (.number n))) = finite? n := by
  cases n <;> rfl

@[simp] theorem string?_map (o : Option Units) : string? (o.map (unknownToJsonValue ∘ Unknown.string)) = o := by
  cases o <;> rfl

@[simp] theorem number?_map (o : Option JsNumber) :
    number? (o.map (unknownToJsonValue ∘ Unknown.number)) = o.bind finite? := by
  cases o with
  | none => rfl
  | some n => exact number?_toJson n

theorem StoredReasoningSummary.plain (s : StoredReasoningSummary) : Plain s.fields where
  names := by simp [fields]
  proto := by simp [fields]
  defined := by simp [fields]

theorem readReasoningSummary_eq (s : StoredReasoningSummary) :
    readReasoningSummary (unknownToJsonValue s.toUnknown) = if s.id ≠ [] ∧ s.text ≠ [] then some s else none := by
  have hread : readReasoningSummary (unknownToJsonValue s.toUnknown) = do
      let id ← filled? (some (.string s.id))
      let text ← filled? (some (.string s.text))
      return ⟨id, text⟩ := by
    rw [StoredReasoningSummary.toUnknown, unknownToJsonValue_record s.plain, readReasoningSummary]
    simp only [field_fieldsOf s.plain.names, record?_object, Option.bind_eq_bind, Option.bind_some]
    simp [StoredReasoningSummary.fields, List.lookup]
  rw [hread]
  by_cases hid : s.id = []
  · simp [hid]
  · by_cases htext : s.text = []
    · simp [hid, htext]
    · simp [hid, htext]

theorem StoredModelContextSnapshot.plain (m : StoredModelContextSnapshot) : Plain m.fields where
  names := by simp [fields]
  proto := by simp [fields]
  defined := by simp [fields]

def StoredModelContextSnapshot.read? (m : StoredModelContextSnapshot) : Option StoredModelContextSnapshot := do
  let inputTokens ← finite? m.inputTokens
  let compactThresholdTokens ← finite? m.compactThresholdTokens
  return ⟨.finite (.atLeast 0 inputTokens.trunc), .finite (.atLeast 1 compactThresholdTokens.trunc), m.compacted⟩

theorem readModelContextMetadata_eq (m : StoredModelContextSnapshot) :
    readModelContextMetadata (some (unknownToJsonValue m.toUnknown)) = m.read? := by
  rw [StoredModelContextSnapshot.toUnknown, unknownToJsonValue_record m.plain, readModelContextMetadata]
  simp only [field_fieldsOf m.plain.names, record?_object, Option.bind_eq_bind, Option.bind_some]
  simp [StoredModelContextSnapshot.fields, List.lookup, StoredModelContextSnapshot.read?]

theorem StoredModelProviderContinuation.plain (m : StoredModelProviderContinuation JsonValue) : Plain m.fields where
  names := by simp [fields]
  proto := by simp [fields]
  defined := by simp [fields]

theorem readProviderContinuationMetadata_eq (m : StoredModelProviderContinuation JsonValue) (hp : ProtoFree m.state) :
    readProviderContinuationMetadata (some (unknownToJsonValue m.toUnknown)) = some m := by
  rw [StoredModelProviderContinuation.toUnknown, unknownToJsonValue_record m.plain, readProviderContinuationMetadata]
  simp only [field_fieldsOf m.plain.names, record?_object, Option.bind_eq_bind, Option.bind_some]
  simp [StoredModelProviderContinuation.fields, List.lookup, jsonOf_payload hp]

theorem WebSource.plain (s : WebSource) : Plain s.fields where
  names := by simp [fields]
  proto := by simp [fields]
  defined := by simp [fields]

@[simp] theorem provider?_name (p : WebSourceProvider) : provider? (ascii p.name) = some p := by
  cases p <;> decide

theorem readWebSource_eq (s : WebSource) :
    readWebSource (unknownToJsonValue s.toUnknown) = if s.id ≠ [] ∧ s.url ≠ []
      then some { s with resultPosition := (s.resultPosition.bind finite?).map .finite } else none := by
  have hread : readWebSource (unknownToJsonValue s.toUnknown) = do
      let id ← filled? (some (.string s.id))
      let url ← filled? (some (.string s.url))
      return { s with id := id, url := url, resultPosition := (s.resultPosition.bind finite?).map .finite } := by
    rw [WebSource.toUnknown, unknownToJsonValue_record s.plain, readWebSource]
    simp only [field_fieldsOf s.plain.names, record?_object, Option.bind_eq_bind, Option.bind_some]
    simp [WebSource.fields, List.lookup]
  rw [hread]
  by_cases hid : s.id = []
  · simp [hid]
  · by_cases hurl : s.url = []
    · simp [hid, hurl]
    · simp [hid, hurl]

theorem CharacterRange.plain (r : CharacterRange) : Plain r.fields where
  names := by simp [fields]
  proto := by simp [fields]
  defined := by simp [fields]

def CharacterRange.read? (r : CharacterRange) : Option CharacterRange := do
  let start ← (finite? r.start).filter fun n => n.IsInteger
  let stop ← (finite? r.stop).filter fun n => n.IsInteger
  return ⟨.finite start, .finite stop⟩

theorem readCitationCharacterRange_eq (r : CharacterRange) :
    readCitationCharacterRange (some (unknownToJsonValue r.toUnknown)) = r.read? := by
  rw [CharacterRange.toUnknown, unknownToJsonValue_record r.plain, readCitationCharacterRange]
  simp only [field_fieldsOf r.plain.names, record?_object, Option.bind_eq_bind, Option.bind_some]
  simp [CharacterRange.fields, List.lookup, CharacterRange.read?, integer?]

@[simp] theorem defined_characterRange (r : CharacterRange) : Defined r.toUnknown := trivial

theorem MessageCitation.plain (c : MessageCitation) : Plain c.fields where
  names := by simp [fields]
  proto := by simp [fields]
  defined := by simp [fields]

theorem readMessageCitation_eq (c : MessageCitation) :
    readMessageCitation (unknownToJsonValue c.toUnknown)
      = some { c with characterRange := c.characterRange.bind (·.read?) } := by
  have hrange : readCitationCharacterRange (c.characterRange.map (unknownToJsonValue ∘ fun r => r.toUnknown))
      = c.characterRange.bind fun r => r.read? := by
    cases c.characterRange with
    | none => rfl
    | some r => exact readCitationCharacterRange_eq r
  rw [MessageCitation.toUnknown, unknownToJsonValue_record c.plain, readMessageCitation]
  simp only [field_fieldsOf c.plain.names, record?_object, Option.bind_eq_bind, Option.bind_some]
  simp [MessageCitation.fields, List.lookup, hrange]

theorem items_filterMap {f : α → Unknown} {g : JsonValue → Option β} {h : α → Option β}
    (hg : ∀ a ∈ l, g (unknownToJsonValue (f a)) = h a) :
    (items (some (unknownToJsonValue (listOf f l)))).filterMap g = l.filterMap h := by
  rw [items_listOf, List.filterMap_map]
  exact List.filterMap_congr hg

theorem unlessEmpty_items {f : α → Unknown} {g : JsonValue → Option β} {h : α → Option β}
    (hg : ∀ a, g (unknownToJsonValue (f a)) = h a) (o : Option (List α)) :
    unlessEmpty ((items (o.map (unknownToJsonValue ∘ listOf f))).filterMap g)
      = unlessEmpty ((o.getD []).filterMap h) := by
  cases o with
  | none => rfl
  | some l =>
    refine congrArg _ (items_filterMap fun a _ => hg a)

theorem filterMap_ite {p : α → Prop} [DecidablePred p] (l : List α) :
    (l.filterMap fun a => if p a then some a else none) = l.filter p := by
  induction l with
  | nil => rfl
  | cons a l ih =>
    by_cases h : p a
    · simp [h, ih]
    · simp [h, ih]

def readCalls (calls : List (StoredToolCall JsonValue)) : List (StoredToolCall JsonValue) :=
  calls.filter fun c => c.toolCallId ≠ [] ∧ c.toolName ≠ []

def readSummaries (reasoning : Option (List StoredReasoningSummary)) : Option (List StoredReasoningSummary) :=
  unlessEmpty ((reasoning.getD []).filter fun s => s.id ≠ [] ∧ s.text ≠ [])

def WebSource.read? (s : WebSource) : Option WebSource :=
  if s.id ≠ [] ∧ s.url ≠ [] then some { s with resultPosition := (s.resultPosition.bind finite?).map .finite } else none

def MessageCitation.read (c : MessageCitation) : MessageCitation :=
  { c with characterRange := c.characterRange.bind (·.read?) }

def readSources (sources : Option (List WebSource)) : Option (List WebSource) :=
  unlessEmpty ((sources.getD []).filterMap (·.read?))

def readCitations (citations : Option (List MessageCitation)) : Option (List MessageCitation) :=
  unlessEmpty ((citations.getD []).map (·.read))

theorem readReasoningMetadata_eq (reasoning : Option (List StoredReasoningSummary)) :
    readReasoningMetadata (reasoning.map (unknownToJsonValue ∘ listOf (·.toUnknown))) = readSummaries reasoning := by
  rw [readReasoningMetadata, unlessEmpty_items readReasoningSummary_eq, filterMap_ite]
  rfl

theorem readWebSources_eq (sources : Option (List WebSource)) :
    readWebSources (sources.map (unknownToJsonValue ∘ listOf (·.toUnknown))) = readSources sources :=
  unlessEmpty_items readWebSource_eq sources

theorem readMessageCitations_eq (citations : Option (List MessageCitation)) :
    readMessageCitations (citations.map (unknownToJsonValue ∘ listOf (·.toUnknown))) = readCitations citations := by
  rw [readMessageCitations, unlessEmpty_items readMessageCitation_eq, readCitations]
  congr 1
  exact congrFun List.filterMap_eq_map' _

theorem readModelContextMetadata_map (context : Option StoredModelContextSnapshot) :
    readModelContextMetadata (context.map (unknownToJsonValue ∘ fun m => m.toUnknown)) = context.bind (·.read?) := by
  cases context with
  | none => rfl
  | some m => exact readModelContextMetadata_eq m

theorem readStoredToolCalls_eq (calls : List (StoredToolCall JsonValue)) (hp : ∀ c ∈ calls, ProtoFree c.input) :
    readStoredToolCalls (some (unknownToJsonValue (listOf (·.toUnknown) calls))) = readCalls calls := by
  rw [readStoredToolCalls, items_filterMap fun c hc => readStoredToolCall_eq c (hp c hc), filterMap_ite]
  rfl

theorem readProviderContinuationMetadata_map (o : Option (StoredModelProviderContinuation JsonValue))
    (hp : ∀ m ∈ o, ProtoFree m.state) :
    readProviderContinuationMetadata (o.map (unknownToJsonValue ∘ fun m => m.toUnknown)) = o := by
  cases o with
  | none => rfl
  | some m => exact readProviderContinuationMetadata_eq m (hp m rfl)

def AgentRuntimeMessageMetadata.ProtoFree : AgentRuntimeMessageMetadata JsonValue → Prop
  | approvalDecision _ => True
  | userMessage attachmentManifest => Messages.ProtoFree attachmentManifest
  | assistantToolCalls m => (∀ c ∈ m.toolCalls, Messages.ProtoFree c.input) ∧
      ∀ p ∈ m.providerContinuation, Messages.ProtoFree p.state
  | assistantFinal m => ∀ p ∈ m.providerContinuation, Messages.ProtoFree p.state
  | toolResult m => Messages.ProtoFree m.input ∧ Messages.ProtoFree m.result ∧
      ∀ fields ∈ m.projectionNotice, Messages.ProtoFree (.object fields)

def AgentRuntimeMessageMetadata.read : AgentRuntimeMessageMetadata JsonValue → AgentRuntimeMessageMetadata JsonValue
  | approvalDecision m => .approvalDecision m
  | userMessage attachmentManifest => .userMessage attachmentManifest
  | assistantToolCalls m => .assistantToolCalls
      { m with toolCalls := readCalls m.toolCalls, reasoning := readSummaries m.reasoning,
               modelContext := m.modelContext.bind (·.read?) }
  | assistantFinal m => .assistantFinal
      { m with reasoning := readSummaries m.reasoning, sources := readSources m.sources,
               citations := readCitations m.citations, modelContext := m.modelContext.bind (·.read?) }
  | toolResult m => .toolResult m

@[simp] theorem decidedStatus?_name (s : DecidedStatus) : decidedStatus? (ascii s.name) = some s := by
  cases s <;> decide

theorem ApprovalDecisionMessageMetadata.plain (m : ApprovalDecisionMessageMetadata) : Plain m.fields where
  names := by simp [fields, header]
  proto := by simp [fields, header]
  defined := by simp [fields, header]

theorem readApprovalDecision_eq (m : ApprovalDecisionMessageMetadata) :
    readApprovalDecision (fieldsOf m.fields) = some m := by
  unfold readApprovalDecision
  simp only [field_fieldsOf m.plain.names]
  simp [ApprovalDecisionMessageMetadata.fields, header, List.lookup]

theorem userMessage_plain (attachmentManifest : JsonValue) : Plain (userMessageFields attachmentManifest) where
  names := by simp [userMessageFields, header]
  proto := by simp [userMessageFields, header]
  defined := by simp [userMessageFields, header]

@[simp] theorem defined_modelContext (m : StoredModelContextSnapshot) : Defined m.toUnknown := trivial
@[simp] theorem defined_continuation (m : StoredModelProviderContinuation JsonValue) : Defined m.toUnknown := trivial

theorem AssistantToolCallsMetadata.plain (m : AssistantToolCallsMetadata JsonValue) : Plain m.fields where
  names := by simp [fields, header]
  proto := by simp [fields, header]
  defined := by simp [fields, header]

theorem readAssistantToolCalls_eq (m : AssistantToolCallsMetadata JsonValue)
    (hcalls : ∀ c ∈ m.toolCalls, ProtoFree c.input) (hstate : ∀ p ∈ m.providerContinuation, ProtoFree p.state) :
    readAssistantToolCalls (fieldsOf m.fields) = some
      { m with toolCalls := readCalls m.toolCalls, reasoning := readSummaries m.reasoning,
               modelContext := m.modelContext.bind (·.read?) } := by
  unfold readAssistantToolCalls
  simp only [field_fieldsOf m.plain.names]
  simp [AssistantToolCallsMetadata.fields, header, List.lookup, readStoredToolCalls_eq m.toolCalls hcalls,
    readReasoningMetadata_eq, readModelContextMetadata_map, readProviderContinuationMetadata_map _ hstate]

theorem AssistantFinalMetadata.plain (m : AssistantFinalMetadata JsonValue) : Plain m.fields where
  names := by simp [fields, header]
  proto := by simp [fields, header]
  defined := by simp [fields, header]

theorem finishStatus_name (s : FinishStatus) :
    (if ascii s.name = ascii "cancelled" then FinishStatus.cancelled else .completed) = s := by
  cases s <;> decide

theorem readAssistantFinal_eq (m : AssistantFinalMetadata JsonValue)
    (hstate : ∀ p ∈ m.providerContinuation, ProtoFree p.state) :
    readAssistantFinal (fieldsOf m.fields) = some
      { m with reasoning := readSummaries m.reasoning, sources := readSources m.sources,
               citations := readCitations m.citations, modelContext := m.modelContext.bind (·.read?) } := by
  unfold readAssistantFinal
  simp only [field_fieldsOf m.plain.names]
  simp [AssistantFinalMetadata.fields, header, List.lookup, readReasoningMetadata_eq, readWebSources_eq,
    readMessageCitations_eq, readModelContextMetadata_map, readProviderContinuationMetadata_map _ hstate,
    finishStatus_name]

theorem ToolResultMetadata.plain (m : ToolResultMetadata JsonValue) : Plain m.fields where
  names := by simp [fields, header]
  proto := by simp [fields, header]
  defined := by simp [fields, header]

theorem readNotice_eq (notice : Option JsonObject) (hp : ∀ fields ∈ notice, ProtoFree (.object fields)) :
    record? (jsonOf (notice.map (unknownToJsonValue ∘ fun fields => asUnknown (.object fields)))) = notice := by
  cases notice with
  | none => rfl
  | some fields =>
    have hjson := jsonOf_payload (hp fields rfl)
    exact congrArg (fun v => record? (some v)) hjson

theorem readToolResult_eq (m : ToolResultMetadata JsonValue) (hinput : ProtoFree m.input) (hresult : ProtoFree m.result)
    (hnotice : ∀ fields ∈ m.projectionNotice, ProtoFree (.object fields)) :
    readToolResult (fieldsOf m.fields) = some m := by
  unfold readToolResult
  simp only [field_fieldsOf m.plain.names]
  simp [ToolResultMetadata.fields, header, List.lookup, jsonOf_payload hinput, jsonOf_payload hresult,
    readNotice_eq m.projectionNotice hnotice]

end Catalyst.Messages
