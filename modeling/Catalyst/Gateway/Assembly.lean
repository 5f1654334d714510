import Mathlib
import Catalyst.Gateway.EventStream
import Catalyst.Gateway.Model
import Catalyst.Library.Grouped

/-!
# A completion put together

Each piece of a chat completion is handed on as it comes and added to what has come: the text, and
the calls by their index. The completion at the end is made of all of it.
-/

namespace Catalyst.Gateway

open Library Transducer

/-- An element of `delta.tool_calls`. -/
structure ToolCallDelta (ι : Type) where
  index : ι
  id : Option String
  /-- `function?.name` -/
  name : Option String
  /-- `function?.arguments` -/
  arguments : Option String

/-- `choice.delta` -/
structure ChoiceDelta (ι : Type) where
  content : Option String
  toolCalls : List (ToolCallDelta ι)

/-- `OpenAiCompatibleStreamChunk`, the usage as `toModelUsage` reads it -/
structure StreamChunk (ι : Type) where
  usage : Option ModelCallUsage
  serviceTier : Option String
  choices : List (Option (ChoiceDelta ι))

def noReportedUsage : ModelCallUsage := ⟨0, 0, 0, 0, .notReported, 0, none⟩

def readProviderServiceTier (payload : StreamChunk ι) : Option String := payload.serviceTier.filter fun t => t ≠ ""

/-- `{ ...usage, ...serviceTier }` -/
def withServiceTier (usage : ModelCallUsage) (serviceTier : Option String) : ModelCallUsage :=
  { usage with providerServiceTier := serviceTier <|> usage.providerServiceTier }

/-- `Partial<OpenAiCompatibleStreamingToolCall>` -/
structure StreamingToolCall where
  id : Option String := none
  name : Option String := none
  arguments : String := ""

def StreamingToolCall.update (existing : StreamingToolCall) (toolCall : ToolCallDelta ι) : StreamingToolCall :=
  { id := toolCall.id <|> existing.id
    name := toolCall.name <|> existing.name
    arguments := existing.arguments ++ toolCall.arguments.getD "" }

structure StreamingCalls (ι : Type) where
  toolCalls : OrderedMap ι StreamingToolCall := []
  announcedToolCalls : List ι := []

def filled (s : Option String) : Option String := s.filter fun t => t ≠ ""

variable {ι : Type} [DecidableEq ι]

def StreamingCalls.updated (s : StreamingCalls ι) (toolCall : ToolCallDelta ι) : StreamingToolCall :=
  ((s.toolCalls.get? toolCall.index).getD {}).update toolCall

def StreamingToolCall.ready (toolNameMap : String → Option String) (call : StreamingToolCall) : Option (String × String) := do
  let id ← filled call.id
  let mappedToolName ← filled ((filled call.name).bind toolNameMap)
  return (id, mappedToolName)

/-- One element of `delta.tool_calls`. -/
def toolCallStep (toolNameMap : String → Option String) : Transducer (StreamingCalls ι) (ToolCallDelta ι) AdapterEvent :=
  fun s toolCall =>
    let updated := s.updated toolCall
    let announced := if toolCall.index ∈ s.announcedToolCalls then none else updated.ready toolNameMap
    ((announced.map fun a => AdapterEvent.answer (.toolCallPreparing a.1 a.2)).toList
        ++ ((filled toolCall.arguments).map AdapterEvent.toolCallInputDelta).toList,
      { toolCalls := s.toolCalls.set toolCall.index updated
        announcedToolCalls := s.announcedToolCalls ++ if announced.isSome then [toolCall.index] else [] })

structure Assembly (ι : Type) where
  text : String := ""
  usage : ModelCallUsage := noReportedUsage
  serviceTier : Option String := none
  calls : StreamingCalls ι := {}

def choiceStep (toolNameMap : String → Option String) :
    Transducer (Assembly ι) (Option (ChoiceDelta ι)) AdapterEvent := fun s choice =>
  match choice with
  | none => ([], s)
  | some delta =>
    let content := filled delta.content
    let (events, calls) := run (toolCallStep toolNameMap) s.calls delta.toolCalls
    ((content.map fun text => AdapterEvent.answer (.textDelta text)).toList ++ events,
      { s with text := s.text ++ content.getD "", calls := calls })

def chunkStep (toolNameMap : String → Option String) : Transducer (Assembly ι) (StreamChunk ι) AdapterEvent :=
  fun s payload =>
    let usage := payload.usage.getD s.usage
    let serviceTier := readProviderServiceTier payload <|> s.serviceTier
    -- A connection that breaks before the completion marker keeps the usage.
    let reported := payload.usage.map fun _ => AdapterEvent.usageReported (withServiceTier usage serviceTier)
    let (events, s') := run (choiceStep toolNameMap) { s with usage := usage, serviceTier := serviceTier } payload.choices
    (reported.toList ++ events, s')

structure ParsedToolInput (J : Type) where
  input : J
  inputParseError : Option String

/-- `JSON.parse` and `{}` -/
structure Json (J : Type) where
  parse : String → Option J
  empty : J

def parseToolInput (json : Json J) (value : String) : ParsedToolInput J :=
  if value = "" then ⟨json.empty, none⟩
  else match json.parse value with
    | some input => ⟨input, none⟩
    | none => ⟨json.empty, some value⟩

structure CompletedToolCall (J : Type) extends ParsedToolInput J where
  toolCallId : String
  toolName : String

structure StreamedCompletion (J : Type) where
  text : String
  toolCalls : List (CompletedToolCall J)
  usage : ModelCallUsage

def completedToolCall (toolNameMap : String → Option String) (json : Json J) (call : StreamingToolCall) :
    Option (CompletedToolCall J) := do
  let id ← filled call.id
  let name ← filled call.name
  return { toParsedToolInput := parseToolInput json call.arguments
           toolCallId := id
           toolName := (toolNameMap name).getD name }

def completion (toolNameMap : String → Option String) (json : Json J) (s : Assembly ι) : StreamedCompletion J where
  text := s.text
  toolCalls := s.calls.toolCalls.values.filterMap (completedToolCall toolNameMap json)
  usage := withServiceTier s.usage s.serviceTier

inductive StreamEnd (J : Type)
  | completed (completion : StreamedCompletion J)
  /-- The stream ended before the completion marker. -/
  | timeout
  | invalidJson

def doneMarker : Text := "[DONE]".toList

variable (parseStreamChunk : Text → Option (StreamChunk ι)) (toolNameMap : String → Option String) (json : Json J)

def streamFrom (s : Assembly ι) : List Text → List AdapterEvent × StreamEnd J
  | [] => ([], .timeout)
  | data :: rest =>
    if data = doneMarker then ([], .completed (completion toolNameMap json s))
    else match parseStreamChunk data with
      | none => ([], .invalidJson)
      | some payload =>
        let (events, s') := chunkStep toolNameMap s payload
        let (later, ended) := streamFrom s' rest
        (events ++ later, ended)

def streamOpenAiCompatibleCompletion (data : List Text) : List AdapterEvent × StreamEnd J :=
  streamFrom parseStreamChunk toolNameMap json {} data

/-- The chunks up to the completion marker, or to data that is no JSON. -/
def parsedChunks : List Text → List (StreamChunk ι)
  | [] => []
  | data :: rest =>
    if data = doneMarker then []
    else match parseStreamChunk data with
      | none => []
      | some payload => payload :: parsedChunks rest

theorem streamFrom_eq (s : Assembly ι) (data : List Text) :
    (streamFrom parseStreamChunk toolNameMap json s data).1
        = (run (chunkStep toolNameMap) s (parsedChunks parseStreamChunk data)).1 ∧
      ∀ c, (streamFrom parseStreamChunk toolNameMap json s data).2 = .completed c →
        c = completion toolNameMap json (run (chunkStep toolNameMap) s (parsedChunks parseStreamChunk data)).2 := by
  induction data generalizing s with
  | nil =>
    refine ⟨rfl, fun c h => ?_⟩
    cases h
  | cons d rest ih =>
    by_cases hdone : d = doneMarker
    · simp only [streamFrom, parsedChunks, if_pos hdone, run_nil, true_and]
      exact fun c h => (StreamEnd.completed.inj h).symm
    · cases hparse : parseStreamChunk d with
      | none =>
        simp only [streamFrom, parsedChunks, if_neg hdone, hparse, run_nil, true_and]
        intro c h
        cases h
      | some payload =>
        obtain ⟨hevents, hended⟩ := ih (chunkStep toolNameMap s payload).2
        simp only [streamFrom, parsedChunks, if_neg hdone, hparse, run_cons]
        exact ⟨congrArg _ hevents, hended⟩

def StreamChunk.toolCallDeltas (payload : StreamChunk ι) : List (ToolCallDelta ι) :=
  payload.choices.flatMap fun choice => choice.elim [] (·.toolCalls)

def AdapterEvent.textDelta? : AdapterEvent → Option String
  | answer (.textDelta delta) => some delta
  | _ => none

def AdapterEvent.preparing? : AdapterEvent → Option (String × String)
  | answer (.toolCallPreparing toolCallId toolName) => some (toolCallId, toolName)
  | _ => none

def Grows (s : Assembly ι) (events : List AdapterEvent) (s' : Assembly ι) : Prop :=
  s'.text = (events.filterMap (·.textDelta?)).foldl (· ++ ·) s.text

omit [DecidableEq ι] in
theorem Grows.append {s s' s'' : Assembly ι} (h : Grows s es s') (h' : Grows s' es' s'') : Grows s (es ++ es') s'' := by
  unfold Grows at *
  rw [h', h, List.filterMap_append, List.foldl_append]

theorem textDelta?_toolCallStep (s : StreamingCalls ι) (deltas : List (ToolCallDelta ι)) :
    (run (toolCallStep toolNameMap) s deltas).1.filterMap (·.textDelta?) = [] := by
  refine run_induction (motive := fun _ (es : List AdapterEvent) _ => es.filterMap (·.textDelta?) = []) (fun _ => rfl) ?_ deltas ?_
  · intro _ es _ es' _ h h'
    rw [List.filterMap_append, h, h', List.append_nil]
  · intro s delta _
    simp only [toolCallStep]
    cases (if delta.index ∈ s.announcedToolCalls then none else (s.updated delta).ready toolNameMap) <;>
      cases filled delta.arguments <;> rfl

theorem choiceStep_grows (s : Assembly ι) (choice : Option (ChoiceDelta ι)) :
    Grows s (choiceStep toolNameMap s choice).1 (choiceStep toolNameMap s choice).2 := by
  cases choice with
  | none => rfl
  | some delta =>
    simp only [Grows, choiceStep, List.filterMap_append, textDelta?_toolCallStep, List.append_nil]
    cases filled delta.content with
    | none => simp
    | some text => rfl

theorem chunkStep_grows (s : Assembly ι) (payload : StreamChunk ι) :
    Grows s (chunkStep toolNameMap s payload).1 (chunkStep toolNameMap s payload).2 := by
  have hchoices : ∀ s : Assembly ι, Grows s (run (choiceStep toolNameMap) s payload.choices).1
      (run (choiceStep toolNameMap) s payload.choices).2 := fun s =>
    run_induction (fun _ => rfl) Grows.append payload.choices fun s choice _ => choiceStep_grows toolNameMap s choice
  have hreported : ∀ (usage : Option ModelCallUsage) (reported : ModelCallUsage → ModelCallUsage),
      (usage.map fun u => AdapterEvent.usageReported (reported u)).toList.filterMap (·.textDelta?) = [] := by
    intro usage reported
    cases usage <;> rfl
  unfold Grows chunkStep
  simp only [List.filterMap_append, hreported, List.nil_append]
  exact hchoices _

theorem run_chunkStep_grows (s : Assembly ι) (payloads : List (StreamChunk ι)) :
    Grows s (run (chunkStep toolNameMap) s payloads).1 (run (chunkStep toolNameMap) s payloads).2 :=
  run_induction (fun _ => rfl) Grows.append payloads fun s payload _ => chunkStep_grows toolNameMap s payload

theorem choiceStep_calls (s : Assembly ι) (choice : Option (ChoiceDelta ι)) :
    (choiceStep toolNameMap s choice).1.filterMap (·.preparing?)
        = (run (toolCallStep toolNameMap) s.calls (choice.elim [] (·.toolCalls))).1.filterMap (·.preparing?) ∧
      (choiceStep toolNameMap s choice).2.calls
        = (run (toolCallStep toolNameMap) s.calls (choice.elim [] (·.toolCalls))).2 := by
  cases choice with
  | none => exact ⟨rfl, rfl⟩
  | some delta =>
    refine ⟨?_, rfl⟩
    simp only [choiceStep, List.filterMap_append, Option.elim_some]
    cases filled delta.content <;> rfl

theorem chunkStep_calls (s : Assembly ι) (payload : StreamChunk ι) :
    (chunkStep toolNameMap s payload).1.filterMap (·.preparing?)
        = (run (toolCallStep toolNameMap) s.calls payload.toolCallDeltas).1.filterMap (·.preparing?) ∧
      (chunkStep toolNameMap s payload).2.calls = (run (toolCallStep toolNameMap) s.calls payload.toolCallDeltas).2 := by
  have hchoices : ∀ s : Assembly ι,
      (run (choiceStep toolNameMap) s payload.choices).1.filterMap (·.preparing?)
          = (run (toolCallStep toolNameMap) s.calls payload.toolCallDeltas).1.filterMap (·.preparing?) ∧
        (run (choiceStep toolNameMap) s payload.choices).2.calls
          = (run (toolCallStep toolNameMap) s.calls payload.toolCallDeltas).2 := fun s =>
    run_flatMap (choiceStep_calls toolNameMap) s payload.choices
  unfold chunkStep
  refine ⟨?_, (hchoices _).2⟩
  simp only [List.filterMap_append, (hchoices _).1]
  cases payload.usage <;> rfl

def toolCallDeltas (payloads : List (StreamChunk ι)) : List (ToolCallDelta ι) := payloads.flatMap (·.toolCallDeltas)

theorem run_chunkStep_calls (s : Assembly ι) (payloads : List (StreamChunk ι)) :
    (run (chunkStep toolNameMap) s payloads).1.filterMap (·.preparing?)
        = (run (toolCallStep toolNameMap) s.calls (toolCallDeltas payloads)).1.filterMap (·.preparing?) ∧
      (run (chunkStep toolNameMap) s payloads).2.calls
        = (run (toolCallStep toolNameMap) s.calls (toolCallDeltas payloads)).2 :=
  run_flatMap (chunkStep_calls toolNameMap) s payloads

theorem run_toolCalls (s : StreamingCalls ι) (deltas : List (ToolCallDelta ι)) :
    (run (toolCallStep toolNameMap) s deltas).2.toolCalls
      = deltas.foldl (fun m d => m.set d.index (((m.get? d.index).getD {}).update d)) s.toolCalls := by
  induction deltas generalizing s with
  | nil => rfl
  | cons d deltas ih => exact ih _

def gathered (own : List (ToolCallDelta ι)) : StreamingToolCall where
  id := (own.filterMap (·.id)).getLast?
  name := (own.filterMap (·.name)).getLast?
  arguments := String.join (own.map (·.arguments.getD ""))

omit [DecidableEq ι] in
theorem foldl_update (own : List (ToolCallDelta ι)) : own.foldl StreamingToolCall.update {} = gathered own := by
  induction own using List.reverseRecOn with
  | nil => rfl
  | append_singleton own d ih =>
    rw [List.foldl_concat, ih]
    simp only [gathered, StreamingToolCall.update, List.filterMap_append, List.getLast?_append, List.map_append,
      String.join, List.foldl_append]
    congr 1
    · cases hid : d.id <;> simp [hid]
    · cases hname : d.name <;> simp [hname]

def announcements (toolNameMap : String → Option String) (s : StreamingCalls ι) (deltas : List (ToolCallDelta ι))
    (index : ι) : List (String × String) :=
  ((trace (toolCallStep toolNameMap) s deltas).filter (·.1.index = index)).flatMap (·.2.filterMap (·.preparing?))

theorem toolCallStep_preparing (s : StreamingCalls ι) (delta : ToolCallDelta ι) :
    (toolCallStep toolNameMap s delta).1.filterMap (·.preparing?)
      = (if delta.index ∈ s.announcedToolCalls then none else (s.updated delta).ready toolNameMap).toList := by
  simp only [toolCallStep]
  cases (if delta.index ∈ s.announcedToolCalls then none else (s.updated delta).ready toolNameMap) <;>
    cases filled delta.arguments <;> rfl

theorem announcements_length_le (s : StreamingCalls ι) (deltas : List (ToolCallDelta ι)) (index : ι) :
    (announcements toolNameMap s deltas index).length ≤ if index ∈ s.announcedToolCalls then 0 else 1 := by
  induction deltas generalizing s with
  | nil => exact Nat.zero_le _
  | cons d deltas ih =>
    have hrest := ih (toolCallStep toolNameMap s d).2
    unfold announcements at hrest ⊢
    rw [trace, List.filter_cons]
    have hkept : index ∈ s.announcedToolCalls → index ∈ (toolCallStep toolNameMap s d).2.announcedToolCalls :=
      List.mem_append_left _
    by_cases hindex : d.index = index
    · subst hindex
      rw [if_pos (decide_eq_true rfl), List.flatMap_cons, List.length_append, toolCallStep_preparing]
      by_cases hmem : d.index ∈ s.announcedToolCalls
      · rw [if_pos hmem, if_pos hmem]
        rw [if_pos (hkept hmem)] at hrest
        simpa using hrest
      · rw [if_neg hmem, if_neg hmem]
        cases hready : (s.updated d).ready toolNameMap with
        | none => exact (Nat.zero_add _).trans_le (hrest.trans (by split <;> decide))
        | some a =>
          have hnow : d.index ∈ (toolCallStep toolNameMap s d).2.announcedToolCalls := by
            simp [toolCallStep, hmem, hready]
          rw [if_pos hnow] at hrest
          exact Nat.add_le_add_left hrest 1
    · rw [if_neg (by simpa using hindex)]
      refine hrest.trans ?_
      by_cases hmem : index ∈ s.announcedToolCalls
      · rw [if_pos hmem, if_pos (hkept hmem)]
      · rw [if_neg hmem]
        split <;> decide

theorem completion_toolCalls (deltas : List (ToolCallDelta ι)) :
    ((run (toolCallStep toolNameMap) ({} : StreamingCalls ι) deltas).2.toolCalls.values.filterMap
        (completedToolCall toolNameMap json))
      = (deltas.map (·.index)).eraseDups.filterMap fun index =>
          completedToolCall toolNameMap json (gathered (deltas.filter (·.index = index))) := by
  rw [run_toolCalls, OrderedMap.foldl_set_eq_grouped, OrderedMap.grouped, OrderedMap.values, List.map_map,
    List.filterMap_map]
  simp only [Function.comp_def, foldl_update]

end Catalyst.Gateway
