import Catalyst.ChatUi.Projection
import Mathlib.Data.List.Infix

/-!
# What the parts of a projection show

Over any sequence of observations the parts of a projection hold each tool call and each
reasoning once, the same as its lists do. Their text only grows, and a completed message
stands at its end. A call that has not ended when the run does keeps its state.
-/

namespace Catalyst.ChatUi

open Library Runs

-- -----------------
-- Replacing by key
-- -----------------

section Keys

variable {p q : α → Bool} {l : List α} {x : α}

theorem filterMap_putFirst (f : α → Option β) (r : β → Bool) (y : β) (hx : f x = some y)
    (hfound : ∀ a, p a = ((f a).any r)) : (putFirst p x l).filterMap f = putFirst r y (l.filterMap f) := by
  induction l with
  | nil => simp [putFirst, hx]
  | cons a l ih =>
    rw [putFirst]
    cases hf : f a with
    | none =>
      have hp : p a = false := by rw [hfound, hf]; rfl
      rw [hp, if_neg (by simp), List.filterMap_cons_none hf, List.filterMap_cons_none hf, ih]
    | some b =>
      have hp : p a = r b := by rw [hfound, hf]; rfl
      cases hr : r b with
      | true => rw [hp, hr, if_pos rfl, List.filterMap_cons_some hx, List.filterMap_cons_some hf, putFirst, hr, if_pos rfl]
      | false =>
        rw [hp, hr, if_neg (by simp), List.filterMap_cons_some hf, List.filterMap_cons_some hf, putFirst, hr,
          if_neg (by simp), ih]

theorem filterMap_putFirst_other (f : α → Option β) (hx : f x = none) (hfound : ∀ a, p a = true → f a = none) :
    (putFirst p x l).filterMap f = l.filterMap f := by
  induction l with
  | nil => simp [putFirst, hx]
  | cons a l ih =>
    unfold putFirst
    split
    · next hp => simp [hx, hfound a hp]
    · cases hf : f a <;> simp [hf, ih]

theorem map_putFirst_subset (key : α → β) (hb : b ∈ (putFirst p x l).map key) : b = key x ∨ b ∈ l.map key := by
  induction l with
  | nil => exact .inl (by simpa [putFirst] using hb)
  | cons a l ih =>
    unfold putFirst at hb
    split at hb
    · obtain rfl | hb := List.mem_cons.mp hb
      · exact .inl rfl
      · exact .inr (List.mem_cons_of_mem _ hb)
    · obtain rfl | hb := List.mem_cons.mp hb
      · exact .inr List.mem_cons_self
      · exact (ih hb).imp id (List.mem_cons_of_mem _)

theorem nodup_putFirst [BEq β] [LawfulBEq β] (key : α → β) (h : (l.map key).Nodup) :
    ((putFirst (fun a => key a == key x) x l).map key).Nodup := by
  induction l with
  | nil => exact List.nodup_singleton _
  | cons a l ih =>
    obtain ⟨ha, hl⟩ := List.nodup_cons.mp h
    unfold putFirst
    split
    · next hp =>
      rw [beq_iff_eq] at hp
      rw [List.map_cons, ← hp]
      exact List.nodup_cons.mpr ⟨ha, hl⟩
    · next hp =>
      refine List.nodup_cons.mpr ⟨fun hmem => ?_, ih hl⟩
      obtain heq | hmem := map_putFirst_subset key hmem
      · exact hp (by simp [heq])
      · exact ha hmem

end Keys

def AgentRunProjectionPart.toolCall? : AgentRunProjectionPart → Option ToolCall
  | .toolCall call => some call
  | _ => none

def AgentRunProjectionPart.reasoning? : AgentRunProjectionPart → Option ReasoningEntry
  | .reasoning entry => some entry
  | _ => none

def AgentRunProjectionPart.text? : AgentRunProjectionPart → Option String
  | .text shown => some shown
  | _ => none

section Parts

variable {parts : List AgentRunProjectionPart}

theorem intercalate_empty (texts : List String) : "".intercalate texts = String.join texts := by
  induction texts with
  | nil => rfl
  | cons text texts ih =>
    cases texts with
    | nil => simp [String.join]
    | cons next texts =>
      rw [String.intercalate_cons_cons, ih, ← String.toList_inj]
      simp

theorem observedText_eq (parts : List AgentRunProjectionPart) : observedText parts = String.join (parts.filterMap (·.text?)) :=
  intercalate_empty _

@[simp] theorem join_append (as bs : List String) : String.join (as ++ bs) = String.join as ++ String.join bs := by
  rw [← String.toList_inj]
  simp

@[simp] theorem join_singleton (a : String) : String.join [a] = a := by simp [String.join]

theorem observedText_append (as bs : List AgentRunProjectionPart) :
    observedText (as ++ bs) = observedText as ++ observedText bs := by
  rw [observedText_eq, List.filterMap_append, join_append, ← observedText_eq, ← observedText_eq]

@[simp] theorem observedText_nil : observedText [] = "" := rfl

@[simp] theorem observedText_text (text : String) : observedText [.text text] = text := by
  rw [observedText_eq]
  exact join_singleton text

theorem observedText_appendText (parts : List AgentRunProjectionPart) (delta : String) :
    observedText (appendText parts delta) = observedText parts ++ delta := by
  unfold appendText
  split
  · next hempty => rw [hempty, String.append_empty]
  · split
    · next text hlast =>
      obtain ⟨front, rfl⟩ := List.getLast?_eq_some_iff.mp hlast
      rw [List.dropLast_concat, observedText_append, observedText_append, observedText_text, observedText_text,
        String.append_assoc]
    · rw [observedText_append, observedText_text]

theorem observedText_upsertPart (part : AgentRunProjectionPart) (hpart : part.text? = none) :
    observedText (upsertPart parts part) = observedText parts := by
  rw [observedText_eq, observedText_eq, upsertPart, filterMap_putFirst_other _ hpart]
  intro candidate hsame
  cases candidate with
  | text text => cases hsame
  | _ => rfl

theorem observedText_close (parts : List AgentRunProjectionPart) : observedText (parts.map .close) = observedText parts := by
  rw [observedText_eq, observedText_eq, List.filterMap_map]
  refine congrArg String.join (List.filterMap_congr fun part _ => ?_)
  cases part <;> rfl

/-- The text that is shown after an event: a completed message is added as far as the text does not end with it. -/
def shownAfter (shown : String) : EventBody → String
  | .messageDelta delta => shown ++ delta
  | .messageCompleted message =>
    if message.text.toList <:+ shown.toList then shown
    else if shown.toList <+: message.text.toList then message.text
    else shown ++ message.text
  | _ => shown

theorem observedText_reconcile (parts : List AgentRunProjectionPart) (message : AssistantMessage) :
    observedText (reconcileCompletedText parts message.text) = shownAfter (observedText parts) (.messageCompleted message) := by
  unfold reconcileCompletedText shownAfter
  by_cases hnone : (observedText parts).toList = []
  · have hempty : observedText parts = "" := String.toList_inj.mp hnone
    by_cases hcompleted : message.text = ""
    · by_cases hparts : parts = []
      · simp [hcompleted, hparts]
      · simp [hcompleted, hparts, hempty]
    · simp [hcompleted, observedText_append, hempty]
  · simp only [if_neg hnone]
    by_cases hend : message.text.toList <:+ (observedText parts).toList
    · rw [if_pos hend]
      by_cases hcompleted : message.text.toList = []
      · have hstart : ¬ (observedText parts).toList <+: message.text.toList := fun h => hnone (by simpa [hcompleted] using h)
        have hother : ¬ (message.text.toList = (observedText parts).toList ∨
            message.text.toList ≠ [] ∧ message.text.toList <:+ (observedText parts).toList) := by
          rw [hcompleted]
          simpa using Ne.symm hnone
        rw [if_neg hother, if_neg hstart, if_neg (by simpa using hcompleted)]
      · rw [if_pos (.inr ⟨hcompleted, hend⟩)]
    · have hother : ¬ (message.text.toList = (observedText parts).toList ∨
          message.text.toList ≠ [] ∧ message.text.toList <:+ (observedText parts).toList) := by
        rintro (h | ⟨-, h⟩)
        · exact hend (h ▸ List.suffix_rfl)
        · exact hend h
      have hcompleted : message.text.toList ≠ [] := fun h => hend (h ▸ List.nil_suffix)
      rw [if_neg hother, if_neg hend]
      by_cases hstart : (observedText parts).toList <+: message.text.toList
      · rw [if_pos hstart, if_pos hstart, observedText_appendText]
        obtain ⟨rest, hrest⟩ := hstart
        rw [← String.toList_inj, String.toList_append, String.toList_ofList, ← hrest, List.drop_left]
      · rw [if_neg hstart, if_neg hstart, if_pos hcompleted, observedText_appendText]

theorem toolCalls_upsertPart (parts : List AgentRunProjectionPart) (call : ToolCall) :
    (upsertPart parts (.toolCall call)).filterMap (·.toolCall?) =
      putFirst (·.toolCallId == call.toolCallId) call (parts.filterMap (·.toolCall?)) := by
  refine filterMap_putFirst _ _ _ rfl fun candidate => ?_
  cases candidate <;> rfl

theorem reasoning_upsertPart (parts : List AgentRunProjectionPart) (entry : ReasoningEntry) :
    (upsertPart parts (.reasoning entry)).filterMap (·.reasoning?) =
      putFirst (·.id == entry.id) entry (parts.filterMap (·.reasoning?)) := by
  refine filterMap_putFirst _ _ _ rfl fun candidate => ?_
  cases candidate <;> rfl

theorem toolCalls_upsert_reasoning (parts : List AgentRunProjectionPart) (entry : ReasoningEntry) :
    (upsertPart parts (.reasoning entry)).filterMap (·.toolCall?) = parts.filterMap (·.toolCall?) := by
  refine filterMap_putFirst_other _ rfl fun candidate hsame => ?_
  cases candidate with
  | toolCall call => cases hsame
  | _ => rfl

theorem reasoning_upsert_toolCall (parts : List AgentRunProjectionPart) (call : ToolCall) :
    (upsertPart parts (.toolCall call)).filterMap (·.reasoning?) = parts.filterMap (·.reasoning?) := by
  refine filterMap_putFirst_other _ rfl fun candidate hsame => ?_
  cases candidate with
  | reasoning entry => cases hsame
  | _ => rfl

theorem appendText_keeps (f : AgentRunProjectionPart → Option β) (hf : ∀ text, f (.text text) = none)
    (parts : List AgentRunProjectionPart) (delta : String) : (appendText parts delta).filterMap f = parts.filterMap f := by
  unfold appendText
  split
  · rfl
  · split
    · next text hlast =>
      obtain ⟨front, rfl⟩ := List.getLast?_eq_some_iff.mp hlast
      simp [hf]
    · simp [hf]

theorem reconcile_keeps (f : AgentRunProjectionPart → Option β) (hf : ∀ text, f (.text text) = none)
    (parts : List AgentRunProjectionPart) (completedText : String) :
    (reconcileCompletedText parts completedText).filterMap f = parts.filterMap f := by
  unfold reconcileCompletedText
  simp only
  split
  · split
    · simp [hf]
    · rfl
  · split
    · rfl
    · split
      · exact appendText_keeps f hf _ _
      · split
        · exact appendText_keeps f hf _ _
        · rfl

theorem cloneParts_keeps (f : AgentRunProjectionPart → Option β) (hf : ∀ text, f (.text text) = none)
    (h : projection.parts = [] → projection.reasoning = [] ∧ projection.activeToolCalls = []) :
    (cloneParts projection).filterMap f = projection.parts.filterMap f := by
  unfold cloneParts
  split
  · rfl
  · next hnone =>
    have hparts : projection.parts = [] := by simpa using hnone
    obtain ⟨hreasoning, hcalls⟩ := h hparts
    simp [hparts, hreasoning, hcalls, hf]

end Parts

-- -----------------
-- One observation
-- -----------------

def textAfter (text : String) : EventBody → String
  | .messageDelta delta => text ++ delta
  | .messageCompleted message => message.text
  | _ => text

structure PartsOk (projection : AgentRunProjection) : Prop where
  toolCallIds : (projection.activeToolCalls.map (·.toolCallId)).Nodup
  reasoningIds : (projection.reasoning.map (·.id)).Nodup
  toolCalls : projection.parts.filterMap (·.toolCall?) = projection.activeToolCalls
  reasoning : projection.parts.filterMap (·.reasoning?) = projection.reasoning

section Steps

variable {projection : AgentRunProjection} {event : EventBody}

theorem PartsOk.upsertToolCall (h : PartsOk projection) (call : ToolCall) : PartsOk (upsertToolCall projection call) where
  toolCallIds := nodup_putFirst (x := call) (·.toolCallId) h.toolCallIds
  reasoningIds := h.reasoningIds
  toolCalls := by rw [ChatUi.upsertToolCall, toolCalls_upsertPart, h.toolCalls]
  reasoning := by rw [ChatUi.upsertToolCall, reasoning_upsert_toolCall, h.reasoning]

theorem PartsOk.appendReasoning (h : PartsOk projection) (id delta : String) :
    PartsOk (appendReasoning projection id delta) := by
  have hid : ((projection.reasoning.find? (·.id = id)).getD ⟨id, "", true⟩).id = id := by
    cases hfound : projection.reasoning.find? (·.id = id) with
    | none => rfl
    | some entry => simpa using List.find?_some hfound
  unfold ChatUi.appendReasoning
  generalize (projection.reasoning.find? (·.id = id)).getD ⟨id, "", true⟩ = found at hid ⊢
  subst hid
  let entry : ReasoningEntry := { found with text := found.text ++ delta, isOpen := true }
  refine ⟨h.toolCallIds, nodup_putFirst (x := entry) (·.id) h.reasoningIds, ?_, ?_⟩
  · rw [toolCalls_upsert_reasoning, h.toolCalls]
  · rw [reasoning_upsertPart, h.reasoning]

theorem PartsOk.same {other : AgentRunProjection} (h : PartsOk projection)
    (hcalls : other.activeToolCalls = projection.activeToolCalls) (hreasoning : other.reasoning = projection.reasoning)
    (hcallParts : other.parts.filterMap (·.toolCall?) = projection.parts.filterMap (·.toolCall?))
    (hreasoningParts : other.parts.filterMap (·.reasoning?) = projection.parts.filterMap (·.reasoning?)) : PartsOk other where
  toolCallIds := hcalls ▸ h.toolCallIds
  reasoningIds := hreasoning ▸ h.reasoningIds
  toolCalls := by rw [hcallParts, h.toolCalls, hcalls]
  reasoning := by rw [hreasoningParts, h.reasoning, hreasoning]

theorem PartsOk.applyEvent (h : PartsOk projection) (event : EventBody) : PartsOk (applyEvent projection event) := by
  cases event with
  | messageDelta delta =>
    exact h.same rfl rfl (appendText_keeps _ (fun _ => rfl) _ _) (appendText_keeps _ (fun _ => rfl) _ _)
  | messageCompleted message =>
    exact h.same rfl rfl (reconcile_keeps _ (fun _ => rfl) _ _) (reconcile_keeps _ (fun _ => rfl) _ _)
  | reasoningDelta id delta => exact h.appendReasoning id delta
  | toolCallStarted toolCallId toolName input =>
    have hforgets : PartsOk { projection with preparingTool := forgetPreparing projection.preparingTool toolCallId } :=
      h.same rfl rfl rfl rfl
    exact hforgets.upsertToolCall _
  | toolPermissionRequested toolCallId toolName => exact h.upsertToolCall _
  | toolCallCompleted toolCallId toolName result projectionNotice => exact h.upsertToolCall _
  | toolCallFailed toolCallId toolName result => exact h.upsertToolCall _
  | _ => exact h.same rfl rfl rfl rfl

theorem PartsOk.closeAll (h : PartsOk projection) : PartsOk (closeAll projection) where
  toolCallIds := h.toolCallIds
  reasoningIds := by simpa [ChatUi.closeAll, Function.comp_def] using h.reasoningIds
  toolCalls := by
    show (projection.parts.map AgentRunProjectionPart.close).filterMap (·.toolCall?) = projection.activeToolCalls
    rw [← h.toolCalls, List.filterMap_map]
    refine List.filterMap_congr fun part _ => ?_
    cases part <;> rfl
  reasoning := by
    rw [ChatUi.closeAll, ← h.reasoning, List.filterMap_map, List.map_filterMap]
    refine List.filterMap_congr fun part _ => ?_
    cases part <;> rfl

structure ProjectionOk (projection : AgentRunProjection) : Prop where
  parts : PartsOk projection
  text : projection.text.toList <:+ (observedText projection.parts).toList

theorem textAfter_suffix (h : text.toList <:+ shown.toList) (event : EventBody) :
    (textAfter text event).toList <:+ (shownAfter shown event).toList := by
  cases event with
  | messageDelta delta =>
    obtain ⟨front, hfront⟩ := h
    exact ⟨front, by simp only [textAfter, shownAfter, String.toList_append, ← hfront, List.append_assoc]⟩
  | messageCompleted message =>
    simp only [textAfter, shownAfter]
    split
    · assumption
    · split
      · exact List.suffix_rfl
      · rw [String.toList_append]
        exact List.suffix_append _ _
  | _ => exact h

theorem shown_prefix (shown : String) (event : EventBody) : shown.toList <+: (shownAfter shown event).toList := by
  cases event with
  | messageDelta delta =>
    simp only [shownAfter, String.toList_append]
    exact List.prefix_append _ _
  | messageCompleted message =>
    simp only [shownAfter]
    split
    · exact List.prefix_rfl
    · split
      · assumption
      · rw [String.toList_append]
        exact List.prefix_append _ _
  | _ => exact List.prefix_rfl

theorem text_applyEvent (projection : AgentRunProjection) (event : EventBody) :
    (applyEvent projection event).text = textAfter projection.text event := by
  cases event <;> rfl

theorem observedText_applyEvent (projection : AgentRunProjection) (event : EventBody) :
    observedText (applyEvent projection event).parts = shownAfter (observedText projection.parts) event := by
  cases event with
  | messageDelta delta => exact observedText_appendText _ _
  | messageCompleted message => exact observedText_reconcile _ _
  | reasoningDelta id delta => exact observedText_upsertPart _ rfl
  | toolCallStarted toolCallId toolName input => exact observedText_upsertPart _ rfl
  | toolPermissionRequested toolCallId toolName => exact observedText_upsertPart _ rfl
  | toolCallCompleted toolCallId toolName result projectionNotice => exact observedText_upsertPart _ rfl
  | toolCallFailed toolCallId toolName result => exact observedText_upsertPart _ rfl
  | _ => rfl

theorem ProjectionOk.cloneParts (h : ProjectionOk projection) :
    PartsOk { projection with parts := cloneParts projection } ∧
      observedText (cloneParts projection) = observedText projection.parts := by
  have hnone : projection.parts = [] → projection.reasoning = [] ∧ projection.activeToolCalls = [] := by
    intro hparts
    rw [← h.parts.reasoning, ← h.parts.toolCalls, hparts]
    exact ⟨rfl, rfl⟩
  refine ⟨h.parts.same rfl rfl (cloneParts_keeps _ (fun _ => rfl) hnone) (cloneParts_keeps _ (fun _ => rfl) hnone), ?_⟩
  by_cases hparts : projection.parts = []
  · obtain ⟨hreasoning, hcalls⟩ := hnone hparts
    have htext : projection.text = "" := by simpa [hparts] using h.text
    simp [ChatUi.cloneParts, hparts, hreasoning, hcalls, htext]
  · rw [ChatUi.cloneParts, if_pos hparts]

theorem ProjectionOk.apply (h : ProjectionOk projection) (observation : RunObservation) :
    ProjectionOk (applyAgentRunObservation projection observation) ∧
      observedText (applyAgentRunObservation projection observation).parts =
        shownAfter (observedText projection.parts) observation.payload.body ∧
      (applyAgentRunObservation projection observation).text = textAfter projection.text observation.payload.body := by
  obtain ⟨hcloned, hshown⟩ := h.cloneParts
  let event := observation.payload.body
  let applied := applyEvent { projection with parts := ChatUi.cloneParts projection } event
  let closed := if isTerminalEvent event then ChatUi.closeAll applied else applied
  have hparts : PartsOk closed := by
    simp only [closed]
    split
    · exact (hcloned.applyEvent event).closeAll
    · exact hcloned.applyEvent event
  have hclosed : observedText closed.parts = observedText applied.parts ∧ closed.text = applied.text := by
    simp only [closed]
    split
    · exact ⟨observedText_close _, rfl⟩
    · exact ⟨rfl, rfl⟩
  have hshown' : observedText closed.parts = shownAfter (observedText projection.parts) event := by
    rw [hclosed.1, observedText_applyEvent, hshown]
  have htext : closed.text = textAfter projection.text event := by rw [hclosed.2, text_applyEvent]
  refine ⟨⟨hparts.same rfl rfl rfl rfl, ?_⟩, hshown', htext⟩
  show closed.text.toList <:+ (observedText closed.parts).toList
  rw [hshown', htext]
  exact textAfter_suffix h.text event

end Steps

def shownText (observations : List RunObservation) : String :=
  observations.foldl (fun shown observation => shownAfter shown observation.payload.body) ""

def lastText (observations : List RunObservation) : String :=
  observations.foldl (fun text observation => textAfter text observation.payload.body) ""

def EventBody.delta? : EventBody → Option String
  | .messageDelta delta => some delta
  | _ => none

def streamedText (observations : List RunObservation) : String :=
  String.join (observations.filterMap (·.payload.body.delta?))

def uncompletedText (observations : List RunObservation) : String :=
  observations.foldl (fun text observation => match observation.payload.body with
    | .messageDelta delta => text ++ delta
    | .messageCompleted _ => ""
    | _ => text) ""

def CompletesStreamed (observations : List RunObservation) : Prop :=
  ∀ before observation after message, observations = before ++ observation :: after →
    observation.payload.body = .messageCompleted message → message.text.toList <:+ (uncompletedText before).toList

structure Settled (projection : AgentRunProjection) : Prop where
  status : projection.status = .completed ∨ projection.status = .cancelled ∨ projection.status = .failed
  preparingTool : projection.preparingTool = none
  reasoning : ∀ entry ∈ projection.reasoning, entry.isOpen = false
  reasoningParts : ∀ entry, .reasoning entry ∈ projection.parts → entry.isOpen = false

section Runs

variable {run : AgentRun} {observations : List RunObservation} {observation : RunObservation}

theorem shownText_concat (observations : List RunObservation) (observation : RunObservation) :
    shownText (observations ++ [observation]) = shownAfter (shownText observations) observation.payload.body := by
  rw [shownText, List.foldl_append]
  rfl

theorem projection_ok (run : AgentRun) (observations : List RunObservation) :
    ProjectionOk (projectAgentRun run observations) ∧
      observedText (projectAgentRun run observations).parts = shownText observations ∧
      (projectAgentRun run observations).text = lastText observations := by
  induction observations using List.reverseRecOn with
  | nil => exact ⟨⟨⟨.nil, .nil, rfl, rfl⟩, List.suffix_rfl⟩, rfl, rfl⟩
  | append_singleton observations observation ih =>
    obtain ⟨hok, hshown, htext⟩ := ih
    obtain ⟨hok', hshown', htext'⟩ := hok.apply observation
    rw [projectAgentRun_append]
    refine ⟨hok', ?_, ?_⟩
    · rw [hshown', hshown, shownText_concat]
    · rw [htext', htext, lastText, lastText, List.foldl_append]
      rfl

theorem shownText_append (observations more : List RunObservation) :
    (shownText observations).toList <+: (shownText (observations ++ more)).toList := by
  induction more using List.reverseRecOn with
  | nil => simp
  | append_singleton more observation ih =>
    refine ih.trans ?_
    rw [← List.append_assoc, shownText_concat]
    exact shown_prefix _ _

/-- With messages completed as they were streamed, all that was streamed is shown and nothing else. -/
theorem shownText_streamed (h : CompletesStreamed observations) :
    shownText observations = streamedText observations ∧
      (uncompletedText observations).toList <:+ (shownText observations).toList := by
  induction observations using List.reverseRecOn with
  | nil => exact ⟨rfl, List.suffix_rfl⟩
  | append_singleton observations observation ih =>
    have hbefore : CompletesStreamed observations := by
      intro before completing after message hsplit
      exact h before completing (after ++ [observation]) message (by rw [hsplit, List.append_assoc, List.cons_append])
    obtain ⟨hshown, hend⟩ := ih hbefore
    have hstreams : streamedText (observations ++ [observation]) =
        streamedText observations ++ String.join observation.payload.body.delta?.toList := by
      rw [streamedText, List.filterMap_append, join_append]
      cases hdelta : observation.payload.body.delta? <;> simp [streamedText, hdelta]
    have hsince : uncompletedText (observations ++ [observation]) = match observation.payload.body with
        | .messageDelta delta => uncompletedText observations ++ delta
        | .messageCompleted _ => ""
        | _ => uncompletedText observations := by
      rw [uncompletedText, List.foldl_append]
      rfl
    rw [shownText_concat, hstreams, hsince]
    cases hbody : observation.payload.body with
    | messageDelta delta =>
      refine ⟨by simp [shownAfter, EventBody.delta?, hshown], ?_⟩
      simp only [shownAfter, String.toList_append]
      obtain ⟨front, hfront⟩ := hend
      exact ⟨front, by rw [← hfront, List.append_assoc]⟩
    | messageCompleted message =>
      have hcompleted := h observations observation [] message rfl hbody
      have hstands : message.text.toList <:+ (shownText observations).toList := hcompleted.trans hend
      have hstays : shownAfter (shownText observations) (.messageCompleted message) = shownText observations := if_pos hstands
      refine ⟨?_, List.nil_suffix⟩
      rw [hstays, hshown]
      simp [EventBody.delta?, String.join]
    | _ => exact ⟨by simp [shownAfter, EventBody.delta?, hshown, String.join], hend⟩

theorem settled_ok (run : AgentRun) (hterm : isTerminalEvent observation.payload.body = true) :
    Settled (projectAgentRun run (observations ++ [observation])) ∧
      (projectAgentRun run (observations ++ [observation])).activeToolCalls =
        (projectAgentRun run observations).activeToolCalls := by
  rw [projectAgentRun_append]
  generalize projectAgentRun run observations = projection
  unfold applyAgentRunObservation
  simp only [hterm, if_true]
  refine ⟨⟨?_, rfl, ?_, ?_⟩, ?_⟩
  · cases hbody : observation.payload.body <;> simp [hbody, isTerminalEvent, statusAfterEvent] at hterm ⊢
  · intro entry hentry
    obtain ⟨before, -, rfl⟩ := List.mem_map.mp hentry
    rfl
  · intro entry hentry
    obtain ⟨part, -, hpart⟩ := List.mem_map.mp hentry
    cases part with
    | reasoning before =>
      obtain rfl := AgentRunProjectionPart.reasoning.inj hpart
      rfl
    | text text => cases hpart
    | toolCall call => cases hpart
  · cases hbody : observation.payload.body <;> first | rfl | simp [hbody, isTerminalEvent] at hterm

/-- Calls and reasonings stand in the parts once, as they are in the lists. The text of the parts only grows; it ends with
the text of the last completed message and what came behind it. The end of a run closes all but the calls. -/
theorem run_projection_ok (run : AgentRun) (observations : List RunObservation) :
    PartsOk (projectAgentRun run observations) ∧
    observedText (projectAgentRun run observations).parts = shownText observations ∧
    (projectAgentRun run observations).text = lastText observations ∧
    (lastText observations).toList <:+ (shownText observations).toList ∧
    (∀ more, (shownText observations).toList <+: (shownText (observations ++ more)).toList) ∧
    (CompletesStreamed observations → shownText observations = streamedText observations) ∧
    ∀ before last, observations = before ++ [last] → isTerminalEvent last.payload.body = true →
      Settled (projectAgentRun run observations) ∧
        (projectAgentRun run observations).activeToolCalls = (projectAgentRun run before).activeToolCalls := by
  obtain ⟨hok, hshown, htext⟩ := projection_ok run observations
  refine ⟨hok.parts, hshown, htext, ?_, shownText_append observations, fun h => (shownText_streamed h).1, ?_⟩
  · rw [← htext, ← hshown]
    exact hok.text
  · rintro before last rfl hterm
    exact settled_ok run hterm

namespace Example

def accepted : AgentRun where
  id := "run"
  clientInstanceId := "instance"
  conversationId := "conversation"
  ownerUserId := "user"
  inputMessageId := "message"
  status := .running
  startedAt := 0
  updatedAt := 0
  completedAt := none
  cancelledAt := none
  failedAt := none
  lastSequence := 0
  error := none
  leaseOwner := none
  leaseToken := none
  leaseExpiresAt := none
  heartbeatAt := none
  cancellationRequestedAt := none
  cancellationReason := none

def observe (sequence : Nat) (body : EventBody) : RunObservation :=
  ⟨"instance", "run", "conversation", sequence, ⟨sequence, body⟩, sequence⟩

def interrupted : List RunObservation :=
  [observe 1 (.messageDelta "Looking it up."), observe 2 (.toolCallStarted "call" "web_search" "{}"),
    observe 3 (.messageCompleted ⟨"answer", "Stopped.", none⟩), observe 4 (.runCancelled none)]

end Example

open Example in
/-- A call stays open behind the end of its run, and what was streamed stays before what completes it. -/
theorem interrupted_call_stays_open :
    (∃ last ∈ interrupted.getLast?, isTerminalEvent last.payload.body = true) ∧
    (projectAgentRun accepted interrupted).activeToolCalls.map (·.state) = [.inputAvailable] ∧
    observedText (projectAgentRun accepted interrupted).parts = "Looking it up.Stopped." ∧
    observedText (projectAgentRun accepted interrupted).parts ≠ uncompletedText interrupted ++ "Stopped." := by
  exact ⟨⟨_, rfl, rfl⟩, by decide, by decide, by decide⟩

end Runs

end Catalyst.ChatUi
