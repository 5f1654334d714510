import Mathlib.Data.List.Chain
import Mathlib.Data.List.Perm.Subperm
import Catalyst.ModelContext.History

/-!
# A history in the tool protocol

Whatever is stored, the model is given each message with calls followed by one
result for each call, and no other result. Nothing that was said is left out, and
a second pass changes nothing.
-/

namespace Catalyst.ModelContext

structure Answers (results : List ModelMessage) (calls : List ModelToolCall) : Prop where
  tools : ∀ result ∈ results, result.isTool = true
  once : (results.filterMap (·.answers?)).Perm ((calls.map (·.toolCallId)).dedup)

/-- A list in the tool protocol: single messages, and messages with calls with their results. -/
inductive Paired : List ModelMessage → Prop
  | nil : Paired []
  | single {message : ModelMessage} {messages : List ModelMessage} (hcalls : message.calls = [])
      (htool : message.isTool = false) (h : Paired messages) : Paired (message :: messages)
  | group {calls : List ModelToolCall} {results messages : List ModelMessage} {content : ModelContent}
      (hcalls : calls ≠ []) (hresults : Answers results calls) (h : Paired messages) :
      Paired (.assistant content (some calls) :: (results ++ messages))

def ModelMessage.spoken? : ModelMessage → Option ModelMessage
  | .assistant content _ => if hasTextContent content then some (.assistant content none) else none
  | .tool _ _ => none
  | message => some message

structure Taken (expected seen : List String) (results : List ModelMessage) : Prop where
  tools : ∀ result ∈ results, result.isTool = true
  nodup : (results.filterMap (·.answers?)).Nodup
  asked : ∀ toolCallId ∈ results.filterMap (·.answers?), toolCallId ∈ expected
  fresh : ∀ toolCallId ∈ results.filterMap (·.answers?), toolCallId ∉ seen

theorem Taken.nil : Taken expected seen [] :=
  ⟨List.forall_mem_nil _, .nil, List.forall_mem_nil _, List.forall_mem_nil _⟩

theorem Taken.cons (hexpected : toolCallId ∈ expected) (hfresh : toolCallId ∉ seen)
    (h : Taken expected (toolCallId :: seen) results) :
    Taken expected seen (.tool content toolCallId :: results) where
  tools := List.forall_mem_cons.mpr ⟨rfl, h.tools⟩
  nodup := List.nodup_cons.mpr ⟨fun hmem => h.fresh _ hmem List.mem_cons_self, h.nodup⟩
  asked := List.forall_mem_cons.mpr ⟨hexpected, h.asked⟩
  fresh := List.forall_mem_cons.mpr
    ⟨hfresh, fun i hi hseen => h.fresh i hi (List.mem_cons_of_mem _ hseen)⟩

theorem takeResults_ok (expected seen : List String) (messages : List ModelMessage) :
    messages = (takeResults expected seen messages).1 ++ (takeResults expected seen messages).2 ∧
      Taken expected seen (takeResults expected seen messages).1 := by
  induction messages generalizing seen with
  | nil => simp [takeResults, Taken.nil]
  | cons message rest ih =>
    cases message with
    | tool content toolCallId =>
      rw [takeResults]
      split_ifs with hopen hall
      · exact ⟨rfl, .nil⟩
      · obtain ⟨hexpected, hfresh⟩ := not_or.mp hopen
        exact ⟨rfl, .cons (not_not.mp hexpected) hfresh .nil⟩
      · obtain ⟨hexpected, hfresh⟩ := not_or.mp hopen
        obtain ⟨hrest, htaken⟩ := ih (toolCallId :: seen)
        exact ⟨congrArg _ hrest, .cons (not_not.mp hexpected) hfresh htaken⟩
    | _ => simp [takeResults, Taken.nil]

theorem length_answers {results : List ModelMessage} (h : ∀ result ∈ results, result.isTool = true) :
    (results.filterMap (·.answers?)).length = results.length := by
  induction results with
  | nil => rfl
  | cons result results ih =>
    obtain ⟨hresult, hresults⟩ := List.forall_mem_cons.mp h
    obtain ⟨content, toolCallId, rfl⟩ := ModelMessage.isTool_iff.mp hresult
    simpa [ModelMessage.answers?] using ih hresults

theorem Taken.answers {calls : List ModelToolCall} (h : Taken ((calls.map (·.toolCallId)).dedup) [] results)
    (hlength : results.length = ((calls.map (·.toolCallId)).dedup).length) : Answers results calls where
  tools := h.tools
  once := (h.nodup.subperm h.asked).perm_of_length_le (by rw [length_answers h.tools]; exact Nat.le_of_eq hlength.symm)

theorem Answers.taken {calls : List ModelToolCall} (h : Answers results calls) :
    Taken ((calls.map (·.toolCallId)).dedup) [] results where
  tools := h.tools
  nodup := h.once.nodup_iff.mpr (List.nodup_dedup _)
  asked := fun _ hi => h.once.subset hi
  fresh := fun _ _ => List.not_mem_nil

theorem Answers.length {calls : List ModelToolCall} (h : Answers results calls) :
    results.length = ((calls.map (·.toolCallId)).dedup).length := by
  rw [← h.once.length_eq, length_answers h.tools]

theorem takeResults_append (h : Taken expected seen results) (hne : results ≠ [])
    (hlength : seen.length + results.length = expected.length) :
    takeResults expected seen (results ++ messages) = (results, messages) := by
  induction results generalizing seen with
  | nil => exact absurd rfl hne
  | cons result results ih =>
    obtain ⟨content, toolCallId, rfl⟩ := ModelMessage.isTool_iff.mp (h.tools _ List.mem_cons_self)
    have hexpected : toolCallId ∈ expected := h.asked _ List.mem_cons_self
    have hfresh : toolCallId ∉ seen := h.fresh _ List.mem_cons_self
    have hnodup := List.nodup_cons.mp h.nodup
    have hrest : Taken expected (toolCallId :: seen) results :=
      { tools := fun r hr => h.tools r (List.mem_cons_of_mem _ hr)
        nodup := hnodup.2
        asked := fun i hi => h.asked i (List.mem_cons_of_mem _ hi)
        fresh := fun i hi hseen => (List.mem_cons.mp hseen).elim (fun he => hnodup.1 (he ▸ hi))
          (h.fresh i (List.mem_cons_of_mem _ hi)) }
    by_cases hlast : results = []
    · subst hlast
      have hfull : seen.length + 1 = expected.length := hlength
      simp [takeResults, hexpected, hfresh, hfull]
    · have hpos : 0 < results.length := List.length_pos_of_ne_nil hlast
      have hmore : seen.length + 1 ≠ expected.length := by
        simp only [List.length_cons] at hlength
        omega
      have htake := ih hrest hlast (by simpa [Nat.add_assoc, Nat.add_comm 1] using hlength)
      simp [takeResults, hexpected, hfresh, hmore, htake]

theorem removeIncompleteToolContext_paired (messages : List ModelMessage) :
    Paired (removeIncompleteToolContext messages) := by
  fun_induction removeIncompleteToolContext messages with
  | case1 => exact .nil
  | case2 content toolCallId rest ih => exact ih
  | case3 content call calls rest expected taken hcomplete ih =>
    exact .group (List.cons_ne_nil _ _) ((takeResults_ok expected [] rest).2.answers hcomplete) ih
  | case4 content call calls rest expected taken hincomplete ih =>
    split
    · exact .single rfl rfl ih
    · exact ih
  | case5 message rest htool hcalls ih =>
    refine .single ?_ ?_ ih
    · cases message with
      | assistant content toolCalls =>
        cases toolCalls with
        | none => rfl
        | some calls =>
          cases calls with
          | nil => rfl
          | cons call calls => exact (hcalls content call calls rfl).elim
      | _ => rfl
    · cases message with
      | tool content toolCallId => exact (htool content toolCallId rfl).elim
      | _ => rfl

theorem Paired.complete (h : Paired messages) : removeIncompleteToolContext messages = messages := by
  induction h with
  | nil => simp [removeIncompleteToolContext]
  | @single message messages hcalls htool h ih =>
    cases message with
    | system content => simp [removeIncompleteToolContext, ih]
    | user content => simp [removeIncompleteToolContext, ih]
    | tool content toolCallId => cases htool
    | assistant content toolCalls =>
      cases toolCalls with
      | none => simp [removeIncompleteToolContext, ih]
      | some calls =>
        obtain rfl : calls = [] := hcalls
        simp [removeIncompleteToolContext, ih]
  | @group calls results messages content hcalls hresults h ih =>
    obtain ⟨call, calls, rfl⟩ := List.exists_cons_of_ne_nil hcalls
    have hlength := hresults.length
    have hne : results ≠ [] := fun he => by
      have hmem : call.toolCallId ∈ ((call :: calls).map (·.toolCallId)).dedup :=
        List.mem_dedup.mpr List.mem_cons_self
      rw [List.eq_nil_of_length_eq_zero (hlength.symm.trans (congrArg _ he))] at hmem
      cases hmem
    have htake : takeResults (((call :: calls).map (·.toolCallId)).dedup) [] (results ++ messages) =
        (results, messages) := takeResults_append hresults.taken hne (by simpa using hlength)
    rw [removeIncompleteToolContext]
    simp only [htake, hlength, if_true, ih, List.cons_append]

theorem removeIncompleteToolContext_spoken (messages : List ModelMessage) :
    (removeIncompleteToolContext messages).filterMap (·.spoken?) = messages.filterMap (·.spoken?) := by
  fun_induction removeIncompleteToolContext messages with
  | case1 => rfl
  | case2 content toolCallId rest ih => simpa [ModelMessage.spoken?] using ih
  | case3 content call calls rest expected taken hcomplete ih =>
    obtain ⟨hrest, htaken⟩ := takeResults_ok expected [] rest
    rw [List.cons_append, List.filterMap_cons, List.filterMap_append, ih, ← List.filterMap_append, ← hrest,
      ← List.filterMap_cons]
  | case4 content call calls rest expected taken hincomplete ih =>
    obtain ⟨hrest, htaken⟩ := takeResults_ok expected [] rest
    have hsilent : taken.1.filterMap (·.spoken?) = [] := by
      refine List.filterMap_eq_nil_iff.mpr fun result hresult => ?_
      obtain ⟨_, _, rfl⟩ := ModelMessage.isTool_iff.mp (htaken.tools result hresult)
      rfl
    have hafter : rest.filterMap (·.spoken?) = taken.2.filterMap (·.spoken?) := by
      rw [hrest, List.filterMap_append, hsilent, List.nil_append]
    rw [List.filterMap_append, ih, List.filterMap_cons, hafter]
    by_cases htext : hasTextContent content <;> simp [ModelMessage.spoken?, htext]
  | case5 message rest htool hcalls ih => simp only [List.filterMap_cons, ih]

theorem Paired.leadingResults (h : Paired messages) : leadingResults messages = [] := by
  cases h with
  | nil => rfl
  | @single message messages hcalls htool h =>
    cases message with
    | tool content toolCallId => cases htool
    | _ => rfl
  | group => rfl

theorem leadingResults_append {results : List ModelMessage} (htools : ∀ result ∈ results, result.isTool = true) :
    leadingResults (results ++ messages) = results.filterMap (·.answers?) ++ leadingResults messages := by
  induction results with
  | nil => rfl
  | cons result results ih =>
    obtain ⟨hresult, hresults⟩ := List.forall_mem_cons.mp htools
    obtain ⟨content, toolCallId, rfl⟩ := ModelMessage.isTool_iff.mp hresult
    exact congrArg (toolCallId :: ·) (ih hresults)

/-- Right behind a message with calls stands one result for each call, and no other. -/
theorem Paired.answered (h : Paired messages) (hcalls : calls ≠ [])
    (hsplit : messages = before ++ .assistant content (some calls) :: after) :
    (ModelContext.leadingResults after).Perm ((calls.map (·.toolCallId)).dedup) := by
  induction h generalizing before with
  | nil => simp at hsplit
  | single hnone htool h ih =>
    cases before with
    | nil =>
      obtain ⟨rfl, _⟩ := List.cons.inj hsplit
      exact absurd hnone hcalls
    | cons first before => exact ih (List.cons.inj hsplit).2
  | @group own results messages content' hown hresults h ih =>
    cases before with
    | nil =>
      obtain ⟨hhead, rfl⟩ := List.cons.inj hsplit
      obtain rfl : own = calls := Option.some.inj (ModelMessage.assistant.inj hhead).2
      rw [leadingResults_append hresults.tools, h.leadingResults, List.append_nil]
      exact hresults.once
    | cons first before =>
      have hbehind : .assistant content (some calls) ∉ results := fun hmem => by cases hresults.tools _ hmem
      obtain ⟨front, _, hfront⟩ := split_behind hbehind (List.cons.inj hsplit).2
      exact ih hfront

/-- A result stands behind the message that calls it, with results only in between. -/
theorem Paired.called (h : Paired messages) (hsplit : messages = before ++ .tool content toolCallId :: after) :
    ∃ front said calls results, before = front ++ .assistant said (some calls) :: results ∧
      (∀ result ∈ results, result.isTool = true) ∧ toolCallId ∈ calls.map (·.toolCallId) := by
  induction h generalizing before with
  | nil => simp at hsplit
  | @single message messages hnone htool h ih =>
    cases before with
    | nil =>
      obtain ⟨rfl, _⟩ := List.cons.inj hsplit
      cases htool
    | cons first before =>
      obtain ⟨front, said, calls, results, rfl, hrest⟩ := ih (List.cons.inj hsplit).2
      exact ⟨first :: front, said, calls, results, rfl, hrest⟩
  | @group calls results messages said hcalls hresults h ih =>
    cases before with
    | nil => cases (List.cons.inj hsplit).1
    | cons first before =>
      obtain ⟨rfl, hbehind⟩ := List.cons.inj hsplit
      obtain ⟨front, rfl, hmessages⟩ | ⟨rest, rfl, hafter⟩ := List.append_eq_append_iff.mp hbehind
      · obtain ⟨front', said', calls', results', rfl, hrest⟩ := ih hmessages
        exact ⟨.assistant said (some calls) :: (results ++ front'), said', calls', results', by simp, hrest⟩
      · cases rest with
        | nil =>
          -- No list in the protocol starts with a result.
          have hlead := h.leadingResults
          rw [← List.nil_append messages, ← hafter] at hlead
          cases hlead
        | cons result rest =>
          obtain ⟨rfl, _⟩ := List.cons.inj hafter
          have hcalled := hresults.once.subset (List.mem_filterMap.mpr
            ⟨_, List.mem_append_right before List.mem_cons_self, rfl⟩)
          exact ⟨[], said, calls, before, rfl, fun r hr => hresults.tools r (List.mem_append_left _ hr),
            List.mem_dedup.mp hcalled⟩

abbrev DecisionsWait (messages : List ChatMessage) : Prop :=
  messages.IsChain fun message next => message.isDecision = true → next.isDecision = true ∨ next.role = .user

theorem orderFrom_append (hwaiting : ∀ d ∈ waiting, ChatMessage.isDecision d = true) :
    orderFrom decisions (waiting ++ messages) = orderFrom (decisions ++ waiting) messages := by
  induction waiting generalizing decisions with
  | nil => simp
  | cons d waiting ih =>
    obtain ⟨hd, hwaiting⟩ := List.forall_mem_cons.mp hwaiting
    simp [orderFrom, hd, ih hwaiting]

theorem orderFrom_orderFrom (hdecisions : ∀ d ∈ decisions, ChatMessage.isDecision d = true) :
    orderFrom [] (orderFrom decisions messages) = orderFrom decisions messages := by
  fun_induction orderFrom decisions messages with
  | case1 decisions =>
    have hall : orderFrom [] (decisions ++ []) = orderFrom ([] ++ decisions) [] := orderFrom_append hdecisions
    simpa [orderFrom] using hall
  | case2 decisions message rest hdecision ih =>
    exact ih (List.forall_mem_append.mpr ⟨hdecisions, by simpa using hdecision⟩)
  | case3 decisions message rest hdecision huser ih =>
    rw [orderFrom_append hdecisions]
    simp [orderFrom, hdecision, huser, ih]
  | case4 decisions message rest hdecision huser ih =>
    simp [orderFrom, hdecision, huser, ih hdecisions]

theorem orderFrom_others (hdecisions : ∀ d ∈ decisions, ChatMessage.isDecision d = true) :
    (orderFrom decisions messages).filter (!·.isDecision) = messages.filter (!·.isDecision) := by
  have hnone (ds : List ChatMessage) (h : ∀ d ∈ ds, d.isDecision = true) : ds.filter (!·.isDecision) = [] := by
    simpa using h
  fun_induction orderFrom decisions messages with
  | case1 decisions => exact hnone decisions hdecisions
  | case2 decisions message rest hdecision ih =>
    simpa [hdecision] using ih (List.forall_mem_append.mpr ⟨hdecisions, by simpa using hdecision⟩)
  | case3 decisions message rest hdecision huser ih =>
    simpa [hnone decisions hdecisions, hdecision] using ih
  | case4 decisions message rest hdecision huser ih => simpa [hdecision] using ih hdecisions

theorem orderFrom_turns (hdecisions : ∀ d ∈ decisions, ChatMessage.isDecision d = true) :
    (orderFrom decisions messages).filter (fun m => m.isDecision || m.role = .user) =
      decisions ++ messages.filter (fun m => m.isDecision || m.role = .user) := by
  have hall (ds : List ChatMessage) (h : ∀ d ∈ ds, d.isDecision = true) :
      ds.filter (fun m => m.isDecision || m.role = .user) = ds :=
    List.filter_eq_self.mpr fun d hd => by simp [h d hd]
  fun_induction orderFrom decisions messages with
  | case1 decisions => simpa using hall decisions hdecisions
  | case2 decisions message rest hdecision ih =>
    simpa [hdecision] using ih (List.forall_mem_append.mpr ⟨hdecisions, by simpa using hdecision⟩)
  | case3 decisions message rest hdecision huser ih => simpa [hall decisions hdecisions, huser] using ih
  | case4 decisions message rest hdecision huser ih => simpa [hdecision, huser] using ih hdecisions

theorem DecisionsWait.after (hdecisions : ∀ d ∈ decisions, ChatMessage.isDecision d = true)
    (h : DecisionsWait messages) (hhead : ∀ m ∈ messages.head?, m.isDecision = true ∨ m.role = .user) :
    DecisionsWait (decisions ++ messages) := by
  induction decisions with
  | nil => exact h
  | cons d decisions ih =>
    obtain ⟨_, hrest⟩ := List.forall_mem_cons.mp hdecisions
    refine (ih hrest).cons fun next hnext _ => ?_
    cases decisions with
    | nil => exact hhead next hnext
    | cons d' decisions =>
      obtain rfl : d' = next := by simpa using hnext
      exact .inl (hrest d' List.mem_cons_self)

theorem orderFrom_wait (hdecisions : ∀ d ∈ decisions, ChatMessage.isDecision d = true) :
    DecisionsWait (orderFrom decisions messages) := by
  fun_induction orderFrom decisions messages with
  | case1 decisions => simpa using DecisionsWait.after hdecisions .nil (by simp)
  | case2 decisions message rest hdecision ih =>
    exact ih (List.forall_mem_append.mpr ⟨hdecisions, by simpa using hdecision⟩)
  | case3 decisions message rest hdecision huser ih =>
    exact .after hdecisions ((ih (List.forall_mem_nil _)).cons fun _ _ h => absurd h hdecision) (by simp [huser])
  | case4 decisions message rest hdecision huser ih =>
    exact (ih hdecisions).cons fun _ _ h => absurd h hdecision

/-- A stored message that says something: a turn of the user, a message of the
system, a decision, or a text of the assistant. -/
def ChatMessage.speaks (message : ChatMessage) : Bool :=
  message.isDecision || message.role = .user || message.role = .system ||
    message.role = .assistant && message.text ≠ ""

theorem appendAssistantFinalStatusForModel_ne (h : text ≠ "") :
    appendAssistantFinalStatusForModel text metadata ≠ "" := by
  unfold appendAssistantFinalStatusForModel
  split_ifs
  · exact h
  · simp [toString, h]
  · simp [cancelledMarker]

theorem ChatMessage.spoken_of_speaks {message : ChatMessage} (h : message.speaks = true)
    (options : ProjectionOptions) :
    ∃ said, (toModelHistoryMessage options message).bind (·.spoken?) = some said := by
  unfold toModelHistoryMessage
  cases hdecision : message.decision? with
  | some decision => exact ⟨_, rfl⟩
  | none =>
    have hnone : message.isDecision = false := by simp [ChatMessage.isDecision, hdecision]
    cases hrole : message.role with
    | user => exact ⟨_, rfl⟩
    | system => exact ⟨_, rfl⟩
    | assistant =>
      have htext : message.text ≠ "" := by simpa [ChatMessage.speaks, hnone, hrole] using h
      have hcontent : appendAssistantFinalStatusForModel message.text message.metadata ≠ "" :=
        appendAssistantFinalStatusForModel_ne htext
      simp [ModelMessage.spoken?, hasTextContent, hcontent]
    | tool => simp [ChatMessage.speaks, hnone, hrole] at h

end Catalyst.ModelContext
