import Mathlib.Data.List.TakeWhile
import Catalyst.Library.Check
import Catalyst.ModelContext.Mapping
import Catalyst.ModelContext.Protocol

/-!
# What the two formats keep

Both formats put a call before its results, nothing of the user between a call
and the last of its results, and every text of the messages once and in order.
What they share is proved of any mapping of single messages that keeps to its
message.
-/

namespace Catalyst.ModelContext

-- -----------------
-- Marks
-- -----------------

inductive Mark where
  | call (toolCallId : String)
  | output (toolCallId : String)
  | user
  deriving DecidableEq

def ModelMessage.marks : ModelMessage → List Mark
  | .assistant _ toolCalls => (toolCalls.getD []).map fun toolCall => .call toolCall.toolCallId
  | .tool _ toolCallId => [.output toolCallId]
  | .user _ => [.user]
  | .system _ => []

def ChatItem.marks : ChatItem → List Mark
  | .assistant _ toolCalls => (toolCalls.getD []).map fun toolCall => .call toolCall.id
  | .tool toolCallId _ => [.output toolCallId]
  | .user _ => [.user]
  | .system _ => []

def ResponseItem.marks : ResponseItem → List Mark
  | .functionCall callId _ _ => [.call callId]
  | .functionCallOutput callId _ => [.output callId]
  | .user _ => [.user]
  | _ => []

def NoneLater (toolCallId : String) : List ModelMessage → Prop
  | [] => True
  | message :: rest =>
    toolCallId ∈ message.callIds ∨ message.answers? ≠ some toolCallId ∧ NoneLater toolCallId rest

/-- Each message with calls is followed by all their results: one for each call at
least, and none behind the run of results. -/
def Followed : List ModelMessage → Prop
  | [] => True
  | message :: rest =>
    (∀ toolCallId ∈ message.callIds,
      toolCallId ∈ leadingResults rest ∧ NoneLater toolCallId (rest.dropWhile (·.isTool))) ∧ Followed rest

variable {α : Type}

structure Carries (items : ModelMessage → Except AppError (List α)) (visual : ModelMessage → List α)
    (marks : α → List Mark) : Prop where
  own_marks : ∀ {message own}, items message = .ok own → own.flatMap marks = message.marks
  visual_marks : ∀ {message : ModelMessage}, ∀ item ∈ visual message, marks item = [.user]
  visual_tools : ∀ {message : ModelMessage}, message.isTool = false → visual message = []

open Library.Check in
theorem mapMessages_cons_ok {items : ModelMessage → Except AppError (List α)}
    (h : mapMessages items visual pending (message :: rest) = .ok out) :
    ∃ own later, items message = .ok own ∧
      ((message.isTool = true ∧ rest.head?.any (·.isTool) = true ∧
          mapMessages items visual (pending ++ visual message) rest = .ok later ∧ out = own ++ later) ∨
        (message.isTool = true ∧ rest.head?.any (·.isTool) = false ∧ mapMessages items visual [] rest = .ok later ∧
          out = own ++ (pending ++ visual message) ++ later) ∨
        (message.isTool = false ∧ mapMessages items visual (visual message) rest = .ok later ∧
          out = pending ++ own ++ later)) := by
  obtain ⟨own, hown, h⟩ := bind_ok.mp h
  refine ⟨own, ?_⟩
  cases htool : message.isTool with
  | false =>
    simp only [htool, Bool.false_eq_true, false_and, if_false, List.nil_append] at h
    obtain ⟨later, hlater, hout⟩ := bind_ok.mp h
    exact ⟨later, hown, .inr (.inr ⟨rfl, hlater, (pure_ok.mp hout).symm⟩)⟩
  | true =>
    cases hnext : rest.head?.any (·.isTool) with
    | true =>
      simp only [htool, hnext, not_true, and_false, if_false, if_true, List.nil_append] at h
      obtain ⟨later, hlater, hout⟩ := bind_ok.mp h
      exact ⟨later, hown, .inl ⟨rfl, rfl, hlater, (pure_ok.mp hout).symm⟩⟩
    | false =>
      simp only [htool, hnext, Bool.false_eq_true, not_false_eq_true, and_self, if_true, List.nil_append] at h
      obtain ⟨later, hlater, hout⟩ := bind_ok.mp h
      exact ⟨later, hown, .inr (.inl ⟨rfl, rfl, hlater, (pure_ok.mp hout).symm⟩)⟩

def protocolMarks (marks : List Mark) : List Mark := marks.filter (· ≠ .user)

@[simp] theorem protocolMarks_append : protocolMarks (ms ++ ns) = protocolMarks ms ++ protocolMarks ns :=
  List.filter_append ..

theorem mem_protocolMarks : mark ∈ protocolMarks ms ↔ mark ∈ ms ∧ mark ≠ .user := by
  simp [protocolMarks]

variable {items : ModelMessage → Except AppError (List α)} {visual : ModelMessage → List α}
  {marks : α → List Mark}

theorem flatMap_users {users : List α} (h : ∀ item ∈ users, marks item = [.user]) :
    ∀ mark ∈ users.flatMap marks, mark = .user := fun mark hmark => by
  obtain ⟨item, hitem, hmem⟩ := List.mem_flatMap.mp hmark
  simpa [h item hitem] using hmem

theorem protocolMarks_users {users : List α} (h : ∀ item ∈ users, marks item = [.user]) :
    protocolMarks (users.flatMap marks) = [] :=
  List.filter_eq_nil_iff.mpr fun mark hmark => by simpa using flatMap_users h mark hmark

theorem Carries.protocol (hc : Carries items visual marks) (hpending : ∀ item ∈ pending, marks item = [.user])
    (h : mapMessages items visual pending messages = .ok out) :
    protocolMarks (out.flatMap marks) = protocolMarks (messages.flatMap (·.marks)) := by
  induction messages generalizing pending out with
  | nil =>
    obtain rfl : pending = out := Except.ok.inj h
    exact protocolMarks_users hpending
  | cons message rest ih =>
    have hwaiting : ∀ item ∈ pending ++ visual message, marks item = [.user] :=
      List.forall_mem_append.mpr ⟨hpending, hc.visual_marks⟩
    obtain ⟨own, later, hown, ⟨_, _, hlater, rfl⟩ | ⟨_, _, hlater, rfl⟩ | ⟨_, hlater, rfl⟩⟩ := mapMessages_cons_ok h
    · simp [hc.own_marks hown, ih hwaiting hlater]
    · rw [List.flatMap_append, List.flatMap_append, protocolMarks_append, protocolMarks_append,
        protocolMarks_users hwaiting, ih (List.forall_mem_nil _) hlater]
      simp [hc.own_marks hown]
    · simp [protocolMarks_users hpending, hc.own_marks hown, ih hc.visual_marks hlater]

theorem call_not_mem_of_isTool {message : ModelMessage} (h : message.isTool = true) :
    Mark.call toolCallId ∉ message.marks := by
  obtain ⟨content, answered, rfl⟩ := ModelMessage.isTool_iff.mp h
  simp [ModelMessage.marks]

theorem call_mem_marks {message : ModelMessage} :
    Mark.call toolCallId ∈ message.marks ↔ toolCallId ∈ message.callIds := by
  cases message with
  | assistant content toolCalls => cases toolCalls <;> simp [ModelMessage.marks, ModelMessage.callIds, ModelMessage.calls]
  | _ => simp [ModelMessage.marks, ModelMessage.callIds, ModelMessage.calls]

theorem output_mem_marks {message : ModelMessage} :
    Mark.output toolCallId ∈ message.marks ↔ message.answers? = some toolCallId := by
  cases message <;> simp [ModelMessage.marks, ModelMessage.answers?, eq_comm]

theorem NoneLater.call_mem (h : NoneLater toolCallId messages)
    (hsplit : protocolMarks (messages.flatMap (·.marks)) = mid ++ .output toolCallId :: post) :
    .call toolCallId ∈ mid := by
  induction messages generalizing mid with
  | nil => simp [protocolMarks] at hsplit
  | cons message rest ih =>
    rw [List.flatMap_cons, protocolMarks_append] at hsplit
    obtain hcalls | ⟨hanswers, hrest⟩ := h
    · have hcall : Mark.call toolCallId ∈ message.marks := call_mem_marks.mpr hcalls
      have houtput : Mark.output toolCallId ∉ protocolMarks message.marks := fun hmem => by
        cases message with
        | assistant content toolCalls => simp [protocolMarks, ModelMessage.marks] at hmem
        | _ => simp [ModelMessage.callIds, ModelMessage.calls] at hcalls
      obtain ⟨behind, rfl, _⟩ := split_behind houtput hsplit
      exact List.mem_append_left _ (mem_protocolMarks.mpr ⟨hcall, nofun⟩)
    · have houtput : Mark.output toolCallId ∉ protocolMarks message.marks := fun hmem =>
        hanswers (output_mem_marks.mp (mem_protocolMarks.mp hmem).1)
      obtain ⟨behind, rfl, hbehind⟩ := split_behind houtput hsplit
      exact List.mem_append_right _ (ih hrest hbehind)

def QuietUntil (toolCallId : String) (ms : List Mark) : Prop :=
  ∀ mid post, ms = mid ++ .output toolCallId :: post → .call toolCallId ∉ mid → .user ∉ mid

theorem Carries.quiet (hc : Carries items visual marks) (hpending : ∀ item ∈ pending, marks item = [.user])
    (hlater : NoneLater toolCallId (messages.dropWhile (·.isTool)))
    (h : mapMessages items visual pending messages = .ok out) : QuietUntil toolCallId (out.flatMap marks) := by
  -- A result behind the run would come after another call.
  have absurdLater (ms : List ModelMessage) (pending later : List α) (hpending : ∀ item ∈ pending, marks item = [.user])
      (hnone : NoneLater toolCallId ms) (hmap : mapMessages items visual pending ms = .ok later) (mid post : List Mark)
      (hsplit : later.flatMap marks = mid ++ .output toolCallId :: post) : .call toolCallId ∈ mid := by
    have hprotocol := hc.protocol hpending hmap
    rw [hsplit, protocolMarks_append] at hprotocol
    exact (mem_protocolMarks.mp (hnone.call_mem hprotocol.symm)).1
  induction messages generalizing pending out with
  | nil =>
    intro mid post hsplit hcall
    exact absurd (absurdLater [] pending out hpending hlater h mid post hsplit) hcall
  | cons message rest ih =>
    have hwaiting : ∀ item ∈ pending ++ visual message, marks item = [.user] :=
      List.forall_mem_append.mpr ⟨hpending, hc.visual_marks⟩
    intro mid post hsplit hcall
    cases htool : message.isTool with
    | false =>
      rw [List.dropWhile_cons_of_neg (by simp [htool])] at hlater
      exact absurd (absurdLater _ _ _ hpending hlater h mid post hsplit) hcall
    | true =>
      rw [List.dropWhile_cons_of_pos htool] at hlater
      obtain ⟨content, answered, rfl⟩ := ModelMessage.isTool_iff.mp htool
      obtain ⟨own, later, hown, hcases⟩ := mapMessages_cons_ok h
      -- The result itself, and then what is behind it.
      have hhead (tail : List Mark) (ht : Mark.output answered :: tail = mid ++ .output toolCallId :: post)
          (hquiet : QuietUntil toolCallId tail) : .user ∉ mid := by
        cases mid with
        | nil => simp
        | cons mark mid =>
          obtain ⟨rfl, htail⟩ := List.cons.inj ht
          simpa using hquiet mid post htail fun hmem => hcall (List.mem_cons_of_mem _ hmem)
      obtain ⟨_, _, hmap, rfl⟩ | ⟨_, hend, hmap, rfl⟩ | ⟨hno, _, _⟩ := hcases
      · exact hhead _ (by simpa [hc.own_marks hown, ModelMessage.marks] using hsplit) (ih hwaiting hlater hmap)
      · have hrest : rest.dropWhile (·.isTool) = rest := by
          cases rest with
          | nil => rfl
          | cons next rest => exact List.dropWhile_cons_of_neg (by simpa using hend)
        rw [hrest] at hlater
        refine hhead ((pending ++ visual _).flatMap marks ++ later.flatMap marks)
          (by simpa [hc.own_marks hown, ModelMessage.marks] using hsplit) fun mid' post' hsplit' hcall' => ?_
        have hno : Mark.output toolCallId ∉ (pending ++ visual _).flatMap marks := fun hmem => by
          cases flatMap_users hwaiting _ hmem
        obtain ⟨behind, rfl, hbehind⟩ := split_behind hno hsplit'
        exact absurd (List.mem_append_right _
          (absurdLater rest [] later (List.forall_mem_nil _) hlater hmap behind post' hbehind)) hcall'
      · cases hno

theorem mem_leadingResults (h : toolCallId ∈ leadingResults messages) :
    .output toolCallId ∈ messages.flatMap (·.marks) := by
  induction messages with
  | nil => cases h
  | cons message rest ih =>
    cases message with
    | tool content answered =>
      obtain rfl | hrest := List.mem_cons.mp h
      · simp [ModelMessage.marks]
      · simp [ih hrest]
    | _ => cases h

theorem marks_of_call {message : ModelMessage} (h : Mark.call toolCallId ∈ message.marks) :
    ∀ mark ∈ message.marks, ∃ called, mark = .call called := by
  cases message with
  | assistant content toolCalls => simp [ModelMessage.marks]
  | _ => simp [ModelMessage.marks] at h

/-- Every call of the output has a result behind it, and nothing of the user
before the last of its results. -/
theorem Carries.calls (hc : Carries items visual marks) (hpending : ∀ item ∈ pending, marks item = [.user])
    (hfollowed : Followed messages) (h : mapMessages items visual pending messages = .ok out)
    (hsplit : out.flatMap marks = pre ++ .call toolCallId :: rest) :
    .output toolCallId ∈ rest ∧ QuietUntil toolCallId rest := by
  induction messages generalizing pending out pre with
  | nil =>
    obtain rfl : pending = out := Except.ok.inj h
    cases flatMap_users hpending (.call toolCallId) (by simp [hsplit])
  | cons message messages ih =>
    have hwaiting : ∀ item ∈ pending ++ visual message, marks item = [.user] :=
      List.forall_mem_append.mpr ⟨hpending, hc.visual_marks⟩
    obtain ⟨hown_calls, hfollowed⟩ := hfollowed
    obtain ⟨own, later, hown, ⟨htool, _, hmap, rfl⟩ | ⟨htool, _, hmap, rfl⟩ | ⟨htool, hmap, rfl⟩⟩ :=
      mapMessages_cons_ok h
    · rw [List.flatMap_append, hc.own_marks hown] at hsplit
      obtain ⟨behind, _, hbehind⟩ := split_behind (call_not_mem_of_isTool htool) hsplit
      exact ih hwaiting hfollowed hmap hbehind
    · rw [List.flatMap_append, List.flatMap_append, hc.own_marks hown, List.append_assoc] at hsplit
      obtain ⟨behind, _, hbehind⟩ := split_behind (call_not_mem_of_isTool htool) hsplit
      obtain ⟨behind', _, hbehind'⟩ := split_behind (fun hmem => by cases flatMap_users hwaiting _ hmem) hbehind
      exact ih (List.forall_mem_nil _) hfollowed hmap hbehind'
    · rw [List.flatMap_append, List.flatMap_append, hc.own_marks hown, List.append_assoc] at hsplit
      obtain ⟨behind, _, hbehind⟩ := split_behind (fun hmem => by cases flatMap_users hpending _ hmem) hsplit
      obtain ⟨front, rfl, hfront⟩ | ⟨calls, hmarks, hrest⟩ := List.append_eq_append_iff.mp hbehind
      · exact ih hc.visual_marks hfollowed hmap hfront
      · cases calls with
        | nil =>
          have hfront : later.flatMap marks = [] ++ .call toolCallId :: rest := hrest.symm
          exact ih hc.visual_marks hfollowed hmap hfront
        | cons mark calls =>
          obtain ⟨rfl, rfl⟩ := List.cons.inj hrest
          have hcall : Mark.call toolCallId ∈ message.marks := by simp [hmarks]
          have hown_only := marks_of_call hcall
          obtain ⟨hlead, hnone⟩ := hown_calls toolCallId (call_mem_marks.mp hcall)
          have houtput : Mark.output toolCallId ∈ later.flatMap marks := by
            refine (mem_protocolMarks.mp ?_).1
            rw [hc.protocol hc.visual_marks hmap]
            exact mem_protocolMarks.mpr ⟨mem_leadingResults hlead, nofun⟩
          refine ⟨List.mem_append_right _ houtput, fun mid post hmid hfresh => ?_⟩
          -- The other calls of the message, and then its results.
          have hno (mark : Mark) (hcalled : ∀ called, mark ≠ .call called) : mark ∉ calls := fun hmem => by
            obtain ⟨called, he⟩ := hown_only mark (by simp [hmarks, hmem])
            exact hcalled called he
          obtain ⟨mid', rfl, hmid'⟩ := split_behind (hno (.output toolCallId) nofun) hmid
          have hquiet := hc.quiet hc.visual_marks hnone hmap mid' post hmid' fun hmem =>
            hfresh (List.mem_append_right _ hmem)
          exact fun hmem => (List.mem_append.mp hmem).elim (hno .user nofun) hquiet

/-- The output is the items of each message, in the order of the messages, and the
visual items somewhere between them. -/
theorem mapMessages_kept (h : mapMessages items visual pending messages = .ok out) :
    ∃ groups, List.Forall₂ (fun message own => items message = .ok own) messages groups ∧
      groups.flatten.Sublist out ∧ out.Perm (groups.flatten ++ (pending ++ messages.flatMap visual)) := by
  induction messages generalizing pending out with
  | nil =>
    obtain rfl : pending = out := Except.ok.inj h
    exact ⟨[], .nil, List.nil_sublist _, by simp⟩
  | cons message messages ih =>
    obtain ⟨own, later, hown, ⟨_, _, hmap, rfl⟩ | ⟨_, _, hmap, rfl⟩ | ⟨_, hmap, rfl⟩⟩ := mapMessages_cons_ok h
    · obtain ⟨groups, hgroups, hsub, hperm⟩ := ih hmap
      refine ⟨own :: groups, .cons hown hgroups, hsub.append_left own, ?_⟩
      simpa using hperm.append_left own
    · obtain ⟨groups, hgroups, hsub, hperm⟩ := ih hmap
      refine ⟨own :: groups, .cons hown hgroups, ?_, ?_⟩
      · exact (List.append_assoc own _ later).symm ▸ (hsub.trans (List.sublist_append_right _ _)).append_left own
      · have hbehind := (hperm.append_left (pending ++ visual message)).trans
          (List.perm_append_comm_assoc _ groups.flatten _)
        simpa using hbehind.append_left own
    · obtain ⟨groups, hgroups, hsub, hperm⟩ := ih hmap
      refine ⟨own :: groups, .cons hown hgroups, ?_, ?_⟩
      · exact (List.append_assoc pending own later).symm ▸
          (hsub.append_left own).trans (List.sublist_append_right _ _)
      · have hbehind := (hperm.append_left pending).trans (List.perm_append_comm_assoc _ groups.flatten _)
        simpa using (List.perm_append_comm_assoc pending own later).trans (hbehind.append_left own)

theorem mapMessages_total (h : ∀ message ∈ messages, ∃ own, items message = .ok own) :
    ∃ out, mapMessages items visual pending messages = .ok out := by
  induction messages generalizing pending with
  | nil => exact ⟨pending, rfl⟩
  | cons message messages ih =>
    obtain ⟨⟨own, hown⟩, hrest⟩ := List.forall_mem_cons.mp h
    have step (waiting : List α) : ∃ later, mapMessages items visual waiting messages = .ok later := ih hrest
    obtain ⟨later, hlater⟩ := step []
    obtain ⟨later', hlater'⟩ := step ((if message.isTool then pending else []) ++ visual message)
    simp only [mapMessages, hown, bind, Except.bind, pure, Except.pure, hlater, hlater']
    split
    · exact ⟨_, rfl⟩
    · exact ⟨_, rfl⟩

-- -----------------
-- The single messages of the two formats
-- -----------------

variable (encoding : Encoding)

def ModelMessage.shown : ModelMessage → String
  | .system content | .user content | .assistant content _ | .tool content _ => modelContentText content

/-- What is told behind the text of a message of the user about images left out. -/
def ModelMessage.omittedNote (message : ModelMessage) : String :=
  match message with
  | .user content =>
    let omittedCount := (toImageInputs encoding (modelContentImages content)).omittedCount
    if omittedCount = 0 then "" else (if message.shown = "" then "" else "\n\n") ++ omittedImagesNote omittedCount
  | _ => ""

def WirePart.text? : WirePart → Option String
  | .text t => some t
  | .imageUrl _ => none

def WireContent.shown : WireContent → String
  | .text t => t
  | .parts ps => String.join (ps.filterMap WirePart.text?)

def ChatItem.shown : ChatItem → String
  | .system content | .tool _ content => content
  | .user content => content.shown
  | .assistant content _ => content.getD ""

def ResponseItem.shown : ResponseItem → String
  | .system content | .assistant content | .functionCallOutput _ content => content
  | .user content => content.shown
  | _ => ""

theorem withOmittedImagesNote_eq (text : String) (omittedCount : Nat) :
    withOmittedImagesNote text omittedCount =
      text ++ if omittedCount = 0 then "" else (if text = "" then "" else "\n\n") ++ omittedImagesNote omittedCount := by
  unfold withOmittedImagesNote
  split_ifs with h0 htext
  · simp
  · simp [htext]
  · simp [String.append_assoc]

theorem shown_parts (texts : List String) (urls : List String) :
    (WireContent.parts (texts.map .text ++ urls.map .imageUrl)).shown = String.join texts := by
  simp [WireContent.shown, List.filterMap_map, Function.comp_def, WirePart.text?]

theorem shown_toOpenAiContent (content : ModelContent) :
    (toOpenAiContent encoding content).shown =
      (ModelMessage.user content).shown ++ (ModelMessage.user content).omittedNote encoding := by
  have heq := withOmittedImagesNote_eq (modelContentText content)
    (toImageInputs encoding (modelContentImages content)).omittedCount
  by_cases hcount : (toImageInputs encoding (modelContentImages content)).count = 0
  · have hle : (toImageInputs encoding (modelContentImages content)).omittedCount ≤
        (toImageInputs encoding (modelContentImages content)).count := Nat.sub_le _ _
    have hnone : (toImageInputs encoding (modelContentImages content)).omittedCount = 0 := by omega
    simp [toOpenAiContent, hcount, WireContent.shown, ModelMessage.shown, ModelMessage.omittedNote, hnone]
  · refine Eq.trans ?_ heq
    by_cases htext : withOmittedImagesNote (modelContentText content)
        (toImageInputs encoding (modelContentImages content)).omittedCount = ""
    · simpa [toOpenAiContent, hcount, htext] using shown_parts [] _
    · simpa [toOpenAiContent, hcount, htext] using shown_parts [withOmittedImagesNote _ _] _

theorem omittedNote_of_ne (h : ∀ content, message ≠ .user content) :
    ModelMessage.omittedNote encoding message = "" := by
  cases message with
  | user content => exact absurd rfl (h content)
  | _ => rfl

open Library.Check in
/-- A message of the chat format has the text of its message, and what is told of
its images. -/
theorem chat_carries_text (h : toOpenAiChatMessagesForOne encoding message = .ok own) :
    String.join (own.map ChatItem.shown) = message.shown ++ message.omittedNote encoding := by
  have hgetD (text : String) : (if text = "" then none else some text).getD "" = text := by
    split_ifs with htext
    · exact htext.symm
    · rfl
  cases message with
  | system content =>
    cases h
    simp [ChatItem.shown, ModelMessage.shown, omittedNote_of_ne]
  | user content =>
    cases h
    simp [ChatItem.shown, shown_toOpenAiContent]
  | tool content toolCallId =>
    cases h
    simp [ChatItem.shown, ModelMessage.shown, omittedNote_of_ne]
  | assistant content toolCalls =>
    cases toolCalls with
    | none =>
      cases h
      simp [ChatItem.shown, ModelMessage.shown, omittedNote_of_ne, hgetD]
    | some toolCalls =>
      obtain ⟨calls, _, hown⟩ := bind_ok.mp h
      cases hown
      simp [ChatItem.shown, ModelMessage.shown, omittedNote_of_ne, hgetD]

theorem map_calls {f : ModelToolCall → Except AppError β} {g : β → γ} {k : ModelToolCall → γ} {calls : List β}
    (hf : ∀ {toolCall call}, f toolCall = .ok call → g call = k toolCall)
    (h : List.Forall₂ (fun toolCall call => f toolCall = .ok call) toolCalls calls) :
    calls.map g = toolCalls.map k := by
  induction h with
  | nil => rfl
  | cons h _ ih => simp [hf h, ih]

theorem visual_carries {user : WireContent → α} (huser : ∀ content, marks (user content) = [.user])
    (hitems : ∀ {message own}, items message = .ok own → own.flatMap marks = message.marks) :
    Carries items (visualMessage encoding user) marks where
  own_marks := hitems
  visual_marks := fun {message} item hitem => by
    cases message with
    | tool content toolCallId =>
      simp only [visualMessage] at hitem
      split at hitem
      · obtain rfl := List.mem_singleton.mp hitem
        exact huser _
      · cases hitem
    | _ => cases hitem
  visual_tools := fun {message} htool => by
    cases message with
    | tool content toolCallId => cases htool
    | _ => rfl

open Library.Check in
theorem chat_carries : Carries (toOpenAiChatMessagesForOne encoding) (visualMessage encoding .user) ChatItem.marks :=
  visual_carries encoding (fun _ => rfl) fun {message own} h => by
    cases message with
    | assistant content toolCalls =>
      cases toolCalls with
      | none =>
        cases h
        rfl
      | some toolCalls =>
        obtain ⟨calls, hcalls, hown⟩ := bind_ok.mp h
        cases hown
        have hid {toolCall : ModelToolCall} {call : ChatToolCall} (hcall : toChatToolCall encoding toolCall = .ok call) :
            Mark.call call.id = .call toolCall.toolCallId := by
          obtain ⟨name, _, hcall⟩ := bind_ok.mp hcall
          cases hcall
          rfl
        simpa [ChatItem.marks, ModelMessage.marks] using map_calls hid (mapM_ok.mp hcalls)
    | _ =>
      cases h
      rfl

variable (encryptedReasoningItems : List EncryptedReasoningItem)

open Library.Check in
/-- The items of one call: reasoning items, which have no mark and no text, and the call. -/
theorem toFunctionCall_ok (h : toFunctionCall encoding encryptedReasoningItems toolCall = .ok own) :
    own.flatMap ResponseItem.marks = [.call toolCall.toolCallId] ∧ String.join (own.map ResponseItem.shown) = "" := by
  obtain ⟨name, _, hown⟩ := bind_ok.mp h
  cases hown
  have hsilent (entries : List EncryptedReasoningItem) :
      (entries.map (ResponseItem.reasoning ·.item)).flatMap ResponseItem.marks = [] ∧
        String.join ((entries.map (ResponseItem.reasoning ·.item)).map ResponseItem.shown) = "" := by
    induction entries with
    | nil => exact ⟨rfl, rfl⟩
    | cons entry entries ih => exact ⟨ih.1, by simpa [ResponseItem.shown] using ih.2⟩
  obtain ⟨hmarks, hshown⟩ := hsilent
    (encryptedReasoningItems.filter (·.beforeToolCallId = toolCall.toolCallId))
  constructor
  · rw [List.flatMap_append, hmarks]
    rfl
  · rw [List.map_append, String.join_append, hshown]
    rfl

theorem functionCalls_ok {items : List (List ResponseItem)}
    (h : List.Forall₂ (fun toolCall own => toFunctionCall encoding encryptedReasoningItems toolCall = .ok own)
      toolCalls items) :
    items.flatten.flatMap ResponseItem.marks = toolCalls.map (fun toolCall => .call toolCall.toolCallId) ∧
      String.join (items.flatten.map ResponseItem.shown) = "" := by
  induction h with
  | nil => exact ⟨rfl, rfl⟩
  | cons h _ ih =>
    obtain ⟨hmarks, hshown⟩ := toFunctionCall_ok encoding encryptedReasoningItems h
    constructor
    · simp [hmarks, ih.1]
    · rw [List.flatten_cons, List.map_append, String.join_append, hshown, ih.2]
      rfl

open Library.Check in
theorem responses_carries :
    Carries (toOpenAiResponsesItems encoding encryptedReasoningItems) (visualMessage encoding .user)
      ResponseItem.marks :=
  visual_carries encoding (fun _ => rfl) fun {message own} h => by
    cases message with
    | assistant content toolCalls =>
      match toolCalls with
      | none | some [] =>
        cases h
        rfl
      | some (call :: calls) =>
        obtain ⟨items, hitems, hown⟩ := bind_ok.mp h
        cases hown
        have hmarks := (functionCalls_ok encoding encryptedReasoningItems (mapM_ok.mp hitems)).1
        split <;> simpa [ResponseItem.marks, ModelMessage.marks] using hmarks
    | _ =>
      cases h
      rfl

open Library.Check in
theorem responses_carry_text (h : toOpenAiResponsesItems encoding encryptedReasoningItems message = .ok own) :
    String.join (own.map ResponseItem.shown) = message.shown ++ message.omittedNote encoding := by
  cases message with
  | assistant content toolCalls =>
    match toolCalls with
    | none | some [] =>
      cases h
      simp [ResponseItem.shown, ModelMessage.shown, omittedNote_of_ne]
    | some (call :: calls) =>
      obtain ⟨items, hitems, hown⟩ := bind_ok.mp h
      cases hown
      have hshown := (functionCalls_ok encoding encryptedReasoningItems (mapM_ok.mp hitems)).2
      have hsaid : String.join ((if content.present then [ResponseItem.assistant (modelContentText content)]
          else []).map ResponseItem.shown) = modelContentText content := by
        cases content with
        | text t =>
          by_cases ht : t = ""
          · simp [ModelContent.present, modelContentText, ht]
          · simp [ModelContent.present, modelContentText, ht, ResponseItem.shown]
        | parts ps => simp [ModelContent.present, ResponseItem.shown]
      rw [List.map_append, String.join_append, hsaid, hshown, omittedNote_of_ne encoding (by simp)]
      rfl
  | _ =>
    cases h
    simp [ResponseItem.shown, ModelMessage.shown, omittedNote_of_ne, shown_toOpenAiContent]

/-- What an output keeps of the messages: its calls and results are theirs in their
order; behind each call a result of it comes, with nothing of the user before the
last one; and the output is made of the items of each message, in order and with
exactly its text, of the visual messages, and of the items that are added. -/
structure Kept (marks : α → List Mark) (shown : α → String) (visual : ModelMessage → List α) (added : List α)
    (messages : List ModelMessage) (out : List α) : Prop where
  order : protocolMarks (out.flatMap marks) = protocolMarks (messages.flatMap (·.marks))
  answered : ∀ pre toolCallId rest, out.flatMap marks = pre ++ .call toolCallId :: rest →
    .output toolCallId ∈ rest ∧ QuietUntil toolCallId rest
  texts : ∃ groups, List.Forall₂ (fun message own =>
      String.join (own.map shown) = message.shown ++ message.omittedNote encoding) messages groups ∧
    groups.flatten.Sublist out ∧ out.Perm (groups.flatten ++ (messages.flatMap visual ++ added))

theorem Carries.kept (hc : Carries items visual marks) (hfollowed : Followed messages)
    (hshown : ∀ {message own}, items message = .ok own →
      String.join (own.map shown) = message.shown ++ message.omittedNote encoding)
    (h : mapMessages items visual [] messages = .ok out) : Kept encoding marks shown visual [] messages out where
  order := hc.protocol (List.forall_mem_nil _) h
  answered := fun pre toolCallId rest hsplit => hc.calls (List.forall_mem_nil _) hfollowed h hsplit
  texts := by
    obtain ⟨groups, hgroups, hsub, hperm⟩ := mapMessages_kept h
    exact ⟨groups, hgroups.imp fun _ _ hown => hshown hown, hsub, by simpa using hperm⟩

theorem Kept.insert (h : Kept encoding marks shown visual [] messages (front ++ back)) (hitem : marks item = []) :
    Kept encoding marks shown visual [item] messages (front ++ item :: back) := by
  have hmarks : (front ++ item :: back).flatMap marks = (front ++ back).flatMap marks := by simp [hitem]
  obtain ⟨groups, hgroups, hsub, hperm⟩ := h.texts
  refine ⟨hmarks ▸ h.order, hmarks ▸ h.answered, groups, hgroups,
    hsub.trans ((List.sublist_cons_self item back).append_left front), ?_⟩
  have hcons : (item :: (front ++ back)).Perm (groups.flatten ++ (messages.flatMap visual ++ [item])) := by
    simpa using (hperm.cons item).trans (List.perm_append_singleton item _).symm
  exact List.perm_middle.trans hcons

theorem Paired.noneLater (h : Paired messages) (toolCallId : String) : NoneLater toolCallId messages := by
  induction h with
  | nil => trivial
  | @single message messages hcalls htool h ih =>
    refine .inr ⟨fun he => ?_, ih⟩
    simp [ModelMessage.isTool, he] at htool
  | @group calls results messages content hcalls hresults h ih =>
    by_cases hmem : toolCallId ∈ calls.map (·.toolCallId)
    · exact .inl hmem
    · refine .inr ⟨nofun, ?_⟩
      have hother : ∀ result ∈ results, result.answers? ≠ some toolCallId := fun result hresult he =>
        hmem (List.mem_dedup.mp (hresults.once.subset (List.mem_filterMap.mpr ⟨result, hresult, he⟩)))
      clear hresults
      induction results with
      | nil => exact ih
      | cons result results ihr =>
        obtain ⟨hresult, hrest⟩ := List.forall_mem_cons.mp hother
        exact .inr ⟨hresult, ihr hrest⟩

theorem Paired.followed (h : Paired messages) : Followed messages := by
  induction h with
  | nil => trivial
  | @single message messages hcalls htool h ih => exact ⟨by simp [ModelMessage.callIds, hcalls], ih⟩
  | @group calls results messages content hcalls hresults h ih =>
    have hdrop : (results ++ messages).dropWhile (·.isTool) = messages := by
      rw [List.dropWhile_append_of_pos hresults.tools]
      cases h with
      | nil => rfl
      | single _ htool _ => exact List.dropWhile_cons_of_neg (by simp [htool])
      | group => rfl
    refine ⟨fun toolCallId hcall => ⟨?_, ?_⟩, ?_⟩
    · rw [leadingResults_append hresults.tools]
      exact List.mem_append_left _ (hresults.once.symm.subset (List.mem_dedup.mpr hcall))
    · rw [hdrop]
      exact h.noneLater toolCallId
    · have htools := hresults.tools
      clear hresults hdrop
      induction results with
      | nil => exact ih
      | cons result results ihr =>
        obtain ⟨hresult, hrest⟩ := List.forall_mem_cons.mp htools
        exact ⟨by simp [ModelMessage.callIds, ModelMessage.calls_of_isTool hresult], ihr hrest⟩

def NamesFit (messages : List ModelMessage) : Prop :=
  ∀ message ∈ messages, ∀ toolCall ∈ message.calls, ∃ name, toProviderToolName encoding toolCall.toolName = .ok name

open Library.Check in
theorem chat_total (h : NamesFit encoding messages) : ∃ out, toOpenAiChatMessages encoding messages = .ok out := by
  refine mapMessages_total fun message hmessage => ?_
  cases message with
  | assistant content toolCalls =>
    cases toolCalls with
    | none => exact ⟨_, rfl⟩
    | some toolCalls =>
      have hcalls : ∀ toolCall ∈ toolCalls, ∃ call, toChatToolCall encoding toolCall = .ok call :=
        fun toolCall hcall => by
          obtain ⟨name, hname⟩ := h _ hmessage toolCall hcall
          exact ⟨_, bind_ok.mpr ⟨name, hname, rfl⟩⟩
      obtain ⟨calls, hcalls⟩ := mapM_total hcalls
      exact ⟨_, bind_ok.mpr ⟨calls, hcalls, rfl⟩⟩
  | _ => exact ⟨_, rfl⟩

open Library.Check in
theorem responses_total (h : NamesFit encoding messages) :
    ∃ out, mapMessages (toOpenAiResponsesItems encoding encryptedReasoningItems) (visualMessage encoding .user) []
      messages = .ok out := by
  refine mapMessages_total fun message hmessage => ?_
  cases message with
  | assistant content toolCalls =>
    match toolCalls with
    | none | some [] => exact ⟨_, rfl⟩
    | some (call :: calls) =>
      have hcalls : ∀ toolCall ∈ call :: calls, ∃ own,
          toFunctionCall encoding encryptedReasoningItems toolCall = .ok own := fun toolCall hcall => by
        obtain ⟨name, hname⟩ := h _ hmessage toolCall hcall
        exact ⟨_, bind_ok.mpr ⟨name, hname, rfl⟩⟩
      obtain ⟨items, hitems⟩ := mapM_total hcalls
      exact ⟨_, bind_ok.mpr ⟨items, hitems, rfl⟩⟩
  | _ => exact ⟨_, rfl⟩

def BehindSystem (item : CompactionItem) (out : List ResponseItem) : Prop :=
  ∃ systems rest, out = systems ++ .compaction item :: rest ∧ (∀ i ∈ systems, i.isSystem = true) ∧
    ∀ i ∈ rest.head?, i.isSystem = false

open Library.Check in
theorem responses_ok (hfollowed : Followed messages)
    (h : toOpenAiResponsesInput encoding encryptedReasoningItems messages compactionItem = .ok out) :
    Kept encoding ResponseItem.marks ResponseItem.shown (visualMessage encoding .user)
        (compactionItem.toList.map .compaction) messages out ∧
      ∀ item ∈ compactionItem, BehindSystem item out := by
  obtain ⟨input, hinput, hout⟩ := bind_ok.mp h
  have hkept := (responses_carries encoding encryptedReasoningItems).kept encoding hfollowed
    (responses_carry_text encoding encryptedReasoningItems) hinput
  cases compactionItem with
  | none =>
    cases hout
    exact ⟨hkept, nofun⟩
  | some item =>
    cases hout
    rw [← List.take_append_drop (input.findIdx (!·.isSystem)) input] at hkept
    refine ⟨hkept.insert encoding rfl, fun item' hitem => ?_⟩
    obtain rfl := Option.some.inj hitem
    refine ⟨_, _, rfl, ?_, ?_⟩
    · rw [← List.takeWhile_eq_take_findIdx_not]
      exact fun i hi => List.mem_takeWhile_imp hi
    · rw [← List.dropWhile_eq_drop_findIdx_not]
      intro i hi
      have hhead := List.head?_dropWhile_not ResponseItem.isSystem input
      rw [Option.mem_def.mp hi] at hhead
      simpa using hhead

/-- Both formats keep a list in which each message with calls is followed by all
their results, and the compaction item is put behind the system's items. They
answer unless the name of a tool is too long. -/
theorem provider_mapping_ok (compactionItem : Option CompactionItem) (hfollowed : Followed messages) :
    (∀ out, toOpenAiChatMessages encoding messages = .ok out →
      Kept encoding ChatItem.marks ChatItem.shown (visualMessage encoding .user) [] messages out) ∧
    (∀ out, toOpenAiResponsesInput encoding encryptedReasoningItems messages compactionItem = .ok out →
      Kept encoding ResponseItem.marks ResponseItem.shown (visualMessage encoding .user)
          (compactionItem.toList.map .compaction) messages out ∧
        ∀ item ∈ compactionItem, BehindSystem item out) ∧
    (NamesFit encoding messages → (∃ out, toOpenAiChatMessages encoding messages = .ok out) ∧
      ∃ out, toOpenAiResponsesInput encoding encryptedReasoningItems messages compactionItem = .ok out) := by
  refine ⟨fun out h => (chat_carries encoding).kept encoding hfollowed (chat_carries_text encoding) h,
    fun out h => responses_ok encoding encryptedReasoningItems hfollowed h, fun hfit => ⟨chat_total encoding hfit, ?_⟩⟩
  obtain ⟨input, hinput⟩ := responses_total encoding encryptedReasoningItems hfit
  cases compactionItem with
  | none => exact ⟨_, Library.Check.bind_ok.mpr ⟨input, hinput, rfl⟩⟩
  | some item => exact ⟨_, Library.Check.bind_ok.mpr ⟨input, hinput, rfl⟩⟩

/-- Two parallel calls, the first of them with an image in its result. -/
theorem provider_mapping_ok_parallel :
    let encoding : Encoding := ⟨fun _ => "AQID", fun toolName => if toolName = "read" then "cmVhZA" else "cmVhZF9wYWdl"⟩
    let messages : List ModelMessage :=
      [.system (.text "Be brief"), .user (.text "Compare both"),
        .assistant (.text "Reading") (some [⟨"call_1", "read_page", "\x7b\x7d", none⟩, ⟨"call_2", "read", "\x7b\x7d", none⟩]),
        .tool (.parts [.text "page 1", .image ⟨"image/png", [1, 2, 3], none⟩]) "call_1",
        .tool (.text "done") "call_2", .user (.text "Thanks")]
    let compactionItem : CompactionItem := ⟨"cmp_1", "c2VjcmV0"⟩
    (∃ out, toOpenAiChatMessages encoding messages = .ok out ∧
      Kept encoding ChatItem.marks ChatItem.shown (visualMessage encoding .user) [] messages out) ∧
    ∃ out, toOpenAiResponsesInput encoding [] messages (some compactionItem) = .ok out ∧
      Kept encoding ResponseItem.marks ResponseItem.shown (visualMessage encoding .user)
        [.compaction compactionItem] messages out ∧ BehindSystem compactionItem out := by
  intro encoding messages compactionItem
  have hfollowed : Followed messages := by
    simp [messages, Followed, NoneLater, leadingResults, ModelMessage.callIds, ModelMessage.calls,
      ModelMessage.answers?, List.dropWhile]
  have hfit : NamesFit encoding messages := by
    have hpage : ∃ name, toProviderToolName encoding "read_page" = .ok name := ⟨_, if_neg (by decide)⟩
    have hread : ∃ name, toProviderToolName encoding "read" = .ok name := ⟨_, if_neg (by decide)⟩
    simpa [messages, NamesFit, ModelMessage.calls] using ⟨hpage, hread⟩
  obtain ⟨hchat, hresponses, htotal⟩ := provider_mapping_ok encoding [] (some compactionItem) hfollowed
  obtain ⟨⟨out, hout⟩, input, hinput⟩ := htotal hfit
  obtain ⟨hkept, hbehind⟩ := hresponses input hinput
  exact ⟨⟨out, hout, hchat out hout⟩, input, hinput, hkept, hbehind compactionItem rfl⟩

end Catalyst.ModelContext
