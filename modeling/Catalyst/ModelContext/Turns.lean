import Catalyst.Library.Transition
import Catalyst.ModelContext.ImageBudget
import Catalyst.ModelContext.Ordering
import Catalyst.ModelContext.Window
import Mathlib

/-!
# The requests of a run

A run reads the history of its conversation, from the message on whose provider holds the rest as a state of its own,
and then asks the model again after each round of tool calls. A state that the provider does not take any more is
dropped once, and the request is made anew from the whole history.
-/

namespace Catalyst.ModelContext

open Library

structure Continuation where
  providerId : String
  state : String
  deriving DecidableEq

structure HistoryMessage extends ChatMessage where
  id : String
  providerContinuation : Option Continuation
  deriving DecidableEq

structure StoredContinuation extends Continuation where
  sourceMessageId : String
  deriving DecidableEq

structure RunInput where
  projection : ProjectionOptions
  historyMessageLimit : Nat
  providerId : String
  compactionEnabled : Bool
  /-- The model takes a continuation. -/
  continuation : Bool
  instructions : String
  text : String
  inputMessageId : Option String
  attachments : List AttachmentEntry
  maxSteps : Nat

-- -----------------
-- Loading the history
-- -----------------

def readAssistantProviderContinuation (message : HistoryMessage) : Option Continuation :=
  match message.metadata with
  | some (.assistantToolCalls _) | some (.assistantFinal _) => message.providerContinuation
  | _ => none

/-- `orderApprovalDecisionsForModel` -/
def orderHistory (decisions : List HistoryMessage) : List HistoryMessage → List HistoryMessage
  | [] => decisions
  | message :: rest =>
    if message.isDecision then orderHistory (decisions ++ [message]) rest
    else if message.role = .user then decisions ++ message :: orderHistory [] rest
    else message :: orderHistory decisions rest

def dropCurrentSubmittedMessage (messages : List HistoryMessage) (text : String) (inputMessageId : Option String) :
    List HistoryMessage :=
  match (inputMessageId.filter (· ≠ "")).bind fun id => messages.findIdx? fun message => message.id = id with
  -- events that arrived behind the submitted message are left out with it
  | some inputIndex => messages.take inputIndex
  | none => if messages.getLast?.any fun last => last.role = .user ∧ last.text = text then messages.dropLast else messages

def HistoryMessage.continues (providerId : String) (message : HistoryMessage) : Bool :=
  (readAssistantProviderContinuation message).any fun continuation => continuation.providerId = providerId

/-- The loop goes from the last message to the first. -/
def findLatestCompactionCheckpointIndex (providerId : String) : List HistoryMessage → Option Nat
  | [] => none
  | message :: rest =>
    match findLatestCompactionCheckpointIndex providerId rest with
    | some index => some (index + 1)
    | none => if message.continues providerId then some 0 else none

structure ModelHistory where
  messages : List ModelMessage
  providerContinuation : Option Continuation

def RunInput.history (input : RunInput) (persistedMessages : List HistoryMessage) : List HistoryMessage :=
  orderHistory [] (dropCurrentSubmittedMessage persistedMessages input.text input.inputMessageId)

/-- The part of a history that is sent where nothing is compacted. -/
def RunInput.recent (input : RunInput) (history : List HistoryMessage) : List ChatMessage :=
  selectRecentCompleteHistory (history.map (·.toChatMessage)) (some input.historyMessageLimit)

/-- The place the history is sent from, and what the provider has of the messages before it. -/
def RunInput.checkpoint (input : RunInput) (history : List HistoryMessage) (stored : Option StoredContinuation) :
    Nat × Option Continuation :=
  let storedIndex := stored.bind fun checkpoint => history.findIdx? fun message => message.id = checkpoint.sourceMessageId
  let legacyIndex := findLatestCompactionCheckpointIndex input.providerId history
  let legacy := legacyIndex.bind fun index => history[index]?.bind readAssistantProviderContinuation
  (max (storedIndex.getD 0) (legacyIndex.getD 0),
    if storedIndex.isSome ∧ legacyIndex.getD 0 ≤ storedIndex.getD 0 then stored.map (·.toContinuation) else legacy)

def loadModelHistory (input : RunInput) (persistedMessages : List HistoryMessage) (stored : Option StoredContinuation)
    (withoutCheckpoint : Bool) : ModelHistory :=
  let history := input.history persistedMessages
  let project := projectAgentVisibleHistory input.projection
  if ¬ input.compactionEnabled then ⟨project (input.recent history), none⟩
  else if withoutCheckpoint then ⟨project (history.map (·.toChatMessage)), none⟩
  else
    let (index, checkpoint) := input.checkpoint history stored
    ⟨project ((history.drop index).map (·.toChatMessage)), checkpoint⟩

structure Completion where
  text : String
  toolCalls : List ModelToolCall
  continuation : Option Continuation
  compacted : Bool
  deriving DecidableEq

/-- What follows a request: an answer with the outputs of those of its tool calls that were run, or a failure. -/
inductive Reply
  | answered (completion : Completion) (outputs : List ModelContent)
  | continuationRejected (persistedMessages : List HistoryMessage)
  | failed
  deriving DecidableEq

structure ModelRequest where
  messages : List ModelMessage
  continuation : Option Continuation
  deriving DecidableEq

structure Turn where
  step : Nat
  messages : List ModelMessage
  providerContinuation : Option Continuation
  carriesEarlierContinuation : Bool
  running : Bool
  deriving DecidableEq

def ModelMessage.isSystem : ModelMessage → Bool
  | .system _ => true
  | _ => false

def removePreCompactionMessages (messages : List ModelMessage) : List ModelMessage := messages.takeWhile (·.isSystem)

def dispatchToolCalls (toolCalls : List ModelToolCall) (outputs : List ModelContent) : List ModelMessage :=
  (toolCalls.zip outputs).map fun called => .tool called.2 called.1.toolCallId

/-- What one answer with tool calls adds to the messages. -/
def round (text : String) (toolCalls : List ModelToolCall) (outputs : List ModelContent) : List ModelMessage :=
  .assistant (.text text) (some toolCalls) :: dispatchToolCalls toolCalls outputs

/-- The message of the submitted text is made anew from the text and its attachments. -/
def RunInput.messages (input : RunInput) (history : List ModelMessage) : List ModelMessage :=
  .system (.text input.instructions) ::
    (history ++ [.user (createUserMessageContent input.text input.attachments input.projection)])

def RunInput.start (input : RunInput) (history : ModelHistory) : Turn where
  step := 0
  messages := input.messages history.messages
  providerContinuation := history.providerContinuation
  carriesEarlierContinuation := history.providerContinuation.isSome
  running := 0 < input.maxSteps

def callModel (input : RunInput) (turn : Turn) : ModelRequest where
  messages := (applyModelInputImageBudget turn.messages).messages
  continuation := if input.continuation then turn.providerContinuation else none

def executeTurn (input : RunInput) (turn : Turn) : Reply → Turn
  | .answered completion outputs =>
    let turn := { turn with carriesEarlierContinuation := false, providerContinuation := completion.continuation }
    if completion.toolCalls = [] then { turn with running := false }
    else
      let messages := if completion.compacted then removePreCompactionMessages turn.messages else turn.messages
      { turn with
        step := turn.step + 1
        messages := messages ++ round completion.text completion.toolCalls outputs
        -- a run that is aborted between two calls ends there
        running := completion.toolCalls.length ≤ outputs.length ∧ turn.step + 1 < input.maxSteps }
  | .continuationRejected persistedMessages =>
    if turn.carriesEarlierContinuation then
      { turn with
        messages := input.messages (loadModelHistory input persistedMessages none true).messages
        providerContinuation := none
        carriesEarlierContinuation := false }
    else { turn with running := false }
  | .failed => { turn with running := false }

/-- The loop of one run. Each step sends a request and takes what follows it. -/
def turnLoop (input : RunInput) : Machine Turn Reply ModelRequest where
  init turn := ∃ persistedMessages stored, turn = input.start (loadModelHistory input persistedMessages stored false)
  enabled turn _ := turn.running
  step turn reply := (callModel input turn, executeTurn input turn reply)

variable {messages more : List ModelMessage} {toolCallId : String}

theorem NoneLater.append (h : NoneLater toolCallId messages) (h' : NoneLater toolCallId more) :
    NoneLater toolCallId (messages ++ more) := by
  induction messages with
  | nil => exact h'
  | cons message rest ih => exact h.imp_right fun hlater => ⟨hlater.1, ih hlater.2⟩

theorem leadingResults_mono (h : toolCallId ∈ leadingResults messages) : toolCallId ∈ leadingResults (messages ++ more) := by
  induction messages with
  | nil => cases h
  | cons message rest ih =>
    cases message with
    | tool content answered =>
      obtain rfl | h := List.mem_cons.mp h
      · exact List.mem_cons_self
      · exact List.mem_cons_of_mem _ (ih h)
    | _ => cases h

/-- What is put behind begins with no result and answers no call of before. -/
theorem Followed.append (h : Followed messages) (h' : Followed more) (hhead : more.dropWhile (·.isTool) = more)
    (hnone : ∀ toolCallId, NoneLater toolCallId more) : Followed (messages ++ more) := by
  induction messages with
  | nil => exact h'
  | cons message rest ih =>
    refine ⟨fun toolCallId hcall => ⟨leadingResults_mono (h.1 toolCallId hcall).1, ?_⟩, ih h.2⟩
    change NoneLater toolCallId ((rest ++ more).dropWhile (·.isTool))
    rw [List.dropWhile_append]
    split
    · rw [hhead]
      exact hnone toolCallId
    · exact (h.1 toolCallId hcall).2.append (hnone toolCallId)

theorem followed_of_silent (h : ∀ message ∈ messages, message.callIds = []) : Followed messages := by
  induction messages with
  | nil => trivial
  | cons message rest ih =>
    obtain ⟨hmessage, hrest⟩ := List.forall_mem_cons.mp h
    exact ⟨by simp [hmessage], ih hrest⟩

theorem noneLater_of_silent (h : ∀ message ∈ messages, message.answers? = none) : NoneLater toolCallId messages := by
  induction messages with
  | nil => trivial
  | cons message rest ih =>
    obtain ⟨hmessage, hrest⟩ := List.forall_mem_cons.mp h
    exact .inr ⟨by simp [hmessage], ih hrest⟩

theorem dispatched_tools (toolCalls : List ModelToolCall) (outputs : List ModelContent) : ∀ result ∈ dispatchToolCalls toolCalls outputs, result.isTool = true := by
  intro result hresult
  obtain ⟨called, -, rfl⟩ := List.mem_map.mp hresult
  rfl

theorem answers_dispatched (h : toolCalls.length ≤ outputs.length) :
    (dispatchToolCalls toolCalls outputs).filterMap (·.answers?) = toolCalls.map (·.toolCallId) := by
  induction toolCalls generalizing outputs with
  | nil => rfl
  | cons toolCall toolCalls ih =>
    cases outputs with
    | nil => cases h
    | cons output outputs => exact congrArg (toolCall.toolCallId :: ·) (ih (Nat.le_of_succ_le_succ h))

theorem round_noneLater (toolCallId : String) (h : toolCalls.length ≤ outputs.length) :
    NoneLater toolCallId (round text toolCalls outputs) := by
  by_cases hcall : toolCallId ∈ toolCalls.map (·.toolCallId)
  · exact .inl hcall
  · refine .inr ⟨nofun, ?_⟩
    rw [← answers_dispatched h] at hcall
    have htools := dispatched_tools toolCalls outputs
    generalize dispatchToolCalls toolCalls outputs = results at hcall htools
    induction results with
    | nil => trivial
    | cons result results ih =>
      refine .inr ⟨fun he => hcall (by simp [he]), ih (fun hmem => hcall ?_) (List.forall_mem_cons.mp htools).2⟩
      obtain ⟨earlier, hearlier, he⟩ := List.mem_filterMap.mp hmem
      exact List.mem_filterMap.mpr ⟨earlier, List.mem_cons_of_mem _ hearlier, he⟩

theorem round_followed (h : toolCalls.length ≤ outputs.length) : Followed (round text toolCalls outputs) := by
  have htools := dispatched_tools toolCalls outputs
  refine ⟨fun toolCallId hcall => ⟨?_, ?_⟩, followed_of_silent fun result hresult => ?_⟩
  · have hanswers : leadingResults (dispatchToolCalls toolCalls outputs ++ []) = _ := leadingResults_append htools
    rw [List.append_nil, answers_dispatched h] at hanswers
    rw [hanswers]
    exact List.mem_append_left _ hcall
  · rw [List.dropWhile_eq_nil_iff.mpr htools]
    trivial
  · rw [ModelMessage.callIds, ModelMessage.calls_of_isTool (htools result hresult)]
    rfl

theorem messages_followed (input : RunInput) (history : List ModelMessage) (h : Followed history) :
    Followed (input.messages history) := by
  refine ⟨by simp [ModelMessage.callIds, ModelMessage.calls], h.append ?_ rfl fun toolCallId => ?_⟩
  · exact followed_of_silent (by simp [ModelMessage.callIds, ModelMessage.calls])
  · exact noneLater_of_silent (by simp [ModelMessage.answers?])

def SameCalls (message message' : ModelMessage) : Prop :=
  message'.callIds = message.callIds ∧ message'.answers? = message.answers?

theorem sameCalls_withContent (content : ModelContent) (message : ModelMessage) :
    SameCalls message (message.withContent content) := by
  rcases message with _ | _ | ⟨_, _ | _⟩ | _ <;> exact ⟨rfl, rfl⟩

variable {messages' : List ModelMessage}

theorem noneLater_congr (h : List.Forall₂ SameCalls messages messages') (hnone : NoneLater toolCallId messages) :
    NoneLater toolCallId messages' := by
  induction h with
  | nil => trivial
  | cons hsame _ ih => exact hnone.imp (hsame.1 ▸ ·) fun hlater => ⟨hsame.2 ▸ hlater.1, ih hlater.2⟩

theorem leadingResults_cons (message : ModelMessage) (rest : List ModelMessage) :
    leadingResults (message :: rest) = (message.answers?.map (· :: leadingResults rest)).getD [] := by
  cases message <;> rfl

theorem leadingResults_congr (h : List.Forall₂ SameCalls messages messages') :
    leadingResults messages' = leadingResults messages := by
  induction h with
  | nil => rfl
  | cons hsame _ ih => rw [leadingResults_cons, leadingResults_cons, hsame.2, ih]

theorem behindResults_congr (h : List.Forall₂ SameCalls messages messages') :
    List.Forall₂ SameCalls (messages.dropWhile (·.isTool)) (messages'.dropWhile (·.isTool)) := by
  induction h with
  | nil => exact .nil
  | @cons message message' _ _ hsame hrest ih =>
    have htool : message'.isTool = message.isTool := by rw [ModelMessage.isTool, hsame.2, ModelMessage.isTool]
    rw [List.dropWhile_cons, List.dropWhile_cons, htool]
    split
    · exact ih
    · exact .cons hsame hrest

theorem followed_congr (h : List.Forall₂ SameCalls messages messages') (hfollowed : Followed messages) :
    Followed messages' := by
  induction h with
  | nil => trivial
  | cons hsame hrest ih =>
    refine ⟨fun toolCallId hcall => ?_, ih hfollowed.2⟩
    obtain ⟨hlead, hnone⟩ := hfollowed.1 toolCallId (hsame.1 ▸ hcall)
    exact ⟨leadingResults_congr hrest ▸ hlead, noneLater_congr (behindResults_congr hrest) hnone⟩

theorem sameCalls_budget (messages : List ModelMessage) (maxBytes : Nat) :
    List.Forall₂ SameCalls messages (applyModelInputImageBudget messages maxBytes).messages := by
  rw [applyModelInputImageBudget_eq messages maxBytes _ rfl]
  generalize omittedFrom maxBytes false (byPriority messages) = left
  suffices h : ∀ n, List.Forall₂ SameCalls messages ((messages.zipIdx n).map fun placed =>
      placed.1.withContent (omitModelVisibleImages placed.1.content (leftAt left placed.2))) from h 0
  induction messages with
  | nil => exact fun _ => .nil
  | cons message rest ih => exact fun n => .cons (sameCalls_withContent _ _) (ih (n + 1))

theorem bytes_budget (messages : List ModelMessage) (maxBytes : Nat) :
    imageBytes (applyModelInputImageBudget messages maxBytes).messages ≤ maxBytes := by
  obtain ⟨kept, left, hsplit, hleft, hsum, -⟩ := omittedFrom_ok maxBytes (byPriority messages)
  rw [applyModelInputImageBudget_eq messages maxBytes left hleft]
  exact (bytes_of_request hsplit).trans_le hsum

-- -----------------
-- Runs
-- -----------------

variable {input : RunInput} {history : List (Reply × ModelRequest)} {turn start : Turn}

def Reply.round : Reply → List ModelMessage
  | .answered completion outputs =>
    if completion.toolCalls = [] then [] else ModelContext.round completion.text completion.toolCalls outputs
  | _ => []

def Reply.compacted : Reply → Bool
  | .answered completion _ => completion.compacted
  | _ => false

/-- What is sent behind the requests of a history: the messages the run was started with or made anew from, and all
rounds behind them; or, behind a compaction, messages of the system and the rounds from there on. -/
def Sent (input : RunInput) (history : List (Reply × ModelRequest)) (messages : List ModelMessage) : Prop :=
  (∃ persistedMessages stored withoutCheckpoint, messages =
      input.messages (loadModelHistory input persistedMessages stored withoutCheckpoint).messages ++
        history.flatMap (·.1.round)) ∨
    ∃ front entry behind systems, history = front ++ entry :: behind ∧ entry.1.compacted = true ∧
      (∀ message ∈ systems, message.isSystem = true) ∧ messages = systems ++ (entry :: behind).flatMap (·.1.round)

/-- A continuation goes out behind the answer it came with, or with the first request. -/
def Continues (history : List (Reply × ModelRequest)) (continuation : Option Continuation) : Prop :=
  ∀ given ∈ continuation, ∀ last ∈ history.getLast?,
    ∃ completion outputs, last.1 = .answered completion outputs ∧ completion.continuation = some given

structure TurnOk (input : RunInput) (history : List (Reply × ModelRequest)) (turn : Turn) : Prop where
  left : turn.step < input.maxSteps
  /-- Only the request that is made anew takes no step. -/
  requests : history.length + turn.carriesEarlierContinuation.toNat ≤ turn.step + 1
  first : turn.carriesEarlierContinuation = true → history = []
  followed : Followed turn.messages
  sent : Sent input history turn.messages
  continues : Continues history turn.providerContinuation

theorem loaded_followed (input : RunInput) (persistedMessages : List HistoryMessage) (stored : Option StoredContinuation)
    (withoutCheckpoint : Bool) : Followed (loadModelHistory input persistedMessages stored withoutCheckpoint).messages := by
  unfold loadModelHistory
  dsimp only
  split_ifs <;> exact (removeIncompleteToolContext_paired _).followed

theorem start_ok (hinit : (turnLoop input).init start) (hrunning : start.running = true) : TurnOk input [] start := by
  obtain ⟨persistedMessages, stored, rfl⟩ := hinit
  exact {
    left := by simpa [RunInput.start] using hrunning
    requests := (Nat.zero_add _).trans_le (Bool.toNat_le _)
    first := fun _ => rfl
    followed := messages_followed _ _ (loaded_followed _ _ _ _)
    sent := .inl ⟨persistedMessages, stored, false, (List.append_nil _).symm⟩
    continues := by simp [Continues] }

theorem systems_followed (h : ∀ message ∈ messages, ModelMessage.isSystem message = true) : Followed messages := by
  refine followed_of_silent fun message hmessage => ?_
  have hsystem := h message hmessage
  cases message <;> first | rfl | cases hsystem

theorem Sent.round (h : Sent input history messages) (entry : Reply × ModelRequest) :
    Sent input (history ++ [entry]) (messages ++ entry.1.round) := by
  obtain ⟨persistedMessages, stored, withoutCheckpoint, rfl⟩ | ⟨front, first, behind, systems, rfl, hcompacted, hsystems, rfl⟩ := h
  · exact .inl ⟨persistedMessages, stored, withoutCheckpoint, by simp⟩
  · exact .inr ⟨front, first, behind ++ [entry], systems, by simp, hcompacted, hsystems, by simp⟩

theorem TurnOk.step (h : TurnOk input history turn) (reply : Reply)
    (hrunning : (executeTurn input turn reply).running = true) (request : ModelRequest) :
    TurnOk input (history ++ [(reply, request)]) (executeTurn input turn reply) := by
  cases reply with
  | answered completion outputs =>
    unfold executeTurn at hrunning ⊢
    dsimp only at hrunning ⊢
    split_ifs at hrunning ⊢ with hcalls hcompacted
    all_goals
      obtain ⟨hrun, hleft⟩ : completion.toolCalls.length ≤ outputs.length ∧ turn.step + 1 < input.maxSteps := by
        simpa using hrunning
      have hround : Reply.round (.answered completion outputs) = round completion.text completion.toolCalls outputs :=
        if_neg hcalls
      have hcontinues : Continues (history ++ [(.answered completion outputs, request)]) completion.continuation :=
        fun given hgiven last hlast => ⟨completion, outputs, by simpa [eq_comm] using congrArg (Option.map Prod.fst) hlast,
          hgiven⟩
      have hrequests : (history ++ [(Reply.answered completion outputs, request)]).length + 0 ≤ turn.step + 1 + 1 := by
        simpa using (Nat.le_add_right _ _).trans h.requests
      refine ⟨hleft, hrequests, nofun, ?_, ?_, hcontinues⟩
    · exact (systems_followed fun _ => List.mem_takeWhile_imp).append (round_followed hrun) rfl fun _ =>
        round_noneLater _ hrun
    · exact .inr ⟨history, _, [], removePreCompactionMessages turn.messages, rfl, hcompacted,
        fun _ => List.mem_takeWhile_imp, by simp [hround]⟩
    · exact h.followed.append (round_followed hrun) rfl fun _ => round_noneLater _ hrun
    · exact hround ▸ h.sent.round (.answered completion outputs, request)
  | continuationRejected persistedMessages =>
    unfold executeTurn at hrunning ⊢
    dsimp only at hrunning ⊢
    split_ifs at hrunning ⊢ with hcarries
    obtain rfl := h.first hcarries
    exact {
      left := h.left
      requests := by simp
      first := nofun
      followed := messages_followed _ _ (loaded_followed _ _ _ _)
      sent := .inl ⟨persistedMessages, none, true, by simp [Reply.round]⟩
      continues := by simp [Continues] }
  | failed => cases hrunning

theorem run_ok (hinit : (turnLoop input).init start) (hrun : (turnLoop input).Run start history turn)
    (hrunning : turn.running = true) : TurnOk input history turn := by
  have h : turn.running = true → TurnOk input ([] ++ history) turn :=
    hrun.history (P := fun history turn => turn.running = true → TurnOk input history turn)
      (fun history turn reply h henabled hnext => (h henabled).step reply hnext _) (start_ok hinit)
  exact h hrunning

variable {persistedMessages messages : List HistoryMessage} {stored : Option StoredContinuation} {index : Nat}

theorem map_orderHistory (decisions messages : List HistoryMessage) : (orderHistory decisions messages).map (·.toChatMessage) =
    orderFrom (decisions.map (·.toChatMessage)) (messages.map (·.toChatMessage)) := by
  induction messages generalizing decisions with
  | nil => rfl
  | cons message rest ih =>
    rw [orderHistory, List.map_cons, orderFrom]
    split_ifs
    · simpa using ih (decisions ++ [message])
    · simpa using ih []
    · simpa using ih decisions

theorem checkpointIndex_none (h : findLatestCompactionCheckpointIndex providerId messages = none) :
    ∀ message ∈ messages, message.continues providerId = false := by
  induction messages with
  | nil => exact List.forall_mem_nil _
  | cons message rest ih =>
    rw [findLatestCompactionCheckpointIndex] at h
    cases hrest : findLatestCompactionCheckpointIndex providerId rest with
    | some later =>
      rw [hrest] at h
      cases h
    | none =>
      rw [hrest] at h
      exact List.forall_mem_cons.mpr ⟨by simpa using h, ih hrest⟩

theorem checkpointIndex_some (h : findLatestCompactionCheckpointIndex providerId messages = some index) :
    (∃ message, messages[index]? = some message ∧ message.continues providerId = true) ∧
      ∀ later ∈ messages.drop (index + 1), later.continues providerId = false := by
  induction messages generalizing index with
  | nil => cases h
  | cons message rest ih =>
    rw [findLatestCompactionCheckpointIndex] at h
    cases hrest : findLatestCompactionCheckpointIndex providerId rest with
    | some later =>
      rw [hrest] at h
      obtain rfl := Option.some.inj h
      exact ih hrest
    | none =>
      rw [hrest] at h
      dsimp only at h
      split_ifs at h with hcontinues
      obtain rfl := Option.some.inj h
      exact ⟨⟨message, rfl, hcontinues⟩, checkpointIndex_none hrest⟩

/-- Where a history is sent from: at the message of the continuation, behind which the provider has no later one, or at
the beginning. -/
structure Checkpoint (input : RunInput) (history : List HistoryMessage) (stored : Option StoredContinuation)
    (checkpoint : Nat × Option Continuation) : Prop where
  whole : checkpoint.2 = none → checkpoint.1 = 0
  source : ∀ given ∈ checkpoint.2, ∃ message, history[checkpoint.1]? = some message ∧
    (stored = some ⟨given, message.id⟩ ∨
      readAssistantProviderContinuation message = some given ∧ given.providerId = input.providerId)
  latest : ∀ given ∈ checkpoint.2, ∀ later ∈ history.drop (checkpoint.1 + 1), later.continues input.providerId = false

theorem checkpoint_ok (input : RunInput) (history : List HistoryMessage) (stored : Option StoredContinuation) :
    Checkpoint input history stored (input.checkpoint history stored) := by
  unfold RunInput.checkpoint
  have hlegacy : ∀ {index}, findLatestCompactionCheckpointIndex input.providerId history = some index →
      Checkpoint input history stored (index, history[index]?.bind readAssistantProviderContinuation) := by
    intro index hindex
    obtain ⟨⟨message, hmessage, hcontinues⟩, hlater⟩ := checkpointIndex_some hindex
    obtain ⟨given, hgiven, hprovider⟩ := (Option.any_eq_true _ _).mp hcontinues
    have hread : history[index]?.bind readAssistantProviderContinuation = some given := by rw [hmessage, Option.bind_some, hgiven]
    rw [hread]
    refine ⟨nofun, fun given' h => ⟨message, hmessage, .inr ?_⟩, fun _ _ => hlater⟩
    obtain rfl := Option.some.inj h
    exact ⟨hgiven, by simpa using hprovider⟩
  cases hstored : stored.bind fun checkpoint => history.findIdx? fun message => message.id = checkpoint.sourceMessageId with
  | none =>
    cases hindex : findLatestCompactionCheckpointIndex input.providerId history with
    | none => exact ⟨fun _ => rfl, nofun, nofun⟩
    | some index => simpa using hlegacy hindex
  | some storedIndex =>
    obtain ⟨checkpoint, rfl, hfound⟩ := Option.bind_eq_some_iff.mp hstored
    obtain ⟨hlt, hid, -⟩ := List.findIdx?_eq_some_iff_getElem.mp hfound
    -- the stored state is taken if no message behind its own has one
    have htaken : (∀ later ∈ history.drop (storedIndex + 1), later.continues input.providerId = false) →
        Checkpoint input history (some checkpoint) (storedIndex, some checkpoint.toContinuation) := by
      refine fun hlater => ⟨nofun, fun given h => ⟨history[storedIndex], List.getElem?_eq_getElem hlt, .inl ?_⟩, fun _ _ => hlater⟩
      obtain rfl := Option.some.inj h
      rw [of_decide_eq_true hid]
    cases hindex : findLatestCompactionCheckpointIndex input.providerId history with
    | none => simpa using htaken fun later hlater => checkpointIndex_none hindex later (List.mem_of_mem_drop hlater)
    | some index =>
      by_cases hle : index ≤ storedIndex
      · have hbehind := htaken fun later hlater => (checkpointIndex_some hindex).2 later
          ((List.drop_sublist_drop_left history (Nat.succ_le_succ hle)).subset hlater)
        simpa [hle] using hbehind
      · simpa [hle, Nat.le_of_not_le hle] using hlegacy hindex

theorem drop_said (input : RunInput) (persistedMessages : List HistoryMessage) (index : Nat) :
    (projectAgentVisibleHistory input.projection
        (((input.history persistedMessages).drop index).map (·.toChatMessage))).filterMap (·.spoken?) =
      ((input.history persistedMessages).drop index).filterMap fun message =>
        (toModelHistoryMessage input.projection message.toChatMessage).bind (·.spoken?) := by
  have hwait : DecisionsWait (((input.history persistedMessages).drop index).map (·.toChatMessage)) := by
    rw [List.map_drop, RunInput.history, map_orderHistory]
    exact (orderFrom_wait (List.forall_mem_nil _)).drop index
  rw [projectAgentVisibleHistory, orderApprovalDecisionsForModel, orderFrom_of_wait hwait (List.forall_mem_nil _),
    List.nil_append, removeIncompleteToolContext_spoken, List.filterMap_filterMap, List.filterMap_map]
  rfl

namespace Example

def compacting : RunInput where
  projection := ⟨none, fun _ => none⟩
  historyMessageLimit := 20
  providerId := "openai"
  compactionEnabled := true
  continuation := true
  instructions := "Be brief."
  text := "Compare both."
  inputMessageId := none
  attachments := []
  maxSteps := 2

def compacted : List HistoryMessage :=
  [⟨⟨.user, "Read the page.", none⟩, "m1", none⟩,
    ⟨⟨.assistant, "Done.", some (.assistantFinal false)⟩, "m2", some ⟨"openai", "state"⟩⟩]

def read : Reply := .answered ⟨"Reading", [⟨"call_1", "read_page", "\x7b\x7d", none⟩], none, false⟩ [.text "page"]

def begun : Turn := compacting.start (loadModelHistory compacting compacted none false)

theorem begun_init : (turnLoop compacting).init begun := ⟨compacted, none, rfl⟩

theorem read_run : (turnLoop compacting).Run begun [(read, callModel compacting begun)] (executeTurn compacting begun read) :=
  .single (M := turnLoop compacting) (a := read) rfl

end Example

end Catalyst.ModelContext
