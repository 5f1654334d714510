import Catalyst.Runs.LocalRun

/-!
# Cancelling a run of the local runtime

`cancel` awaits stores before it ends the run, and the turn loop it aborted goes on
meanwhile. Whoever ends the `RunState` first gives the run its terminal event.
-/

namespace Catalyst.Runs

open Library Jobs

variable {cfg : LocalConfig} {now : Time} {runId : RunId} {s s' : LocalRun} {begun : Prop}

-- -----------------
-- What a cancellation promises
-- -----------------

/-- The text of the deltas that no `message_completed` came behind. -/
def uncompletedText (events : List AgentRuntimeEvent) : String :=
  events.foldl (fun text e => match e.body with
    | .messageDelta payload => text ++ textOf "delta" payload
    | .messageCompleted _ => ""
    | _ => text) ""

/-- The run ends as cancelled and as nothing else, and what it streamed is stored and completed
before that. -/
structure EndsCancelled (s : LocalRun) : Prop where
  going : s.state.closed = false → ∀ e ∈ s.state.events, e.isTerminal = false
  ended : s.state.closed → ∃ before completion last, s.state.events = before ++ completion ++ [last] ∧
    last.body.type = .runCancelled ∧ (∀ e ∈ before ++ completion, e.isTerminal = false) ∧
    (uncompletedText before = "" → completion = []) ∧
    (uncompletedText before ≠ "" → ∃ m ∈ s.messages, m.text = uncompletedText before ∧
      completion.map (·.body) = [messageCompletedBody m])

/-- What the turn loop does behind this `await` ends the run. -/
def TurnPhase.Closes (maxSteps : Nat) : TurnPhase → Prop
  | storingAnswer .. => True
  | storingToolCalls step completion _ => completion.toolCalls = [] ∧ maxSteps ≤ step + 1
  | storingToolResult step rest => rest = [] ∧ maxSteps ≤ step + 1
  | _ => False

instance (maxSteps : Nat) : DecidablePred (TurnPhase.Closes maxSteps)
  | .storingAnswer .. => .isTrue trivial
  | .storingToolCalls step completion _ =>
    inferInstanceAs (Decidable (completion.toolCalls = [] ∧ maxSteps ≤ step + 1))
  | .storingToolResult step rest => inferInstanceAs (Decidable (rest = [] ∧ maxSteps ≤ step + 1))
  | .preparing | .calling .. | .dropping _ | .answering .. | .callingTools .. | .executing .. | .toolResult ..
  | .ended => .isFalse fun h => h

/-- The move would end the run without `cancel`, or keep `cancel` from ending it. -/
def Disturbs (cfg : LocalConfig) (s : LocalRun) : LocalAction → Prop
  | .throws _ | .needsApproval _ | .cancelFails _ => True
  | .callEnds => s.turn.called = some none
  | .prepared _ => cfg.maxSteps = 0
  | .goes _ => s.turn.Closes cfg.maxSteps
  | .eventWritten ok => ok = false ∧ s.state.persistenceFailed = false
  | _ => False

instance (cfg : LocalConfig) (s : LocalRun) : DecidablePred (Disturbs cfg s)
  | .throws _ | .needsApproval _ | .cancelFails _ => .isTrue trivial
  | .callEnds => inferInstanceAs (Decidable (s.turn.called = some none))
  | .prepared _ => inferInstanceAs (Decidable (cfg.maxSteps = 0))
  | .goes _ => inferInstanceAs (Decidable (s.turn.Closes cfg.maxSteps))
  | .eventWritten ok => inferInstanceAs (Decidable (ok = false ∧ s.state.persistenceFailed = false))
  | .streams _ | .completes _ | .rejected | .rebuilt | .toolEnds .. | .aborts | .cancel _ | .cancelGoes .. =>
    .isFalse fun h => h

/-- While a call of `cancel` is on its way to end the run, nothing disturbs it. -/
def Undisturbed (cfg : LocalConfig) (s : LocalRun) (move : LocalMove) : Prop :=
  s.state.cancellationStarted → s.state.closed = false → ¬ Disturbs cfg s move.action

instance (cfg : LocalConfig) (s : LocalRun) : DecidablePred (Undisturbed cfg s) := fun move =>
  inferInstanceAs (Decidable (s.state.cancellationStarted = true → s.state.closed = false →
    ¬ Disturbs cfg s move.action))

def EventBody.Harmless (body : EventBody) : Prop := body.type.ends = none ∧ body.type ≠ .messageCompleted
  deriving Decidable

structure RunState.Going (s : RunState) : Prop where
  closed : s.closed = false
  messageCompleted : s.messageCompleted = false
  streamedText : s.streamedText = uncompletedText s.events
  events : ∀ e ∈ s.events, e.isTerminal = false

/-- A call of `cancel` that awaits with the text it is to store. -/
def CancelPhase.Fits (text : String) : CancelPhase → Prop
  | updating _ partialText => partialText = if text ≠ "" then some text else none
  | effect _ partialText | appending _ partialText => partialText = text ∧ text ≠ ""
  | flushing | done | threw => False

structure LocalOk (begun : Prop) (s : LocalRun) : Prop where
  begun : begun → s.state.cancellationStarted
  going : s.state.closed = false → s.state.Going ∧
    if s.state.cancellationStarted then s.cancels ≠ [] ∧ ∀ phase ∈ s.cancels, phase.Fits s.state.streamedText
    else s.cancels = []
  ended : s.state.closed → s.state.cancellationStarted → EndsCancelled s

theorem LocalOk.endsCancelled (h : LocalOk begun s) (hc : s.state.cancellationStarted) : EndsCancelled s where
  going hopen := (h.going hopen).1.events
  ended hclosed := (h.ended hclosed hc).ended hclosed

section State

variable {state : RunState} {body : EventBody} {failure : AgentRunError} {ok : Bool}

theorem emit_closed (h : state.closed = true) : state.emit runId now body = state := by
  simp [RunState.emit, RunState.emitRuntimeEvent, h]

theorem emit_cancelling (h : state.cancellationStarted = true) : state.emit runId now body = state := by
  simp [RunState.emit, RunState.emitRuntimeEvent, h]

theorem noted_flags (state : RunState) (body : EventBody) :
    (state.noted body).closed = state.closed ∧ (state.noted body).cancellationStarted = state.cancellationStarted ∧
      (body.type ≠ .messageCompleted → (state.noted body).messageCompleted = state.messageCompleted) := by
  cases body <;> simp [RunState.noted, EventBody.type]

theorem emitRuntimeEvent_flags (runId : RunId) (now : Time) (body : EventBody) (state : RunState) (allow : Bool) :
    (state.emitRuntimeEvent runId now body allow).closed = state.closed ∧
      (state.emitRuntimeEvent runId now body allow).cancellationStarted = state.cancellationStarted := by
  obtain ⟨hclosed, hstarted, _⟩ := noted_flags state body
  unfold RunState.emitRuntimeEvent
  split
  · exact ⟨rfl, rfl⟩
  · exact ⟨hclosed, hstarted⟩

theorem uncompletedText_append {sequence : Nat} (events : List AgentRuntimeEvent) (hb : body.Harmless) :
    uncompletedText (events ++ [⟨runId, sequence, now, body⟩]) = (uncompletedText events) ++
      match body with
      | .messageDelta payload => textOf "delta" payload
      | _ => "" := by
  obtain ⟨_, hcompleted⟩ := hb
  cases body <;> simp [uncompletedText, EventBody.type] at hcompleted ⊢

theorem harmless (h : body.type = type) (ht : (type.ends.isNone && type != .messageCompleted) = true) :
    body.Harmless := by
  rw [Bool.and_eq_true, Option.isNone_iff_eq_none, bne_iff_ne] at ht
  exact ⟨h ▸ ht.1, h ▸ ht.2⟩

theorem RunState.Going.emit (h : state.Going) (hb : body.Harmless) : (state.emit runId now body).Going := by
  unfold RunState.emit RunState.emitRuntimeEvent
  split
  · exact h
  · obtain ⟨hclosed, _, hcompleted⟩ := noted_flags state body
    refine ⟨hclosed.trans h.closed, (hcompleted hb.2).trans h.messageCompleted, ?_, fun e he => ?_⟩
    · simp only
      rw [uncompletedText_append _ hb, ← h.streamedText]
      have hne := hb.2
      cases body <;> simp [RunState.noted, EventBody.type] at hne ⊢
    · rcases List.mem_append.mp he with he | he
      · exact h.events e he
      · rw [List.mem_singleton.mp he, AgentRuntimeEvent.isTerminal, hb.1]
        rfl

theorem complete_ended (state : RunState) : (state.complete runId now).closed = true ∧
    (state.complete runId now).cancellationStarted = state.cancellationStarted := by
  unfold RunState.complete
  split
  · exact ⟨‹_›, rfl⟩
  · exact ⟨rfl, (emitRuntimeEvent_flags ..).2⟩

theorem fail_ended (state : RunState) : (state.fail runId now failure).closed = true ∧
    (state.fail runId now failure).cancellationStarted = state.cancellationStarted := by
  unfold RunState.fail
  split
  · exact ⟨‹_›, rfl⟩
  · exact ⟨rfl, (emitRuntimeEvent_flags ..).2⟩

theorem complete_closed (h : state.closed = true) : state.complete runId now = state := by
  simp [RunState.complete, h]

theorem fail_closed (h : state.closed = true) : state.fail runId now failure = state := by
  simp [RunState.fail, h]

theorem cancel_closed (h : state.closed = true) : state.cancel runId now reason m = state := by
  simp [RunState.cancel, h]

theorem message_closed (h : state.closed = true) : state.message runId now m = state := by
  rw [RunState.message, emit_closed h, emit_closed h]

theorem message_flags (state : RunState) : (state.message runId now m).cancellationStarted = state.cancellationStarted := by
  rw [RunState.message, RunState.emit, (emitRuntimeEvent_flags ..).2, RunState.emit, (emitRuntimeEvent_flags ..).2]

end State

section Steps

variable {state : RunState} {body : EventBody} {i : Nat} {phase phase' : CancelPhase}

theorem EndsCancelled.more (h : EndsCancelled s) (hstate : s'.state = s.state)
    (hm : ∀ m ∈ s.messages, m ∈ s'.messages) : EndsCancelled s' := by
  refine ⟨hstate ▸ h.going, fun hclosed => ?_⟩
  obtain ⟨before, completion, last, hevents, hlast, hgoing, hnone, hsome⟩ := h.ended (hstate ▸ hclosed)
  refine ⟨before, completion, last, hstate ▸ hevents, hlast, hgoing, hnone, fun htext => ?_⟩
  obtain ⟨m, hmem, hrest⟩ := hsome htext
  exact ⟨m, hm m hmem, hrest⟩

theorem LocalOk.same (h : LocalOk begun s) (hstate : s'.state = s.state) (hcancels : s'.cancels = s.cancels)
    (hm : ∀ m ∈ s.messages, m ∈ s'.messages) : LocalOk begun s' := by
  refine ⟨hstate ▸ h.begun, ?_, fun hclosed hstarted => ?_⟩
  · rw [hstate, hcancels]
    exact h.going
  · rw [hstate] at hclosed hstarted
    exact (h.ended hclosed hstarted).more hstate hm

/-- The turn loop emits an event that ends nothing. During a cancellation nothing is emitted. -/
theorem LocalOk.emits (h : LocalOk begun s) (hb : body.Harmless) (hstate : s'.state = s.state.emit runId now body)
    (hcancels : s'.cancels = s.cancels) (hm : ∀ m ∈ s.messages, m ∈ s'.messages) : LocalOk begun s' := by
  cases hclosed : s.state.closed with
  | true => exact h.same (hstate.trans (emit_closed hclosed)) hcancels hm
  | false =>
    cases hstarted : s.state.cancellationStarted with
    | true => exact h.same (hstate.trans (emit_cancelling hstarted)) hcancels hm
    | false =>
      obtain ⟨hgoing, hnone⟩ := h.going hclosed
      have hflags := emitRuntimeEvent_flags runId now body s.state false
      rw [hstarted, hclosed] at hflags
      refine ⟨fun hbegun => ?_, fun _ => ⟨hstate ▸ hgoing.emit hb, ?_⟩, fun hended => ?_⟩
      · rw [h.begun hbegun] at hstarted
        cases hstarted
      · rw [hcancels, hstate, RunState.emit, hflags.2]
        simpa [hstarted] using hnone
      · rw [hstate, RunState.emit, hflags.1] at hended
        cases hended

theorem LocalOk.ends (h : LocalOk begun s) (hu : s.state.cancellationStarted → s.state.closed)
    (hclosed : s.state.closed → s'.state = s.state)
    (hended : s'.state.closed ∧ s'.state.cancellationStarted = s.state.cancellationStarted)
    (hcancels : s'.cancels = s.cancels) (hm : ∀ m ∈ s.messages, m ∈ s'.messages) : LocalOk begun s' := by
  cases hc : s.state.closed with
  | true => exact h.same (hclosed hc) hcancels hm
  | false =>
    refine ⟨fun hbegun => hended.2.trans (h.begun hbegun), fun hopen => ?_, fun _ hstarted => ?_⟩
    · rw [hended.1] at hopen
      cases hopen
    · rw [hended.2] at hstarted
      rw [hu hstarted] at hc
      cases hc

theorem LocalOk.failed (h : LocalOk begun s) (hu : s.state.cancellationStarted → s.state.closed) (e : RunThrown) :
    LocalOk begun (s.failed cfg now e) :=
  h.ends hu (fun hclosed => fail_closed hclosed) (fail_ended s.state) rfl fun _ hm => hm

theorem LocalOk.startStep (h : LocalOk begun s)
    (hu : cfg.maxSteps ≤ step → s.state.cancellationStarted → s.state.closed) : LocalOk begun (s.startStep cfg now step) := by
  unfold LocalRun.startStep
  split
  · exact h.same rfl rfl fun _ hm => hm
  · exact h.failed (hu (Nat.le_of_not_lt ‹_›)) _

theorem LocalOk.dispatch (h : LocalOk begun s)
    (hu : calls = [] → cfg.maxSteps ≤ step + 1 → s.state.cancellationStarted → s.state.closed) :
    LocalOk begun (s.dispatchToolCalls cfg now step calls) := by
  cases calls with
  | nil => exact h.startStep (hu rfl)
  | cons call rest =>
    simp only [LocalRun.dispatchToolCalls]
    split
    · exact h.same rfl rfl fun _ hm => hm
    · exact h.emits (harmless rfl rfl) rfl rfl fun _ hm => hm

theorem LocalOk.goes {id : MessageId} (h : LocalOk begun s)
    (hu : s.state.cancellationStarted → s.state.closed = false → ¬ Disturbs cfg s (.goes id)) :
    LocalOk begun (s.goes cfg now id) := by
  have hclosed : ∀ {p : Prop}, p → (p → Disturbs cfg s (.goes id)) →
      s.state.cancellationStarted → s.state.closed := by
    intro p hp hd hstarted
    cases hc : s.state.closed with
    | true => rfl
    | false => exact absurd (hd hp) (hu hstarted hc)
  unfold LocalRun.goes
  split
  · exact h.same rfl rfl fun _ hm => hm
  · rename_i text streamed hturn
    refine h.ends (hclosed trivial fun _ => by simp [Disturbs, hturn, TurnPhase.Closes]) (fun hc => ?_) ?_ rfl
      fun _ hm => List.mem_append_left _ hm
    · simp only
      split
      · rw [emit_closed hc, complete_closed hc]
      · rw [message_closed hc, complete_closed hc]
    · refine ⟨(complete_ended _).1, ?_⟩
      rw [(complete_ended _).2]
      split
      · exact (emitRuntimeEvent_flags ..).2
      · exact message_flags _
  · exact h.same rfl rfl fun _ hm => hm
  · rename_i step completion streamed hturn
    have hstored : LocalOk begun { s with messages := s.messages ++
        [⟨id, completion.text, .toolCalls (summaries streamed.reasoning)⟩] } :=
      h.same rfl rfl fun _ hm => List.mem_append_left _ hm
    exact hstored.dispatch fun hnil hmax => hclosed (p := _ ∧ _) ⟨hnil, hmax⟩ fun hp => by simpa [Disturbs, hturn, TurnPhase.Closes] using hp
  · exact h.same rfl rfl fun _ hm => hm
  · rename_i step rest hturn
    exact h.dispatch fun hnil hmax => hclosed (p := _ ∧ _) ⟨hnil, hmax⟩ fun hp => by simpa [Disturbs, hturn, TurnPhase.Closes] using hp
  · exact h

theorem LocalOk.streams (h : LocalOk begun s) : LocalOk begun (s.streams cfg now step streamed body) := by
  unfold LocalRun.streams
  split
  · split
    · exact h
    · exact h.emits (harmless rfl rfl) rfl rfl fun _ hm => hm
  · split
    · exact h
    · exact h.emits (harmless rfl rfl) rfl rfl fun _ hm => hm
  · exact h.emits (harmless rfl rfl) rfl rfl fun _ hm => hm
  · exact h.emits (harmless rfl rfl) rfl rfl fun _ hm => hm
  · exact h.emits (harmless rfl rfl) rfl rfl fun _ hm => hm
  · exact h.emits (harmless rfl rfl) rfl rfl fun _ hm => hm
  · exact h

theorem LocalOk.completes (h : LocalOk begun s) : LocalOk begun (s.completes cfg now step streamed completion) := by
  unfold LocalRun.completes
  simp only
  split
  · exact h.same rfl rfl fun _ hm => hm
  · exact h.emits (harmless rfl rfl) rfl rfl fun _ hm => hm

theorem LocalOk.callEnds (h : LocalOk begun s)
    (hu : completion = none → s.state.cancellationStarted → s.state.closed) :
    LocalOk begun (s.callEnds cfg now step streamed completion) := by
  cases completion with
  | none => exact h.failed (hu rfl) _
  | some completion =>
    simp only [LocalRun.callEnds]
    split
    · split
      · exact h.same rfl rfl fun _ hm => hm
      · exact h.same rfl rfl fun _ hm => hm
    · exact h.same rfl rfl fun _ hm => hm

theorem LocalOk.toolEnds (h : LocalOk begun s) : LocalOk begun (s.toolEnds cfg now step rest succeeded payload) := by
  have hbody : (if succeeded then EventBody.toolCallCompleted payload else .toolCallFailed payload).Harmless := by
    cases succeeded
    · exact harmless rfl rfl
    · exact harmless rfl rfl
  unfold LocalRun.toolEnds
  generalize (if succeeded then EventBody.toolCallCompleted payload else .toolCallFailed payload) = body at hbody ⊢
  simp only
  split
  · exact h.emits hbody rfl rfl fun _ hm => hm
  · exact h.emits hbody rfl rfl fun _ hm => hm

theorem LocalOk.eventWritten (h : LocalOk begun s)
    (hu : ok = false → s.state.persistenceFailed = false → s.state.cancellationStarted → s.state.closed) :
    LocalOk begun { s with state := s.state.eventWritten cfg.runId now ok } := by
  -- the counter of the queue says nothing of the run
  have hcount : LocalOk begun { s with state := { s.state with persisted := s.state.persisted + 1 } } := by
    refine ⟨h.begun, fun hopen => ?_, fun hclosed hstarted => ?_⟩
    · obtain ⟨hgoing, hcancels⟩ := h.going hopen
      exact ⟨⟨hgoing.1, hgoing.2, hgoing.3, hgoing.4⟩, hcancels⟩
    · obtain ⟨hgoing, hended⟩ := h.ended hclosed hstarted
      exact ⟨hgoing, hended⟩
  unfold RunState.eventWritten
  simp only
  split
  · exact hcount
  · rename_i hnot
    simp only [Bool.not_eq_true, not_or] at hnot
    obtain ⟨hok, hclosed, hfailed⟩ := hnot
    refine hcount.ends (hu hok hfailed) (fun hc => ?_) (fail_ended _) rfl fun _ hm => hm
    rw [hc] at hclosed
    cases hclosed

-- -----------------
-- What the calls of cancel do
-- -----------------

theorem LocalOk.over (h : LocalOk begun s) (hc : s.state.closed) (hstate : s'.state = s.state)
    (hm : ∀ m ∈ s.messages, m ∈ s'.messages) : LocalOk begun s' := by
  refine ⟨hstate ▸ h.begun, fun hopen => ?_, fun _ hstarted => (h.ended hc (hstate ▸ hstarted)).more hstate hm⟩
  rw [hstate, hc] at hopen
  cases hopen

theorem LocalOk.cancel (h : LocalOk begun s) (reason : Option String) : LocalOk begun (s.cancel reason) := by
  cases hc : s.state.closed with
  | true =>
    have hstate : (s.cancel reason).state = s.state := by simp [LocalRun.cancel, RunState.beginCancellation, hc]
    exact h.over hc hstate fun m hm => hm
  | false =>
    obtain ⟨hgoing, hcancels⟩ := h.going hc
    have hfits : CancelPhase.Fits s.state.streamedText (.updating reason
        (if s.state.streamedText ≠ "" then some s.state.streamedText else none)) := rfl
    unfold LocalRun.cancel RunState.beginCancellation
    simp only [hc, hgoing.messageCompleted, Bool.false_eq_true, if_false, not_false_eq_true, true_and]
    refine ⟨fun _ => rfl, fun _ => ⟨⟨rfl, rfl, hgoing.streamedText, hgoing.events⟩, ?_⟩, fun hclosed => ?_⟩
    · simp only [if_true]
      refine ⟨by simp, fun phase hphase => ?_⟩
      rcases List.mem_append.mp hphase with hphase | hphase
      · split at hcancels
        · exact hcancels.2 phase hphase
        · rw [hcancels] at hphase
          cases hphase
      · rw [List.mem_singleton.mp hphase]
        exact hfits
    · cases hclosed

/-- A call of `cancel` of a run that is going, and what it holds. -/
theorem LocalOk.cancelling (h : LocalOk begun s) (hc : s.state.closed = false) (hi : s.cancels[i]? = some phase) :
    s.state.Going ∧ s.state.cancellationStarted ∧ phase.Fits s.state.streamedText ∧
      ∀ phase ∈ s.cancels, phase.Fits s.state.streamedText := by
  obtain ⟨hgoing, hcancels⟩ := h.going hc
  have hmem := List.mem_of_getElem? hi
  split at hcancels
  · exact ⟨hgoing, ‹_›, hcancels.2 phase hmem, hcancels.2⟩
  · rw [hcancels] at hmem
    cases hmem

/-- A call of `cancel` awaits on. -/
theorem LocalOk.awaits (h : LocalOk begun s) (hi : s.cancels[i]? = some phase)
    (hfits : phase.Fits s.state.streamedText → phase'.Fits s.state.streamedText) :
    LocalOk begun { s with cancels := s.cancels.set i phase' } := by
  cases hc : s.state.closed with
  | true => exact h.over hc rfl fun m hm => hm
  | false =>
    obtain ⟨hgoing, hstarted, hphase, hall⟩ := h.cancelling hc hi
    obtain ⟨hlt, _⟩ := List.getElem?_eq_some_iff.mp hi
    refine ⟨h.begun, fun _ => ⟨hgoing, ?_⟩, fun hclosed => ?_⟩
    · rw [if_pos hstarted]
      refine ⟨fun hnil => ?_, fun p hp => ?_⟩
      · have hlen := congrArg List.length hnil
        simp only [List.length_set, List.length_nil] at hlen
        exact absurd hlt (by simp [hlen])
      · rcases List.mem_or_eq_of_mem_set hp with hp | rfl
        · exact hall p hp
        · exact hfits hphase
    · simp only [hc] at hclosed
      cases hclosed

theorem cancel_started (h : state.cancellationStarted) : (state.cancel runId now reason m).cancellationStarted := by
  unfold RunState.cancel
  split
  · exact h
  · cases m with
    | none => exact (emitRuntimeEvent_flags ..).2
    | some m =>
      simp only [RunState.close]
      rw [(emitRuntimeEvent_flags ..).2]
      split
      · rfl
      · exact (emitRuntimeEvent_flags ..).2

theorem cancel_none (runId : RunId) (now : Time) (reason : Option String) (hg : state.Going) :
    (state.cancel runId now reason none).events = state.events ++ [⟨runId, state.sequence + 1, now, .runCancelled reason⟩] ∧
      (state.cancel runId now reason none).closed = true := by
  simp [RunState.cancel, RunState.emitRuntimeEvent, RunState.noted, RunState.close, hg.closed]

theorem cancel_some (runId : RunId) (now : Time) (reason : Option String) (m : AssistantMessage) (hg : state.Going) :
    (state.cancel runId now reason (some m)).events =
        state.events ++ [⟨runId, state.sequence + 1, now, messageCompletedBody m⟩] ++
          [⟨runId, state.sequence + 2, now, .runCancelled reason⟩] ∧
      (state.cancel runId now reason (some m)).closed = true := by
  simp [RunState.cancel, RunState.emitRuntimeEvent, RunState.noted, RunState.close, messageCompletedBody, hg.closed,
    hg.messageCompleted]

theorem LocalOk.cancelGoes {id : MessageId} (h : LocalOk begun s) (hi : s.cancels[i]? = some phase) :
    LocalOk begun (s.cancelGoes cfg now i id phase) := by
  cases hc : s.state.closed with
  | true =>
    cases phase with
    | updating reason partialText =>
      cases partialText with
      | none => exact h.over hc (by simp only [LocalRun.cancelGoes, cancel_closed hc]) fun m hm => hm
      | some text => exact h.over hc rfl fun m hm => hm
    | appending reason text =>
      exact h.over hc (by simp only [LocalRun.cancelGoes, cancel_closed hc]) fun m hm => List.mem_append_left _ hm
    | effect | flushing | done | threw => exact h.over hc rfl fun m hm => hm
  | false =>
    obtain ⟨hgoing, hstarted, hfits, _⟩ := h.cancelling hc hi
    have htext := hgoing.streamedText
    cases phase with
    | updating reason partialText =>
      cases partialText with
      | some text =>
        refine h.awaits hi fun _ => ?_
        have hsome : some text = if s.state.streamedText ≠ "" then some s.state.streamedText else none := hfits
        split at hsome
        · obtain rfl := Option.some.inj hsome
          exact ⟨rfl, ‹_›⟩
        · cases hsome
      | none =>
        obtain ⟨hevents, hclosed⟩ := cancel_none cfg.runId now reason hgoing
        have hnone : none = if s.state.streamedText ≠ "" then some s.state.streamedText else none := hfits
        have hempty : uncompletedText s.state.events = "" := by
          rw [← htext]
          refine Classical.byContradiction fun hne => ?_
          rw [if_pos hne] at hnone
          cases hnone
        refine ⟨fun _ => cancel_started hstarted, fun hopen => ?_, fun _ _ => ⟨fun hopen => ?_, fun _ => ?_⟩⟩
        · exact absurd (hclosed.symm.trans hopen) nofun
        · exact absurd (hclosed.symm.trans hopen) nofun
        · refine ⟨s.state.events, [], _, by rw [List.append_nil]; exact hevents, rfl, ?_, fun _ => rfl,
            fun hne => absurd hempty hne⟩
          simpa using hgoing.events
    | effect reason text => exact h.awaits hi fun hfits => hfits
    | appending reason text =>
      obtain ⟨htaken, hne⟩ := hfits
      obtain ⟨hevents, hclosed⟩ := cancel_some cfg.runId now reason
        ⟨id, text, .cancelled (summaries s.state.reasoningById) reason⟩ hgoing
      refine ⟨fun _ => cancel_started hstarted, fun hopen => ?_, fun _ _ => ⟨fun hopen => ?_, fun _ => ?_⟩⟩
      · exact absurd (hclosed.symm.trans hopen) nofun
      · exact absurd (hclosed.symm.trans hopen) nofun
      · refine ⟨s.state.events, [_], _, hevents, rfl, fun e he => ?_, fun hempty => ?_, fun _ => ?_⟩
        · rcases List.mem_append.mp he with he | he
          · exact hgoing.events e he
          · rw [List.mem_singleton.mp he]
            rfl
        · rw [← htext, ← htaken] at hempty
          exact absurd (htaken ▸ hempty) hne
        · exact ⟨_, List.mem_append_right _ (List.mem_singleton_self _), htaken.trans htext, rfl⟩
    | flushing | done | threw => exact absurd hfits nofun

theorem localRun_step_ok {move : LocalMove} (h : LocalOk begun s) (hu : Undisturbed cfg s move) :
    LocalOk begun ((localRun cfg).next s move) := by
  obtain ⟨now, action⟩ := move
  -- a disturbing move finds the run ended, or not being cancelled
  have hclosed : Disturbs cfg s action → s.state.cancellationStarted → s.state.closed := by
    intro hd hstarted
    cases hc : s.state.closed with
    | true => rfl
    | false => exact absurd hd (hu hstarted hc)
  simp only [Machine.next, localRun]
  cases action with
  | prepared carries =>
    have hcarries : LocalOk begun { s with carriesEarlierContinuation := carries } := h.same rfl rfl fun m hm => hm
    exact hcarries.startStep fun hmax => hclosed (Nat.le_zero.mp hmax)
  | streams body =>
    simp only [LocalRun.step]
    split
    · exact h.streams
    · exact h
  | completes completion =>
    simp only [LocalRun.step]
    split
    · exact h.completes
    · exact h
  | callEnds =>
    simp only [LocalRun.step]
    split
    · rename_i step streamed completion hturn
      refine h.callEnds fun hnone => hclosed ?_
      simp [Disturbs, hturn, TurnPhase.called, hnone]
    · exact h
  | rejected =>
    simp only [LocalRun.step]
    split
    · exact h.same rfl rfl fun m hm => hm
    · exact h
  | rebuilt =>
    simp only [LocalRun.step]
    split
    · exact h.same rfl rfl fun m hm => hm
    · exact h
  | goes id => exact h.goes hu
  | toolEnds succeeded payload =>
    simp only [LocalRun.step]
    split
    · exact h.toolEnds
    · exact h
  | needsApproval payload =>
    have hemits : LocalOk begun { s with state := s.state.emit cfg.runId now (.toolPermissionRequested payload) } :=
      h.emits (harmless rfl rfl) rfl rfl fun m hm => hm
    obtain ⟨hsame, hstarted⟩ := emitRuntimeEvent_flags cfg.runId now (.toolPermissionRequested payload)
      s.state false
    refine hemits.failed (fun hc => hsame.trans (hclosed trivial (hstarted.symm.trans hc))) _
  | throws e => exact h.failed (hclosed trivial) e
  | aborts => exact h.same rfl rfl fun m hm => hm
  | cancel reason => exact h.cancel reason
  | cancelGoes i id =>
    simp only [LocalRun.step]
    split
    · exact h.cancelGoes ‹_›
    · exact h
  | cancelFails i =>
    simp only [LocalRun.step]
    refine ⟨h.begun, fun hopen => ?_, fun hc hstarted => (h.ended hc hstarted).more rfl fun m hm => hm⟩
    obtain ⟨hgoing, hcancels⟩ := h.going hopen
    refine ⟨hgoing, ?_⟩
    split
    · have hc := hclosed trivial ‹_›
      rw [hopen] at hc
      cases hc
    · rw [if_neg ‹_›] at hcancels
      simp [hcancels]
  | eventWritten ok => exact h.eventWritten fun hok hfailed => hclosed ⟨hok, hfailed⟩

end Steps

section Runs

variable {t : LocalRun} {i : Nat} {phase phase' : CancelPhase} {text : String}

abbrev undisturbed (cfg : LocalConfig) : Machine LocalRun LocalMove Unit := (localRun cfg).when (Undisturbed cfg)

instance (s : LocalRun) (move : LocalMove) : Decidable ((undisturbed cfg).enabled s move) :=
  inferInstanceAs (Decidable ((localRun cfg).enabled s move ∧ Undisturbed cfg s move))

theorem undisturbed_ok (hs : (undisturbed cfg).Reachable s) : LocalOk False s := by
  have hinit : ∀ s, (undisturbed cfg).init s → LocalOk False s := by
    rintro s rfl
    exact ⟨nofun, fun _ => ⟨⟨rfl, rfl, rfl, nofun⟩, rfl⟩, nofun⟩
  have hstep : (undisturbed cfg).Preserves (LocalOk False) := fun s move h he => localRun_step_ok h he.2
  exact hs.invariant hinit hstep

/-- A call of `cancel` begins a cancellation of a run that is going. -/
theorem LocalOk.begins (h : LocalOk False s) (hc : s.state.closed = false) (reason : Option String) :
    LocalOk True (s.cancel reason) := by
  obtain ⟨_, hgoing, hended⟩ := h.cancel reason
  refine ⟨fun _ => ?_, hgoing, hended⟩
  simp [LocalRun.cancel, RunState.beginCancellation, hc]

/-- A call of `cancel` that is answered ends the run. -/
theorem cancel_finishes (cfg : LocalConfig) (h : LocalOk True s) :
    ∃ h' t, (undisturbed cfg).Run s h' t ∧ t.state.closed := by
  have hmove : ∀ {s : LocalRun} {phase}, s.cancels[0]? = some phase → phase ≠ .flushing →
      (undisturbed cfg).enabled s ⟨0, .cancelGoes 0 ""⟩ ∧
        (undisturbed cfg).next s ⟨0, .cancelGoes 0 ""⟩ = s.cancelGoes cfg 0 0 "" phase := by
    intro s phase hphase hne
    refine ⟨⟨fun hflush => ?_, ?_⟩, ?_⟩
    · rw [hphase] at hflush
      exact absurd (Option.some.inj hflush) hne
    · rintro _ _ ⟨⟩
    · simp only [Machine.next, undisturbed, Machine.when, localRun, LocalRun.step, hphase]
  have happending : ∀ {s : LocalRun} {reason text}, LocalOk True s → s.cancels[0]? = some (.appending reason text) →
      ∃ h' t, (undisturbed cfg).Run s h' t ∧ t.state.closed := by
    intro s reason text h hphase
    obtain ⟨he, hnext⟩ := hmove hphase (by rintro ⟨⟩)
    refine ⟨_, _, .single he, ?_⟩
    rw [hnext]
    cases hc : s.state.closed with
    | true => simp only [LocalRun.cancelGoes, cancel_closed hc, hc]
    | false => exact (cancel_some _ _ _ _ (h.cancelling hc hphase).1).2
  have heffect : ∀ {s : LocalRun} {reason text}, LocalOk True s → s.cancels[0]? = some (.effect reason text) →
      ∃ h' t, (undisturbed cfg).Run s h' t ∧ t.state.closed := by
    intro s reason text h hphase
    obtain ⟨he, hnext⟩ := hmove hphase (by rintro ⟨⟩)
    have hok := localRun_step_ok h he.2
    obtain ⟨hlt, _⟩ := List.getElem?_eq_some_iff.mp hphase
    have hafter : ((undisturbed cfg).next s ⟨0, .cancelGoes 0 ""⟩).cancels[0]? = some (.appending reason text) := by
      rw [hnext]
      simp [LocalRun.cancelGoes, List.getElem?_set_self hlt]
    obtain ⟨h', t, hr, hclosed⟩ := happending hok hafter
    exact ⟨_, t, .cons he hr, hclosed⟩
  cases hc : s.state.closed with
  | true => exact ⟨[], s, .nil, hc⟩
  | false =>
    obtain ⟨hgoing, hcancels⟩ := h.going hc
    rw [if_pos (h.begun trivial)] at hcancels
    obtain ⟨hne, hfits⟩ := hcancels
    obtain ⟨phase, hphase⟩ : ∃ phase, s.cancels[0]? = some phase := by
      cases hcs : s.cancels with
      | nil => exact absurd hcs hne
      | cons phase rest => exact ⟨phase, rfl⟩
    have hphasefits := hfits phase (List.mem_of_getElem? hphase)
    cases phase with
    | appending reason text => exact happending h hphase
    | effect reason text => exact heffect h hphase
    | flushing | done | threw => cases hphasefits
    | updating reason partialText =>
      obtain ⟨he, hnext⟩ := hmove hphase (by rintro ⟨⟩)
      cases partialText with
      | none =>
        refine ⟨_, _, .single he, ?_⟩
        rw [hnext]
        exact (cancel_none _ _ _ hgoing).2
      | some text =>
        have hok := localRun_step_ok h he.2
        obtain ⟨hlt, _⟩ := List.getElem?_eq_some_iff.mp hphase
        have hafter : ((undisturbed cfg).next s ⟨0, .cancelGoes 0 ""⟩).cancels[0]? = some (.effect reason text) := by
          rw [hnext]
          simp [LocalRun.cancelGoes, List.getElem?_set_self hlt]
        obtain ⟨h', t, hr, hclosed⟩ := heffect hok hafter
        exact ⟨_, t, .cons he hr, hclosed⟩

/-- A run that is cancelled while it goes ends as cancelled, with what it streamed, as long as nothing
disturbs the call of `cancel`; and that call can end it from wherever it stands. -/
theorem cancel_ends_run (cfg : LocalConfig) (s t : LocalRun) (now : Time) (reason : Option String)
    (h : List (LocalMove × Unit)) (hs : (undisturbed cfg).Reachable s) (hc : s.state.closed = false)
    (hr : (undisturbed cfg).Run ((localRun cfg).next s ⟨now, .cancel reason⟩) h t) :
    EndsCancelled t ∧ ∃ h' t', (undisturbed cfg).Run t h' t' ∧ t'.state.closed ∧ EndsCancelled t' := by
  have hok : LocalOk True ((localRun cfg).next s ⟨now, .cancel reason⟩) := (undisturbed_ok hs).begins hc reason
  have hstep : (undisturbed cfg).Preserves (LocalOk True) := fun s move h he => localRun_step_ok h he.2
  have ht : LocalOk True t := hr.preserves hstep hok
  obtain ⟨h', t', hr', hclosed⟩ := cancel_finishes cfg ht
  have ht' : LocalOk True t' := hr'.preserves hstep ht
  exact ⟨ht.endsCancelled (ht.begun trivial), h', t', hr', hclosed, ht'.endsCancelled (ht'.begun trivial)⟩

end Runs

namespace Example

def config : LocalConfig := ⟨"r", 64, true, "I completed the request."⟩

def started : LocalRun :=
  ⟨⟨.running, 0, false, false, false, "", [], [], 0, false⟩, .preparing, false, false, [], []⟩

def streaming : List LocalMove := [⟨1, .prepared false⟩, ⟨2, .streams (.messageDelta [("delta", "Hel")])⟩]

def streamed : LocalRun := (localRun config).after started streaming

def cancelling : LocalRun := (localRun config).next streamed ⟨3, .cancel none⟩

/-- The call of `cancel` has the streamed text stored. -/
def storing : List LocalMove := [⟨4, .cancelGoes 0 "m"⟩, ⟨5, .cancelGoes 0 "m"⟩, ⟨6, .cancelGoes 0 "m"⟩]

def throwing : List LocalMove := ⟨4, .throws (.error true)⟩ :: storing

def stored : LocalRun := (undisturbed config).after cancelling storing

def thrown : LocalRun := (localRun config).after cancelling throwing

theorem streaming_allowed : (undisturbed config).Allows started streaming := by decide

theorem streamed_reachable : (undisturbed config).Reachable streamed :=
  ⟨started, _, rfl, streaming_allowed.run⟩

theorem storing_allowed : (undisturbed config).Allows cancelling storing := by decide

theorem throwing_allowed : (localRun config).Allows cancelling throwing := by decide

end Example

theorem cancel_ends_run_stored : EndsCancelled Example.stored ∧
    Example.stored.state.events.map (·.body.type) = [.messageDelta, .messageCompleted, .runCancelled] ∧
    Example.stored.messages.map (·.text) = ["Hel"] :=
  ⟨(cancel_ends_run _ _ _ 3 none _ Example.streamed_reachable rfl Example.storing_allowed.run).1, by decide, by decide⟩

/-- The aborted stream of the model throws while `cancel` awaits: the run ends as failed, and the
piece that was streamed is never completed. -/
theorem cancel_loses_to_the_turn_loop : (localRun Example.config).Reachable Example.streamed ∧
    Example.streamed.state.closed = false ∧
    (localRun Example.config).Run ((localRun Example.config).next Example.streamed ⟨3, .cancel none⟩)
      ((localRun Example.config).history Example.cancelling Example.throwing) Example.thrown ∧
    Example.thrown.state.events.map (·.body.type) = [.messageDelta, .runFailed] ∧ ¬ EndsCancelled Example.thrown := by
  refine ⟨Example.streamed_reachable.of_when, rfl, Example.throwing_allowed.run, by decide, fun h => ?_⟩
  obtain ⟨before, completion, last, hevents, hlast, _⟩ := h.ended rfl
  have hcancelled : ∃ e ∈ Example.thrown.state.events, e.body.type = .runCancelled :=
    ⟨last, by rw [hevents]; simp, hlast⟩
  exact absurd hcancelled (by decide)

end Catalyst.Runs
