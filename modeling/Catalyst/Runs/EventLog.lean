import Catalyst.Runs.LocalCancel

/-!
# The event log of a run and its observers

A run records its events in a growing list. Any number of observers read it behind a cursor: an
observer goes through the list to its end and then waits until it is woken. Operations of the run,
pulls of the observers and the ends of event writes come in any order.
-/

namespace Catalyst.Runs

open Library Jobs

-- -----------------
-- Observers
-- -----------------

/-- Where a call of `observe` stands. -/
inductive ObservePhase
  /-- The generator is made and was not pulled yet. -/
  | created
  /-- It has yielded and waits for the next pull. -/
  | suspended (index : Nat)
  /-- It has a terminal event and awaits the event writes there were. -/
  | awaitingWrites (index : Nat) (event : AgentRuntimeEvent) (writes : Nat)
  /-- `waitForEvent`; its listener was called or not. -/
  | waiting (index : Nat) (woken : Bool)
  /-- The run is closed, and it awaits the event writes before it returns. -/
  | returning (writes : Nat)
  | done
  deriving DecidableEq

structure EventObserver where
  afterSequence : Nat
  phase : ObservePhase
  yielded : List AgentRuntimeEvent
  deriving DecidableEq

namespace EventObserver

def firstIndex (state : RunState) (afterSequence : Nat) : Nat :=
  state.events.findIdx fun event => afterSequence < event.sequence

/-- The loop of `observe` up to where it yields, awaits or waits. -/
def loop (state : RunState) (index : Nat) (o : EventObserver) : EventObserver :=
  match state.events[index]? with
  | some event =>
    if event.isTerminal then { o with phase := .awaitingWrites (index + 1) event state.events.length }
    else { o with phase := .suspended (index + 1), yielded := o.yielded ++ [event] }
  | none =>
    if state.closed then { o with phase := .returning state.events.length } else { o with phase := .waiting index false }

/-- `next()` -/
def pull (state : RunState) (o : EventObserver) : EventObserver :=
  match o.phase with
  | .created => o.loop state (firstIndex state o.afterSequence)
  | .suspended index => o.loop state index
  | _ => o

def resume (state : RunState) (o : EventObserver) : EventObserver :=
  match o.phase with
  | .awaitingWrites index event _ => { o with phase := .suspended index, yielded := o.yielded ++ [event] }
  | .waiting index _ => o.loop state index
  | .returning _ => { o with phase := .done }
  | _ => o

def wake (o : EventObserver) : EventObserver :=
  match o.phase with
  | .waiting index _ => { o with phase := .waiting index true }
  | _ => o

def canPull (o : EventObserver) : Bool :=
  match o.phase with
  | .created | .suspended _ => true
  | _ => false

def canResume (state : RunState) (o : EventObserver) : Bool :=
  match o.phase with
  | .awaitingWrites _ _ writes | .returning writes => writes ≤ state.persisted
  | .waiting _ woken => woken
  | _ => false

end EventObserver

structure EventLog where
  state : RunState
  observers : List EventObserver
  deriving DecidableEq

/-- An event that `emit` is called with: it does not end the run. -/
abbrev EmittedBody := { body : EventBody // body.type.ends = none }

inductive LogAction
  | emit (body : EmittedBody)
  | message (message : AssistantMessage)
  | completeMessage (message : AssistantMessage)
  | beginCancellation
  | complete
  | fail (failure : AgentRunError)
  | cancel (reason : Option String) (partialMessage : Option AssistantMessage)
  | eventWritten (ok : Bool)
  | observe (afterSequence : Nat)
  | pull (i : Nat)
  | resume (i : Nat)
  deriving DecidableEq

structure LogMove where
  now : Time
  action : LogAction
  deriving DecidableEq

def RunState.apply (runId : RunId) (now : Time) (s : RunState) : LogAction → RunState
  | .emit body => s.emit runId now body.1
  | .message message => s.message runId now message
  | .completeMessage message => s.emit runId now (messageCompletedBody message)
  | .beginCancellation => s.beginCancellation.1
  | .complete => s.complete runId now
  | .fail failure => s.fail runId now failure
  | .cancel reason partialMessage => s.cancel runId now reason partialMessage
  | .eventWritten ok => s.eventWritten runId now ok
  | .observe _ | .pull _ | .resume _ => s

/-- `flush` runs when an event is recorded and when the run closes. -/
def flushes (before after : RunState) : Bool :=
  after.events.length ≠ before.events.length || after.closed ≠ before.closed

namespace EventLog

def step (runId : RunId) (s : EventLog) (move : LogMove) : EventLog :=
  match move.action with
  | .observe afterSequence => { s with observers := s.observers ++ [⟨afterSequence, .created, []⟩] }
  | .pull i => { s with observers := s.observers.modify i (·.pull s.state) }
  | .resume i => { s with observers := s.observers.modify i (·.resume s.state) }
  | action =>
    let state := s.state.apply runId move.now action
    ⟨state, if flushes s.state state then s.observers.map (·.wake) else s.observers⟩

/-- Without `onEvent` a write ends as it is asked for: the write queue is through with it at any time. -/
def Enabled (s : EventLog) (move : LogMove) : Prop :=
  match move.action with
  | .eventWritten _ => s.state.persisted < s.state.events.length
  | .pull i => s.observers[i]?.any (·.canPull)
  | .resume i => s.observers[i]?.any (·.canResume s.state)
  | _ => True

instance (s : EventLog) (move : LogMove) : Decidable (s.Enabled move) := by
  unfold EventLog.Enabled
  split <;> infer_instance

end EventLog

/-- `new RunState` -/
def RunState.started : RunState := ⟨.running, 0, false, false, false, "", [], [], 0, false⟩

def eventLog (runId : RunId) : Machine EventLog LogMove Unit where
  init s := s = ⟨.started, []⟩
  enabled := EventLog.Enabled
  step s move := ((), s.step runId move)

instance (s : EventLog) (move : LogMove) : Decidable ((eventLog runId).enabled s move) :=
  inferInstanceAs (Decidable (s.Enabled move))

/-- The events are numbered from 1, and a terminal one is the last and closes the run. -/
structure LogOk (s : RunState) : Prop where
  numbered : s.events.map (·.sequence) = List.range' 1 s.events.length
  sequence : s.sequence = s.events.length
  going : s.closed = false → ∀ e ∈ s.events, e.isTerminal = false
  ended : s.closed = true → ∃ front last, s.events = front ++ [last] ∧ last.isTerminal = true ∧
    ∀ e ∈ front, e.isTerminal = false

section State

variable {s t : RunState} {body : EventBody} {allow : Bool}

def RunState.nextEvent (runId : RunId) (now : Time) (s : RunState) (body : EventBody) : AgentRuntimeEvent :=
  ⟨runId, s.sequence + 1, now, body⟩

theorem emitRuntimeEvent_skipped (h : s.closed ∨ s.cancellationStarted ∧ ¬ allow) :
    s.emitRuntimeEvent runId now body allow = s := by
  rw [RunState.emitRuntimeEvent, if_pos h]

theorem emitRuntimeEvent_recorded (runId : RunId) (now : Time) (body : EventBody) (h : ¬ (s.closed ∨ s.cancellationStarted ∧ ¬ allow)) :
    (s.emitRuntimeEvent runId now body allow).events = s.events ++ [s.nextEvent runId now body] ∧
      (s.emitRuntimeEvent runId now body allow).sequence = s.sequence + 1 := by
  rw [RunState.emitRuntimeEvent, if_neg h]
  exact ⟨rfl, rfl⟩

theorem LogOk.numbered_append (h : LogOk s) :
    (s.events ++ [s.nextEvent runId now body]).map (·.sequence) =
      List.range' 1 (s.events ++ [s.nextEvent runId now body]).length := by
  rw [List.map_append, h.numbered, List.length_append, List.length_singleton, List.range'_concat]
  simp [RunState.nextEvent, h.sequence, Nat.add_comm]

theorem LogOk.emits (h : LogOk s) (hbody : body.type.ends = none) : LogOk (s.emitRuntimeEvent runId now body allow) := by
  by_cases hskip : s.closed ∨ s.cancellationStarted ∧ ¬ allow
  · rwa [emitRuntimeEvent_skipped hskip]
  · obtain ⟨hevents, hsequence⟩ := emitRuntimeEvent_recorded runId now body hskip
    have hclosed : (s.emitRuntimeEvent runId now body allow).closed = false := by
      rw [(emitRuntimeEvent_flags ..).1]
      simpa using fun hc => hskip (.inl hc)
    refine ⟨?_, ?_, fun _ e he => ?_, fun hc => absurd hc (by simp [hclosed])⟩
    · rw [hevents]
      exact h.numbered_append
    · rw [hevents, hsequence, h.sequence, List.length_append, List.length_singleton]
    · rw [hevents] at he
      obtain he | he := List.mem_append.mp he
      · exact h.going (by simpa using fun hc => hskip (.inl hc)) e he
      · simp [List.mem_singleton.mp he, AgentRuntimeEvent.isTerminal, RunState.nextEvent, hbody]

theorem LogOk.closes (h : LogOk s) (hopen : s.closed = false) (hbody : body.type.ends.isSome = true) :
    LogOk (s.emitRuntimeEvent runId now body true).close := by
  have hrecorded : ¬ (s.closed ∨ s.cancellationStarted ∧ ¬ true) := by simp [hopen]
  obtain ⟨hevents, hsequence⟩ := emitRuntimeEvent_recorded runId now body hrecorded
  refine ⟨?_, ?_, fun hc => absurd hc (by simp [RunState.close]), fun _ => ?_⟩
  · simp only [RunState.close]
    rw [hevents]
    exact h.numbered_append
  · simp only [RunState.close]
    rw [hevents, hsequence, h.sequence, List.length_append, List.length_singleton]
  · exact ⟨s.events, _, hevents, hbody, h.going hopen⟩

theorem LogOk.same (h : LogOk s) (hevents : t.events = s.events) (hsequence : t.sequence = s.sequence)
    (hclosed : t.closed = s.closed) : LogOk t := by
  refine ⟨?_, ?_, fun hc => ?_, fun hc => ?_⟩
  · rw [hevents]
    exact h.numbered
  · rw [hevents, hsequence]
    exact h.sequence
  · rw [hevents]
    exact h.going (hclosed ▸ hc)
  · rw [hevents]
    exact h.ended (hclosed ▸ hc)

theorem LogOk.fail (h : LogOk s) (failure : AgentRunError) : LogOk (s.fail runId now failure) := by
  by_cases hc : s.closed = true
  · rwa [fail_closed hc]
  · rw [RunState.fail, if_neg hc]
    have hopen : s.closed = false := by simpa using hc
    exact LogOk.closes (s := { s with status := .failed }) (h.same rfl rfl rfl) hopen rfl

theorem LogOk.complete (h : LogOk s) : LogOk (s.complete runId now) := by
  by_cases hc : s.closed = true
  · rwa [complete_closed hc]
  · rw [RunState.complete, if_neg hc]
    have hopen : s.closed = false := by simpa using hc
    exact LogOk.closes (s := { s with status := .completed }) (h.same rfl rfl rfl) hopen rfl

theorem LogOk.cancel (h : LogOk s) (reason : Option String) (partialMessage : Option AssistantMessage) :
    LogOk (s.cancel runId now reason partialMessage) := by
  by_cases hc : s.closed = true
  · rwa [cancel_closed hc]
  · have hopen : s.closed = false := by simpa using hc
    have hs : LogOk { s with cancellationStarted := true, status := .cancelled } := h.same rfl rfl rfl
    simp only [RunState.cancel, if_neg hc]
    split
    · split
      · exact hs.closes hopen rfl
      · refine (hs.emits rfl).closes ?_ rfl
        rw [(emitRuntimeEvent_flags ..).1]
        exact hopen
    · exact hs.closes hopen rfl

theorem LogOk.apply (h : LogOk s) (action : LogAction) : LogOk (s.apply runId now action) := by
  cases action with
  | emit body => exact h.emits body.2
  | message message => exact (h.emits rfl).emits rfl
  | completeMessage message => exact h.emits rfl
  | beginCancellation =>
    simp only [RunState.apply, RunState.beginCancellation]
    split
    · exact h
    · exact h.same rfl rfl rfl
  | complete => exact h.complete
  | fail failure => exact h.fail failure
  | cancel reason partialMessage => exact h.cancel reason partialMessage
  | eventWritten ok =>
    simp only [RunState.apply, RunState.eventWritten]
    split
    · exact h.same rfl rfl rfl
    · have hs : LogOk { s with persisted := s.persisted + 1, persistenceFailed := true } := h.same rfl rfl rfl
      exact hs.fail _
  | observe afterSequence => exact h
  | pull i => exact h
  | resume i => exact h

def Grows (s t : RunState) : Prop :=
  ∃ added, t.events = s.events ++ added ∧ (s.closed = true → added = [] ∧ t.closed = true)

theorem Grows.refl (s : RunState) : Grows s s := ⟨[], by simp, fun h => ⟨rfl, h⟩⟩

theorem Grows.trans {u : RunState} (h : Grows s t) (h' : Grows t u) : Grows s u := by
  obtain ⟨added, hadded, hclosed⟩ := h
  obtain ⟨more, hmore, hclosed'⟩ := h'
  refine ⟨added ++ more, by rw [hmore, hadded, List.append_assoc], fun hc => ?_⟩
  obtain ⟨rfl, ht⟩ := hclosed hc
  obtain ⟨rfl, hu⟩ := hclosed' ht
  exact ⟨rfl, hu⟩

theorem Grows.same (hevents : t.events = s.events) (hclosed : t.closed = s.closed) : Grows s t :=
  ⟨[], by simp [hevents], fun hc => ⟨rfl, hclosed.trans hc⟩⟩

theorem Grows.emits (s : RunState) : Grows s (s.emitRuntimeEvent runId now body allow) := by
  by_cases hskip : s.closed ∨ s.cancellationStarted ∧ ¬ allow
  · rw [emitRuntimeEvent_skipped hskip]
    exact .refl s
  · exact ⟨_, (emitRuntimeEvent_recorded _ _ _ hskip).1, fun hc => absurd (.inl hc) hskip⟩

theorem Grows.close (h : Grows s t) : Grows s t.close := by
  obtain ⟨added, hadded, hclosed⟩ := h
  exact ⟨added, hadded, fun hc => ⟨(hclosed hc).1, rfl⟩⟩

theorem Grows.fail (s : RunState) (failure : AgentRunError) : Grows s (s.fail runId now failure) := by
  unfold RunState.fail
  split
  · exact .refl s
  · exact (Grows.trans (.same rfl rfl) (.emits { s with status := .failed })).close

theorem Grows.apply (s : RunState) (action : LogAction) : Grows s (s.apply runId now action) := by
  cases action with
  | emit body => exact .emits s
  | message message => exact (Grows.emits s).trans (.emits _)
  | completeMessage message => exact .emits s
  | beginCancellation =>
    simp only [RunState.apply, RunState.beginCancellation]
    split
    · exact .refl s
    · exact .same rfl rfl
  | complete =>
    simp only [RunState.apply, RunState.complete]
    split
    · exact .refl s
    · exact (Grows.trans (.same rfl rfl) (.emits { s with status := .completed })).close
  | fail failure => exact .fail s failure
  | cancel reason partialMessage =>
    have hs : Grows s { s with cancellationStarted := true, status := .cancelled } := .same rfl rfl
    simp only [RunState.apply, RunState.cancel]
    split
    · exact .refl s
    · split
      · split
        · exact (hs.trans (.emits _)).close
        · exact ((hs.trans (.emits _)).trans (.emits _)).close
      · exact (hs.trans (.emits _)).close
  | eventWritten ok =>
    simp only [RunState.apply, RunState.eventWritten]
    split
    · exact .same rfl rfl
    · exact Grows.trans (.same rfl rfl) (.fail _ _)
  | observe afterSequence => exact .refl s
  | pull i => exact .refl s
  | resume i => exact .refl s

-- -----------------
-- What cancellation leaves open
-- -----------------

def EndsWith (s t : RunState) : Prop :=
  ∃ completion last, t.events = s.events ++ completion ++ [last] ∧ last.isTerminal = true ∧
    (completion = [] ∨ ∃ event message, completion = [event] ∧ event.body = messageCompletedBody message ∧
      s.messageCompleted = false ∧ last.body.type = .runCancelled)

structure AddsEnd (s t : RunState) : Prop where
  cancelling : t.cancellationStarted = true
  added : t.events = s.events ∧ t.messageCompleted = s.messageCompleted ∧ (s.closed = true → t.closed = true) ∨
    s.closed = false ∧ t.closed = true ∧ EndsWith s t

theorem AddsEnd.refl (h : s.cancellationStarted = true) : AddsEnd s s := ⟨h, .inl ⟨rfl, rfl, id⟩⟩

theorem AddsEnd.trans {u : RunState} (h : AddsEnd s t) (h' : AddsEnd t u) : AddsEnd s u := by
  refine ⟨h'.cancelling, ?_⟩
  obtain ⟨hevents, hcompleted, hclosed⟩ | ⟨hopen, hclosed, hends⟩ := h.added
  · obtain ⟨hevents', hcompleted', hclosed'⟩ | ⟨hopen', hclosed', hends'⟩ := h'.added
    · exact .inl ⟨hevents'.trans hevents, hcompleted'.trans hcompleted, fun hc => hclosed' (hclosed hc)⟩
    · refine .inr ⟨?_, hclosed', ?_⟩
      · by_contra hc
        rw [hclosed (by simpa using hc)] at hopen'
        cases hopen'
      · unfold EndsWith at hends' ⊢
        rwa [hevents, hcompleted] at hends'
  · obtain ⟨hevents', -, hclosed'⟩ | ⟨hopen', -, -⟩ := h'.added
    · refine .inr ⟨hopen, hclosed' hclosed, ?_⟩
      unfold EndsWith at hends ⊢
      rwa [hevents']
    · rw [hclosed] at hopen'
      cases hopen'

theorem endsWith_closes (hopen : s.closed = false) (hbody : body.type.ends.isSome = true) :
    EndsWith s (s.emitRuntimeEvent runId now body true).close := by
  have hrecorded : ¬ (s.closed ∨ s.cancellationStarted ∧ ¬ true) := by simp [hopen]
  obtain ⟨hevents, -⟩ := emitRuntimeEvent_recorded runId now body hrecorded
  have hlast : (s.nextEvent runId now body).isTerminal = true := hbody
  refine ⟨[], _, ?_, hlast, .inl rfl⟩
  rw [List.append_nil]
  exact hevents

theorem endsWith_completes (hopen : s.closed = false) (hmessage : s.messageCompleted = false) (message : AssistantMessage)
    (reason : Option String) :
    EndsWith s ((s.emitRuntimeEvent runId now (messageCompletedBody message) true).emitRuntimeEvent runId now
      (.runCancelled reason) true).close := by
  have hrecorded : ¬ (s.closed ∨ s.cancellationStarted ∧ ¬ true) := by simp [hopen]
  obtain ⟨hevents, -⟩ :=
    emitRuntimeEvent_recorded runId now (messageCompletedBody message) hrecorded
  have hclosed := (emitRuntimeEvent_flags runId now (messageCompletedBody message) s true).1
  generalize s.emitRuntimeEvent runId now (messageCompletedBody message) true = t at hevents hclosed ⊢
  have hrecorded' : ¬ (t.closed ∨ t.cancellationStarted ∧ ¬ true) := by simp [hclosed, hopen]
  obtain ⟨hevents', -⟩ := emitRuntimeEvent_recorded runId now (.runCancelled reason) hrecorded'
  have hlast : (t.nextEvent runId now (.runCancelled reason)).isTerminal = true := rfl
  refine ⟨[s.nextEvent runId now (messageCompletedBody message)], _, ?_, hlast, .inr ?_⟩
  · exact hevents'.trans (congrArg (· ++ _) hevents)
  · exact ⟨_, message, rfl, rfl, hmessage, rfl⟩

/-- A call of `cancel` ends an open run. -/
theorem endsWith_cancel (runId : RunId) (now : Time) (hopen : s.closed = false) (reason : Option String)
    (partialMessage : Option AssistantMessage) :
    EndsWith s (s.cancel runId now reason partialMessage) ∧ (s.cancel runId now reason partialMessage).closed = true := by
  let begun : RunState := { s with cancellationStarted := true, status := .cancelled }
  have hclosed : ¬ s.closed = true := by simp [hopen]
  simp only [RunState.cancel, if_neg hclosed]
  cases partialMessage with
  | none => exact ⟨endsWith_closes (s := begun) hopen rfl, rfl⟩
  | some message =>
    simp only
    split
    · exact ⟨endsWith_closes (s := begun) hopen rfl, rfl⟩
    · next hmessage => exact ⟨endsWith_completes (s := begun) hopen (by simpa using hmessage) message reason, rfl⟩

theorem addsEnd_fail (hc : s.cancellationStarted = true) (failure : AgentRunError) :
    AddsEnd s (s.fail runId now failure) := by
  by_cases hclosed : s.closed = true
  · rw [fail_closed hclosed]
    exact .refl hc
  · have hopen : s.closed = false := by simpa using hclosed
    let failed : RunState := { s with status := .failed }
    have hends : EndsWith s (s.fail runId now failure) := by
      rw [RunState.fail, if_neg hclosed]
      exact endsWith_closes (s := failed) hopen rfl
    exact ⟨(fail_ended s).2.trans hc, .inr ⟨hopen, (fail_ended s).1, hends⟩⟩

theorem addsEnd_complete (hc : s.cancellationStarted = true) : AddsEnd s (s.complete runId now) := by
  by_cases hclosed : s.closed = true
  · rw [complete_closed hclosed]
    exact .refl hc
  · have hopen : s.closed = false := by simpa using hclosed
    let completed : RunState := { s with status := .completed }
    have hends : EndsWith s (s.complete runId now) := by
      rw [RunState.complete, if_neg hclosed]
      exact endsWith_closes (s := completed) hopen rfl
    exact ⟨(complete_ended s).2.trans hc, .inr ⟨hopen, (complete_ended s).1, hends⟩⟩

theorem addsEnd_cancel (hc : s.cancellationStarted = true) (reason : Option String)
    (partialMessage : Option AssistantMessage) : AddsEnd s (s.cancel runId now reason partialMessage) := by
  by_cases hclosed : s.closed = true
  · rw [cancel_closed hclosed]
    exact .refl hc
  · have hopen : s.closed = false := by simpa using hclosed
    obtain ⟨hends, hclosed⟩ := endsWith_cancel runId now hopen reason partialMessage
    exact ⟨cancel_started hc, .inr ⟨hopen, hclosed, hends⟩⟩

/-- After cancellation has begun, an operation adds the end of the run or nothing. -/
theorem addsEnd_apply (hc : s.cancellationStarted = true) (action : LogAction) :
    AddsEnd s (s.apply runId now action) := by
  have hskip (body : EventBody) : s.emit runId now body = s := emit_cancelling hc
  cases action with
  | emit body =>
    simp only [RunState.apply, hskip]
    exact .refl hc
  | message message =>
    simp only [RunState.apply, RunState.message, hskip]
    exact .refl hc
  | completeMessage message =>
    simp only [RunState.apply, hskip]
    exact .refl hc
  | beginCancellation =>
    simp only [RunState.apply, RunState.beginCancellation]
    split
    · exact .refl hc
    · exact ⟨rfl, .inl ⟨rfl, rfl, id⟩⟩
  | complete => exact addsEnd_complete hc
  | fail failure => exact addsEnd_fail hc failure
  | cancel reason partialMessage => exact addsEnd_cancel hc reason partialMessage
  | eventWritten ok =>
    simp only [RunState.apply, RunState.eventWritten]
    split
    · exact ⟨hc, .inl ⟨rfl, rfl, id⟩⟩
    · let written : RunState := { s with persisted := s.persisted + 1, persistenceFailed := true }
      have hsame : AddsEnd s written := ⟨hc, .inl ⟨rfl, rfl, id⟩⟩
      exact hsame.trans (addsEnd_fail (s := written) hc _)
  | observe afterSequence => exact .refl hc
  | pull i => exact .refl hc
  | resume i => exact .refl hc

end State

section Observers

variable {state t : RunState} {start p : Nat} {o : EventObserver}

/-- Where a phase stands when everything before `p` was read. -/
def ObservePhase.At (state : RunState) (p : Nat) : ObservePhase → Prop
  | .created => False
  | .suspended index => index = p
  | .awaitingWrites index event writes =>
    index = p + 1 ∧ state.events[p]? = some event ∧ event.isTerminal = true ∧ writes ≤ state.events.length
  | .waiting index woken => index = p ∧ (woken = false → p = state.events.length ∧ state.closed = false)
  | .returning writes => p = state.events.length ∧ state.closed = true ∧ writes ≤ state.events.length
  | .done => p = state.events.length ∧ state.closed = true

/-- An observer that started at `start` and has yielded everything from there to where it stands. -/
def Follows (state : RunState) (start : Nat) (o : EventObserver) : Prop :=
  ∃ p ≤ state.events.length, o.phase.At state p ∧ (start ≤ p ∨ state.closed = true ∧ p = state.events.length) ∧
    o.yielded = (state.events.take p).drop start

theorem Follows.loop (hp : p ≤ state.events.length) (hstart : start ≤ p ∨ state.closed = true ∧ p = state.events.length)
    (hyielded : o.yielded = (state.events.take p).drop start) : Follows state start (o.loop state p) := by
  unfold EventObserver.loop
  cases hevent : state.events[p]? with
  | some event =>
    obtain ⟨hlt, hget⟩ := List.getElem?_eq_some_iff.mp hevent
    have hle : start ≤ p := by omega
    by_cases hterm : event.isTerminal = true
    · simp only [hterm, if_true]
      exact ⟨p, hp, ⟨rfl, hevent, hterm, le_rfl⟩, hstart, hyielded⟩
    · simp only [hterm]
      refine ⟨p + 1, hlt, rfl, .inl (by omega), ?_⟩
      rw [List.take_add_one, hevent, List.drop_append_of_le_length (by rw [List.length_take]; omega), ← hyielded]
      rfl
  | none =>
    have heq : p = state.events.length := by
      have := List.getElem?_eq_none_iff.mp hevent
      omega
    by_cases hclosed : state.closed = true
    · simp only [hclosed, if_true]
      exact ⟨p, hp, ⟨heq, hclosed, le_rfl⟩, hstart, hyielded⟩
    · simp only [hclosed]
      exact ⟨p, hp, ⟨rfl, fun _ => ⟨heq, by simpa using hclosed⟩⟩, hstart, hyielded⟩

theorem Follows.pull (h : Follows state start o) : Follows state start (o.pull state) := by
  obtain ⟨p, hp, hat, hstart, hyielded⟩ := h
  unfold EventObserver.pull
  cases hphase : o.phase with
  | created => exact absurd hat (by simp [hphase, ObservePhase.At])
  | suspended index =>
    obtain rfl : index = p := by simpa [hphase, ObservePhase.At] using hat
    exact .loop hp hstart hyielded
  | _ => exact ⟨p, hp, hat, hstart, hyielded⟩

theorem Follows.resume (h : Follows state start o) : Follows state start (o.resume state) := by
  obtain ⟨p, hp, hat, hstart, hyielded⟩ := h
  unfold EventObserver.resume
  cases hphase : o.phase with
  | awaitingWrites index event writes =>
    obtain ⟨rfl, hevent, -, -⟩ := hphase ▸ hat
    obtain ⟨hlt, -⟩ := List.getElem?_eq_some_iff.mp hevent
    have hle : start ≤ p := by omega
    refine ⟨p + 1, hlt, rfl, .inl (by omega), ?_⟩
    rw [List.take_add_one, hevent, List.drop_append_of_le_length (by rw [List.length_take]; omega), ← hyielded]
    rfl
  | waiting index woken =>
    obtain ⟨rfl, -⟩ := hphase ▸ hat
    exact .loop hp hstart hyielded
  | returning writes =>
    obtain ⟨hend, hclosed, -⟩ := hphase ▸ hat
    exact ⟨p, hp, ⟨hend, hclosed⟩, hstart, hyielded⟩
  | _ => exact ⟨p, hp, hat, hstart, hyielded⟩

theorem flushes_false (h : flushes state t = false) : t.events.length = state.events.length ∧ t.closed = state.closed := by
  simpa [flushes] using h

theorem Follows.grows (h : Follows state start o) (hgrows : Grows state t) :
    Follows t start (if flushes state t then o.wake else o) := by
  obtain ⟨p, hp, hat, hstart, hyielded⟩ := h
  obtain ⟨added, hadded, hclosed⟩ := hgrows
  have hp' : p ≤ t.events.length := by
    rw [hadded, List.length_append]
    omega
  have hend (hc : state.closed = true) : t.events = state.events := by simpa [(hclosed hc).1] using hadded
  have hstart' : start ≤ p ∨ t.closed = true ∧ p = t.events.length :=
    hstart.imp id fun ⟨hc, heq⟩ => ⟨(hclosed hc).2, by rw [hend hc]; exact heq⟩
  have hyielded' : o.yielded = (t.events.take p).drop start := by
    rw [hyielded, hadded, List.take_append_of_le_length hp]
  cases hflush : flushes state t with
  | true =>
    simp only [if_true]
    unfold EventObserver.wake
    cases hphase : o.phase with
    | created => exact absurd hat (by simp [hphase, ObservePhase.At])
    | suspended index => exact ⟨p, hp', by simpa [hphase, ObservePhase.At] using hat, hstart', hyielded'⟩
    | waiting index woken =>
      obtain ⟨rfl, -⟩ := hphase ▸ hat
      exact ⟨index, hp', ⟨rfl, fun h => absurd h (by simp)⟩, hstart', hyielded'⟩
    | awaitingWrites index event writes =>
      obtain ⟨rfl, hevent, hterm, hwrites⟩ := hphase ▸ hat
      refine ⟨p, hp', ?_, hstart', hyielded'⟩
      rw [hphase]
      refine ⟨rfl, ?_, hterm, ?_⟩
      · rw [hadded, List.getElem?_append_left (List.getElem?_eq_some_iff.mp hevent).1]
        exact hevent
      · rw [hadded, List.length_append]
        omega
    | returning writes =>
      obtain ⟨heq, hc, hwrites⟩ := hphase ▸ hat
      refine ⟨p, hp', ?_, hstart', hyielded'⟩
      rw [hphase]
      exact ⟨by rw [hend hc]; exact heq, (hclosed hc).2, by rw [hend hc]; exact hwrites⟩
    | done =>
      obtain ⟨heq, hc⟩ := hphase ▸ hat
      refine ⟨p, hp', ?_, hstart', hyielded'⟩
      rw [hphase]
      exact ⟨by rw [hend hc]; exact heq, (hclosed hc).2⟩
  | false =>
    obtain ⟨hlength, hsame⟩ := flushes_false hflush
    have hevents : t.events = state.events := by
      rw [hadded, List.length_append] at hlength
      obtain rfl : added = [] := List.eq_nil_of_length_eq_zero (by omega)
      rw [hadded, List.append_nil]
    refine ⟨p, hp', ?_, hstart', hyielded'⟩
    cases hphase : o.phase with
    | created => exact absurd hat (by simp [hphase, ObservePhase.At])
    | _ => simpa [hphase, ObservePhase.At, hevents, hsame] using hat

theorem LogOk.sequence_get (h : LogOk state) (hp : p < state.events.length) : state.events[p].sequence = p + 1 := by
  have hget : (state.events.map (·.sequence))[p]? = some (p + 1) := by
    rw [h.numbered, List.getElem?_range' hp, Nat.add_comm]
    simp
  simpa [hp] using hget

theorem LogOk.behind (h : LogOk state) (after : Nat) :
    (state.events.filter fun event => after < event.sequence) = state.events.drop after := by
  have hfront : ∀ event ∈ state.events.take after, ¬ decide (after < event.sequence) = true := by
    intro event hevent
    obtain ⟨i, hi, rfl⟩ := List.mem_take_iff_getElem.mp hevent
    have := h.sequence_get (p := i) (by omega)
    simp only [decide_eq_true_eq]
    omega
  have hback : ∀ event ∈ state.events.drop after, decide (after < event.sequence) = true := by
    intro event hevent
    obtain ⟨i, hi, rfl⟩ := List.mem_drop_iff_getElem.mp hevent
    have := h.sequence_get (p := after + i) (by omega)
    simp only [decide_eq_true_eq]
    omega
  conv_lhs => rw [← List.take_append_drop after state.events]
  rw [List.filter_append, List.filter_eq_nil_iff.mpr hfront, List.filter_eq_self.mpr hback, List.nil_append]

theorem LogOk.firstIndex_eq (h : LogOk state) (after : Nat) :
    EventObserver.firstIndex state after = min after state.events.length := by
  unfold EventObserver.firstIndex
  by_cases hlt : after < state.events.length
  · rw [Nat.min_eq_left hlt.le, List.findIdx_eq hlt]
    refine ⟨by simp [h.sequence_get hlt], fun i hi => ?_⟩
    have := h.sequence_get (p := i) (by omega)
    simp only [decide_eq_false_iff_not]
    omega
  · rw [Nat.min_eq_right (by omega), List.findIdx_eq_length]
    intro event hevent
    obtain ⟨i, hi, rfl⟩ := List.mem_iff_getElem.mp hevent
    have := h.sequence_get hi
    simp only [decide_eq_false_iff_not]
    omega

theorem Follows.starts (h : LogOk state) (hphase : o.phase = .created) (hyielded : o.yielded = [])
    (hstart : min o.afterSequence state.events.length = start ∨ start = o.afterSequence ∧ state.closed = true) :
    Follows state start (o.pull state) := by
  have hpull : o.pull state = o.loop state (min o.afterSequence state.events.length) := by
    simp [EventObserver.pull, hphase, h.firstIndex_eq]
  rw [hpull]
  have hnone : o.yielded = (state.events.take (min o.afterSequence state.events.length)).drop start := by
    rw [hyielded]
    symm
    rw [List.drop_eq_nil_iff, List.length_take]
    omega
  refine .loop (Nat.min_le_right _ _) ?_ hnone
  obtain rfl | ⟨rfl, hclosed⟩ := hstart
  · exact .inl le_rfl
  · by_cases hle : o.afterSequence ≤ state.events.length
    · exact .inl (by omega)
    · exact .inr ⟨hclosed, by omega⟩

end Observers

section Runs

variable {runId : RunId} {s t : EventLog} {move : LogMove} {i start : Nat} {o : EventObserver}

theorem step_cases (runId : RunId) (s : EventLog) (move : LogMove) :
    (∃ state, state = s.state.apply runId move.now move.action ∧ s.step runId move =
      ⟨state, s.observers.map fun o => if flushes s.state state then o.wake else o⟩) ∨
    (∃ afterSequence, s.step runId move = { s with observers := s.observers ++ [⟨afterSequence, .created, []⟩] }) ∨
    (∃ i, move.action = .pull i ∧ s.step runId move = { s with observers := s.observers.modify i (·.pull s.state) }) ∨
    ∃ i, move.action = .resume i ∧ s.step runId move = { s with observers := s.observers.modify i (·.resume s.state) } := by
  have hmap (state : RunState) : (if flushes s.state state then s.observers.map (·.wake) else s.observers) =
      s.observers.map fun o => if flushes s.state state then o.wake else o := by
    cases flushes s.state state <;> simp
  obtain ⟨now, action⟩ := move
  cases action with
  | observe afterSequence => exact .inr (.inl ⟨afterSequence, rfl⟩)
  | pull i => exact .inr (.inr (.inl ⟨i, rfl, rfl⟩))
  | resume i => exact .inr (.inr (.inr ⟨i, rfl, rfl⟩))
  | _ =>
    refine .inl ⟨_, rfl, ?_⟩
    rw [← hmap]
    rfl

theorem state_step (runId : RunId) (s : EventLog) (move : LogMove) :
    (s.step runId move).state = s.state.apply runId move.now move.action := by
  obtain ⟨now, action⟩ := move
  cases action <;> rfl

theorem logOk_preserved : (eventLog runId).Preserves fun s => LogOk s.state := by
  intro s move h _
  show LogOk (s.step runId move).state
  rw [state_step]
  exact h.apply _

theorem logOk_started : LogOk RunState.started := ⟨rfl, rfl, fun _ _ h => absurd h List.not_mem_nil, fun h => absurd h (by decide)⟩

theorem logOk_reachable (hs : (eventLog runId).Reachable s) : LogOk s.state := by
  refine hs.invariant (I := fun s => LogOk s.state) ?_ logOk_preserved
  rintro s rfl
  exact logOk_started

theorem addsEnd_run {h : List (LogMove × Unit)} (hr : (eventLog runId).Run s h t)
    (hc : s.state.cancellationStarted = true) : AddsEnd s.state t.state := by
  let Adds (s t : EventLog) : Prop := s.state.cancellationStarted = true → AddsEnd s.state t.state
  have htrans (s t u : EventLog) (h : Adds s t) (h' : Adds t u) : Adds s u := fun hc =>
    (h hc).trans (h' (h hc).cancelling)
  refine hr.relates (I := fun _ => True) (R := Adds) (fun s hc => .refl hc) htrans (fun _ _ _ _ => trivial) ?_ trivial hc
  intro s move _ _ hc
  show AddsEnd s.state (s.step runId move).state
  rw [state_step]
  exact addsEnd_apply hc _

def NotAhead (s : EventLog) (move : LogMove) : Prop :=
  match move.action with
  | .pull i => ∀ o ∈ s.observers[i]?, o.phase = .created → o.afterSequence ≤ s.state.events.length ∨ s.state.closed = true
  | _ => True

def Keeps (state : RunState) (o : EventObserver) : Prop :=
  o.phase = .created ∧ o.yielded = [] ∨ Follows state o.afterSequence o

@[simp] theorem loop_afterSequence (state : RunState) (index : Nat) (o : EventObserver) :
    (o.loop state index).afterSequence = o.afterSequence := by
  unfold EventObserver.loop
  split
  · split <;> rfl
  · split <;> rfl

@[simp] theorem pull_afterSequence (state : RunState) (o : EventObserver) :
    (o.pull state).afterSequence = o.afterSequence := by
  unfold EventObserver.pull
  split <;> simp

@[simp] theorem resume_afterSequence (state : RunState) (o : EventObserver) :
    (o.resume state).afterSequence = o.afterSequence := by
  unfold EventObserver.resume
  split <;> simp

@[simp] theorem wake_afterSequence (o : EventObserver) : o.wake.afterSequence = o.afterSequence := by
  unfold EventObserver.wake
  split <;> rfl

theorem wake_created (h : o.phase = .created) : o.wake = o := by simp [EventObserver.wake, h]

theorem resume_created {state : RunState} (h : o.phase = .created) : o.resume state = o := by
  simp [EventObserver.resume, h]

theorem Keeps.pull {state : RunState} (hlog : LogOk state) (h : Keeps state o)
    (hahead : o.phase = .created → o.afterSequence ≤ state.events.length ∨ state.closed = true) :
    Keeps state (o.pull state) := by
  obtain ⟨hphase, hyielded⟩ | h := h
  · refine .inr ?_
    rw [pull_afterSequence]
    exact .starts hlog hphase hyielded ((hahead hphase).imp Nat.min_eq_left fun hc => ⟨rfl, hc⟩)
  · refine .inr ?_
    rw [pull_afterSequence]
    exact h.pull

theorem Keeps.resume {state : RunState} (h : Keeps state o) : Keeps state (o.resume state) := by
  obtain ⟨hphase, hyielded⟩ | h := h
  · rw [resume_created hphase]
    exact .inl ⟨hphase, hyielded⟩
  · refine .inr ?_
    rw [resume_afterSequence]
    exact h.resume

theorem Keeps.grows {state state' : RunState} (h : Keeps state o) (hgrows : Grows state state') :
    Keeps state' (if flushes state state' then o.wake else o) := by
  obtain ⟨hphase, hyielded⟩ | h := h
  · rw [wake_created hphase, ite_self]
    exact .inl ⟨hphase, hyielded⟩
  · have hsame : (if flushes state state' then o.wake else o).afterSequence = o.afterSequence := by
      split <;> simp
    refine .inr ?_
    rw [hsame]
    exact h.grows hgrows

theorem mem_modify {f : EventObserver → EventObserver} {os : List EventObserver} (h : o ∈ os.modify i f) :
    o ∈ os ∨ ∃ o' ∈ os[i]?, o = f o' := by
  obtain ⟨k, hk⟩ := List.mem_iff_getElem?.mp h
  rw [List.getElem?_modify] at hk
  by_cases hki : i = k
  · subst hki
    obtain ⟨o', ho', rfl⟩ : ∃ o', os[i]? = some o' ∧ f o' = o := by simpa using hk
    exact .inr ⟨o', ho', rfl⟩
  · exact .inl (List.mem_of_getElem? (by simpa [hki] using hk))

theorem keeps_preserved :
    ((eventLog runId).when NotAhead).Preserves fun s => LogOk s.state ∧ ∀ o ∈ s.observers, Keeps s.state o := by
  intro s move ⟨hlog, hkeeps⟩ ⟨_, hahead⟩
  refine ⟨logOk_preserved s move hlog ‹_›, ?_⟩
  show ∀ o ∈ (s.step runId move).observers, Keeps (s.step runId move).state o
  obtain ⟨state, rfl, hstep⟩ | ⟨afterSequence, hstep⟩ | ⟨i, hmove, hstep⟩ | ⟨i, hmove, hstep⟩ := step_cases runId s move
  · rw [hstep]
    intro o' ho'
    obtain ⟨o, ho, rfl⟩ := List.mem_map.mp ho'
    exact (hkeeps o ho).grows (.apply s.state move.action)
  · rw [hstep]
    intro o ho
    obtain ho | ho := List.mem_append.mp ho
    · exact hkeeps o ho
    · rw [List.mem_singleton.mp ho]
      exact .inl ⟨rfl, rfl⟩
  · rw [hstep]
    intro o' ho'
    simp only [NotAhead, hmove] at hahead
    obtain ho' | ⟨o, ho, rfl⟩ := mem_modify ho'
    · exact hkeeps o' ho'
    · exact (hkeeps o (List.mem_of_getElem? ho)).pull hlog (hahead o ho)
  · rw [hstep]
    intro o' ho'
    obtain ho' | ⟨o, ho, rfl⟩ := mem_modify ho'
    · exact hkeeps o' ho'
    · exact (hkeeps o (List.mem_of_getElem? ho)).resume

-- -----------------
-- An observer gets on
-- -----------------

def EventObserver.wanted (state : RunState) (o : EventObserver) : List AgentRuntimeEvent :=
  state.events.filter fun event => o.afterSequence < event.sequence

def EventObserver.AtRest (o : EventObserver) : Prop := o.phase = .done ∨ ∃ index, o.phase = .waiting index false

theorem Follows.yielded_prefix {state : RunState} (hlog : LogOk state) (h : Follows state o.afterSequence o) :
    o.yielded <+: o.wanted state := by
  obtain ⟨p, -, -, -, hyielded⟩ := h
  rw [hyielded, EventObserver.wanted, hlog.behind]
  exact (List.take_prefix p state.events).drop _

theorem Follows.rests {state : RunState} (hlog : LogOk state) (h : Follows state o.afterSequence o) (hrest : o.AtRest) :
    o.yielded = o.wanted state ∧ (o.phase = .done ↔ state.closed = true) := by
  obtain ⟨p, -, hat, -, hyielded⟩ := h
  have hall : p = state.events.length → o.yielded = o.wanted state := by
    rintro rfl
    rw [hyielded, EventObserver.wanted, hlog.behind, List.take_length]
  obtain hdone | ⟨index, hwaits⟩ := hrest
  · obtain ⟨hp, hclosed⟩ := hdone ▸ hat
    exact ⟨hall hp, by simp [hdone, hclosed]⟩
  · obtain ⟨-, hasleep⟩ := hwaits ▸ hat
    obtain ⟨hp, hopen⟩ := hasleep rfl
    exact ⟨hall hp, by simp [hwaits, hopen]⟩

def ObservePhase.ahead (events : Nat) : ObservePhase → Nat
  | .created => 3 * events + 3
  | .suspended index | .waiting index true => 3 * (events - index) + 2
  | .awaitingWrites index _ _ => 3 * (events + 1 - index) + 1
  | .returning _ => 1
  | .waiting _ false | .done => 0

theorem ahead_loop (state : RunState) (p : Nat) (o : EventObserver) :
    (o.loop state p).phase.ahead state.events.length < 3 * (state.events.length - p) + 2 := by
  unfold EventObserver.loop
  cases hevent : state.events[p]? with
  | some event =>
    obtain ⟨hlt, -⟩ := List.getElem?_eq_some_iff.mp hevent
    simp only
    split <;> simp only [ObservePhase.ahead] <;> omega
  | none =>
    simp only
    split <;> simp only [ObservePhase.ahead] <;> omega

def Serves (i : Nat) (move : LogMove) : Prop :=
  move.action = .pull i ∨ move.action = .resume i ∨ move.action = .eventWritten true

structure Ready (state : RunState) (o : EventObserver) : Prop where
  keeps : Keeps state o
  mayStart : o.phase = .created → o.afterSequence ≤ state.events.length ∨ state.closed = true

theorem Follows.started {state : RunState} (h : Follows state start o) : o.phase ≠ .created := by
  obtain ⟨p, -, hat, -, -⟩ := h
  intro hphase
  exact absurd hat (by simp [hphase, ObservePhase.At])

theorem Follows.ready {state : RunState} (h : Follows state o.afterSequence o) : Ready state o :=
  ⟨.inr h, fun hphase => absurd hphase h.started⟩

theorem Ready.follows {state : RunState} (h : Ready state o) (hphase : o.phase ≠ .created) :
    Follows state o.afterSequence o :=
  h.keeps.resolve_left fun hcreated => hphase hcreated.1

/-- With every write through, an observer that does not rest goes on by a pull or by itself. -/
theorem Ready.advances {state : RunState} (h : Ready state o) (hlog : LogOk state)
    (hwritten : state.events.length ≤ state.persisted) (hrest : ¬ o.AtRest) :
    (o.canPull = true ∧ Ready state (o.pull state) ∧
      (o.pull state).phase.ahead state.events.length < o.phase.ahead state.events.length) ∨
    (o.canResume state = true ∧ Ready state (o.resume state) ∧
      (o.resume state).phase.ahead state.events.length < o.phase.ahead state.events.length) := by
  have hpull (hfollows : Follows state o.afterSequence (o.pull state)) : Ready state (o.pull state) := by
    refine Follows.ready ?_
    rwa [pull_afterSequence]
  have hresume (hfollows : Follows state o.afterSequence (o.resume state)) : Ready state (o.resume state) := by
    refine Follows.ready ?_
    rwa [resume_afterSequence]
  cases hphase : o.phase with
  | created =>
    refine .inl ⟨by simp [EventObserver.canPull, hphase], hpull ?_, ?_⟩
    · have hyielded : o.yielded = [] := by
        obtain ⟨-, hyielded⟩ | hfollows := h.keeps
        · exact hyielded
        · exact absurd hphase hfollows.started
      exact .starts hlog hphase hyielded ((h.mayStart hphase).imp Nat.min_eq_left fun hc => ⟨rfl, hc⟩)
    · simp only [EventObserver.pull, hphase]
      refine (ahead_loop _ _ o).trans_le ?_
      simp only [ObservePhase.ahead]
      omega
  | suspended index =>
    have hfollows := h.follows (by simp [hphase])
    obtain ⟨p, hp, hat, -, -⟩ := id hfollows
    obtain rfl : index = p := by simpa [hphase, ObservePhase.At] using hat
    refine .inl ⟨by simp [EventObserver.canPull, hphase], hpull hfollows.pull, ?_⟩
    simp only [EventObserver.pull, hphase]
    exact ahead_loop state index o
  | awaitingWrites index event writes =>
    have hfollows := h.follows (by simp [hphase])
    obtain ⟨p, hp, hat, -, -⟩ := id hfollows
    obtain ⟨rfl, hevent, -, hwrites⟩ := hphase ▸ hat
    obtain ⟨hlt, -⟩ := List.getElem?_eq_some_iff.mp hevent
    refine .inr ⟨by simpa [EventObserver.canResume, hphase] using hwrites.trans hwritten, hresume hfollows.resume, ?_⟩
    simp only [EventObserver.resume, hphase, ObservePhase.ahead]
    omega
  | waiting index woken =>
    have hfollows := h.follows (by simp [hphase])
    obtain ⟨p, hp, hat, -, -⟩ := id hfollows
    obtain ⟨rfl, -⟩ := hphase ▸ hat
    obtain rfl : woken = true := by
      by_contra hasleep
      exact hrest (.inr ⟨index, by simpa [hasleep] using hphase⟩)
    refine .inr ⟨by simp [EventObserver.canResume, hphase], hresume hfollows.resume, ?_⟩
    simp only [EventObserver.resume, hphase]
    exact ahead_loop state index o
  | returning writes =>
    have hfollows := h.follows (by simp [hphase])
    obtain ⟨p, -, hat, -, -⟩ := id hfollows
    obtain ⟨-, -, hwrites⟩ := hphase ▸ hat
    refine .inr ⟨by simpa [EventObserver.canResume, hphase] using hwrites.trans hwritten, hresume hfollows.resume, ?_⟩
    simp only [EventObserver.resume, hphase, ObservePhase.ahead]
    omega
  | done => exact absurd (.inl hphase) hrest

/-- Pulled and let go on, an observer comes to rest, and the run stays as it is. -/
theorem Ready.comesToRest (runId : RunId) (hlog : LogOk s.state) (hwritten : s.state.events.length ≤ s.state.persisted)
    (ho : s.observers[i]? = some o) (h : Ready s.state o) :
    ∃ moves, (∀ move ∈ moves, Serves i move) ∧ (eventLog runId).Allows s moves ∧
      ((eventLog runId).after s moves).state = s.state ∧
      ∃ o', ((eventLog runId).after s moves).observers[i]? = some o' ∧ o'.afterSequence = o.afterSequence ∧
        Ready s.state o' ∧ o'.AtRest := by
  induction hn : o.phase.ahead s.state.events.length using Nat.strong_induction_on generalizing s o with
  | _ n ih =>
    by_cases hrest : o.AtRest
    · exact ⟨[], by simp, trivial, rfl, o, ho, rfl, h, hrest⟩
    · obtain ⟨hcan, hready, hless⟩ | ⟨hcan, hready, hless⟩ := h.advances hlog hwritten hrest
      · let next : EventLog := { s with observers := s.observers.modify i (·.pull s.state) }
        have hget : next.observers[i]? = some (o.pull s.state) := by simp [next, ho]
        obtain ⟨moves, hserves, hallows, hstate, o', ho', hafter, hready', hrest'⟩ :=
          ih _ (hn ▸ hless) (s := next) hlog hwritten hget hready rfl
        have henabled : (eventLog runId).enabled s ⟨0, .pull i⟩ := by simp [eventLog, EventLog.Enabled, ho, hcan]
        refine ⟨⟨0, .pull i⟩ :: moves, ?_, ⟨henabled, hallows⟩, hstate, o', ho', by simpa using hafter, hready', hrest'⟩
        exact List.forall_mem_cons.mpr ⟨.inl rfl, hserves⟩
      · let next : EventLog := { s with observers := s.observers.modify i (·.resume s.state) }
        have hget : next.observers[i]? = some (o.resume s.state) := by simp [next, ho]
        obtain ⟨moves, hserves, hallows, hstate, o', ho', hafter, hready', hrest'⟩ :=
          ih _ (hn ▸ hless) (s := next) hlog hwritten hget hready rfl
        have henabled : (eventLog runId).enabled s ⟨0, .resume i⟩ := by simp [eventLog, EventLog.Enabled, ho, hcan]
        refine ⟨⟨0, .resume i⟩ :: moves, ?_, ⟨henabled, hallows⟩, hstate, o', ho', by simpa using hafter, hready', hrest'⟩
        exact List.forall_mem_cons.mpr ⟨.inr (.inl rfl), hserves⟩

theorem writes_end (runId : RunId) (i : Nat) (s : EventLog) (n : Nat) (hn : s.state.events.length - s.state.persisted = n) :
    ∃ moves, (∀ move ∈ moves, Serves i move) ∧ (eventLog runId).Allows s moves ∧
      (eventLog runId).after s moves = { s with state := { s.state with persisted := s.state.persisted + n } } := by
  induction n generalizing s with
  | zero => exact ⟨[], by simp, trivial, rfl⟩
  | succ n ih =>
    let next : EventLog := { s with state := { s.state with persisted := s.state.persisted + 1 } }
    have hnext : (eventLog runId).next s ⟨0, .eventWritten true⟩ = next := by
      simp [next, eventLog, Machine.next, EventLog.step, RunState.apply, RunState.eventWritten, flushes]
    obtain ⟨moves, hserves, hallows, hafter⟩ := ih next (by simp only [next]; omega)
    have henabled : (eventLog runId).enabled s ⟨0, .eventWritten true⟩ := by
      show s.state.persisted < s.state.events.length
      omega
    refine ⟨⟨0, .eventWritten true⟩ :: moves, List.forall_mem_cons.mpr ⟨.inr (.inr rfl), hserves⟩,
      ⟨henabled, by rwa [hnext]⟩, ?_⟩
    show (eventLog runId).after ((eventLog runId).next s ⟨0, .eventWritten true⟩) moves = _
    rw [hnext, hafter]
    simp only [next, Nat.add_assoc, Nat.add_comm 1 n]

/-- An observer that is pulled gets every event there is, and returns where the run has ended. -/
theorem Ready.served (hlog : LogOk s.state) (ho : s.observers[i]? = some o) (h : Ready s.state o) :
    ∃ moves, (∀ move ∈ moves, Serves i move) ∧ (eventLog runId).Allows s moves ∧
      ((eventLog runId).after s moves).state.events = s.state.events ∧
      ∃ o', ((eventLog runId).after s moves).observers[i]? = some o' ∧ o'.yielded = o.wanted s.state ∧
        (o'.phase = .done ↔ s.state.closed = true) := by
  obtain ⟨writes, hwrites, hallowsWrites, hafter⟩ := writes_end runId i s _ rfl
  let written : EventLog :=
    { s with state := { s.state with persisted := s.state.persisted + (s.state.events.length - s.state.persisted) } }
  have hready : Ready written.state o := ⟨h.keeps, h.mayStart⟩
  have hlog' : LogOk written.state := hlog.same rfl rfl rfl
  obtain ⟨moves, hserves, hallows, hstate, o', ho', hsame, hready', hrest⟩ :=
    Ready.comesToRest runId (s := written) hlog' (by simp only [written]; omega) ho hready
  have hphase : o'.phase ≠ .created := by
    obtain hdone | ⟨index, hwaits⟩ := hrest
    · simp [hdone]
    · simp [hwaits]
  obtain ⟨hall, hends⟩ := (hready'.follows hphase).rests hlog' hrest
  have hafter' : (eventLog runId).after s (writes ++ moves) = (eventLog runId).after written moves := by
    rw [Machine.after_append, hafter]
  refine ⟨writes ++ moves, ?_, hallowsWrites.append (by rwa [hafter]), ?_, o', ?_, ?_, hends⟩
  · exact fun move hmove => (List.mem_append.mp hmove).elim (hwrites move) (hserves move)
  · rw [hafter', hstate]
  · rw [hafter']
    exact ho'
  · rw [hall, EventObserver.wanted, EventObserver.wanted, hsame]

/-- The log is in order in every run, and cancellation leaves only the end open. What an observer yields are the events
behind its cursor, each once and in order, in every run in which no observer starts ahead of a log that grows. -/
theorem event_log_ok (runId : RunId) :
    (∀ s, (eventLog runId).Reachable s → LogOk s.state) ∧
    (∀ s h t, (eventLog runId).Run s h t → s.state.cancellationStarted = true → AddsEnd s.state t.state) ∧
    (∀ (s : RunState) now reason partialMessage, s.closed = false → EndsWith s (s.cancel runId now reason partialMessage)) ∧
    ∀ s, ((eventLog runId).when NotAhead).Reachable s → ∀ i o, s.observers[i]? = some o →
      o.yielded <+: o.wanted s.state ∧
      (o.AtRest → o.yielded = o.wanted s.state ∧ (o.phase = .done ↔ s.state.closed = true)) ∧
      ((o.phase = .created → o.afterSequence ≤ s.state.events.length ∨ s.state.closed = true) →
        ∃ moves, (∀ move ∈ moves, Serves i move) ∧ (eventLog runId).Allows s moves ∧
          ((eventLog runId).after s moves).state.events = s.state.events ∧
          ∃ o', ((eventLog runId).after s moves).observers[i]? = some o' ∧ o'.yielded = o.wanted s.state ∧
            (o'.phase = .done ↔ s.state.closed = true)) := by
  refine ⟨fun s hs => logOk_reachable hs, fun s h t hr hc => addsEnd_run hr hc,
    fun s now reason partialMessage hopen => (endsWith_cancel runId now hopen reason partialMessage).1, ?_⟩
  intro s hs i o ho
  have hinv : LogOk s.state ∧ ∀ o ∈ s.observers, Keeps s.state o := by
    refine hs.invariant (I := fun s => LogOk s.state ∧ ∀ o ∈ s.observers, Keeps s.state o) ?_ keeps_preserved
    rintro s rfl
    exact ⟨logOk_started, fun o ho => absurd ho List.not_mem_nil⟩
  obtain ⟨hlog, hall⟩ := hinv
  have hkeeps := hall o (List.mem_of_getElem? ho)
  refine ⟨?_, fun hrest => ?_, fun hstart => Ready.served hlog ho ⟨hkeeps, hstart⟩⟩
  · obtain ⟨-, hyielded⟩ | hfollows := hkeeps
    · rw [hyielded]
      exact List.nil_prefix
    · exact hfollows.yielded_prefix hlog
  · obtain ⟨hphase, -⟩ | hfollows := hkeeps
    · obtain hdone | ⟨index, hwaits⟩ := hrest
      · exact absurd (hphase.symm.trans hdone) (by simp)
      · exact absurd (hphase.symm.trans hwaits) (by simp)
    · exact hfollows.rests hlog hrest

instance (s : EventLog) (move : LogMove) : Decidable (NotAhead s move) := by
  unfold NotAhead
  split <;> infer_instance

instance (s : EventLog) (move : LogMove) : Decidable (((eventLog runId).when NotAhead).enabled s move) :=
  inferInstanceAs (Decidable ((eventLog runId).enabled s move ∧ NotAhead s move))

namespace Example

def unobserved : EventLog := ⟨.started, []⟩

def greeting : EmittedBody := ⟨.messageDelta [("delta", "Hi")], rfl⟩

def resumed : List LogMove :=
  [⟨0, .emit greeting⟩, ⟨0, .observe 1⟩, ⟨0, .pull 0⟩, ⟨1, .complete⟩, ⟨1, .resume 0⟩, ⟨1, .eventWritten true⟩,
    ⟨2, .eventWritten true⟩, ⟨2, .resume 0⟩, ⟨2, .pull 0⟩, ⟨2, .resume 0⟩]

def reader : EventObserver := ⟨1, .done, [⟨"run", 2, 1, .runCompleted⟩]⟩

def resumedAhead : List LogMove := [⟨0, .observe 5⟩, ⟨0, .pull 0⟩, ⟨1, .emit greeting⟩, ⟨1, .resume 0⟩]

end Example

open Example in
theorem event_log_ok_resumed :
    ((eventLog "run").after unobserved resumed).observers[0]? = some reader ∧
    reader.yielded = reader.wanted ((eventLog "run").after unobserved resumed).state := by
  have hallows : ((eventLog "run").when NotAhead).Allows unobserved resumed := by decide
  have hreachable : ((eventLog "run").when NotAhead).Reachable ((eventLog "run").after unobserved resumed) :=
    ⟨unobserved, _, rfl, hallows.run⟩
  have ho : ((eventLog "run").after unobserved resumed).observers[0]? = some reader := by decide
  exact ⟨ho, (((event_log_ok "run").2.2.2 _ hreachable 0 reader ho).2.1 (.inl rfl)).1⟩

open Example in
/-- An observer that starts ahead of the log yields an event before its cursor. -/
theorem ahead_yields_earlier :
    (eventLog "run").Allows unobserved resumedAhead ∧
    ((eventLog "run").after unobserved resumedAhead).observers =
      [⟨5, .suspended 1, [⟨"run", 1, 1, greeting.1⟩]⟩] ∧
    ¬ [(⟨"run", 1, 1, greeting.1⟩ : AgentRuntimeEvent)] <+:
      (⟨5, .suspended 1, []⟩ : EventObserver).wanted ((eventLog "run").after unobserved resumedAhead).state := by
  exact ⟨by decide, by decide, by decide⟩

end Runs

end Catalyst.Runs
