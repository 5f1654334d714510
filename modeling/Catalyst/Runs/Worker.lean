import Catalyst.Runs.Observe

/-!
# The execution of a claimed run

A worker consumes the events of the runtime one by one and stores them, while the
runtime writes to the conversation of the run on its own. The last assistant
message is held back with the events consumed after it. Every `await` of the
source is a phase here: between two moves the runtime, the store and the rest of
the product go on as they like.
-/

namespace Catalyst

def AppErrorCode.text : AppErrorCode → String
  | badRequest => "BAD_REQUEST"
  | unauthenticated => "UNAUTHENTICATED"
  | forbidden => "FORBIDDEN"
  | notFound => "NOT_FOUND"
  | conflict => "CONFLICT"
  | timeout => "TIMEOUT"
  | validationFailed => "VALIDATION_FAILED"
  | rateLimited => "RATE_LIMITED"
  | policyDenied => "POLICY_DENIED"
  | guardrailBlocked => "GUARDRAIL_BLOCKED"
  | declined => "DECLINED"
  | idempotencyKeyReused => "IDEMPOTENCY_KEY_REUSED"
  | operationInProgress => "OPERATION_IN_PROGRESS"
  | operationExpired => "OPERATION_EXPIRED"
  | outputNotRetained => "OUTPUT_NOT_RETAINED"
  | internal => "INTERNAL"

namespace Runs

open Library Library.Tx Jobs

-- -----------------
-- Events and errors
-- -----------------

/-- `AGENT_RUN_HELD_END_MAX_EVENTS` -/
def heldEndMaxEvents : Nat := 1000

def AGENT_RUN_INTERRUPTED_ERROR : AgentRunError :=
  ⟨"AGENT_RUN_RUNTIME_INTERRUPTED", "Agent run worker stopped before completion", "runtime_interrupted"⟩

def AGENT_RUN_IDLE_ERROR : AgentRunError :=
  ⟨"AGENT_RUN_RUNTIME_INTERRUPTED", "Agent run stored no event within the idle limit", "runtime_interrupted"⟩

def PERMISSION_UNSUPPORTED_ERROR : AgentRunError :=
  ⟨"AGENT_RUN_PERMISSION_UNSUPPORTED", "Permission-required tools are not supported by the Agent Worker yet",
    "internal_error"⟩

def EXECUTOR_ENDED_ERROR : AgentRunError :=
  ⟨"AGENT_RUN_EXECUTOR_ENDED", "Agent run executor ended without a terminal event", "internal_error"⟩

def AGENT_RUN_ABORTED_ERROR : AgentRunError :=
  ⟨"AGENT_RUN_ABORTED", "Agent run execution was interrupted", "abort_error"⟩

/-- `isTerminalEvent` -/
def AgentRuntimeEvent.isTerminal (event : AgentRuntimeEvent) : Bool := event.body.type.ends.isSome

def cancelledEvent (runId : RunId) (sequence : Nat) (createdAt : Time) (reason : Option String) : AgentRuntimeEvent :=
  ⟨runId, sequence, createdAt, .runCancelled (reason.filter (· ≠ ""))⟩

def failedEvent (runId : RunId) (sequence : Nat) (createdAt : Time) (error : AgentRunError) : AgentRuntimeEvent :=
  ⟨runId, sequence, createdAt, .runFailed error⟩

inductive Thrown
  | store (error : RunError)
  /-- Not an error of the product: a lost connection, an abort. -/
  | other (aborted : Bool)
  deriving DecidableEq

def Thrown.isLeaseLost : Thrown → Bool
  | store (.jobLeaseLost _) => true
  | _ => false

def workerFailure : Thrown → AgentRunError
  | .store (.app e) =>
    if e.code = .internal then ⟨e.code.text, "Agent run failed", "internal_error"⟩
    else ⟨e.code.text, e.message, "app_error"⟩
  | .store (.jobLeaseLost jobId) =>
    ⟨AppErrorCode.conflict.text, "Job " ++ toString jobId ++ " is no longer leased to this attempt", "app_error"⟩
  | .other aborted => ⟨AppErrorCode.internal.text, "Agent run failed", if aborted then "abort_error" else "internal_error"⟩

inductive StopCause
  | leaseLost | workerStopping | idle
  deriving DecidableEq

/-- A last assistant message, with the place of the call that gave it among the calls. -/
structure FinalMessage where
  call : Nat
  message : ClaimedMessage
  deriving DecidableEq

structure RunWrite where
  message : Option FinalMessage
  events : List AgentRuntimeEvent
  deriving DecidableEq

/-- Where `write` stands. -/
inductive Writing
  | storing (batch : RunWrite)
  /-- At the look at the row after the store refused to end the run. -/
  | looking (batch : RunWrite) (error : Thrown)
  | storingCancelled (batch : RunWrite)
  deriving DecidableEq

/-- Where the loop over the events and `closeRun` stand. `caught` says that `closeRun` was called
from the `catch`. -/
inductive Main
  | claiming
  | preparing
  | consuming
  | appending (w : Writing)
  | closing (failure : AgentRunError) (caught : Bool)
  | closingHeld (w : Writing) (lastSequence : Nat) (failure : AgentRunError) (caught : Bool)
  | closingLast (w : Writing) (caught : Bool)
  | ended
  deriving DecidableEq

/-- The two writes of the conversation history the runtime is given. `final` is
`readAssistantFinalMetadata` of the message. -/
inductive ConversationWrite
  | appendMessage (message : ClaimedMessage)
  | appendAssistantMessage (message : ClaimedMessage) (final : Bool)
  deriving DecidableEq

def ConversationWrite.message : ConversationWrite → ClaimedMessage
  | appendMessage message | appendAssistantMessage message _ => message

def ConversationWrite.final : ConversationWrite → Bool
  | appendMessage _ => false
  | appendAssistantMessage _ final => final

def ConversationWrite.refused : ConversationWrite → Bool
  | appendMessage message => message.role ≠ .tool
  | appendAssistantMessage .. => false

inductive Stored
  | batch (b : RunWrite)
  | message (write : ConversationWrite)
  deriving DecidableEq

inductive CallPhase
  | flushing (w : Writing)
  | flushed
  | storing
  | held
  | done
  | threw
  deriving DecidableEq

structure Call where
  write : ConversationWrite
  phase : CallPhase
  deriving DecidableEq

structure Attempt where
  /-- The process of the worker lives. -/
  alive : Bool
  main : Main
  /-- The conversation writes of the runtime, in the order they were called. -/
  calls : List Call
  consumed : Nat
  heldEnd : Option RunWrite
  stopCause : Option StopCause
  /-- `controller.signal.aborted` -/
  aborted : Bool
  cancellation : Option (Option String)
  terminalWritten : Bool
  deriving DecidableEq

namespace Attempt

def stop (a : Attempt) (cause : StopCause) : Attempt :=
  { a with
    stopCause := if a.stopCause = none ∨ cause = .leaseLost then some cause else a.stopCause
    aborted := true }

def fenced (a : Attempt) : Except Thrown Unit → Attempt
  | .error e => if e.isLeaseLost then a.stop .leaseLost else a
  | .ok _ => a

/-- `cancellation ??= …` -/
def asked (a : Attempt) (reason : Option String) : Attempt :=
  { a with cancellation := a.cancellation <|> some reason }

/-- The event that ends a run whose execution did not end it, or ended it as aborted. -/
def closingEvent (a : Attempt) (runId : RunId) (sequence : Nat) (now : Time) (failure : AgentRunError) :
    AgentRuntimeEvent :=
  match a.cancellation, a.stopCause with
  | some reason, _ => cancelledEvent runId sequence now reason
  | none, some .workerStopping => failedEvent runId sequence now AGENT_RUN_INTERRUPTED_ERROR
  | none, some .idle => failedEvent runId sequence now AGENT_RUN_IDLE_ERROR
  | none, _ => failedEvent runId sequence now failure

/-- What `append` does before its first `await`: the batch it writes, if any. -/
def append (a : Attempt) (event : AgentRuntimeEvent) : Attempt × Option RunWrite :=
  match a.heldEnd with
  | none => (a, some ⟨none, [event]⟩)
  | some held =>
    let batch : RunWrite := { held with events := held.events ++ [event] }
    if event.isTerminal then ({ a with heldEnd := none }, some batch)
    else if batch.events.length ≤ heldEndMaxEvents then ({ a with heldEnd := some batch }, none)
    else ({ a with heldEnd := none }, some batch)

def shown (a : Attempt) (runId : RunId) (now : Time) (event : AgentRuntimeEvent) : AgentRuntimeEvent :=
  match event.body with
  | .runFailed error =>
    if a.cancellation.isSome ∨ a.stopCause.isSome then a.closingEvent runId event.sequence now error else event
  | .toolPermissionRequested _ => failedEvent runId event.sequence now PERMISSION_UNSUPPORTED_ERROR
  | _ => event

def consume (a : Attempt) (runId : RunId) (now : Time) (event : AgentRuntimeEvent) : Attempt :=
  if a.stopCause = some .leaseLost then { a with main := .ended }
  else
    match a.append (a.shown runId now event) with
    | (a, some batch) => { a with main := .appending (.storing batch) }
    | (a, none) => { a with main := .consuming }

/-- The `catch` around the loop; an error thrown in it ends the execution. -/
def caught (a : Attempt) (e : Thrown) (again : Bool) : Attempt :=
  if again ∨ a.terminalWritten ∨ a.stopCause = some .leaseLost then { a with main := .ended }
  else { a with main := .closing (workerFailure e) true }

/-- The last write of `closeRun`. -/
def closeLast (a : Attempt) (runId : RunId) (lastSequence : Nat) (now : Time) (failure : AgentRunError)
    (again : Bool) : Attempt :=
  match a.append (a.closingEvent runId (lastSequence + 1) now failure) with
  | (a, some batch) => { a with main := .closingLast (.storing batch) again }
  | (a, none) => { a with main := .ended }

/-- `closeRun` behind its look at the row. -/
def close (a : Attempt) (runId : RunId) (now : Time) (failure : AgentRunError) (again : Bool) :
    Option AgentRun → Attempt
  | none => { a with main := .ended }
  | some latest =>
    if latest.Ended then { a with terminalWritten := true, main := .ended }
    else
      let a := if latest.status = .cancelling then a.asked latest.cancellationReason else a
      match a.heldEnd with
      | none => a.closeLast runId latest.lastSequence now failure again
      | some held =>
        let lastHeld := (held.events.getLast?.map (·.sequence)).getD latest.lastSequence
        match a.append (a.closingEvent runId (lastHeld + 1) now failure) with
        | (a, some batch) => { a with main := .closingHeld (.storing batch) latest.lastSequence failure again }
        | (a, none) => { a with main := .ended }

end Attempt

/-- How an `await` of the store ends. -/
inductive How
  /-- The store is reached. The answer may still be lost on its way back. -/
  | reaches (now clock : Time) (answered : Bool)
  | fails (now : Time)
  deriving DecidableEq

def How.now : How → Time
  | reaches now _ _ | fails now => now

structure Execution where
  system : State
  attempt : Attempt
  /-- The events of the runtime so far. -/
  emitted : List AgentRuntimeEvent
  deriving DecidableEq

inductive Wrote
  | going (w : Writing)
  | stored (batch : RunWrite)
  | threw (e : Thrown)
  deriving DecidableEq

def heard (answered : Bool) : Except RunError Answer → Except Thrown Unit
  | .ok _ => if answered then .ok () else .error (.other false)
  | .error e => .error (if answered then .store e else .other false)

def RunWrite.write (batch : RunWrite) : Write := .runEnd (batch.message.map (·.message)) batch.events

def RunWrite.refusable (batch : RunWrite) : Bool :=
  match batch.events.getLast?.map AgentRuntimeEvent.body with
  | some .runCompleted | some (.runFailed _) => true
  | _ => false

def RunWrite.endsRun (batch : RunWrite) : Bool := batch.events.getLast?.any (·.isTerminal)

/-- Where `write` goes when its transaction has ended. -/
def Writing.after (w : Writing) (batch : RunWrite) : Except Thrown Unit → Wrote
  | .ok _ => .stored batch
  | .error e =>
    match w with
    | .storing _ => if batch.refusable ∧ ¬ e.isLeaseLost then .going (.looking batch e) else .threw e
    | _ => .threw e

variable (catalog : Catalog) (row : JobRow) (runId : RunId)

def Execution.transact (s : Execution) (w : Write) : How → Except Thrown Unit × Execution × Bool
  | .fails _ => (.error (.other false), s, false)
  | .reaches now clock answered =>
    let (result, system) := (runSystem catalog).step s.system ⟨now, clock, .write row runId w⟩
    let result' := heard answered result
    (result', { s with system, attempt := s.attempt.fenced result' }, result.isOk)

/-- One `await` of `write`, with what it stored. -/
def Execution.advance (s : Execution) (how : How) : Writing → Wrote × Execution × Option Stored
  | .looking batch e =>
    match how, batch.events.getLast?, getAgentRun s.system.db row.clientInstanceId runId with
    | .reaches now _ true, some last, some latest =>
      if latest.status = .cancelling then
        let attempt := s.attempt.asked latest.cancellationReason
        let event := cancelledEvent runId last.sequence now (attempt.cancellation.getD none)
        (.going (.storingCancelled { batch with events := batch.events.dropLast ++ [event] }),
          { s with attempt }, none)
      else (.threw e, s, none)
    | .reaches _ _ true, _, _ => (.threw e, s, none)
    | _, _, _ => (.threw (.other false), s, none)
  | w@(.storing batch) | w@(.storingCancelled batch) =>
    let (result, s, stored) := s.transact catalog row runId batch.write how
    (w.after batch result, s, if stored then some (.batch batch) else none)

def Attempt.wrote (a : Attempt) (batch : RunWrite) : Attempt :=
  { a with terminalWritten := a.terminalWritten || batch.endsRun }

/-- One `await` of the loop or of `closeRun`. -/
def Execution.mainStep (s : Execution) (how : How) : Option Stored × Execution :=
  match s.attempt.main with
  | .appending w =>
    let (wrote, s, stored) := s.advance catalog row runId how w
    match wrote with
    | .going w => (stored, { s with attempt := { s.attempt with main := .appending w } })
    | .stored batch =>
      let a := s.attempt.wrote batch
      let main := if a.terminalWritten then Main.ended else .consuming
      (stored, { s with attempt := { a with main } })
    | .threw e => (stored, { s with attempt := s.attempt.caught e false })
  | .closing failure again =>
    match how with
    | .reaches now _ true =>
      let latest := getAgentRun s.system.db row.clientInstanceId runId
      (none, { s with attempt := s.attempt.close runId now failure again latest })
    | _ => (none, { s with attempt := s.attempt.caught (.other false) again })
  | .closingHeld w lastSequence failure again =>
    let (wrote, s, stored) := s.advance catalog row runId how w
    match wrote with
    | .going w =>
      (stored, { s with attempt := { s.attempt with main := .closingHeld w lastSequence failure again } })
    | .stored batch => (stored, { s with attempt := { s.attempt.wrote batch with main := .ended } })
    | .threw e =>
      let attempt :=
        if e.isLeaseLost then s.attempt.caught e again
        else s.attempt.closeLast runId lastSequence how.now failure again
      (stored, { s with attempt })
  | .closingLast w again =>
    let (wrote, s, stored) := s.advance catalog row runId how w
    match wrote with
    | .going w => (stored, { s with attempt := { s.attempt with main := .closingLast w again } })
    | .stored batch => (stored, { s with attempt := { s.attempt.wrote batch with main := .ended } })
    | .threw e => (stored, { s with attempt := s.attempt.caught e again })
  | _ => (none, s)

/-- The call of a conversation write, up to its first `await`: it takes what is held. -/
def Attempt.call (a : Attempt) (write : ConversationWrite) : Attempt :=
  if write.refused then { a with calls := a.calls ++ [⟨write, .threw⟩] }
  else
    match a.heldEnd with
    | some held => { a with heldEnd := none, calls := a.calls ++ [⟨write, .flushing (.storing held)⟩] }
    | none => { a with calls := a.calls ++ [⟨write, .flushed⟩] }

def Attempt.setCall (a : Attempt) (i : Nat) (c : Call) (phase : CallPhase) : Attempt :=
  { a with calls := a.calls.set i { c with phase } }

/-- One `await` of a conversation write. -/
def Execution.callStep (s : Execution) (i : Nat) (how : How) : Option Stored × Execution :=
  match s.attempt.calls[i]? with
  | none => (none, s)
  | some c =>
    match c.phase with
    | .flushing w =>
      let (wrote, s, stored) := s.advance catalog row runId how w
      match wrote with
      | .going w => (stored, { s with attempt := s.attempt.setCall i c (.flushing w) })
      | .stored batch => (stored, { s with attempt := (s.attempt.wrote batch).setCall i c .flushed })
      | .threw _ => (stored, { s with attempt := s.attempt.setCall i c .threw })
    | .flushed =>
      if c.write.final then
        let held : RunWrite := ⟨some ⟨i, c.write.message⟩, []⟩
        (none, { s with attempt := { s.attempt.setCall i c .held with heldEnd := some held } })
      else (none, { s with attempt := s.attempt.setCall i c .storing })
    | .storing =>
      let (result, s, stored) := s.transact catalog row runId (.message c.write.message) how
      (if stored then some (.message c.write) else none, { s with attempt := s.attempt.setCall i c (if result.isOk then .done else .threw) })
    | _ => (none, s)

inductive ExecutionMove
  | system (st : Step)
  | claims (now checkedAt clock : Time)
  | prepared
  | prepareThrows (e : Thrown)
  | emits (createdAt : Time) (body : EventBody)
  | takes (now : Time)
  /-- The loop leaves the events of a run that was stopped. -/
  | aborts (now : Time)
  | sourceEnds
  | sourceThrows (e : Thrown)
  | stops (cause : StopCause)
  /-- The look of `watchForCancellation` at the row. -/
  | watches
  /-- The execution could not end itself as cancelled. -/
  | cancelFails
  | calls (write : ConversationWrite)
  | main (how : How)
  | call (i : Nat) (how : How)
  | killed
  deriving DecidableEq

def Step.writesRun (st : Step) : Bool :=
  match st.action with
  | .write row' runId' w =>
    (row'.clientInstanceId, runId') = (row.clientInstanceId, runId) &&
      (match w with
      | .approval _ | .continuation .. => false
      | _ => true)
  | _ => false

def How.Possible (s : State) : How → Prop
  | reaches now clock _ => s.clock ≤ clock ∧ now ≤ clock ∧ row ∈ s.handed
  | fails _ => True

instance (s : State) : DecidablePred (How.Possible row s)
  | .reaches now clock _ => inferInstanceAs (Decidable (s.clock ≤ clock ∧ now ≤ clock ∧ row ∈ s.handed))
  | .fails _ => .isTrue trivial

def Main.awaits : Main → Bool
  | appending _ | closing .. | closingHeld .. | closingLast .. => true
  | _ => false

def Execution.Enabled (s : Execution) : ExecutionMove → Prop
  | .system st => (runSystem catalog).enabled s.system st ∧ ¬ st.writesRun row runId
  | .claims now checkedAt clock => s.attempt.alive ∧ s.attempt.main = .claiming ∧ runIdOf row = some runId ∧
      (runSystem catalog).enabled s.system ⟨now, clock, .claimRun row checkedAt⟩
  | .prepared | .prepareThrows _ => s.attempt.alive ∧ s.attempt.main = .preparing
  | .emits .. | .calls _ => s.attempt.alive ∧ s.attempt.main ≠ .claiming
  | .takes _ => s.attempt.alive ∧ s.attempt.main = .consuming ∧ s.attempt.consumed < s.emitted.length
  | .aborts _ => s.attempt.alive ∧ s.attempt.main = .consuming ∧ s.attempt.aborted
  | .sourceEnds | .sourceThrows _ => s.attempt.alive ∧ s.attempt.main = .consuming
  | .stops _ | .killed => s.attempt.alive
  | .watches => s.attempt.alive ∧ s.attempt.cancellation = none
  | .cancelFails => s.attempt.alive ∧ s.attempt.cancellation.isSome
  | .main how => s.attempt.alive ∧ s.attempt.main.awaits ∧ how.Possible row s.system
  | .call _ how => s.attempt.alive ∧ how.Possible row s.system

instance (s : Execution) : DecidablePred (s.Enabled catalog row runId)
  | .system st => inferInstanceAs (Decidable ((runSystem catalog).enabled s.system st ∧ ¬ st.writesRun row runId))
  | .claims now checkedAt clock => inferInstanceAs (Decidable (s.attempt.alive = true ∧ s.attempt.main = .claiming ∧
      runIdOf row = some runId ∧ (runSystem catalog).enabled s.system ⟨now, clock, .claimRun row checkedAt⟩))
  | .prepared | .prepareThrows _ => inferInstanceAs (Decidable (s.attempt.alive = true ∧ s.attempt.main = .preparing))
  | .emits .. | .calls _ => inferInstanceAs (Decidable (s.attempt.alive = true ∧ s.attempt.main ≠ .claiming))
  | .takes _ => inferInstanceAs (Decidable (s.attempt.alive = true ∧ s.attempt.main = .consuming ∧
      s.attempt.consumed < s.emitted.length))
  | .aborts _ => inferInstanceAs (Decidable (s.attempt.alive = true ∧ s.attempt.main = .consuming ∧
      s.attempt.aborted = true))
  | .sourceEnds | .sourceThrows _ =>
    inferInstanceAs (Decidable (s.attempt.alive = true ∧ s.attempt.main = .consuming))
  | .stops _ | .killed => inferInstanceAs (Decidable (s.attempt.alive = true))
  | .watches => inferInstanceAs (Decidable (s.attempt.alive = true ∧ s.attempt.cancellation = none))
  | .cancelFails => inferInstanceAs (Decidable (s.attempt.alive = true ∧ s.attempt.cancellation.isSome = true))
  | .main how => inferInstanceAs (Decidable (s.attempt.alive = true ∧ s.attempt.main.awaits = true ∧
      how.Possible row s.system))
  | .call _ how => inferInstanceAs (Decidable (s.attempt.alive = true ∧ how.Possible row s.system))

/-- The run system with the attempt that executes a run: the only one that writes its events and
messages, because a run is claimed once. An answer is what a transaction stored. -/
def execution : Machine Execution ExecutionMove (Option Stored) where
  init s := (runSystem catalog).init s.system ∧
    s.attempt = ⟨true, .claiming, [], 0, none, none, false, none, false⟩ ∧ s.emitted = []
  enabled s move := s.Enabled catalog row runId move
  step s
    | .system st => (none, { s with system := (runSystem catalog).next s.system st })
    | .claims now checkedAt clock =>
      let (answer, system) := (runSystem catalog).step s.system ⟨now, clock, .claimRun row checkedAt⟩
      let main := match answer with
        | .ok (.claim (.claimed _)) => Main.preparing
        | _ => .ended
      (none, { s with system, attempt := { s.attempt with main } })
    | .prepared => (none, { s with attempt := { s.attempt with main := .consuming } })
    | .prepareThrows e | .sourceThrows e => (none, { s with attempt := s.attempt.caught e false })
    | .emits createdAt body =>
      let event : AgentRuntimeEvent := ⟨runId, s.emitted.length + 1, createdAt, body⟩
      (none, { s with emitted := s.emitted ++ [event] })
    | .takes now =>
      match s.emitted[s.attempt.consumed]? with
      | none => (none, s)
      | some event =>
        let a := { s.attempt with consumed := s.attempt.consumed + 1 }
        (none, { s with attempt := a.consume runId now event })
    | .aborts now =>
      let event := failedEvent runId (s.attempt.consumed + 1) now AGENT_RUN_ABORTED_ERROR
      (none, { s with attempt := s.attempt.consume runId now event })
    | .sourceEnds =>
      let main :=
        if s.attempt.terminalWritten ∨ s.attempt.stopCause = some .leaseLost then Main.ended
        else .closing EXECUTOR_ENDED_ERROR false
      (none, { s with attempt := { s.attempt with main } })
    | .stops cause => (none, { s with attempt := s.attempt.stop cause })
    | .watches =>
      match getAgentRun s.system.db row.clientInstanceId runId with
      | some latest =>
        if latest.status = .cancelling then
          (none, { s with attempt := s.attempt.asked latest.cancellationReason })
        else (none, s)
      | none => (none, s)
    | .cancelFails => (none, { s with attempt := { s.attempt with aborted := true } })
    | .calls write => (none, { s with attempt := s.attempt.call write })
    | .main how => s.mainStep catalog row runId how
    | .call i how => s.callStep catalog row runId i how
    | .killed => (none, { s with attempt := { s.attempt with alive := false } })

instance (s : Execution) : DecidablePred ((execution catalog row runId).enabled s) :=
  fun move => inferInstanceAs (Decidable (s.Enabled catalog row runId move))

end Runs

end Catalyst
