import Catalyst.Core
import Catalyst.Library.Check
import Catalyst.Library.Processes
import Catalyst.Library.Table

/-!
# Operation runs

The table of runs with the statements on it, and the one path a call of a registered
operation takes. Each statement and each answer of somebody else is one step, so that other
calls and the sweeps go between any two of them.

A call comes with a script: what the others answer to it, and which of its statements fail,
before or after they were committed. A JSON value is given by its text.
-/

namespace Catalyst.Operations

open Library Library.Check

-- -----------------
-- Errors and denials
-- -----------------

inductive DenialReason
  | noGrant | denied | unknownAction | holderInactive
  deriving DecidableEq

inductive OperationDenial
  | forbidden (action : String) (reason : DenialReason)
  | policy (operation : String)
  | guardrail (guardrailId : String)
  deriving DecidableEq

def operationDenialError : OperationDenial → AppError
  | .forbidden action _ => ⟨.forbidden, s!"Missing the right '{action}'"⟩
  | .policy operation => ⟨.policyDenied, s!"The instance's policy does not allow '{operation}' from here"⟩
  | .guardrail _ => ⟨.guardrailBlocked, "A guardrail blocked the call"⟩

/-- What a call may throw. `forbidden` is what `forbiddenSchema` reads, `other` no `AppError`. -/
inductive Thrown
  | app (error : AppError) (exposeMessage : Bool)
  | forbidden (action : String) (reason : DenialReason)
  | other
  deriving DecidableEq

def internalErrorMessage : String := "Internal server error"

/-- The error of `toErrorEnvelope`: the one rule for what an error may tell. -/
def toErrorEnvelope : Thrown → AppError
  | .app error exposeMessage =>
    ⟨error.code, if error.code ≠ .internal ∧ exposeMessage then error.message else internalErrorMessage⟩
  | .forbidden action reason => operationDenialError (.forbidden action reason)
  | .other => ⟨.internal, internalErrorMessage⟩

/-- An `AppError` as it is constructed without options. -/
def appError (code : AppErrorCode) (message : String) : Thrown := .app ⟨code, message⟩ (code ≠ .internal)

abbrev OperationRunId := Nat

inductive OperationEffect
  | reading | changing
  deriving DecidableEq

inductive ActorKind
  | user | servicePrincipal
  deriving DecidableEq

def OperationEffect.text : OperationEffect → String
  | reading => "reading"
  | changing => "changing"

structure Actor where
  kind : ActorKind
  id : String
  deriving DecidableEq

structure Call where
  operation : String
  effect : OperationEffect
  actor : Actor
  idempotencyKey : Option String
  inputHash : String
  deriving DecidableEq

inductive RunStatus
  | running | pendingConfirmation | pendingApproval | done | failed | denied | expired
  deriving DecidableEq

inductive RunErrorCode
  | app (code : AppErrorCode)
  | interrupted
  deriving DecidableEq

/-- The column `error`, which a refusal adds its denial to. -/
structure RunError where
  code : RunErrorCode
  message : String
  unexecuted : Bool := false
  denial : Option OperationDenial := none
  deriving DecidableEq

def interruptedRunError : RunError := { code := .interrupted, message := "The call was interrupted before it finished" }

structure OperationRun where
  id : OperationRunId
  operation : String
  effect : OperationEffect
  actor : Actor
  idempotencyKey : Option String
  inputHash : String
  status : RunStatus
  attempt : Nat
  approvalRequestId : Option String
  expiresAt : Option Time
  output : Option String
  error : Option RunError
  deriving DecidableEq

/-- One client instance; `fresh` is the next id `createPlatformId` gives. -/
structure Db where
  runs : List OperationRun
  fresh : OperationRunId
  deriving DecidableEq

def OperationRun.holdsKey (r : OperationRun) (actor : Actor) (key : Option String) : Prop :=
  r.actor = actor ∧ r.idempotencyKey = key ∧ key.isSome

instance : Decidable (OperationRun.holdsKey r actor key) := inferInstanceAs (Decidable (_ ∧ _ ∧ _))

def OperationRun.runsAgain (r : OperationRun) : Prop :=
  r.status = .failed ∧ (r.effect = .reading ∨ ∃ e ∈ r.error, e.unexecuted)

instance : DecidablePred OperationRun.runsAgain := fun _ => inferInstanceAs (Decidable (_ ∧ (_ ∨ _)))

def OperationRun.sameCall (r : OperationRun) (call : Call) : Prop :=
  r.operation = call.operation ∧ r.inputHash = call.inputHash ∧ r.actor.kind = call.actor.kind

instance : Decidable (OperationRun.sameCall r call) := inferInstanceAs (Decidable (_ ∧ _ ∧ _))

def newRun (id : OperationRunId) (call : Call) : OperationRun :=
  { id, operation := call.operation, effect := call.effect, actor := call.actor
    idempotencyKey := call.idempotencyKey, inputHash := call.inputHash, status := .running, attempt := 1
    approvalRequestId := none, expiresAt := none, output := none, error := none }

def OperationRun.reopened (r : OperationRun) : OperationRun :=
  { r with status := .running, attempt := r.attempt + 1, error := none }

/-- One INSERT with ON CONFLICT DO UPDATE on the key: a run that runs again is handed out as its
next attempt, and any other holder of the key leaves the statement without a row. -/
def createOperationRun (db : Db) (call : Call) : Option OperationRun × Db :=
  match db.runs.find? (·.holdsKey call.actor call.idempotencyKey) with
  | none =>
    let run := newRun db.fresh call
    (some run, { db with runs := run :: db.runs, fresh := db.fresh + 1 })
  | some held =>
    if held.runsAgain ∧ held.operation = call.operation ∧ held.inputHash = call.inputHash then
      (some held.reopened, { db with runs := updateWhere (·.id = held.id) OperationRun.reopened db.runs })
    else (none, db)

def findOperationRunByIdempotencyKey (db : Db) (actor : Actor) (key : Option String) : Option OperationRun :=
  db.runs.find? (·.holdsKey actor key)

inductive OperationRunEnd
  | done (output : Option String)
  | failed (error : RunError)
  | denied (error : AppError) (denial : OperationDenial)
  | pendingApproval (approvalRequestId : String) (expiresAt : Time)
  deriving DecidableEq

def OperationRun.ended (r : OperationRun) : OperationRunEnd → OperationRun
  | .done output => { r with status := .done, output := output }
  | .failed error => { r with status := .failed, error := some error }
  | .denied error denial =>
    { r with status := .denied, error := some { code := .app error.code, message := error.message, denial := some denial } }
  | .pendingApproval approvalRequestId expiresAt =>
    { r with status := .pendingApproval, approvalRequestId := some approvalRequestId, expiresAt := some expiresAt }

def finishOperationRun (db : Db) (id : OperationRunId) (ended : OperationRunEnd) : Db :=
  { db with runs := updateWhere (fun r => r.id = id ∧ r.status = .running) (·.ended ended) db.runs }

def OperationRun.isExpired (now : Time) (r : OperationRun) : Prop :=
  (r.status = .pendingConfirmation ∨ r.status = .pendingApproval) ∧ ∃ t ∈ r.expiresAt, t ≤ now

instance (now : Time) : DecidablePred (OperationRun.isExpired now) := fun _ => inferInstanceAs (Decidable ((_ ∨ _) ∧ _))

def markOperationRunsExpired (db : Db) (now : Time) : Db :=
  { db with runs := updateWhere (OperationRun.isExpired now) (fun r => { r with status := .expired }) db.runs }

def OperationRun.interrupted (r : OperationRun) : OperationRun :=
  { r with status := .failed, error := some interruptedRunError }

def markOperationRunInterrupted (db : Db) (id : OperationRunId) : Db :=
  { db with runs := updateWhere (fun r => r.id = id ∧ r.status = .running) OperationRun.interrupted db.runs }

inductive OriginKind
  | agent | user | cli | mcp | app | workflow | schedule
  deriving DecidableEq

/-- `OperationCall` -/
structure Request where
  operation : String
  effect : OperationEffect
  input : String
  actor : Actor
  origin : OriginKind
  idempotencyKey : Option String
  deriving DecidableEq

/-- `safeParse` answers the parsed input, or nothing where it is invalid. -/
structure OperationDefinition where
  name : String
  effect : OperationEffect
  namesRight : Bool
  ownCheck : Bool
  safeParse : String → Option String

structure Platform where
  resolve : String → Option OperationDefinition
  hashInput : String → String

def assertOperationChecksRights (definition : OperationDefinition) : Except Thrown Unit :=
  if definition.namesRight = definition.ownCheck then
    .error (appError .internal (if definition.namesRight then
        s!"Operation '{definition.name}' names a right and may not check rights itself too"
      else s!"Operation '{definition.name}' names no right and has no check of its own"))
  else .ok ()

def idempotencyKeyMaxLength : Nat := 255

def readIdempotencyKey (request : Request) (definition : OperationDefinition) : Except Thrown (Option String) :=
  match definition.effect, request.idempotencyKey with
  | .reading, _ => .ok none
  | .changing, none =>
    if request.origin = .app ∨ request.origin = .workflow then
      .error (appError .validationFailed "This call needs an Idempotency-Key")
    else .ok none
  | .changing, some key =>
    if key.length = 0 ∨ idempotencyKeyMaxLength < key.length then
      .error (appError .validationFailed s!"An Idempotency-Key has 1 to {idempotencyKeyMaxLength} characters")
    else .ok (some key)

/-- What `runOperation` does before it asks for a run. -/
def Platform.callOf (p : Platform) (request : Request) : Except Thrown Call := do
  let definition ← need (p.resolve request.operation)
    (appError .notFound s!"Operation '{request.operation}' is not registered")
  assertOperationChecksRights definition
  require (definition.effect = request.effect)
    (appError .internal s!"Operation '{request.operation}' is {definition.effect.text}")
  let input ← need (definition.safeParse request.input) (appError .validationFailed "Operation input is invalid")
  let idempotencyKey ← readIdempotencyKey request definition
  return ⟨definition.name, definition.effect, request.actor, idempotencyKey, p.hashInput input⟩

inductive EventOutcome
  | allow | warn | requireApproval | block
  deriving DecidableEq

/-- `OUTCOME_ORDER` -/
def EventOutcome.order : EventOutcome → Nat
  | allow => 0
  | warn => 1
  | requireApproval => 2
  | block => 3

def strictestOutcome (outcomes : List EventOutcome) : EventOutcome :=
  outcomes.foldl (fun left right => if right.order ≤ left.order then left else right) .allow

inductive PolicyNext
  | run | awaitConfirmation | awaitApproval | refuse
  deriving DecidableEq

structure PolicyResolution where
  fromGuardrail : Bool
  next : PolicyNext
  deriving DecidableEq

inductive Right
  | allowed
  | refused (action : String) (reason : DenialReason)
  deriving DecidableEq

inductive Fault
  | none | beforeCommit | afterCommit
  deriving DecidableEq

structure Script where
  /-- The rights of the actor, and its right to the operation. -/
  right : Except Thrown Right
  authorizationChecked : Except Thrown Unit
  /-- The settings and the targets of the policy. -/
  policyInput : Except Thrown Unit
  resolvePolicy : Option EventOutcome → PolicyResolution
  beforeCall : Except Thrown (List EventOutcome)
  beforeEvent : String
  /-- None where the surface cannot hold a call for an approval. -/
  approvals : Option (Except Thrown String)
  approvalExpiresAt : Time
  operationStarted : Except Thrown Unit
  /-- What the operation's implementation answers. -/
  execute : Except Thrown String
  /-- By the number of the statements the call has sent. -/
  fault : Nat → Fault
  announced : Nat → Except Thrown Unit

inductive Decision
  | deny (denial : OperationDenial)
  | awaitApproval (approvalRequestId : String)
  | run
  deriving DecidableEq

/-- What comes before the implementation is reached. -/
def Script.decision (s : Script) (call : Call) : Except Thrown Decision := do
  let right ← s.right
  s.authorizationChecked
  match right with
  | .refused action reason => return .deny (.forbidden action reason)
  | .allowed =>
    s.policyInput
    if (s.resolvePolicy none).next = .refuse then
      return .deny (.policy call.operation)
    let outcomes ← s.beforeCall
    let policy := s.resolvePolicy (some (strictestOutcome outcomes))
    match policy.next with
    | .refuse => return .deny (if policy.fromGuardrail then .guardrail s.beforeEvent else .policy call.operation)
    | .awaitConfirmation => throw (appError .internal "This surface cannot hold a call for a confirmation")
    | .awaitApproval =>
      match s.approvals with
      | none => return .deny (.policy call.operation)
      | some request =>
        let approvalRequestId ← request
        return .awaitApproval approvalRequestId
    | .run =>
      s.operationStarted
      return .run

inductive OperationResult
  | done (runId : OperationRunId) (output : String)
  | pendingApproval (runId : OperationRunId) (approvalRequestId : String) (expiresAt : Time)
  | denied (runId : OperationRunId) (reason : OperationDenial)
  | expired (runId : OperationRunId)
  | failed (runId : OperationRunId) (code : RunErrorCode) (message : String)
  deriving DecidableEq

abbrev Answer := Except Thrown OperationResult

def operationRunOutputMaxBytes : Nat := 256 * 1024

def retainedOutput (output : String) : Option String :=
  if output.utf8ByteSize ≤ operationRunOutputMaxBytes then some output else none

def keyReused : Thrown :=
  appError .idempotencyKeyReused "This Idempotency-Key was used for another call. Send a new key."

def outputNotRetained : Thrown :=
  appError .outputNotRetained "The call completed and its answer is not kept. Read the result from what it changed."

def firstCallNotEnded : Thrown := appError .operationInProgress "The first call with this key has not ended"

def firstCallInterrupted : Thrown :=
  appError .operationInProgress ("The first call with this key was interrupted and its outcome is not known. " ++
    "Check what it changed, then call again with a new Idempotency-Key.")

def cannotBeAnsweredAgain (runId : OperationRunId) : Thrown :=
  appError .internal s!"Operation run '{runId}' cannot be answered again"

def couldNotStart (call : Call) : Thrown := appError .internal s!"Operation '{call.operation}' could not start a run"

/-- What the same call answers again, read from the run that holds its key. -/
def replay (held : OperationRun) (call : Call) : Answer :=
  if ¬ held.sameCall call then .error keyReused
  else match held.status with
    | .done => match held.output with
      | none => .error outputNotRetained
      | some output => .ok (.done held.id output)
    | .pendingApproval => match held.approvalRequestId, held.expiresAt with
      | some approvalRequestId, some expiresAt => .ok (.pendingApproval held.id approvalRequestId expiresAt)
      | _, _ => .error (cannotBeAnsweredAgain held.id)
    | .denied => match held.error.bind (·.denial) with
      | some denial => .ok (.denied held.id denial)
      | none => .error (cannotBeAnsweredAgain held.id)
    | .expired => .ok (.expired held.id)
    | .running | .pendingConfirmation => .error firstCallNotEnded
    | .failed => match held.error with
      | none => .error (cannotBeAnsweredAgain held.id)
      | some error =>
        if error.code = .interrupted then .error firstCallInterrupted
        else .ok (.failed held.id error.code error.message)

/-- What becomes of an error: the call fails, the caller gets it, or it changes nothing any more. -/
inductive Stage
  | guarded | caught | completed
  deriving DecidableEq

inductive Phase
  | creating (attempt : Nat)
  | finding (attempt : Nat)
  | deciding (run : OperationRunId)
  | executing (run : OperationRunId)
  | ending (run : OperationRunId) (ended : OperationRunEnd) (result : OperationResult) (stage : Stage)
  | announcing (run : OperationRunId) (result : OperationResult) (stage : Stage)
  deriving DecidableEq

structure Going where
  call : Call
  script : Script
  /-- How many statements the call has sent. -/
  sent : Nat
  phase : Phase

inductive Process
  | refused (request : Request) (error : Thrown)
  | going (g : Going)

inductive Event
  /-- A request that never becomes a call. -/
  | rejected (request : Request) (error : Thrown)
  /-- The operation's `execute` is entered, and what it will answer. -/
  | entered (run : OperationRunId) (call : Call) (outcome : Except Thrown String)
  | answered (call : Call) (answer : Answer)

abbrev StepResult := Option Event × Option Process × Db

def idempotencyClaimAttempts : Nat := 3

namespace Going

variable (g : Going) (db : Db)

def answers (answer : Answer) : StepResult := (some (.answered g.call answer), none, db)

def goesTo (phase : Phase) : StepResult := (none, some (.going { g with phase }), db)

def sends (phase : Phase) : StepResult := (none, some (.going { g with phase, sent := g.sent + 1 }), db)

def again (attempt : Nat) : StepResult :=
  if attempt + 1 < idempotencyClaimAttempts then g.sends db (.creating (attempt + 1))
  else g.answers db (.error (couldNotStart g.call))

def deniedPhase (run : OperationRunId) (denial : OperationDenial) (stage : Stage) : Phase :=
  .ending run (.denied (operationDenialError denial) denial) (.denied run denial) stage

def caught (run : OperationRunId) (unexecuted : Bool) : Thrown → Phase
  | .forbidden action reason => deniedPhase run (.forbidden action reason) .caught
  | error =>
    let safe := toErrorEnvelope error
    .ending run (.failed { code := .app safe.code, message := safe.message, unexecuted })
      (.failed run (.app safe.code) safe.message) .caught

/-- Where an error leads while a run is ended: only a denial or an approval is still guarded, and
its call has not been executed. -/
def throws (run : OperationRunId) (result : OperationResult) (stage : Stage) (error : Thrown) : StepResult :=
  match stage with
  | .guarded => g.sends db (caught run true error)
  | .caught => g.answers db (.error error)
  | .completed => g.answers db (.ok result)

def create (attempt : Nat) : StepResult :=
  match g.script.fault g.sent, createOperationRun db g.call with
  | .beforeCommit, _ => g.answers db (.error .other)
  | .afterCommit, (_, db') => g.answers db' (.error .other)
  | .none, (some run, db') => g.sends db' (.deciding run.id)
  | .none, (none, db') =>
    if g.call.idempotencyKey = none then g.answers db' (.error (couldNotStart g.call))
    else g.sends db' (.finding attempt)

def find (attempt : Nat) : StepResult :=
  if g.script.fault g.sent ≠ .none then g.answers db (.error .other)
  else match findOperationRunByIdempotencyKey db g.call.actor g.call.idempotencyKey with
    | none => g.again db attempt
    | some held =>
      if ¬ held.runsAgain then g.answers db (replay held g.call)
      else if ¬ held.sameCall g.call then g.answers db (.error keyReused)
      else g.again db attempt

def decides (run : OperationRunId) : StepResult :=
  match g.script.decision g.call with
  | .error error => g.goesTo db (caught run true error)
  | .ok (.deny denial) => g.goesTo db (deniedPhase run denial .guarded)
  | .ok (.awaitApproval approvalRequestId) =>
    g.goesTo db (.ending run (.pendingApproval approvalRequestId g.script.approvalExpiresAt)
      (.pendingApproval run approvalRequestId g.script.approvalExpiresAt) .guarded)
  | .ok .run => (some (.entered run g.call g.script.execute), some (.going { g with phase := .executing run }), db)

def executed (run : OperationRunId) : Except Thrown String → Phase
  | .ok output => .ending run
    (.done (if g.call.effect = .changing then retainedOutput output else none)) (.done run output) .completed
  | .error error => caught run false error

def ends (run : OperationRunId) (ended : OperationRunEnd) (result : OperationResult) (stage : Stage) : StepResult :=
  match g.script.fault g.sent with
  | .beforeCommit => g.throws db run result stage .other
  | .afterCommit => g.throws (finishOperationRun db run ended) run result stage .other
  | .none =>
    let db' := finishOperationRun db run ended
    match ended with
    | .pendingApproval _ _ => g.answers db' (.ok result)
    | _ => g.sends db' (.announcing run result stage)

def announces (run : OperationRunId) (result : OperationResult) (stage : Stage) : StepResult :=
  match g.script.announced g.sent with
  | .ok () => g.answers db (.ok result)
  | .error error => g.throws db run result stage error

def step : StepResult :=
  match g.phase with
  | .creating attempt => g.create db attempt
  | .finding attempt => g.find db attempt
  | .deciding run => g.decides db run
  | .executing run => g.goesTo db (g.executed run g.script.execute)
  | .ending run ended result stage => g.ends db run ended result stage
  | .announcing run result stage => g.announces db run result stage

end Going

inductive Sweep
  | markExpired (now : Time)
  | markInterrupted (id : OperationRunId)
  deriving DecidableEq

def Sweep.run (db : Db) : Sweep → Db
  | markExpired now => markOperationRunsExpired db now
  | markInterrupted id => markOperationRunInterrupted db id

def Platform.startOf (p : Platform) (input : Request × Script) : Process :=
  match p.callOf input.1 with
  | .error error => .refused input.1 error
  | .ok call => .going ⟨call, input.2, 0, .creating 0⟩

/-- Any number of calls with the sweeps; a call that aborts is one whose process has crashed. -/
def operationCalls (p : Platform) : Processes Db (Request × Script) Process Sweep Event where
  start := p.startOf
  blocks _ _ := False
  step db
    | .refused request error => (some (.rejected request error), none, db)
    | .going g => g.step db
  env db sweep := (none, sweep.run db)

end Catalyst.Operations
