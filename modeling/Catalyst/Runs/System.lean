import Catalyst.Jobs.Executor
import Catalyst.Runs.Model

/-!
# The run system

Clients, workers and the upkeep take transactions on the tables of the runs and
on the job queue, in any order. A worker works under the lease of a job row its
claim returned. `elsewhere` stands for the rest of the product, which may change
conversations, workspaces and users at any time.
-/

namespace Catalyst.Runs

open Library Library.Tx Jobs

inductive Write
  | observation (event : AgentRuntimeEvent)
  | message (message : ClaimedMessage)
  | runEnd (message : Option ClaimedMessage) (events : List AgentRuntimeEvent)
  | approval (request : ApprovalRequest)
  | continuation (conversationId : ConversationId) (providerId : String)
  deriving DecidableEq

inductive Action
  | accept (input : AcceptedRun)
  | jobs (action : Jobs.Action)
  | claimRun (row : JobRow) (checkedAt : Time)
  | write (row : JobRow) (runId : RunId) (write : Write)
  | requestCancellation (instanceId : ClientInstanceId) (runId : RunId) (requestedAt : Time)
      (reason : Option String)
  | failLost (instanceId : ClientInstanceId) (runId : RunId) (jobId : JobId)
  | failQueuedTooLong (instanceId : ClientInstanceId) (error : AgentRunError)
      (limit queuedMs : Nat)
  | failWithoutWorker (instanceId : ClientInstanceId) (error : AgentRunError) (limit : Nat)
  | elsewhere (conversations : List Conversation) (workspaces : List Workspace)
      (users : List ProductUser)
  deriving DecidableEq

inductive Answer
  | done
  | run (row : AgentRun)
  | claim (claim : AgentRunJobClaim)
  | jobs (answer : Jobs.Answer)
  deriving DecidableEq

/-- `job.payload.runId` -/
def runIdOf (row : JobRow) : Option RunId := row.payload.lookup "runId"

def claimOf (row : JobRow) (runId : RunId) : ClaimedRun := ⟨row.clientInstanceId, runId, row.lease⟩

/-- The first transaction of an attempt. A run that someone started and left is ended here. -/
def claimRun (row : JobRow) (now checkedAt clock : Time) : Tx Db RunError AgentRunJobClaim := do
  let db ← get
  let leased := leasedTransaction db.queue row.lease executeAgentRunJob.leaseMs checkedAt clock
  require (leased.1 = true) (.jobLeaseLost row.id)
  let runId ← need (runIdOf row)
    (appError .validationFailed "The stored payload does not fit the job kind")
  let claim ← claimAgentRunForJob (claimOf row runId) executeAgentRunJob.leaseMs now
  each (fun runId => failAgentRunOfLostJob row.clientInstanceId runId row.id now)
    (if claim = .started then [runId] else [])
  modify fun db => { db with queue := leased.2 }
  pure claim

inductive Hook
  | onHeartbeat (row : JobRow)
  | onExhausted (row : JobRow)

def hookOf (q : Queue) (now clock : Time) : Jobs.Action → Option Hook
  | .heartbeat kind row =>
    if kind.kind = executeAgentRunJob.kind ∧ (lockLeasedJob q row.lease clock).isSome then
      some (.onHeartbeat row)
    else none
  | .settle w kind row attempt hookFails =>
    if kind.kind = executeAgentRunJob.kind ∧ (w.outcomeOf kind row attempt).exhausted ∧
        ¬ hookFails ∧ (lockLeasedJob q row.lease clock).isSome then
      some (.onExhausted row)
    else none
  | .bury w jobId hookFails =>
    (lockExhaustedJob q jobId now).bind fun row =>
      if row.kind = executeAgentRunJob.kind ∧ ¬ w.isTick row ∧ ¬ hookFails then
        some (.onExhausted row)
      else none
  | _ => none

def runHook (now : Time) : Hook → Tx Db RunError Unit
  | .onHeartbeat row =>
    each (fun runId => do
      let _ ← renewAgentRunJobLease (claimOf row runId) executeAgentRunJob.leaseMs now)
      (runIdOf row).toList
  | .onExhausted row =>
    each (fun runId => failAgentRunOfLostJob row.clientInstanceId runId row.id now)
      (runIdOf row).toList

def transactJobs (a : Jobs.Action) (now clock : Time) : Tx Db RunError Jobs.Answer := do
  let db ← get
  let moved := transact db.queue now clock a
  each (runHook now) (hookOf db.queue now clock a).toList
  modify fun db => { db with queue := moved.2 }
  pure moved.1

def Write.perform (row : JobRow) (runId : RunId) (clock : Time) : Write → Tx Db RunError Unit
  | .observation event => do let _ ← appendClaimedRunObservation (claimOf row runId) event clock
  | .message m => appendClaimedAgentRunMessage (claimOf row runId) m clock
  | .runEnd m events => appendClaimedAgentRunEnd (claimOf row runId) m events clock
  | .approval request => createApprovalRequest (claimOf row runId) request clock
  | .continuation conversationId providerId =>
    deleteModelProviderContinuation (claimOf row runId) conversationId providerId clock

def perform (now clock : Time) : Action → Tx Db RunError Answer
  | .accept input => do return .run (← prepareConversationRunStart input now)
  | .jobs a => do return .jobs (← transactJobs a now clock)
  | .claimRun row checkedAt => do return .claim (← claimRun row now checkedAt clock)
  | .write row runId w => do
    w.perform row runId clock
    return .done
  | .requestCancellation instanceId runId requestedAt reason => do
    return .run (← requestAgentRunCancellation instanceId runId requestedAt reason)
  | .failLost instanceId runId jobId => do
    failAgentRunOfLostJob instanceId runId jobId now
    return .done
  | .failQueuedTooLong instanceId error limit queuedMs => do
    let _ ← failAgentRunsQueuedTooLong instanceId error limit queuedMs now
    return .done
  | .failWithoutWorker instanceId error limit => do
    let _ ← failAgentRunsWithoutWorker instanceId error limit executeAgentRunJob.kind now
    return .done
  | .elsewhere conversations workspaces users => do
    modify fun db => { db with
      conversations := conversations, workspaces := workspaces, users := users }
    return .done

structure State where
  db : Db
  clock : Time
  /-- The job rows the claims returned to workers. -/
  handed : List JobRow
  deriving DecidableEq

structure Step where
  now : Time
  clock : Time
  action : Action
  deriving DecidableEq

def handedBy : Except RunError Answer → List JobRow
  | .ok (.jobs answer) => answer.rows
  | _ => []

def Allowed (catalog : Catalog) (handed : List JobRow) (since clock : Time) : Action → Prop
  | .jobs a => Jobs.Allowed catalog handed since clock a
  | .claimRun row checkedAt =>
    (row ∈ handed ∧ row.kind = executeAgentRunJob.kind) ∧ since ≤ checkedAt ∧ checkedAt ≤ clock
  | .write row _ _ => row ∈ handed
  | _ => True

instance : DecidablePred (Allowed catalog handed since clock)
  | .jobs a => inferInstanceAs (Decidable (Jobs.Allowed catalog handed since clock a))
  | .claimRun row checkedAt =>
    inferInstanceAs (Decidable ((row ∈ handed ∧ row.kind = executeAgentRunJob.kind) ∧
      since ≤ checkedAt ∧ checkedAt ≤ clock))
  | .write row _ _ => inferInstanceAs (Decidable (row ∈ handed))
  | .accept _ | .requestCancellation .. | .failLost .. | .failQueuedTooLong ..
  | .failWithoutWorker .. | .elsewhere .. => .isTrue trivial

/-- The run system over a catalog of job kinds, from tables without runs and jobs. -/
def runSystem (catalog : Catalog) : Machine State Step (Except RunError Answer) where
  init s := s.db.queue.rows = [] ∧ s.db.runs = [] ∧ s.db.observations = [] ∧ s.handed = []
  enabled s st := s.clock ≤ st.clock ∧ st.now ≤ st.clock ∧
    Allowed catalog s.handed s.clock st.clock st.action
  step s st :=
    let (answer, db) := commit (perform st.now st.clock st.action) s.db
    (answer, ⟨db, st.clock, s.handed ++ handedBy answer⟩)

instance : Decidable ((runSystem catalog).enabled s st) :=
  inferInstanceAs (Decidable (s.clock ≤ st.clock ∧ st.now ≤ st.clock ∧
    Allowed catalog s.handed s.clock st.clock st.action))

end Catalyst.Runs
