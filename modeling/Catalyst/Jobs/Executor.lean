import Catalyst.Jobs.Model
import Catalyst.Library.Transition

/-!
# The job executor

Workers, clients and administrators take one transaction at a time, in any
order. A worker keeps the rows its claims returned (`handed`) and settles an
attempt by the row as it was claimed. The clock never runs back; a transaction
that waited for a lock may carry an older `now`.
-/

namespace Catalyst.Jobs

open Library

structure State where
  queue : Queue
  clock : Time
  handed : List JobRow
  deriving DecidableEq

inductive Action
  | enqueue (kind : JobKind) (payload : Payload) (options : EnqueueJobOptions)
  | ensureTick (worker : Worker) (schedule : JobSchedule)
  | makeTickDue (worker : Worker) (schedule : JobSchedule)
  | claim (worker : Worker) (kind : JobKind) (limit : Nat) (locked : List JobId)
  | heartbeat (kind : JobKind) (row : JobRow)
  | settle (worker : Worker) (kind : JobKind) (row : JobRow) (attempt : Attempt)
      (hookFails : Bool)
  /-- A transaction of the attempt, which leaves its lease renewed. -/
  | transaction (kind : JobKind) (row : JobRow) (checkedAt : Time)
  | bury (worker : Worker) (jobId : JobId) (hookFails : Bool)
  | retry (instanceId : ClientInstanceId) (jobId : JobId)
  deriving DecidableEq

structure Step where
  now : Time
  clock : Time
  action : Action
  deriving DecidableEq

inductive Answer
  | done
  | job (row : JobRow)
  | claimed (rows : List JobRow)
  | held (held : Bool)
  | retried (result : RetryJobResult)
  deriving DecidableEq

def JobRow.lease (r : JobRow) : JobLease := ⟨r.id, r.leaseToken.getD 0⟩

/-- The transaction on the queue alone. -/
def transact (q : Queue) (now clock : Time) : Action → Answer × Queue
  | .enqueue kind payload options =>
    let (row, q) := enqueueJob q now kind payload options
    (.job row, q)
  | .ensureTick w schedule =>
    let (row, q) := ensureScheduleTick q now w.clientInstanceId schedule
    (.job row, q)
  | .makeTickDue w schedule => (.done, makeScheduleTickDue q now w.clientInstanceId schedule)
  | .claim w kind limit locked =>
    let (rows, q) := claimJobs q w.clientInstanceId kind w.workerId limit now locked
    (.claimed rows, q)
  | .heartbeat kind row =>
    let (held, q) := heartbeatJob q row.lease kind.leaseMs clock
    (.held held, q)
  | .settle w kind row attempt hookFails =>
    let (held, q) := w.settle q row.lease ((w.outcomeOf kind row attempt).stored hookFails)
      now clock
    (.held held, q)
  | .transaction kind row checkedAt =>
    let (held, q) := leasedTransaction q row.lease kind.leaseMs checkedAt clock
    (.held held, q)
  | .bury w jobId _ => (.done, w.bury q jobId now)
  | .retry instanceId jobId =>
    let (result, q) := retryJob q instanceId jobId now
    (.retried result, q)

def Answer.rows : Answer → List JobRow
  | .claimed rows => rows
  | _ => []

/-- What the environment may ask of an executor whose clock last read `since`. -/
def Allowed (catalog : Catalog) (handed : List JobRow) (since clock : Time) : Action → Prop
  | .claim _ kind _ _ => kind ∈ catalog.kinds
  | .heartbeat kind row => kind ∈ catalog.kinds ∧ row ∈ handed ∧ row.kind = kind.kind
  | .settle _ kind row _ _ => kind ∈ catalog.kinds ∧ row ∈ handed ∧ row.kind = kind.kind
  | .transaction kind row checkedAt =>
    (kind ∈ catalog.kinds ∧ row ∈ handed ∧ row.kind = kind.kind) ∧
      since ≤ checkedAt ∧ checkedAt ≤ clock
  | _ => True

instance : DecidablePred (Allowed catalog handed since clock)
  | .claim _ kind _ _ => inferInstanceAs (Decidable (kind ∈ catalog.kinds))
  | .heartbeat kind row =>
    inferInstanceAs (Decidable (kind ∈ catalog.kinds ∧ row ∈ handed ∧ row.kind = kind.kind))
  | .settle _ kind row _ _ =>
    inferInstanceAs (Decidable (kind ∈ catalog.kinds ∧ row ∈ handed ∧ row.kind = kind.kind))
  | .transaction kind row checkedAt =>
    inferInstanceAs (Decidable ((kind ∈ catalog.kinds ∧ row ∈ handed ∧ row.kind = kind.kind) ∧
      since ≤ checkedAt ∧ checkedAt ≤ clock))
  | .enqueue .. | .ensureTick .. | .makeTickDue .. | .bury .. | .retry .. => .isTrue trivial

/-- The executor over the kinds of a catalog, from an empty table. -/
def executor (catalog : Catalog) : Machine State Step Answer where
  init s := s.queue.rows = [] ∧ s.handed = []
  enabled s st := s.clock ≤ st.clock ∧ st.now ≤ st.clock ∧
    Allowed catalog s.handed s.clock st.clock st.action
  step s st :=
    let (answer, q) := transact s.queue st.now st.clock st.action
    (answer, ⟨q, st.clock, s.handed ++ answer.rows⟩)

instance : Decidable ((executor catalog).enabled s st) :=
  inferInstanceAs (Decidable (s.clock ≤ st.clock ∧ st.now ≤ st.clock ∧
    Allowed catalog s.handed s.clock st.clock st.action))

end Catalyst.Jobs
