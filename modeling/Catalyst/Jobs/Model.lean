import Catalyst.Core
import Catalyst.Library.Table
import Mathlib.Data.List.Sort

/-!
# The queue of platform jobs

The table `platform_jobs` and the statements of `jobs/store.ts`, `jobs/worker.ts`
and `jobs/admin-queries.ts` that write it. Each function here is one
transaction: `now` is the start of the transaction, `clock` a reading of
`clock_timestamp()` inside it.

The generators of job ids and lease tokens never repeat a value; one counter
stands for both. No statement depends on the order of two ids.
-/

namespace Catalyst.Jobs

open Library

abbrev JobId := Nat
abbrev LeaseToken := Nat
abbrev WorkerId := String

-- -----------------
-- Job kinds
-- -----------------

structure Backoff where
  baseMs : Nat
  maxMs : Nat
  deriving DecidableEq

structure Concurrency where
  globally : Option Nat
  perKey : Option Nat
  deriving DecidableEq

structure JobKindDefinition where
  kind : String
  maxAttempts : Nat
  backoff : Backoff
  leaseMs : Nat
  heartbeatMs : Option Nat
  concurrency : Concurrency
  deriving DecidableEq

/-- A kind that `defineJobKind` accepted. -/
structure JobKind extends JobKindDefinition where
  maxAttempts_pos : 0 < maxAttempts
  leaseMs_pos : 0 < leaseMs
  globally_pos : ∀ n ∈ concurrency.globally, 0 < n
  perKey_pos : ∀ n ∈ concurrency.perKey, 0 < n
  heartbeat_lt : ∀ n ∈ heartbeatMs, 0 < n ∧ n < leaseMs
  backoff_le : backoff.baseMs ≤ backoff.maxMs
  deriving DecidableEq

/-- `<subject>.<verb>`: two or more lower-case parts. -/
def namedSubjectVerb (kind : String) : Bool :=
  let parts := kind.toList.splitOn '.'
  let lower := fun c : Char => 'a' ≤ c ∧ c ≤ 'z'
  let word := fun c : Char => lower c ∨ ('0' ≤ c ∧ c ≤ '9') ∨ c = '_'
  2 ≤ parts.length ∧ parts.all fun part =>
    part.head?.any (fun c => lower c) && part.all fun c => word c

def defineJobKind (d : JobKindDefinition) : Except AppError JobKind :=
  if ¬ namedSubjectVerb d.kind then
    .error ⟨.validationFailed, s!"Job kind '{d.kind}' must be named <subject>.<verb>"⟩
  else if hp : 0 < d.maxAttempts ∧ 0 < d.leaseMs ∧ (∀ n ∈ d.concurrency.globally, 0 < n) ∧
      (∀ n ∈ d.concurrency.perKey, 0 < n) then
    if hh : ∀ n ∈ d.heartbeatMs, 0 < n ∧ n < d.leaseMs then
      if hb : d.backoff.baseMs ≤ d.backoff.maxMs then
        .ok ⟨d, hp.1, hp.2.1, hp.2.2.1, hp.2.2.2, hh, hb⟩
      else
        .error ⟨.validationFailed, s!"Job kind '{d.kind}' has an invalid backoff"⟩
    else
      .error ⟨.validationFailed,
        s!"Job kind '{d.kind}' needs a heartbeat that is a positive whole number below its lease"⟩
  else
    .error ⟨.validationFailed,
      s!"Job kind '{d.kind}' needs positive whole numbers for attempts, lease and concurrency"⟩

/-- Runs a kind again and again: the next tick is due `every` after the end of one. -/
structure JobSchedule where
  kind : JobKind
  every : Nat
  every_pos : 0 < every
  one_attempt : kind.maxAttempts = 1
  deriving DecidableEq

def subjectDedupeKey (kind subjectId : String) : String := kind ++ ":" ++ subjectId

def scheduleDedupeKey (kind : String) : String := "schedule:" ++ kind

structure Catalog where
  kinds : List JobKind
  names_nodup : (kinds.map (·.kind)).Nodup

inductive JobStatus
  | queued | running | succeeded | failed | dead | cancelled
  deriving DecidableEq

abbrev Payload := List (String × String)

structure JobRow where
  id : JobId
  clientInstanceId : ClientInstanceId
  kind : String
  payload : Payload
  status : JobStatus
  runAfter : Time
  attempts : Nat
  maxAttempts : Nat
  leaseOwner : Option WorkerId
  leaseToken : Option LeaseToken
  leaseExpiresAt : Option Time
  heartbeatAt : Option Time
  dedupeKey : Option String
  concurrencyKey : Option String
  errorCode : Option String
  errorMessage : Option String
  createdAt : Time
  startedAt : Option Time
  finishedAt : Option Time
  deriving DecidableEq

structure Queue where
  rows : List JobRow
  fresh : Nat
  deriving DecidableEq

structure JobLease where
  jobId : JobId
  token : LeaseToken
  deriving DecidableEq

namespace JobRow

def ofKind (instanceId : ClientInstanceId) (kind : String) (r : JobRow) : Prop :=
  r.clientInstanceId = instanceId ∧ r.kind = kind
  deriving Decidable

def Running (r : JobRow) : Prop := r.status = .running
  deriving Decidable

def Live (r : JobRow) : Prop := r.status = .queued ∨ r.status = .running
  deriving Decidable

def Final (r : JobRow) : Prop := ¬ r.Live
  deriving Decidable

/-- SQL's `lease_expires_at < now()`: unknown, so false, without a lease. -/
def expiredBefore (now : Time) (r : JobRow) : Prop := ∃ e ∈ r.leaseExpiresAt, e < now
  deriving Decidable

def exhausted (now : Time) (r : JobRow) : Prop :=
  r.Running ∧ r.expiredBefore now ∧ r.maxAttempts ≤ r.attempts
  deriving Decidable

def heldBy (lease : JobLease) (clock : Time) (r : JobRow) : Prop :=
  r.id = lease.jobId ∧ r.leaseToken = some lease.token ∧ r.Running ∧
    ∃ e ∈ r.leaseExpiresAt, clock < e
  deriving Decidable

def liveWithKey (instanceId : ClientInstanceId) (kind key : String) (r : JobRow) : Prop :=
  r.ofKind instanceId kind ∧ r.dedupeKey = some key ∧ r.Live
  deriving Decidable

def runningOf (instanceId : ClientInstanceId) (kind : String) (r : JobRow) : Prop :=
  r.ofKind instanceId kind ∧ r.Running
  deriving Decidable

def runningWithKey (instanceId : ClientInstanceId) (kind key : String) (r : JobRow) : Prop :=
  r.ofKind instanceId kind ∧ r.Running ∧ r.concurrencyKey = some key
  deriving Decidable

def noLease (r : JobRow) : JobRow :=
  { r with leaseOwner := none, leaseToken := none, leaseExpiresAt := none }

def notAfter (a b : JobRow) : Prop :=
  a.runAfter < b.runAfter ∨ (a.runAfter = b.runAfter ∧
    (a.createdAt < b.createdAt ∨ (a.createdAt = b.createdAt ∧ a.id ≤ b.id)))
  deriving Decidable

end JobRow

def backoff (kind : JobKindDefinition) (attempts : Nat) : Nat :=
  min kind.backoff.maxMs (kind.backoff.baseMs * 2 ^ (attempts - 1))

structure EnqueueJobOptions where
  clientInstanceId : ClientInstanceId
  runAfter : Option Time
  dedupeKey : Option String
  concurrencyKey : Option String
  delayMs : Nat
  deriving DecidableEq

def queuedJob (s : Queue) (now : Time) (kind : JobKind) (payload : Payload)
    (options : EnqueueJobOptions) : JobRow :=
  { id := s.fresh
    clientInstanceId := options.clientInstanceId
    kind := kind.kind
    payload := payload
    status := .queued
    runAfter := options.runAfter.getD (now + options.delayMs)
    attempts := 0
    maxAttempts := kind.maxAttempts
    leaseOwner := none
    leaseToken := none
    leaseExpiresAt := none
    heartbeatAt := none
    dedupeKey := options.dedupeKey
    concurrencyKey := options.concurrencyKey
    errorCode := none
    errorMessage := none
    createdAt := now
    startedAt := none
    finishedAt := none }

def liveHolder (s : Queue) (kind : JobKind) (options : EnqueueJobOptions) : Option JobRow :=
  options.dedupeKey.bind fun key =>
    s.rows.find? fun r => r.liveWithKey options.clientInstanceId kind.kind key

/-- The insert does nothing where a live job holds the key, and that job is
returned. The rounds of the source wait out a holder that ends between the
two statements, which one transaction taken as a step does not see. -/
def enqueueJob (s : Queue) (now : Time) (kind : JobKind) (payload : Payload)
    (options : EnqueueJobOptions) : JobRow × Queue :=
  match liveHolder s kind options with
  | some existing => (existing, s)
  | none =>
    let row := queuedJob s now kind payload options
    (row, { rows := s.rows ++ [row], fresh := s.fresh + 1 })

def ensureScheduleTick (s : Queue) (now : Time) (instanceId : ClientInstanceId)
    (schedule : JobSchedule) : JobRow × Queue :=
  enqueueJob s now schedule.kind [] ⟨instanceId, none, scheduleDedupeKey schedule.kind.kind, none, 0⟩

def enqueueNextScheduleTick (s : Queue) (now : Time) (instanceId : ClientInstanceId)
    (schedule : JobSchedule) : JobRow × Queue :=
  enqueueJob s now schedule.kind []
    ⟨instanceId, none, scheduleDedupeKey schedule.kind.kind, none, schedule.every⟩

def makeScheduleTickDue (s : Queue) (now : Time) (instanceId : ClientInstanceId)
    (schedule : JobSchedule) : Queue :=
  { s with
    rows := updateWhere
      (fun r => r.ofKind instanceId schedule.kind.kind ∧
        r.dedupeKey = some (scheduleDedupeKey schedule.kind.kind) ∧
        r.status = .queued ∧ now < r.runAfter)
      (fun r => { r with runAfter := now }) s.rows }

/-- Recovery counts the attempt: the job waits out its backoff like after a failure. -/
def recovered (kind : JobKind) (now : Time) (r : JobRow) : JobRow :=
  { r.noLease with
    status := .queued
    runAfter := now + backoff kind.toJobKindDefinition r.attempts
    errorCode := "LEASE_EXPIRED"
    errorMessage := "The lease expired without a heartbeat" }

def recoverExpired (s : Queue) (instanceId : ClientInstanceId) (kind : JobKind) (now : Time) :
    Queue :=
  { s with
    rows := updateWhere
      (fun r => r.ofKind instanceId kind.kind ∧ r.Running ∧ r.expiredBefore now ∧
        r.attempts < r.maxAttempts)
      (recovered kind now) s.rows }

/-- Whether the limit per key leaves room for one more job like `r`. -/
def keyHasRoom (s : Queue) (instanceId : ClientInstanceId) (kind : JobKind) (r : JobRow) : Prop :=
  ∀ limit ∈ kind.concurrency.perKey, ∀ key ∈ r.concurrencyKey,
    count (JobRow.runningWithKey instanceId kind.kind key) s.rows < limit
  deriving Decidable

def candidate (s : Queue) (instanceId : ClientInstanceId) (kind : JobKind) (now : Time)
    (locked : List JobId) : Option JobRow :=
  ((s.rows.filter fun r => r.ofKind instanceId kind.kind ∧ r.status = .queued ∧
      r.runAfter ≤ now ∧ keyHasRoom s instanceId kind r ∧ r.id ∉ locked).insertionSort
    JobRow.notAfter).head?

/-- The row a claim leaves: running under a lease with a token of its own. -/
def claimedRow (kind : JobKind) (workerId : WorkerId) (now : Time) (token : LeaseToken)
    (r : JobRow) : JobRow :=
  { r with
    status := .running
    attempts := r.attempts + 1
    leaseOwner := workerId
    leaseToken := token
    leaseExpiresAt := now + kind.leaseMs
    heartbeatAt := now
    startedAt := now }

def claimOne (s : Queue) (kind : JobKind) (workerId : WorkerId) (now : Time) (r : JobRow) :
    JobRow × Queue :=
  (claimedRow kind workerId now s.fresh r,
    { rows := updateWhere (fun x => x.id = r.id) (claimedRow kind workerId now s.fresh) s.rows
      fresh := s.fresh + 1 })

/-- One at a time, so each claim counts the ones before it against the limit per key. -/
def claimLoop (instanceId : ClientInstanceId) (kind : JobKind) (workerId : WorkerId)
    (now : Time) (locked : List JobId) : Nat → Queue → List JobRow × Queue
  | 0, s => ([], s)
  | free + 1, s =>
    match candidate s instanceId kind now locked with
    | none => ([], s)
    | some r =>
      let (row, s) := claimOne s kind workerId now r
      let (rest, s) := claimLoop instanceId kind workerId now locked free s
      (row :: rest, s)

def freeSlots (s : Queue) (instanceId : ClientInstanceId) (kind : JobKind) (limit : Nat) : Nat :=
  match kind.concurrency.globally with
  | none => limit
  | some most => min limit (most - count (JobRow.runningOf instanceId kind.kind) s.rows)

/-- Recovers the expired leases of a kind that have attempts left and claims up to
`limit` due jobs, under the advisory lock of the kind. -/
def claimJobs (s : Queue) (instanceId : ClientInstanceId) (kind : JobKind) (workerId : WorkerId)
    (limit : Nat) (now : Time) (locked : List JobId) : List JobRow × Queue :=
  let s := recoverExpired s instanceId kind now
  claimLoop instanceId kind workerId now locked (freeSlots s instanceId kind limit) s

def heartbeatJob (s : Queue) (lease : JobLease) (leaseMs : Nat) (clock : Time) : Bool × Queue :=
  (s.rows.any fun r => r.heldBy lease clock,
    { s with
      rows := updateWhere (JobRow.heldBy lease clock)
        (fun r => { r with leaseExpiresAt := clock + leaseMs, heartbeatAt := clock }) s.rows })

def lockLeasedJob (s : Queue) (lease : JobLease) (clock : Time) : Option JobRow :=
  s.rows.find? fun r => r.heldBy lease clock

/-- Renews the lease of a row this transaction locked with `lockLeasedJob`. -/
def renewLockedJobLease (s : Queue) (lease : JobLease) (leaseMs : Nat) (clock : Time) : Queue :=
  { s with
    rows := updateWhere (fun r => r.id = lease.jobId ∧ r.leaseToken = some lease.token)
      (fun r => { r with leaseExpiresAt := clock + leaseMs, heartbeatAt := clock }) s.rows }

/-- `control.transaction`: what it writes beside is stored only when this answers true. -/
def leasedTransaction (s : Queue) (lease : JobLease) (leaseMs : Nat) (checkedAt clock : Time) :
    Bool × Queue :=
  match lockLeasedJob s lease checkedAt with
  | none => (false, s)
  | some _ => (true, renewLockedJobLease s lease leaseMs clock)

def lockExhaustedJob (s : Queue) (jobId : JobId) (now : Time) : Option JobRow :=
  s.rows.find? fun r => r.exhausted now ∧ r.id = jobId

inductive JobEnding
  | succeeded
  | failed (errorCode errorMessage : String)
  | dead (errorCode errorMessage : String)
  /-- Another attempt after the kind's backoff. -/
  | retry (kind : JobKind) (errorCode errorMessage : String)
  /-- Queued again, due at once, with the attempt given back. -/
  | released
  deriving DecidableEq

def endedRow (ending : JobEnding) (now : Time) (r : JobRow) : JobRow :=
  match ending with
  | .succeeded =>
    { r.noLease with
      status := .succeeded, finishedAt := now, errorCode := none, errorMessage := none }
  | .failed code message =>
    { r.noLease with
      status := .failed, finishedAt := now, errorCode := code, errorMessage := message }
  | .dead code message =>
    { r.noLease with
      status := .dead, finishedAt := now, errorCode := code, errorMessage := message }
  | .retry kind code message =>
    { r.noLease with
      status := .queued
      runAfter := now + backoff kind.toJobKindDefinition r.attempts
      errorCode := code
      errorMessage := message }
  | .released => { r.noLease with status := .queued, runAfter := now, attempts := r.attempts - 1 }

def endJobAttempt (s : Queue) (jobId : JobId) (ending : JobEnding) (now : Time) : Queue :=
  { s with rows := updateWhere (fun r => r.id = jobId) (endedRow ending now) s.rows }

structure Worker where
  workerId : WorkerId
  clientInstanceId : ClientInstanceId
  schedules : List JobSchedule
  deriving DecidableEq

def Worker.scheduleOf (w : Worker) (kind : String) : Option JobSchedule :=
  w.schedules.find? fun schedule => schedule.kind.kind = kind

def Worker.isTick (w : Worker) (r : JobRow) : Prop :=
  (w.scheduleOf r.kind).isSome ∧ r.dedupeKey = some (scheduleDedupeKey r.kind)
  deriving Decidable

def Worker.enqueueTickAfter (w : Worker) (s : Queue) (now : Time) (r : JobRow)
    (ending : JobEnding) : Queue :=
  match w.scheduleOf r.kind, ending with
  | none, _ | _, .released | _, .retry .. => s
  | some schedule, _ =>
    if w.isTick r then (enqueueNextScheduleTick s now w.clientInstanceId schedule).2 else s

def Worker.settle (w : Worker) (s : Queue) (lease : JobLease) (ending : JobEnding)
    (now clock : Time) : Bool × Queue :=
  match lockLeasedJob s lease clock with
  | none => (false, s)
  | some row => (true, w.enqueueTickAfter (endJobAttempt s row.id ending now) now row ending)

inductive Attempt
  | returned
  /-- The handler threw; `retryable` is false for a `NonRetryableJobError`. -/
  | threw (retryable : Bool) (code message : String)
  /-- The worker is stopping and asked the handler to stop. -/
  | stopped
  deriving DecidableEq

structure Outcome where
  ending : JobEnding
  /-- Whether `onExhausted` runs in the settling transaction. -/
  exhausted : Bool
  deriving DecidableEq

/-- `row` is the row as it was claimed: the worker does not read it again. -/
def Worker.outcomeOf (w : Worker) (kind : JobKind) (row : JobRow) : Attempt → Outcome
  | .returned => ⟨.succeeded, false⟩
  | .stopped => ⟨.released, false⟩
  | .threw retryable code message =>
    if retryable = false ∨ w.isTick row then ⟨.failed code message, false⟩
    else if row.attempts < row.maxAttempts then ⟨.retry kind code message, false⟩
    else ⟨.dead code message, true⟩

/-- The ending that is stored: when `onExhausted` throws, its transaction rolls
back and the job is marked dead without it. -/
def Outcome.stored (o : Outcome) (hookFails : Bool) : JobEnding :=
  if o.exhausted ∧ hookFails then
    .dead "EXHAUSTED_HANDLER_FAILED" "The last attempt failed and onExhausted failed after it"
  else o.ending

def Worker.buryEnding (w : Worker) (row : JobRow) : JobEnding :=
  if w.isTick row then .failed "LEASE_EXPIRED" "The lease expired without a heartbeat"
  else .dead "LEASE_EXPIRED" "The lease expired without a heartbeat"

def Worker.bury (w : Worker) (s : Queue) (jobId : JobId) (now : Time) : Queue :=
  match lockExhaustedJob s jobId now with
  | none => s
  | some row =>
    w.enqueueTickAfter (endJobAttempt s row.id (w.buryEnding row) now) now row (w.buryEnding row)

inductive RetryJobResult
  | requeued
  | superseded
  | notEnded (status : JobStatus)
  | notFound
  deriving DecidableEq

def JobRow.retryable (instanceId : ClientInstanceId) (jobId : JobId) (r : JobRow) : Prop :=
  r.clientInstanceId = instanceId ∧ r.id = jobId ∧ (r.status = .failed ∨ r.status = .dead)
  deriving Decidable

def requeuedRow (now : Time) (r : JobRow) : JobRow :=
  { r with status := .queued, attempts := 0, runAfter := now, startedAt := none, finishedAt := none }

/-- A live job of the kind holds the dedupe key of `r`: the index refuses a second. -/
def superseded (s : Queue) (r : JobRow) : Prop :=
  ∃ key ∈ r.dedupeKey, ∃ x ∈ s.rows, x.liveWithKey r.clientInstanceId r.kind key
  deriving Decidable

def retryJob (s : Queue) (instanceId : ClientInstanceId) (jobId : JobId) (now : Time) :
    RetryJobResult × Queue :=
  match s.rows.find? fun r => r.retryable instanceId jobId with
  | some r =>
    if superseded s r then (.superseded, s)
    else (.requeued, { s with rows := updateWhere (fun x => x.id = r.id) (requeuedRow now) s.rows })
  | none =>
    match s.rows.find? fun r => r.clientInstanceId = instanceId ∧ r.id = jobId with
    | some r => (.notEnded r.status, s)
    | none => (.notFound, s)

end Catalyst.Jobs
