import Catalyst.Jobs.Executor

/-!
# Deletions of users and workspaces

A request marks its subject and enqueues a job in one transaction, then makes one try itself; the
job's attempts go on until the subject's row is gone. A try is a pass: it reads the subject, removes
what hangs on it over many transactions, any of which may fail, and removes the row at the end.

The job executor is the one of `Catalyst.Jobs`, here with the column `subject` of its table and the
statements that remove rows. What a pass removes before the row is no part of the state.
-/

namespace Catalyst.Deletions

open Library Jobs

inductive SubjectKind
  | user | workspace
  deriving DecidableEq

@[ext]
structure SubjectRef where
  clientInstanceId : ClientInstanceId
  kind : SubjectKind
  id : String
  deriving DecidableEq

/-- A row of `product_users` or `collaboration_workspaces`. -/
structure SubjectRow where
  ref : SubjectRef
  /-- Of a workspace: it is the Personal Workspace of a user. -/
  personal : Bool
  deletionRequested : Bool
  deriving DecidableEq

/-- Fifty attempts, the first wait one minute and the longest six hours. -/
def deletionKind (name : String) : JobKind where
  kind := name
  maxAttempts := 50
  backoff := ⟨60000, 21600000⟩
  leaseMs := 600000
  heartbeatMs := none
  concurrency := ⟨some 4, some 1⟩
  maxAttempts_pos := by decide
  leaseMs_pos := by decide
  globally_pos := by decide
  perKey_pos := by decide
  heartbeat_lt := by decide
  backoff_le := by decide

def deleteAccountJob : JobKind := deletionKind "account.delete"

def deleteWorkspaceJob : JobKind := deletionKind "workspace.delete"

def SubjectKind.job : SubjectKind → JobKind
  | .user => deleteAccountJob
  | .workspace => deleteWorkspaceJob

def Deletes (catalog : Catalog) : Prop := ∀ k : SubjectKind, k.job ∈ catalog.kinds

inductive AccountDeletionRequester
  | self | admin
  deriving DecidableEq

def AccountDeletionRequester.text : AccountDeletionRequester → String
  | self => "self"
  | admin => "admin"

inductive Deletion
  | account (userId : String) (requestedBy : AccountDeletionRequester) (actorUserId : String)
  | workspace (collaborationWorkspaceId actorUserId : String)
  deriving DecidableEq

def Deletion.kind : Deletion → SubjectKind
  | account .. => .user
  | workspace .. => .workspace

def Deletion.subjectId : Deletion → String
  | account userId .. => userId
  | workspace collaborationWorkspaceId _ => collaborationWorkspaceId

def Deletion.payload : Deletion → Payload
  | account userId requestedBy actorUserId =>
    [("userId", userId), ("requestedBy", requestedBy.text), ("actorUserId", actorUserId)]
  | workspace collaborationWorkspaceId actorUserId =>
    [("collaborationWorkspaceId", collaborationWorkspaceId), ("actorUserId", actorUserId)]

/-- `z.string().min(1)` of a field. -/
def textOf (payload : Payload) (field : String) : Option String :=
  ((payload.find? fun f => f.1 = field).map (·.2)).filter (· ≠ "")

/-- The payload schemas: the id of the subject where the payload fits. -/
def subjectIdOf : SubjectKind → Payload → Option String
  | .user, payload => do
    let userId ← textOf payload "userId"
    let requestedBy ← textOf payload "requestedBy"
    let _ ← textOf payload "actorUserId"
    if requestedBy = "self" ∨ requestedBy = "admin" then some userId else none
  | .workspace, payload => do
    let collaborationWorkspaceId ← textOf payload "collaborationWorkspaceId"
    let _ ← textOf payload "actorUserId"
    some collaborationWorkspaceId

def deletionDedupeKey (kind : SubjectKind) (subjectId : String) : String :=
  subjectDedupeKey kind.job.kind subjectId

structure Request where
  clientInstanceId : ClientInstanceId
  deletion : Deletion
  deriving DecidableEq

def Request.ref (r : Request) : SubjectRef := ⟨r.clientInstanceId, r.deletion.kind, r.deletion.subjectId⟩

inductive Phase
  | reading
  /-- The subject was found marked; the rest of the pass, up to its last transaction. -/
  | cleaning
  | ended (attempt : Attempt)
  deriving DecidableEq

structure Pass where
  attempt : Option (Worker × JobRow)
  ref : SubjectRef
  phase : Phase
  deriving DecidableEq

structure State where
  exec : Jobs.State
  /-- The column `subject` of the jobs. -/
  subjectOf : JobId → Option String
  subjects : List SubjectRow
  /-- Every id a subject was created under: none is drawn twice. -/
  used : List SubjectRef
  /-- Requests that found their subject marked and have not enqueued yet. -/
  pending : List Request
  passes : List Pass

/-- After a transaction on the queue that read `clock`. -/
def State.withQueue (s : State) (q : Queue) (clock : Time) : State :=
  { s with exec := { s.exec with queue := q, clock := clock } }

def State.at (s : State) (clock : Time) : State := s.withQueue s.exec.queue clock

def State.advance (s : State) (p p' : Pass) : State := { s with passes := p' :: s.passes.erase p }

def subjectMissing : SubjectKind → AppError
  | .user => ⟨.notFound, "User is not available"⟩
  | .workspace => ⟨.notFound, "Collaboration Workspace is not available"⟩

def mark (subjects : List SubjectRow) (ref : SubjectRef) : List SubjectRow :=
  updateWhere (·.ref = ref) (fun r => { r with deletionRequested := true }) subjects

/-- `markUserDeletionRequested` and `markWorkspaceDeletionRequested`: whether the mark is new. -/
def markDeletionRequested (subjects : List SubjectRow) (ref : SubjectRef) :
    Except AppError (Bool × List SubjectRow) :=
  match subjects.find? (·.ref = ref) with
  | none => .error (subjectMissing ref.kind)
  | some row =>
    if ref.kind = .workspace ∧ row.personal then
      .error ⟨.validationFailed, "A Personal Workspace cannot be deleted"⟩
    else if row.deletionRequested then .ok (false, subjects)
    else .ok (true, mark subjects ref)

def State.enqueue (s : State) (now clock : Time) (kind : JobKind) (payload : Payload)
    (options : EnqueueJobOptions) (subject : Option String) : State :=
  let (_, q) := transact s.exec.queue now clock (.enqueue kind payload options)
  { s.withQueue q clock with
    subjectOf := fun j => if j = s.exec.queue.fresh then subject else s.subjectOf j }

def State.enqueueDeletion (s : State) (now clock : Time) (r : Request) (runAfter : Option Time) : State :=
  s.enqueue now clock r.deletion.kind.job r.deletion.payload
    ⟨r.clientInstanceId, runAfter, some (deletionDedupeKey r.deletion.kind r.deletion.subjectId),
      some r.deletion.subjectId, 0⟩ (some r.deletion.subjectId)

def Request.fits (r : Request) : Bool := (subjectIdOf r.deletion.kind r.deletion.payload).isSome

inductive Answer
  | done
  | accepted
  /-- The subject was marked before. -/
  | repeated
  | refused (error : AppError)
  | executor (answer : Jobs.Answer)
  deriving DecidableEq

def payloadUnfit : AppError := ⟨.validationFailed, "The payload does not fit the job kind"⟩

/-- `acceptDeletion`: the mark and, where it is new, the job and the request's own try. -/
def State.accept (s : State) (now clock : Time) (r : Request) : Answer × State :=
  match markDeletionRequested s.subjects r.ref with
  | .error e => (.refused e, s.at clock)
  | .ok (false, _) => (.repeated, { s.at clock with pending := r :: s.pending })
  | .ok (true, subjects) =>
    if r.fits then
      let s := { s with subjects := subjects, passes := ⟨none, r.ref, .reading⟩ :: s.passes }
      (.accepted, s.enqueueDeletion now clock r (some (clock + 60000)))
    else (.refused payloadUnfit, s.at clock)

def State.enqueueAgain (s : State) (now clock : Time) (r : Request) : Answer × State :=
  let s := { s with pending := s.pending.erase r }
  if r.fits then (.repeated, s.enqueueDeletion now clock r none)
  else (.refused payloadUnfit, s.at clock)

def unfitPayload : Attempt := .threw false "CONFLICT" "The stored payload does not fit the job kind"

def notRequested : Attempt := .threw false "CONFLICT" "The deletion of this user was not requested"

def leaseLost (jobId : JobId) : Attempt := .threw true "CONFLICT" s!"Job {jobId} is no longer leased to this attempt"

def subjectGone (kind : SubjectKind) : Attempt := .threw true "NOT_FOUND" (subjectMissing kind).message

def beginPass (w : Worker) (row : JobRow) (kind : SubjectKind) : Pass :=
  match subjectIdOf kind row.payload with
  | some id => ⟨some (w, row), ⟨row.clientInstanceId, kind, id⟩, .reading⟩
  | none => ⟨some (w, row), ⟨row.clientInstanceId, kind, ""⟩, .ended unfitPayload⟩

/-- The first read of `completeAccountDeletion` or `completeWorkspaceDeletion`. -/
def readSubject (subjects : List SubjectRow) (ref : SubjectRef) : Phase :=
  match subjects.find? (·.ref = ref), ref.kind with
  | none, _ => .ended .returned
  | some row, .user => if row.deletionRequested then .cleaning else .ended notRequested
  | some row, .workspace => if row.deletionRequested then .cleaning else .ended .returned

/-- `jobs.withdraw`: the queued job of the subject goes with it. -/
def withdraw (q : Queue) (ref : SubjectRef) : Queue :=
  { q with
    rows := deleteWhere (fun r => r.ofKind ref.clientInstanceId ref.kind.job.kind ∧
      r.dedupeKey = some (deletionDedupeKey ref.kind ref.id) ∧ r.status = .queued) q.rows }

/-- The transaction around the last step: the lease of an attempt is checked and renewed. -/
def Pass.fenced (p : Pass) (q : Queue) (checkedAt clock : Time) : Except Attempt Queue :=
  match p.attempt with
  | none => .ok q
  | some (_, row) =>
    match leasedTransaction q row.lease p.ref.kind.job.leaseMs checkedAt clock with
    | (true, q) => .ok q
    | (false, _) => .error (leaseLost row.id)

/-- The last transaction of a pass. A row that is gone already rolls it back. -/
def State.finish (s : State) (p : Pass) (checkedAt clock : Time) : State :=
  match p.fenced s.exec.queue checkedAt clock with
  | .error lost => (s.at clock).advance p { p with phase := .ended lost }
  | .ok q =>
    if ∃ row ∈ s.subjects, row.ref = p.ref then
      { (s.withQueue (withdraw q p.ref) clock).advance p { p with phase := .ended .returned } with
        subjects := deleteWhere (·.ref = p.ref) s.subjects }
    else (s.at clock).advance p { p with phase := .ended (subjectGone p.ref.kind) }

def settled (stopping : Bool) : Attempt → Attempt
  | .threw retryable code message => if stopping then .stopped else .threw retryable code message
  | attempt => attempt

def deadJobOfSubjectInDeletion (s : State) (r : JobRow) : Prop :=
  r.status = .dead ∧ ∃ row ∈ s.subjects, row.ref.clientInstanceId = r.clientInstanceId ∧
    s.subjectOf r.id = some row.ref.id ∧ row.deletionRequested = true

instance (s : State) (r : JobRow) : Decidable (deadJobOfSubjectInDeletion s r) :=
  inferInstanceAs (Decidable (r.status = .dead ∧ ∃ row ∈ s.subjects,
    row.ref.clientInstanceId = r.clientInstanceId ∧ s.subjectOf r.id = some row.ref.id ∧
    row.deletionRequested = true))

inductive Pruned
  | completed | failed
  deriving DecidableEq

def Pruned.statuses : Pruned → List JobStatus
  | completed => [.succeeded, .cancelled]
  | failed => [.failed, .dead]

def Pruned.retentionMs : Pruned → Nat
  | completed => 604800000
  | failed => 2592000000

/-- One statement of `pruneEndedJobs`. -/
def State.prune (s : State) (now clock : Time) (instanceId : ClientInstanceId) (which : Pruned) : State :=
  s.withQueue
    { s.exec.queue with
      rows := deleteWhere (fun r => r.clientInstanceId = instanceId ∧ r.status ∈ which.statuses ∧
        (∃ e ∈ r.finishedAt, e + which.retentionMs < now) ∧ ¬ deadJobOfSubjectInDeletion s r)
        s.exec.queue.rows } clock

inductive Action
  /-- A transaction of the executor other than an enqueue and the end of an attempt at a deletion. -/
  | executor (action : Jobs.Action)
  /-- The enqueue of a job of another kind. -/
  | enqueue (kind : JobKind) (payload : Payload) (options : EnqueueJobOptions) (subject : Option String)
  | create (row : SubjectRow)
  | accept (request : Request)
  | enqueueAgain (request : Request)
  | start (worker : Worker) (row : JobRow) (kind : SubjectKind)
  | read (pass : Pass)
  /-- Anything between the first read and the last transaction fails. -/
  | fail (pass : Pass) (code message : String)
  | finish (pass : Pass) (checkedAt : Time)
  | settle (pass : Pass) (worker : Worker) (row : JobRow) (attempt : Attempt) (stopping hookFails : Bool)
  | prune (instanceId : ClientInstanceId) (which : Pruned)
  deriving DecidableEq

structure Step where
  now : Time
  clock : Time
  action : Action
  deriving DecidableEq

def Other (name : String) : Prop := ∀ k : SubjectKind, name ≠ k.job.kind

def Serves (catalog : Catalog) (w : Worker) : Prop := ∀ schedule ∈ w.schedules, schedule.kind ∈ catalog.kinds

/-- The transactions of the executor that are no part of a deletion's own code. -/
def Free (catalog : Catalog) : Jobs.Action → Prop
  | .enqueue .. => False
  | .ensureTick _ schedule => schedule.kind ∈ catalog.kinds
  | .settle w kind .. => Serves catalog w ∧ Other kind.kind
  | .bury w .. => Serves catalog w
  | _ => True

def Enabled (catalog : Catalog) (s : State) (st : Step) : Prop :=
  match st.action with
  | .executor a => Free catalog a ∧ Allowed catalog s.exec.handed s.exec.clock st.clock a
  | .enqueue kind _ _ _ => kind ∈ catalog.kinds ∧ Other kind.kind
  | .create row => row.ref ∉ s.used ∧ row.deletionRequested = false
  | .accept _ => True
  | .enqueueAgain r => r ∈ s.pending
  | .start w row kind => Serves catalog w ∧ row ∈ s.exec.handed ∧ row.kind = kind.job.kind
  | .read p => p ∈ s.passes ∧ p.phase = .reading
  | .fail p _ _ => p ∈ s.passes ∧ (p.phase = .reading ∨ p.phase = .cleaning)
  | .finish p checkedAt =>
    p ∈ s.passes ∧ p.phase = .cleaning ∧ s.exec.clock ≤ checkedAt ∧ checkedAt ≤ st.clock
  | .settle p w row attempt _ _ =>
    p ∈ s.passes ∧ p.attempt = some (w, row) ∧ p.phase = .ended attempt
  | .prune _ _ => True

def perform (s : State) (st : Step) : Answer × State :=
  match st.action with
  | .executor a =>
    let (answer, q) := transact s.exec.queue st.now st.clock a
    (.executor answer, { s with exec := ⟨q, st.clock, s.exec.handed ++ answer.rows⟩ })
  | .enqueue kind payload options subject =>
    (.done, s.enqueue st.now st.clock kind payload options subject)
  | .create row =>
    (.done, { s.at st.clock with subjects := row :: s.subjects, used := row.ref :: s.used })
  | .accept r => s.accept st.now st.clock r
  | .enqueueAgain r => s.enqueueAgain st.now st.clock r
  | .start w row kind => (.done, { s.at st.clock with passes := beginPass w row kind :: s.passes })
  | .read p => (.done, (s.at st.clock).advance p { p with phase := readSubject s.subjects p.ref })
  | .fail p code message =>
    (.done, (s.at st.clock).advance p { p with phase := .ended (.threw true code message) })
  | .finish p checkedAt => (.done, s.finish p checkedAt st.clock)
  | .settle p w row attempt stopping hookFails =>
    let (answer, q) := transact s.exec.queue st.now st.clock
      (.settle w p.ref.kind.job row (settled stopping attempt) hookFails)
    (.executor answer, { s.withQueue q st.clock with passes := s.passes.erase p })
  | .prune instanceId which => (.done, s.prune st.now st.clock instanceId which)

def deletions (catalog : Catalog) : Machine State Step Answer where
  init s := s.exec.queue.rows = [] ∧ s.exec.handed = [] ∧ s.subjects = [] ∧ s.pending = [] ∧ s.passes = []
  enabled s st := s.exec.clock ≤ st.clock ∧ st.now ≤ st.clock ∧ Enabled catalog s st
  step := perform

end Catalyst.Deletions
