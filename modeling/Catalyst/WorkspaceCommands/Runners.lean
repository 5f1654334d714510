import Catalyst.WorkspaceCommands.Model

/-!
# Runners

What one attempt does, from the claim of its row to the record of its end, and the machine of all
attempts with the clients, the heartbeats and the ends of leases between their steps. The abort
signal of a lost lease ends the process and no more: the files it left are read and written as
those of a process that ended by itself.
-/

namespace Catalyst.WorkspaceCommands

open Library Jobs
open ExecutionWorkspaces (WorkspaceFile)

inductive Phase
  /-- `claimSubjectRow` -/
  | claiming
  /-- The row is claimed; the files are not read yet. -/
  | hydrating (command : WorkspaceCommand)
  | running (command : WorkspaceCommand) (baseline : List WorkspaceFile)
  /-- In `syncChangedFiles`: what is written, what is left, and whether the bytes of the first of
  these are stored. -/
  | syncing (command : WorkspaceCommand) (written : List FileWrite) (rest : List SyncItem) (stored : Bool)
  /-- The execution is over; its end is to be recorded. -/
  | recording (command : WorkspaceCommand) (written : List FileWrite) (ending : Ending)
  /-- The handler is over, and threw or not. -/
  | ended (threw : Bool)
  deriving DecidableEq

namespace Phase

def written : Phase → List FileWrite
  | syncing _ written _ _ | recording _ written _ => written
  | _ => []

def rest : Phase → List SyncItem
  | syncing _ _ rest _ => rest
  | _ => []

def command? : Phase → Option WorkspaceCommand
  | hydrating c | running c _ | syncing c _ _ _ | recording c _ _ => some c
  | _ => none

def AtWork (p : Phase) : Prop := p.written ≠ [] ∨ p.rest ≠ []
  deriving Decidable

end Phase

structure Runner where
  row : JobRow
  phase : Phase
  deriving DecidableEq

def Runner.lease (r : Runner) : JobLease := r.row.lease

structure State where
  jobs : Jobs.State
  commands : List WorkspaceCommand
  files : List WorkspaceFile
  /-- The keys of the stored objects. -/
  objects : List String
  runners : List Runner
  deriving DecidableEq

inductive Answer
  | done
  /-- The end of a command was recorded; its runner had written this. -/
  | recorded (commandId workspaceId : String) (written : List FileWrite)
  deriving DecidableEq

namespace State

def transact (s : State) (now clock : Time) (a : Jobs.Action) : Jobs.Answer × State :=
  let (answer, jobs) := (executor catalog).step s.jobs ⟨now, clock, a⟩
  (answer, { s with jobs := jobs })

def advance (s : State) (r : Runner) (phase : Phase) : State :=
  { s with runners := updateWhere (fun x => x.lease = r.lease) ({ · with phase := phase }) s.runners }

def leave (s : State) (r : Runner) : State :=
  { s with runners := deleteWhere (fun x => x.lease = r.lease) s.runners }

def Holds (s : State) (r : Runner) (clock : Time) : Prop := ∃ x ∈ s.jobs.queue.rows, x.heldBy r.lease clock
  deriving Decidable

end State

def State.at (s : State) (clock : Time) : State := { s with jobs := { s.jobs with clock := clock } }

inductive RunnerAct
  | claimRow (checkedAt : Time)
  | hydrate
  /-- The process is over, ended by itself or by a signal, and its directory is read. -/
  | endProcess (scanned : List ScannedFile)
  /-- `putWorkspaceFile` -/
  | store
  /-- The row of the file whose bytes are stored, or that is removed. -/
  | write
  /-- The execution returns, after the sync or at a failure on the way. -/
  | finish (ending : Ending)
  | record (checkedAt : Time)
  /-- Waiting for the row or the report that the command runs throws. -/
  | throw
  deriving DecidableEq

def State.claimRow (s : State) (now clock : Time) (r : Runner) (checkedAt : Time) : State :=
  match s.transact now clock (.transaction runWorkspaceCommandJob r.row checkedAt) with
  | (.held true, s) =>
    match claimWorkspaceCommand s.commands (commandIdOf r.row) r.row.id r.lease.token
        WORKSPACE_COMMAND_LEASE_MS now with
    | (.claimed c, commands) =>
      -- a command that ran before is failed and not run again
      { s with commands := commands }.advance r
        (if 1 < c.attempts then .recording c [] .failed else .hydrating c)
    | (.held, _) => s
    | (.finished, _) => s.advance r (.ended false)
  | (_, s) => s.advance r (.ended true)

def State.record (s : State) (now clock : Time) (r : Runner) (c : WorkspaceCommand) (written : List FileWrite)
    (ending : Ending) (checkedAt : Time) : Answer × State :=
  match s.transact now clock (.transaction runWorkspaceCommandJob r.row checkedAt) with
  | (.held true, held) =>
    match endClaimedCommand s.commands c.id c.leaseToken ending with
    | some commands =>
      (.recorded c.id c.workspaceId written, { held with commands := commands }.advance r (.ended false))
    -- the row's CONFLICT rolls the transaction back
    | none => (.done, (s.at clock).advance r (.ended (¬ isEnded s.commands c.id)))
  | (_, lost) => (.done, lost.advance r (.ended true))

/-- A step that asks no job. -/
def work (keyOf : ObjectKeyFactory) (s : State) (now : Time) (r : Runner) : RunnerAct → State
  | .hydrate =>
    match r.phase with
    | .hydrating c => s.advance r (.running c (listWorkspaceFiles s.files c.workspaceId))
    | _ => s
  | .endProcess scanned =>
    match r.phase with
    | .running c baseline => s.advance r (.syncing c [] (syncItems baseline scanned) false)
    | _ => s
  | .store =>
    match r.phase with
    | .syncing c written (.put file metadata :: rest) false =>
      { s with objects := keyOf c file :: s.objects }.advance r
        (.syncing c written (.put file metadata :: rest) true)
    | _ => s
  | .write =>
    match r.phase with
    | .syncing c written (item :: rest) _ =>
      let write := item.write keyOf c now
      { s with files := write.apply s.files }.advance r (.syncing c (written ++ [write]) rest false)
    | _ => s
  | .finish ending =>
    match r.phase.command? with
    | some c => s.advance r (.recording c r.phase.written ending)
    | none => s
  | .throw => s.advance r (.ended true)
  | .claimRow _ | .record _ => s

/-- Which steps the attempt can take where it stands. A failure on the way records a failed end. -/
def RunnerAct.At (since clock : Time) : RunnerAct → Phase → Prop
  | .claimRow checkedAt, .claiming => since ≤ checkedAt ∧ checkedAt ≤ clock
  | .hydrate, .hydrating _ => True
  | .endProcess _, .running _ _ => True
  | .store, .syncing _ _ (.put _ _ :: _) stored => stored = false
  | .write, .syncing _ _ (.put _ _ :: _) stored => stored = true
  | .write, .syncing _ _ (.remove _ :: _) _ => True
  | .finish _, .syncing _ _ [] _ => True
  | .finish ending, .hydrating _ | .finish ending, .running _ _ | .finish ending, .syncing _ _ _ _ => ending = .failed
  | .record checkedAt, .recording _ _ _ => since ≤ checkedAt ∧ checkedAt ≤ clock
  | .throw, .claiming | .throw, .hydrating _ => True
  | _, _ => False

instance : Decidable (RunnerAct.At since clock act phase) := by
  unfold RunnerAct.At
  split <;> infer_instance

inductive Action
  | enqueue (commandId workspaceId conversationId : String)
  /-- A command that waits and has no job is given one. -/
  | adopt (command : WorkspaceCommand)
  | requestCancellation (commandId : String)
  | claim (workerId : WorkerId) (limit : Nat) (locked : List JobId)
  | heartbeat (runner : Runner)
  | act (runner : Runner) (act : RunnerAct)
  /-- The worker ends the attempt whose handler is over; `stopping` gives a thrown one back. -/
  | settle (workerId : WorkerId) (runner : Runner) (code message : String) (stopping hookFails : Bool)
  /-- A stopping worker gives back what has not returned in time. -/
  | release (workerId : WorkerId) (runner : Runner)
  /-- The process of the runner dies. -/
  | kill (runner : Runner)
  | bury (workerId : WorkerId) (jobId : JobId) (hookFails : Bool)
  deriving DecidableEq

structure Step where
  now : Time
  clock : Time
  action : Action
  deriving DecidableEq

def attemptOf (threw stopping : Bool) (code message : String) : Attempt :=
  if threw then if stopping then .stopped else .threw true code message else .returned

def workerOf (instanceId : ClientInstanceId) (workerId : WorkerId) : Worker := ⟨workerId, instanceId, []⟩

def State.enqueueJob (s : State) (instanceId : ClientInstanceId) (now clock : Time)
    (commandId workspaceId : String) : State :=
  (s.transact now clock (.enqueue runWorkspaceCommandJob (commandPayload commandId)
    (workspaceCommandJobOptions instanceId commandId workspaceId))).2

/-- `onExhausted` runs in the transaction that marks the job dead. -/
def State.settle (s : State) (w : Worker) (now clock : Time) (r : Runner) (attempt : Attempt) (hookFails : Bool) :
    State :=
  match s.transact now clock (.settle w runWorkspaceCommandJob r.row attempt hookFails) with
  | (.held true, settled) =>
    if (w.outcomeOf runWorkspaceCommandJob r.row attempt).exhausted ∧ hookFails = false then
      { settled with commands := failAfterWorkerLoss s.commands r.row s.jobs.queue.fresh now }
    else settled
  | (_, lost) => lost

def State.bury (s : State) (w : Worker) (now clock : Time) (jobId : JobId) (hookFails : Bool) : State :=
  let buried := (s.transact now clock (.bury w jobId hookFails)).2
  match lockExhaustedJob s.jobs.queue jobId now with
  | some row =>
    if hookFails then buried
    else { buried with commands := failAfterWorkerLoss s.commands row s.jobs.queue.fresh now }
  | none => buried

def State.heartbeat (s : State) (now clock : Time) (r : Runner) : State :=
  match s.transact now clock (.heartbeat runWorkspaceCommandJob r.row) with
  | (.held true, beaten) =>
    { beaten with
      commands := renewClaimedWorkspaceCommandLease s.commands (commandIdOf r.row) r.lease.token now }
  | (_, s) => s

def State.claim (s : State) (w : Worker) (now clock : Time) (limit : Nat) (locked : List JobId) : State :=
  let (answer, claimed) := s.transact now clock (.claim w runWorkspaceCommandJob limit locked)
  { claimed with runners := s.runners ++ answer.rows.map (⟨·, .claiming⟩) }

def Enabled (s : State) (st : Step) : Prop :=
  match st.action with
  | .enqueue commandId _ _ => ∀ c ∈ s.commands, c.id ≠ commandId
  | .adopt c => c ∈ s.commands ∧ c.Waiting
  | .requestCancellation _ | .claim .. | .bury .. => True
  | .heartbeat r | .kill r | .release _ r => r ∈ s.runners
  | .act r act => r ∈ s.runners ∧ act.At s.jobs.clock st.clock r.phase
  | .settle _ r _ _ _ _ => r ∈ s.runners ∧ ∃ threw, r.phase = .ended threw

def threw : Phase → Bool
  | .ended threw => threw
  | _ => false

def perform (instanceId : ClientInstanceId) (keyOf : ObjectKeyFactory) (s : State) (st : Step) : Answer × State :=
  match st.action with
  | .enqueue commandId workspaceId conversationId =>
    (.done, { s with commands := s.commands ++ [queuedCommand commandId workspaceId conversationId] }.enqueueJob
      instanceId st.now st.clock commandId workspaceId)
  | .adopt c => (.done, s.enqueueJob instanceId st.now st.clock c.id c.workspaceId)
  | .requestCancellation commandId =>
    (.done, { s.at st.clock with commands := requestWorkspaceCommandCancellation s.commands commandId })
  | .claim workerId limit locked =>
    (.done, s.claim (workerOf instanceId workerId) st.now st.clock limit locked)
  | .heartbeat r => (.done, s.heartbeat st.now st.clock r)
  | .act r (.claimRow checkedAt) => (.done, s.claimRow st.now st.clock r checkedAt)
  | .act r (.record checkedAt) =>
    match r.phase with
    | .recording c written ending => s.record st.now st.clock r c written ending checkedAt
    | _ => (.done, s)
  | .act r act => (.done, work keyOf (s.at st.clock) st.now r act)
  | .settle workerId r code message stopping hookFails =>
    (.done, (s.settle (workerOf instanceId workerId) st.now st.clock r
      (attemptOf (threw r.phase) stopping code message) hookFails).leave r)
  | .release workerId r => (.done, s.settle (workerOf instanceId workerId) st.now st.clock r .stopped false)
  | .kill r => (.done, (s.at st.clock).leave r)
  | .bury workerId jobId hookFails =>
    (.done, s.bury (workerOf instanceId workerId) st.now st.clock jobId hookFails)

def workspaceCommands (instanceId : ClientInstanceId) (keyOf : ObjectKeyFactory) : Machine State Step Answer where
  init s := s.jobs.queue.rows = [] ∧ s.jobs.handed = [] ∧ s.commands = [] ∧ s.runners = []
  enabled s st := s.jobs.clock ≤ st.clock ∧ st.now ≤ st.clock ∧ Enabled s st
  step := perform instanceId keyOf

end Catalyst.WorkspaceCommands
