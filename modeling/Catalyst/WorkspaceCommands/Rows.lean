import Mathlib
import Catalyst.WorkspaceCommands.Model

/-!
# The statements of the commands

The rows of the commands with every column that their statements write, and the statements, each of
which finds its row by a condition on the status and the lease of that row. The commands of
`Catalyst.WorkspaceCommands` are these rows without their results, and its statements are these.

A runner is the attempt that drew a lease token. The machine below takes one statement after another:
any runner may send any of its statements at any time, whether or not it still holds the command, and
a lease that runs out is a later reading of the clock.
-/

namespace Catalyst.WorkspaceCommands.Rows

open Library Jobs

structure WorkspaceCommandChangedFile where
  path : String
  byteSize : Nat
  checksum : String
  objectKey : Option String
  mimeType : Option String
  artifactId : Option String
  deriving DecidableEq

structure WorkspaceCommandPromotedArtifact where
  artifactId : String
  path : String
  kind : String
  mimeType : Option String
  deriving DecidableEq

structure Truncated where
  stdout : Bool
  stderr : Bool
  deriving DecidableEq

structure WorkspaceCommandOutput where
  exitCode : Int
  stdoutPreview : String
  stderrPreview : String
  durationMs : Nat
  changedFiles : List WorkspaceCommandChangedFile
  promotedArtifacts : List WorkspaceCommandPromotedArtifact
  truncated : Truncated
  deriving DecidableEq

inductive WorkspaceCommandFailureCategory
  | runnerError | timeout | cancelled | staleLease | workerLost | internalError
  deriving DecidableEq

structure WorkspaceCommandError where
  code : String
  message : String
  category : WorkspaceCommandFailureCategory
  /-- The JSON text. -/
  details : Option String
  deriving DecidableEq

structure WorkspaceCommandRow extends WorkspaceCommand where
  output : Option WorkspaceCommandOutput
  error : Option WorkspaceCommandError
  heartbeatAt : Option Time
  cancellationReason : Option String
  cancellationRequestedAt : Option Time
  queuedAt : Time
  startedAt : Option Time
  completedAt : Option Time
  updatedAt : Time
  deriving DecidableEq

namespace WorkspaceCommandRow

abbrev Claimed (c : WorkspaceCommandRow) : Prop := c.toWorkspaceCommand.Claimed

abbrev Waiting (c : WorkspaceCommandRow) : Prop := c.toWorkspaceCommand.Waiting

abbrev claimable (owner : JobId) (now : Time) (c : WorkspaceCommandRow) : Prop :=
  c.toWorkspaceCommand.claimable owner now

abbrev claimedBy (commandId : String) (token : LeaseToken) (c : WorkspaceCommandRow) : Prop :=
  c.toWorkspaceCommand.claimedBy commandId (some token)

/-- `completed`, `failed` or `cancelled` -/
def Terminal (c : WorkspaceCommandRow) : Prop :=
  c.status = .completed ∨ c.status = .failed ∨ c.status = .cancelled
  deriving Decidable

theorem terminal_iff (c : WorkspaceCommandRow) : c.Terminal ↔ ¬ c.Waiting := by
  unfold Terminal Waiting WorkspaceCommand.Waiting WorkspaceCommand.Claimed
  cases c.status <;> simp

end WorkspaceCommandRow

def leaseLost : AppError := ⟨.conflict, "Workspace command lease is no longer active"⟩

def notAvailable : AppError := ⟨.notFound, "Workspace command is not available"⟩

def alreadyTerminal : AppError := ⟨.conflict, "Workspace command is already terminal"⟩

/-- `enqueueWorkspaceCommand`, with the id it draws -/
def enqueuedRow (commandId workspaceId conversationId : String) (queuedAt : Time) : WorkspaceCommandRow where
  toWorkspaceCommand := queuedCommand commandId workspaceId conversationId
  output := none
  error := none
  heartbeatAt := none
  cancellationReason := none
  cancellationRequestedAt := none
  queuedAt := queuedAt
  startedAt := none
  completedAt := none
  updatedAt := queuedAt

inductive SubjectRowClaim
  | claimed (row : WorkspaceCommandRow)
  | held
  | finished
  deriving DecidableEq

structure ClaimWorkspaceCommandInput where
  commandId : String
  leaseOwnerId : JobId
  leaseToken : LeaseToken
  leaseMs : Nat
  deriving DecidableEq

def ClaimWorkspaceCommandInput.set (input : ClaimWorkspaceCommandInput) (now : Time) (c : WorkspaceCommandRow) :
    WorkspaceCommandRow :=
  { c with
    status := .running
    leaseOwner := some input.leaseOwnerId
    leaseToken := some input.leaseToken
    leaseExpiresAt := some (now + input.leaseMs)
    heartbeatAt := some now
    startedAt := some (c.startedAt.getD now)
    attempts := c.attempts + 1
    error := none
    updatedAt := now }

def claimWorkspaceCommand (rows : List WorkspaceCommandRow) (input : ClaimWorkspaceCommandInput) (now : Time) :
    SubjectRowClaim × List WorkspaceCommandRow :=
  match rows.find? fun c => c.id = input.commandId ∧ c.claimable input.leaseOwnerId now with
  | some c =>
    (.claimed (input.set now c),
      updateWhere (fun x => x.id = input.commandId ∧ x.claimable input.leaseOwnerId now) (input.set now) rows)
  | none =>
    match rows.find? fun c => c.id = input.commandId with
    | some current => (if current.Claimed then .held else .finished, rows)
    | none => (.finished, rows)

/-- An UPDATE of the row that the token holds, returning it: `claimedCommandWhere`. -/
def updateClaimed (rows : List WorkspaceCommandRow) (commandId : String) (leaseToken : LeaseToken)
    (set : WorkspaceCommandRow → WorkspaceCommandRow) : Option WorkspaceCommandRow × List WorkspaceCommandRow :=
  ((rows.find? fun c => c.claimedBy commandId leaseToken).map set,
    updateWhere (fun c => c.claimedBy commandId leaseToken) set rows)

/-- `renewClaimedWorkspaceCommandLease` answers whether it found the row. -/
def renewClaimedWorkspaceCommandLease (rows : List WorkspaceCommandRow) (commandId : String)
    (leaseToken : LeaseToken) (leaseMs : Nat) (now : Time) : Option WorkspaceCommandRow × List WorkspaceCommandRow :=
  updateClaimed rows commandId leaseToken fun c =>
    { c with heartbeatAt := some now, leaseExpiresAt := some (now + leaseMs), updatedAt := now }

inductive Finish
  | complete (output : WorkspaceCommandOutput)
  | fail (error : WorkspaceCommandError) (output : Option WorkspaceCommandOutput)
  | cancel (reason : Option String) (output : Option WorkspaceCommandOutput)
  deriving DecidableEq

def Finish.ending : Finish → Ending
  | complete _ => .completed
  | fail _ _ => .failed
  | cancel _ _ => .cancelled

def Finish.set (at' : Time) (c : WorkspaceCommandRow) : Finish → WorkspaceCommandRow
  | complete output =>
    { c with
      status := .completed, output := some output, error := none, leaseOwner := none, leaseToken := none
      leaseExpiresAt := none, heartbeatAt := none, completedAt := some at', updatedAt := at' }
  | fail error output =>
    { c with
      status := .failed, output := output, error := some error, leaseOwner := none, leaseToken := none
      leaseExpiresAt := none, heartbeatAt := none, completedAt := some at', updatedAt := at' }
  | cancel reason output =>
    { c with
      status := .cancelled, output := output, cancellationReason := reason, leaseOwner := none, leaseToken := none
      leaseExpiresAt := none, heartbeatAt := none, completedAt := some at', updatedAt := at' }

/-- `completeWorkspaceCommand`, `failWorkspaceCommand` and `cancelClaimedWorkspaceCommand` -/
def finishClaimed (rows : List WorkspaceCommandRow) (commandId : String) (leaseToken : LeaseToken)
    (finish : Finish) (at' : Time) : Except AppError WorkspaceCommandRow × List WorkspaceCommandRow :=
  match updateClaimed rows commandId leaseToken (finish.set at') with
  | (some row, rows) => (.ok row, rows)
  | (none, rows) => (.error leaseLost, rows)

def cancellationSet (reason : Option String) (requestedAt : Time) (c : WorkspaceCommandRow) : WorkspaceCommandRow :=
  { c with
    status := if c.status = .queued then .cancelled else .cancelling
    cancellationReason := reason
    cancellationRequestedAt := some requestedAt
    leaseOwner := if c.status = .queued then none else c.leaseOwner
    leaseToken := if c.status = .queued then none else c.leaseToken
    leaseExpiresAt := if c.status = .queued then none else c.leaseExpiresAt
    heartbeatAt := if c.status = .queued then none else c.heartbeatAt
    completedAt := if c.status = .queued then some requestedAt else c.completedAt
    updatedAt := requestedAt }

def requestWorkspaceCommandCancellation (rows : List WorkspaceCommandRow) (commandId : String)
    (reason : Option String) (requestedAt : Time) : Except AppError WorkspaceCommandRow × List WorkspaceCommandRow :=
  match rows.find? fun c => c.id = commandId ∧ c.Waiting with
  | some c =>
    (.ok (cancellationSet reason requestedAt c),
      updateWhere (fun c => c.id = commandId ∧ c.Waiting) (cancellationSet reason requestedAt) rows)
  | none => (.error (if ∃ c ∈ rows, c.id = commandId then alreadyTerminal else notAvailable), rows)

def cleanedUp (deletedAt : Time) (c : WorkspaceCommandRow) : WorkspaceCommandRow :=
  { c with
    status := .cancelled
    cancellationReason := some (c.cancellationReason.getD "Conversation workspace was cleaned up")
    cancellationRequestedAt := some (c.cancellationRequestedAt.getD deletedAt)
    leaseOwner := none, leaseToken := none, leaseExpiresAt := none, heartbeatAt := none
    completedAt := some deletedAt
    updatedAt := deletedAt }

/-- What `markExecutionWorkspaceDeleted` does to the commands of the conversation. -/
def markExecutionWorkspaceDeleted (rows : List WorkspaceCommandRow) (conversationId : String) (deletedAt : Time) :
    List WorkspaceCommandRow :=
  deleteWhere (fun c => c.conversationId = conversationId ∧ c.Terminal ∧ ∀ e ∈ c.completedAt, e < deletedAt)
    (updateWhere (fun c => c.conversationId = conversationId ∧ c.status = .queued) (cleanedUp deletedAt) rows)

structure State where
  rows : List WorkspaceCommandRow
  /-- The ids drawn so far. -/
  drawn : List String
  /-- The tokens under which a row was claimed so far. -/
  claimants : List LeaseToken
  deriving DecidableEq

inductive Statement
  | enqueue (commandId workspaceId conversationId : String) (queuedAt : Time)
  | claim (input : ClaimWorkspaceCommandInput) (now : Time)
  | renew (commandId : String) (leaseToken : LeaseToken) (leaseMs : Nat) (now : Time)
  | requestCancellation (commandId : String) (reason : Option String) (requestedAt : Time)
  | finish (commandId : String) (leaseToken : LeaseToken) (finish : Finish) (at' : Time)
  | markDeleted (conversationId : String) (deletedAt : Time)
  deriving DecidableEq

inductive Answer
  | done
  | claim (claim : SubjectRowClaim)
  | held (held : Bool)
  | row (row : WorkspaceCommandRow)
  | refused (error : AppError)
  deriving DecidableEq

def Answer.ofExcept : Except AppError WorkspaceCommandRow → Answer
  | .ok r => .row r
  | .error e => .refused e

/-- A token is a UUID of its attempt, and an attempt whose claim took the row does not claim again
(`claimSubjectRow` returns). -/
def Enabled (s : State) : Statement → Prop
  | .enqueue commandId _ _ _ => commandId ∉ s.drawn
  | .claim input _ => input.leaseToken ∉ s.claimants
  | _ => True

def step (s : State) : Statement → Answer × State
  | .enqueue commandId workspaceId conversationId queuedAt =>
    let row := enqueuedRow commandId workspaceId conversationId queuedAt
    (.row row, { s with rows := row :: s.rows, drawn := commandId :: s.drawn })
  | .claim input now =>
    match claimWorkspaceCommand s.rows input now with
    | (.claimed row, rows) =>
      (.claim (.claimed row), { s with rows := rows, claimants := input.leaseToken :: s.claimants })
    | (refusal, rows) => (.claim refusal, { s with rows := rows })
  | .renew commandId leaseToken leaseMs now =>
    let (row, rows) := renewClaimedWorkspaceCommandLease s.rows commandId leaseToken leaseMs now
    (.held row.isSome, { s with rows := rows })
  | .requestCancellation commandId reason requestedAt =>
    let (result, rows) := requestWorkspaceCommandCancellation s.rows commandId reason requestedAt
    (.ofExcept result, { s with rows := rows })
  | .finish commandId leaseToken finish at' =>
    let (result, rows) := finishClaimed s.rows commandId leaseToken finish at'
    (.ofExcept result, { s with rows := rows })
  | .markDeleted conversationId deletedAt =>
    (.done, { s with rows := markExecutionWorkspaceDeleted s.rows conversationId deletedAt })

instance : ∀ (s : State) (a : Statement), Decidable (Enabled s a)
  | s, .enqueue commandId _ _ _ => inferInstanceAs (Decidable (commandId ∉ s.drawn))
  | s, .claim input _ => inferInstanceAs (Decidable (input.leaseToken ∉ s.claimants))
  | _, .renew _ _ _ _ | _, .requestCancellation _ _ _ | _, .finish _ _ _ _ | _, .markDeleted _ _ => .isTrue trivial

def machine : Machine State Statement Answer where
  init s := s = ⟨[], [], []⟩
  enabled := Enabled
  step := step

instance : ∀ s a, Decidable (machine.enabled s a) := fun s a => inferInstanceAs (Decidable (Enabled s a))

def SubjectRowClaim.toClaim : SubjectRowClaim → WorkspaceCommands.SubjectRowClaim
  | claimed row => .claimed row.toWorkspaceCommand
  | held => .held
  | finished => .finished

def commandsOf (rows : List WorkspaceCommandRow) : List WorkspaceCommand := rows.map (·.toWorkspaceCommand)

theorem commandsOf_updateWhere {p : WorkspaceCommandRow → Prop} {q : WorkspaceCommand → Prop} [DecidablePred p]
    [DecidablePred q] {f : WorkspaceCommandRow → WorkspaceCommandRow} {g : WorkspaceCommand → WorkspaceCommand}
    (hp : ∀ c ∈ rows, p c ↔ q c.toWorkspaceCommand)
    (hf : ∀ c ∈ rows, p c → (f c).toWorkspaceCommand = g c.toWorkspaceCommand) :
    commandsOf (updateWhere p f rows) = updateWhere q g (commandsOf rows) := by
  simp only [commandsOf, updateWhere, List.map_map]
  refine List.map_congr_left fun c hc => ?_
  by_cases h : p c
  · simp [h, (hp c hc).mp h, hf c hc h]
  · simp [h, mt (hp c hc).mpr h]

theorem renew_commandsOf (rows : List WorkspaceCommandRow) :
    commandsOf (renewClaimedWorkspaceCommandLease rows commandId leaseToken WORKSPACE_COMMAND_LEASE_MS now).2
      = WorkspaceCommands.renewClaimedWorkspaceCommandLease (commandsOf rows) commandId leaseToken now :=
  commandsOf_updateWhere (fun _ _ => Iff.rfl) fun _ _ _ => rfl

theorem requestCancellation_commandsOf (rows : List WorkspaceCommandRow) :
    commandsOf (requestWorkspaceCommandCancellation rows commandId reason requestedAt).2
      = WorkspaceCommands.requestWorkspaceCommandCancellation (commandsOf rows) commandId := by
  have hset : ∀ c ∈ rows, c.id = commandId ∧ c.Waiting →
      (cancellationSet reason requestedAt c).toWorkspaceCommand = cancellationOf c.toWorkspaceCommand := by
    intro c _ _
    by_cases hq : c.status = .queued
    · simp [cancellationSet, cancellationOf, endedCommand, Ending.status, hq]
    · simp [cancellationSet, cancellationOf, hq]
  have h := commandsOf_updateWhere
    (q := fun c : WorkspaceCommand => c.id = commandId ∧ c.Waiting) (fun _ _ => Iff.rfl) hset
  unfold requestWorkspaceCommandCancellation
  split
  · exact h
  · rename_i hnone
    rw [WorkspaceCommands.requestWorkspaceCommandCancellation, ← h, updateWhere_eq_self]
    simpa using hnone

section unique

variable {rows : List WorkspaceCommandRow}

theorem find?_claimed (hids : (rows.map (·.id)).Nodup) {p : WorkspaceCommandRow → Prop} [DecidablePred p]
    (hc : c ∈ rows) : rows.find? (fun x => x.id = c.id ∧ p x) = if p c then some c else none := by
  split
  · rename_i hp
    cases h : rows.find? (fun x => x.id = c.id ∧ p x) with
    | none =>
      have hnot : ¬ p c := by simpa using List.find?_eq_none.mp h c hc
      exact absurd hp hnot
    | some x =>
      have hx : x.id = c.id ∧ p x := by simpa using List.find?_some h
      rw [eq_of_key hids (List.mem_of_find?_eq_some h) hc hx.1]
  · rename_i hp
    rw [List.find?_eq_none]
    intro x hx h
    have h : x.id = c.id ∧ p x := by simpa using h
    exact hp (eq_of_key hids hx hc h.1 ▸ h.2)

theorem find?_commandsOf : (commandsOf rows).find? (fun c => c.id = commandId)
    = (rows.find? fun c => c.id = commandId).map (·.toWorkspaceCommand) := by
  rw [commandsOf, List.find?_map]
  rfl

theorem claim_commandsOf (hids : (rows.map (·.id)).Nodup) (input : ClaimWorkspaceCommandInput) (now : Time) :
    WorkspaceCommands.claimWorkspaceCommand (commandsOf rows) input.commandId input.leaseOwnerId
        input.leaseToken input.leaseMs now
      = ((claimWorkspaceCommand rows input now).1.toClaim, commandsOf (claimWorkspaceCommand rows input now).2) := by
  unfold claimWorkspaceCommand WorkspaceCommands.claimWorkspaceCommand
  rw [find?_commandsOf]
  cases hfind : rows.find? fun c => c.id = input.commandId with
  | none =>
    have hnone : rows.find? (fun c => c.id = input.commandId ∧ c.claimable input.leaseOwnerId now) = none := by
      rw [List.find?_eq_none] at hfind ⊢
      intro c hc h
      have h : c.id = input.commandId ∧ c.claimable input.leaseOwnerId now := by simpa using h
      exact hfind c hc (by simpa using h.1)
    rw [hnone]
    rfl
  | some c =>
    have hc : c ∈ rows := List.mem_of_find?_eq_some hfind
    have hid : c.id = input.commandId := by simpa using List.find?_some hfind
    rw [← hid, find?_claimed hids hc]
    by_cases hclaim : c.claimable input.leaseOwnerId now
    · have hrows : commandsOf (updateWhere (fun x => x.id = c.id ∧ x.claimable input.leaseOwnerId now)
          (input.set now) rows) = updateWhere (fun x => x.id = c.id)
            (claimedCommand input.leaseOwnerId input.leaseToken input.leaseMs now) (commandsOf rows) := by
        refine commandsOf_updateWhere (fun x hx => and_iff_left_of_imp fun hxc => ?_) fun _ _ _ => rfl
        rw [eq_of_key hids hx hc hxc]
        exact hclaim
      simp only [hclaim, if_true, Option.map_some, hrows]
      rfl
    · by_cases hheld : c.Claimed
      · simp [hclaim, hheld, SubjectRowClaim.toClaim]
      · simp [hclaim, hheld, SubjectRowClaim.toClaim]

theorem finish_commandsOf (rows : List WorkspaceCommandRow) (finish : Finish) (at' : Time) :
    endClaimedCommand (commandsOf rows) commandId (some leaseToken) finish.ending
      = (finishClaimed rows commandId leaseToken finish at').1.toOption.map fun _ =>
          commandsOf (finishClaimed rows commandId leaseToken finish at').2 := by
  have hrows : commandsOf (updateWhere (fun c => c.claimedBy commandId leaseToken) (finish.set at') rows)
      = updateWhere (WorkspaceCommand.claimedBy commandId (some leaseToken)) (endedCommand finish.ending) (commandsOf rows) :=
    commandsOf_updateWhere (fun _ _ => Iff.rfl) fun c _ _ => by cases finish <;> rfl
  unfold finishClaimed updateClaimed endClaimedCommand
  cases hfind : rows.find? fun c => c.claimedBy commandId leaseToken with
  | none =>
    have hnone : ¬ ∃ c ∈ commandsOf rows, c.claimedBy commandId (some leaseToken) := by
      simpa [commandsOf] using hfind
    rw [if_neg hnone]
    rfl
  | some c =>
    have hsome : ∃ c ∈ commandsOf rows, c.claimedBy commandId (some leaseToken) :=
      ⟨c.toWorkspaceCommand, List.mem_map_of_mem (List.mem_of_find?_eq_some hfind), by simpa using List.find?_some hfind⟩
    rw [if_pos hsome, ← hrows]
    rfl

end unique

end Catalyst.WorkspaceCommands.Rows
