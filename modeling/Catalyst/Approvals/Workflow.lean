import Catalyst.Approvals.Model

/-!
# The approval workflow

Who decides, withdraws or reverts goes statement by statement. From the statement that locks a
request's row to the one that writes it no other call has that lock; the asset store's own
writers, and the calls on other requests, go in between.

A call runs on a node with its own deployment. The `skill_change` handler is registered where
the deployment's policy is enabled, and only there.
-/

namespace Catalyst.Approvals

open Library Library.Check Assets

structure User where
  id : String
  /-- What `authorize` answers for `agent_skills.approve`. -/
  mayApprove : Bool
  deriving DecidableEq

inductive Verdict
  | approve | reject | requestChanges
  deriving DecidableEq

inductive Command
  | decide (verdict : Verdict) (comment : Option String)
  | withdraw
  | revert
  deriving DecidableEq

structure Call where
  user : User
  requestId : ApprovalRequestId
  command : Command
  /-- The deployment of the node that runs the call. -/
  policy : AgentSkillChangesPolicy
  /-- Which of the two reads that go at once comes first. -/
  stateFirst : Bool
  deriving DecidableEq

/-- What a call may throw; `other` is no `AppError`. -/
inductive Thrown
  | app (error : AppError)
  | other
  deriving DecidableEq

def notVisible : AppError := ⟨.notFound, "Approval request was not found"⟩

def missingRight : AppError := ⟨.forbidden, "Missing the right 'agent_skills.approve'"⟩

def alreadyApplied : AppError :=
  ⟨.conflict, "This request's change is already applied; approve it to record the outcome"⟩

namespace Call

variable (c : Call)

def visibleRequest (db : Db J) : Except AppError ApprovalRequest := do
  let request ← need (getApprovalRequest db c.requestId) notVisible
  require (request.requestedBy = c.user.id ∨ (c.policy.enabled ∧ c.user.mayApprove)) notVisible
  return request

def requireHandler : Except AppError Unit := do
  require c.policy.enabled ⟨.notFound, "Approval request kind was not found"⟩
  require c.user.mayApprove missingRight

/-- `comment?.trim()`, where an empty one counts as none. -/
def trimmed (comment : Option String) : Option String :=
  (comment.map fun text => String.ofList (Js.trim text.toList)).filter (· ≠ "")

def opened (db : Db J) : Except AppError Unit := do
  let request ← c.visibleRequest db
  match c.command with
  | .decide verdict comment =>
    c.requireHandler
    require (verdict ≠ .requestChanges ∨ trimmed comment ≠ none)
      ⟨.validationFailed, "Requesting changes requires a comment"⟩
  | .withdraw =>
    require (request.requestedBy = c.user.id) ⟨.forbidden, "Only the requester can withdraw an approval request"⟩
  | .revert => c.requireHandler

def expectedStatus : ApprovalRequestStatus :=
  match c.command with
  | .revert => .approved
  | _ => .pending

def expectedText : ApprovalRequestStatus → String
  | .approved => "approved"
  | _ => "pending"

def decision (approved : Bool) (comment : Option String) : ApprovalDecision :=
  { approved, decidedBy := c.user.id, comment := trimmed comment }

def comment : Option String :=
  match c.command with
  | .decide _ comment => comment
  | _ => none

def rejected (status : ApprovalRequestStatus) : Outcome := ⟨status, some (c.decision false c.comment), none⟩

def superseded : Outcome := ⟨.superseded, some (c.decision true c.comment), none⟩

def approval (result : ApplyResult) : Outcome := ⟨.approved, some (c.decision true c.comment), some result⟩

def reversion (request : ApprovalRequest) : Outcome :=
  ⟨.reverted, request.decision.map ({ · with revertedBy := some c.user.id }), request.applyResult⟩

end Call

inductive Change
  | apply | revert
  deriving DecidableEq

/-- Inside `apply` or `revert` of the handler. -/
inductive ChangePhase (J : Type)
  | version
  | snapshot (version : Nat)
  | history (version : Nat) (snapshot : RuntimeAssetSnapshot J)
  /-- The two reads of the shared writer, then its validation, then the store's transaction. -/
  | reading (input : MutationInput J)
  | stateRead (input : MutationInput J) (defaultAgentName : Option String)
  | assetsRead (input : MutationInput J) (assets : List (ConfigAssetRecord J))
  | writing (input : MutationInput J)
  | readingBack

/-- After the row is locked every phase keeps the row as it was read. -/
inductive Phase (J : Type)
  | opening
  | locking
  /-- `assertNotApplied`, with the outcome if it lets the call go on. -/
  | checking (request : ApprovalRequest) (outcome : Outcome)
  | recovering (request : ApprovalRequest)
  | comparing (request : ApprovalRequest)
  | changing (request : ApprovalRequest) (change : Change) (phase : ChangePhase J)
  | committing (request : ApprovalRequest) (outcome : Outcome)

structure Going (J : Type) where
  call : Call
  phase : Phase J

structure Answered where
  call : Call
  answer : Except Thrown ApprovalRequest
  deriving DecidableEq

abbrev StepResult (J : Type) := Option Answered × Option (Going J) × Db J

namespace Going

variable (changes : SkillChanges J) (g : Going J) (db : Db J)

def answers (answer : Except Thrown ApprovalRequest) : StepResult J := (some ⟨g.call, answer⟩, none, db)

def throws (error : AppError) : StepResult J := g.answers db (.error (.app error))

def goesTo (phase : Phase J) : StepResult J := (none, some ⟨g.call, phase⟩, db)

def opens : StepResult J :=
  match g.call.opened db with
  | .error e => g.throws db e
  | .ok _ => g.goesTo db .locking

/-- Where `resolve` starts. -/
def resolving (request : ApprovalRequest) : Phase J :=
  match g.call.command with
  | .decide .approve _ => .recovering request
  | .decide .reject _ => .checking request (g.call.rejected .rejected)
  | .decide .requestChanges _ => .checking request (g.call.rejected .changesRequested)
  | .withdraw => .checking request (g.call.rejected .withdrawn)
  | .revert => .changing request .revert .version

def locks : StepResult J :=
  match getApprovalRequest db g.call.requestId with
  | none => g.throws db notVisible
  | some row =>
    if row.status ≠ g.call.expectedStatus then
      g.throws db ⟨.conflict, s!"Approval request is no longer {Call.expectedText g.call.expectedStatus}"⟩
    else g.goesTo db (g.resolving row)

def checks (request : ApprovalRequest) (outcome : Outcome) : StepResult J :=
  if g.call.policy.enabled ∧ (findProducedRevision db request.payload.skillName request.id).isSome then
    g.throws db alreadyApplied
  else g.goesTo db (.committing request outcome)

def recovers (request : ApprovalRequest) : StepResult J :=
  match changes.validatePayload request.payload with
  | .error e => g.throws db e
  | .ok _ =>
    match findProducedRevision db request.payload.skillName request.id with
    | some _ => g.goesTo db (.changing request .apply .version)
    | none => g.goesTo db (.comparing request)

def compares (request : ApprovalRequest) : StepResult J :=
  match changes.getSnapshot db with
  | none => g.answers db (.error .other)
  | some snapshot =>
    match changes.isStale request.payload snapshot with
    | .error e => g.throws db e
    | .ok true => g.goesTo db (.committing request g.call.superseded)
    | .ok false => g.goesTo db (.changing request .apply .version)

def batch (version : Nat) (mutations : List (ConfigAssetMutation J)) : MutationInput J :=
  { baseVersion := some version, mutations }

/-- `apply` looks for what it has stored before; `revert` reads the whole history. -/
def plans (request : ApprovalRequest) (version : Nat) (snapshot : RuntimeAssetSnapshot J) : Change → StepResult J
  | .apply =>
    match findProducedRevision db request.payload.skillName request.id with
    | some revision =>
      g.goesTo db (.committing request (g.call.approval (revisionResult request.payload.skillName revision)))
    | none =>
      match changes.applyMutations g.call.policy request.payload snapshot with
      | .error e => g.throws db e
      | .ok mutations => g.goesTo db (.changing request .apply (.reading (batch version mutations)))
  | .revert =>
    match changes.reversal db request snapshot with
    | .error e => g.throws db e
    | .ok (.earlier _) => g.goesTo db (.committing request (g.call.reversion request))
    | .ok (.batch mutations) => g.goesTo db (.changing request .revert (.reading (batch version mutations)))

def validates (request : ApprovalRequest) (change : Change) (input : MutationInput J) (stored : AssetSet J) :
    StepResult J :=
  match changes.kinds.validateAssetSet (candidate changes.kinds.readDefinitionName stored input.mutations) stored with
  | .error e => g.throws db e
  | .ok _ => g.goesTo db (.changing request change (.writing input))

def writes (request : ApprovalRequest) (change : Change) (input : MutationInput J) : StepResult J :=
  match db.applyConfigAssetMutations (some request.id) input with
  | .error e => g.throws db e
  | .ok written => g.goesTo written (.changing request change .readingBack)

def readsBack (request : ApprovalRequest) : Change → StepResult J
  | .apply =>
    match findProducedRevision db request.payload.skillName request.id with
    | none => g.throws db ⟨.internal, "Applied skill revision was not found"⟩
    | some revision =>
      g.goesTo db (.committing request (g.call.approval (revisionResult request.payload.skillName revision)))
  | .revert =>
    match (listSkillRevisions db request.payload.skillName).getLast? with
    | none => g.throws db ⟨.internal, "Reverted skill revision was not found"⟩
    | some _ => g.goesTo db (.committing request (g.call.reversion request))

def changeStep (request : ApprovalRequest) (change : Change) : ChangePhase J → StepResult J
  | .version =>
    match changes.validatePayload request.payload with
    | .error e => g.throws db e
    | .ok _ => g.goesTo db (.changing request change (.snapshot db.assets.version))
  | .snapshot version =>
    match changes.getSnapshot db with
    | none => g.answers db (.error .other)
    | some snapshot => g.goesTo db (.changing request change (.history version snapshot))
  | .history version snapshot => g.plans changes db request version snapshot change
  | .reading input =>
    match assertScopesCanOwn input.mutations with
    | .error e => g.throws db e
    | .ok _ =>
      let first : ChangePhase J := if g.call.stateFirst then .stateRead input db.assets.defaultAgentName
        else .assetsRead input (listActiveConfigAssets changes.nameLe db.assets)
      g.goesTo db (.changing request change first)
  | .stateRead input name =>
    g.validates changes db request change input (assetSetOf (listActiveConfigAssets changes.nameLe db.assets) name)
  | .assetsRead input assets => g.validates changes db request change input (assetSetOf assets db.assets.defaultAgentName)
  | .writing input => g.writes db request change input
  | .readingBack => g.readsBack db request change

def commits (request : ApprovalRequest) (outcome : Outcome) : StepResult J :=
  if ∃ r ∈ db.requests, r.id = request.id ∧ r.status = request.status then
    g.answers (db.transition request outcome) (.ok (request.ended outcome))
  else g.throws db ⟨.conflict, s!"Approval request is no longer {Call.expectedText g.call.expectedStatus}"⟩

def step : StepResult J :=
  match g.phase with
  | .opening => g.opens db
  | .locking => g.locks db
  | .checking request outcome => g.checks db request outcome
  | .recovering request => g.recovers changes db request
  | .comparing request => g.compares changes db request
  | .changing request change phase => g.changeStep changes db request change phase
  | .committing request outcome => g.commits db request outcome

def locked? : Option ApprovalRequest :=
  match g.phase with
  | .opening | .locking => none
  | .checking request _ | .recovering request | .comparing request | .changing request _ _ | .committing request _ =>
    some request

def WaitsFor (id : ApprovalRequestId) : Prop :=
  match g.phase with
  | .locking => g.call.requestId = id
  | _ => False

end Going

/-- What goes on beside the calls: new requests, and the writes of others to the assets. -/
inductive Other (J : Type)
  | createApprovalRequest (requestedBy : String) (payload : SkillChangePayload)
  | applyConfigAssetMutations (input : MutationInput J)
  | setAgentAvailability (agentName : String) (availability : AgentAvailability)
  deriving DecidableEq

def Other.run (db : Db J) : Other J → Db J
  | createApprovalRequest requestedBy payload => Approvals.createApprovalRequest db requestedBy payload
  | applyConfigAssetMutations input =>
    match db.applyConfigAssetMutations none input with
    | .error _ => db
    | .ok written => written
  | setAgentAvailability agentName availability =>
    match Assets.setAgentAvailability agentName availability db.assets with
    | .error _ => db
    | .ok (_, assets) => { db with assets }

def approvalCalls (changes : SkillChanges J) : Processes (Db J) Call (Going J) (Other J) Answered where
  start call := ⟨call, .opening⟩
  blocks p q := ∃ r ∈ p.locked?, q.WaitsFor r.id
  step db g := g.step changes db
  env db other := (none, other.run db)

abbrev ApprovalPool (J : Type) := Pool (Db J) (Going J)

abbrev ApprovalMove (J : Type) := Move Call (Other J)

end Catalyst.Approvals
