import Catalyst.Assets.Revisions
import Catalyst.Assets.Writer
import Catalyst.Library.JsText
import Catalyst.Library.Processes

/-!
# Approval requests for skill changes

A request is decided, withdrawn or reverted in one transaction that locks its row. Applying
its change is a batch of the asset store, committed on its own before the request's row is
written; a crash between the two leaves the request as it was, and its change stored.

Revisions of one instance keep in `origin` the request that made them. What reads whole
definitions (a payload's fields, a skill's text) belongs to the schema library and to the
edit of a skill, and is given.
-/

namespace Catalyst.Approvals

open Library Library.Check Assets

abbrev ApprovalRequestId := Nat

inductive ApprovalRequestStatus
  | pending | approved | rejected | changesRequested | superseded | withdrawn | reverted
  deriving DecidableEq

inductive SkillChangeOperation
  | replaceText (target oldText newText : String)
  | appendText (target : String) (sectionHeading : Option String) (text : String)
  | createResource (resourcePath content : String)
  | createSkill (name title description content : String)
  deriving DecidableEq

structure SkillChangePayload where
  agentName : String
  skillName : String
  operations : List SkillChangeOperation
  baseSourceVersion : Option String
  deriving DecidableEq

/-- The column `decision`, which a reversion is added to. -/
structure ApprovalDecision where
  approved : Bool
  decidedBy : String
  comment : Option String := none
  revertedBy : Option String := none
  deriving DecidableEq

structure ApplyResult where
  skillName : String
  revision : Nat
  version : Nat
  deriving DecidableEq

structure ApprovalRequest where
  id : ApprovalRequestId
  payload : SkillChangePayload
  requestedBy : String
  status : ApprovalRequestStatus
  decision : Option ApprovalDecision
  applyResult : Option ApplyResult
  deriving DecidableEq

/-- `ApprovalRequestOutcome`, with its reversion in the decision as the row stores it. -/
structure Outcome where
  status : ApprovalRequestStatus
  decision : Option ApprovalDecision
  applyResult : Option ApplyResult
  deriving DecidableEq

/-- The rows of one instance; `fresh` is the next id `createPlatformId` gives. -/
structure Db (J : Type) where
  requests : List ApprovalRequest
  fresh : ApprovalRequestId
  assets : Assets.Db J
  /-- By a revision's id the request in its column `origin`. -/
  origin : Nat → Option ApprovalRequestId

variable {J : Type}

def SkillChangeOperation.createdName : SkillChangeOperation → Option String
  | createSkill name _ _ _ => some name
  | _ => none

def SkillChangePayload.creation (payload : SkillChangePayload) : Option String :=
  payload.operations.head?.bind SkillChangeOperation.createdName

def getApprovalRequest (db : Db J) (id : ApprovalRequestId) : Option ApprovalRequest :=
  db.requests.find? (·.id = id)

def createApprovalRequest (db : Db J) (requestedBy : String) (payload : SkillChangePayload) : Db J :=
  { db with requests := ⟨db.fresh, payload, requestedBy, .pending, none, none⟩ :: db.requests, fresh := db.fresh + 1 }

def ApprovalRequest.ended (r : ApprovalRequest) (outcome : Outcome) : ApprovalRequest :=
  { r with status := outcome.status, decision := outcome.decision, applyResult := outcome.applyResult }

/-- The UPDATE at the end of `transition`, where the row still has the status it was locked in. -/
def Db.transition (db : Db J) (locked : ApprovalRequest) (outcome : Outcome) : Db J :=
  { db with requests := updateWhere (fun r => r.id = locked.id ∧ r.status = locked.status) (·.ended outcome) db.requests }

def Db.applyConfigAssetMutations (db : Db J) (origin : Option ApprovalRequestId) (input : MutationInput J) :
    Except AppError (Db J) := do
  let assets ← Assets.applyConfigAssetMutations input db.assets
  return { db with
    assets := assets
    origin := fun id => if db.assets.nextId ≤ id ∧ id < assets.nextId then origin else db.origin id }

def listSkillRevisions (db : Db J) (skillName : String) : List (ConfigAssetRevision J) :=
  match db.assets.find? (.skill, skillName) with
  | none => []
  | some asset => asset.revisions

/-- A revision by which the request's change was stored, as `findRequestRevision` looks for it. -/
def Db.Produced (db : Db J) (id : ApprovalRequestId) (revision : ConfigAssetRevision J) : Prop :=
  db.origin revision.id = some id ∧ revision.operation ≠ .revert ∧ revision.operation ≠ .delete

instance (db : Db J) (id : ApprovalRequestId) : DecidablePred (db.Produced id) := fun _ =>
  inferInstanceAs (Decidable (_ ∧ _ ∧ _))

def findProducedRevision (db : Db J) (skillName : String) (id : ApprovalRequestId) : Option (ConfigAssetRevision J) :=
  (listSkillRevisions db skillName).find? fun revision => db.Produced id revision

def revisionResult (skillName : String) (revision : ConfigAssetRevision J) : ApplyResult :=
  ⟨skillName, revision.revision, revision.globalVersion⟩

structure AgentSkillChangesPolicy where
  enabled : Bool
  allowSkillCreation : Bool
  deriving DecidableEq

structure RuntimeAssetSnapshot (J : Type) where
  agents : List (J × AgentConfig)
  skills : List (J × SkillConfig)
  deriving DecidableEq

def RuntimeAssetSnapshot.agent? (snapshot : RuntimeAssetSnapshot J) (name : String) : Option (J × AgentConfig) :=
  snapshot.agents.find? (·.2.name = name)

def RuntimeAssetSnapshot.skill? (snapshot : RuntimeAssetSnapshot J) (name : String) : Option (J × SkillConfig) :=
  snapshot.skills.find? (·.2.name = name)

def parseAll {α ε : Type} (parse : J → Except ε α) (definitions : List J) : Option (List (J × α)) :=
  definitions.mapM fun d => (parse d).toOption.map (d, ·)

/-- The schemas of an instance with what reads the texts of a skill change. -/
structure SkillChanges (J : Type) where
  kinds : AssetKindRegistry J
  /-- ORDER BY name, in the database's collation. -/
  nameLe : String → String → Bool
  /-- What the schemas of a payload's fields find. -/
  fieldIssues : SkillChangePayload → List String
  applySkillChange : Option (J × SkillConfig) → List SkillChangeOperation → Except AppError (J × SkillConfig)
  /-- An agent's definition with other skill names. -/
  withSkillNames : J → List String → J
  /-- A new skill has the name of its creation, any other one keeps its name. -/
  applied_name : applySkillChange current operations = .ok skill →
    some skill.2.name = (operations.head?.bind SkillChangeOperation.createdName).or (current.map (·.2.name))

namespace SkillChanges

variable (changes : SkillChanges J)

def getSnapshot (db : Db J) : Option (RuntimeAssetSnapshot J) := do
  let stored := db.assets.set changes.nameLe
  let agents ← parseAll changes.kinds.agent.safeParse (stored.definitions .agent)
  let skills ← parseAll changes.kinds.skill.safeParse (stored.definitions .skill)
  return ⟨agents, skills⟩

def payloadIssues (payload : SkillChangePayload) : List String :=
  let issues := changes.fieldIssues payload
  if issues ≠ [] then issues
  else
    issueWhen (payload.creation.isSome ≠ payload.baseSourceVersion.isNone)
      ": baseSourceVersion must be null only for create_skill" ++
    issueWhen (payload.creation.any (· ≠ payload.skillName)) ": create_skill name must match skillName"

def validatePayload (payload : SkillChangePayload) : Except AppError Unit :=
  require (changes.payloadIssues payload = [])
    ⟨.validationFailed, "; ".intercalate (changes.payloadIssues payload)⟩

/-- The part of `isStale` that reads the snapshot. -/
def isStale (payload : SkillChangePayload) (snapshot : RuntimeAssetSnapshot J) : Except AppError Bool :=
  match snapshot.agent? payload.agentName with
  | none => .ok true
  | some agent =>
    if payload.creation = none ∧ payload.skillName ∉ agent.2.skillNames then .ok true
    else match changes.applySkillChange (snapshot.skill? payload.skillName) payload.operations with
      | .ok _ => .ok false
      | .error e => if e.code = .validationFailed then .ok true else .error e

end SkillChanges

def assertSkillChangeScope (policy : AgentSkillChangesPolicy) (agent : Option AgentConfig) (skillName : String)
    (operations : List SkillChangeOperation) : Except AppError Unit := do
  require policy.enabled ⟨.forbidden, "Agent skill changes are disabled"⟩
  let agent ← need agent ⟨.validationFailed, "The proposing agent does not exist"⟩
  match operations.findSome? SkillChangeOperation.createdName with
  | some name =>
    require policy.allowSkillCreation ⟨.forbidden, "Agent skill creation is disabled"⟩
    require (name = skillName) ⟨.validationFailed, "create_skill name must match skillName"⟩
  | none =>
    require (skillName ∈ agent.skillNames)
      ⟨.forbidden, s!"Skill '{skillName}' is outside agent '{agent.name}' scope"⟩

/-- The batch of `apply`. -/
def SkillChanges.applyMutations (changes : SkillChanges J) (policy : AgentSkillChangesPolicy)
    (payload : SkillChangePayload) (snapshot : RuntimeAssetSnapshot J) :
    Except AppError (List (ConfigAssetMutation J)) := do
  let agent := snapshot.agent? payload.agentName
  assertSkillChangeScope policy (agent.map Prod.snd) payload.skillName payload.operations
  let skill ← changes.applySkillChange (snapshot.skill? payload.skillName) payload.operations
  let attached := match payload.creation, agent with
    | some _, some (definition, config) =>
      [.upsert (.agent, config.name)
        (changes.withSkillNames definition (config.skillNames ++ [skill.2.name]).eraseDups) false none]
    | _, _ => []
  return .upsert (.skill, skill.2.name) skill.1 false none :: attached

/-- The batch of `revert`. -/
def SkillChanges.revertMutations (changes : SkillChanges J) (payload : SkillChangePayload)
    (snapshot : RuntimeAssetSnapshot J) (history : List (ConfigAssetRevision J)) (applied : ConfigAssetRevision J) :
    Except AppError (List (ConfigAssetMutation J)) :=
  match payload.creation with
  | some _ =>
    let detached := (snapshot.agent? payload.agentName).toList.map fun (definition, config) =>
      .upsert (.agent, config.name)
        (changes.withSkillNames definition (config.skillNames.filter (· ≠ payload.skillName))) true none
    .ok (detached ++ [.delete (.skill, payload.skillName) none])
  | none =>
    match (history.find? (·.revision = applied.revision - 1)).bind (·.config) with
    | none => .error ⟨.conflict, "The preceding skill revision cannot be restored"⟩
    | some config => .ok [.upsert (.skill, payload.skillName) config true none]

/-- What `revert` goes on with: an earlier revert of the request, or a batch. -/
inductive Reversal (J : Type)
  | earlier (revision : ConfigAssetRevision J)
  | batch (mutations : List (ConfigAssetMutation J))
  deriving DecidableEq

def SkillChanges.reversal (changes : SkillChanges J) (db : Db J) (request : ApprovalRequest)
    (snapshot : RuntimeAssetSnapshot J) : Except AppError (Reversal J) := do
  let payload := request.payload
  let history := listSkillRevisions db payload.skillName
  let applied ← need (findProducedRevision db payload.skillName request.id)
    ⟨.conflict, "This request has no applied skill revision"⟩
  let latest := history.getLast?
  match latest.filter fun r => db.origin r.id = some request.id ∧ r.operation.TakesBack with
  | some earlier => return .earlier earlier
  | none =>
    require (latest.map (·.id) = some applied.id)
      ⟨.conflict, s!"Skill '{payload.skillName}' has newer changes; this request can no longer be reverted"⟩
    let mutations ← changes.revertMutations payload snapshot history applied
    return .batch mutations

end Catalyst.Approvals
