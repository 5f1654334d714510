import Catalyst.Access.Evaluate
import Catalyst.Assets.Store
import Catalyst.Library.Processes

/-!
# Grants on assets

An administrator grants and revokes while config assets are written. The workflow of a grant
reads the asset, then its holder, and stores the row in a transaction of its own. A write of
assets holds the lock of the state row: it deletes the allow rows of each asset it deletes as
it goes, and nobody sees what it did before it commits.

A statement that waits for a row goes when the row is free.
-/

namespace Catalyst.Grants

open Library Access

abbrev AssetId := String

structure Holder where
  id : String
  roles : List String
  deletionRequested : Bool
  deriving DecidableEq

structure GrantRow extends PermissionGrant where
  id : Nat
  deriving DecidableEq

structure Db (J : Type) where
  clientInstanceId : ClientInstanceId
  config : Assets.Db J
  holders : List Holder
  namespaces : List String
  grants : List GrantRow
  nextGrantId : Nat

variable {J : Type}

def assetId (asset : Assets.ConfigAsset J) : AssetId := s!"cfga_{asset.id}"

def allowsOn (grant : PermissionGrant) (asset : AssetId) : Prop :=
  grant.scopeKind = .asset ∧ grant.scopeId = some asset ∧ grant.effect = .allow

instance : Decidable (allowsOn grant asset) := inferInstanceAs (Decidable (_ ∧ _))

def isSuperadmin (roles : List String) : Bool := "superadmin" ∈ roles

structure GrantCommand where
  holderKind : GrantHolderKind
  holderId : String
  action : String
  scopeKind : GrantScopeKind
  scopeId : Option AssetId
  inNamespace : Option String
  effect : GrantEffect
  deriving DecidableEq

/-- `GRANTABLE_ACTIONS` -/
def grantableActions : List String :=
  ["agent.read", "agent.write", "agent.delete", "skill.read", "skill.write", "skill.delete"]

def isGrantableAction (action : String) : Bool := action ∈ grantableActions

def refused (message : String) : AppError := ⟨.validationFailed, message⟩

def userInDeletionError : AppError := ⟨.conflict, "User account is being deleted"⟩

structure GrantScope where
  scopeKind : GrantScopeKind
  scopeId : Option AssetId
  inNamespace : Option String
  deriving DecidableEq

def requireGrantable (command : GrantCommand) : Except AppError Unit := do
  Check.require (command.holderKind = .user) (refused "A grant can be written for a user only")
  Check.require (isPlatformAction command.action) (refused s!"'{command.action}' is not an action")
  Check.require (isGrantableAction command.action)
    (refused s!"'{command.action}' cannot be granted in a Namespace or on one asset")

def getGrantableAsset (db : Db J) (asset : AssetId) : Option (Assets.ConfigAsset J) :=
  db.config.assets.find? fun a => assetId a = asset ∧ a.status = .active

def actionOf (kind : Assets.AssetKindId) (action : String) : Bool :=
  (kind.text ++ ".").toList.isPrefixOf action.toList

def grantScope (db : Db J) (command : GrantCommand) : Except AppError GrantScope :=
  match command.scopeKind with
  | .ofNamespace =>
    if command.inNamespace.isNone ∨ command.scopeId.isSome then
      .error (refused "A Namespace grant names a prefix and no scope id")
    else .ok ⟨.ofNamespace, none, command.inNamespace⟩
  | .asset =>
    match command.scopeId, command.inNamespace with
    | some asset, none => do
      let found ← Check.need ((getGrantableAsset db asset).filter fun a => actionOf a.key.1 command.action)
        (refused "The asset is not an active asset of the action's kind")
      return ⟨.asset, some (assetId found), none⟩
    | _, _ => .error (refused "An asset grant names an asset id and no Namespace")
  | _ => .error (refused "A grant can be written for a Namespace or one asset only")

def findUser (db : Db J) (userId : String) : Option Holder := db.holders.find? (·.id = userId)

def requireManageableHolder (actorRoles : List String) (holder : Holder) : Except AppError Unit :=
  Check.require (isSuperadmin holder.roles → isSuperadmin actorRoles)
    ⟨.forbidden, "Only superadmins can manage superadmin users"⟩

def requireHolder (db : Db J) (actorRoles : List String) (holderId : String) : Except AppError Holder := do
  let holder ← Check.need (findUser db holderId) ⟨.notFound, "User not found"⟩
  requireManageableHolder actorRoles holder
  Check.require (holder.deletionRequested = false) userInDeletionError
  return holder

/-- `permission_grants_unique` -/
structure UniqueKey where
  clientInstanceId : ClientInstanceId
  holderKind : GrantHolderKind
  holderId : String
  action : String
  scopeKind : GrantScopeKind
  scopeId : String
  inNamespace : String
  deriving DecidableEq

def uniqueKey (grant : PermissionGrant) : UniqueKey :=
  ⟨grant.clientInstanceId, grant.holderKind, grant.holderId, grant.action, grant.scopeKind,
    grant.scopeId.getD "", grant.inNamespace.getD ""⟩

/-- The transaction under the access lock. It does not look at assets. -/
def createGrant (db : Db J) (input : PermissionGrant) : Except AppError (GrantRow × Db J) := do
  Check.require (input.holderKind = .user → (findUser db input.holderId).all (·.deletionRequested = false))
    userInDeletionError
  Check.require (input.scopeKind = .ofNamespace → input.inNamespace.getD "" ∈ db.namespaces)
    (refused "Namespace is not registered")
  Check.require (∀ g ∈ db.grants, uniqueKey g.toPermissionGrant ≠ uniqueKey input)
    ⟨.conflict, "The holder already has a grant row for this scope"⟩
  let row : GrantRow := { input with id := db.nextGrantId }
  return (row, { db with grants := row :: db.grants, nextGrantId := db.nextGrantId + 1 })

inductive GrantPhase
  | scoping
  | finding (scope : GrantScope)
  | creating (scope : GrantScope) (holder : Holder)
  deriving DecidableEq

structure Granting where
  actorRoles : List String
  command : GrantCommand
  phase : GrantPhase
  deriving DecidableEq

def getGrant (db : Db J) (grantId : Nat) : Option GrantRow := db.grants.find? (·.id = grantId)

def grantNotFound : AppError := ⟨.notFound, "Grant not found"⟩

def requireRevocable (db : Db J) (actorRoles : List String) (row : GrantRow) : Except AppError Unit :=
  match row.holderKind, findUser db row.holderId with
  | .user, some holder => requireManageableHolder actorRoles holder
  | _, _ => .ok ()

def deleteGrant (db : Db J) (grantId : Nat) : Except AppError (GrantRow × Db J) := do
  let row ← Check.need (getGrant db grantId) grantNotFound
  return (row, { db with grants := db.grants.filter (·.id ≠ grantId) })

inductive RevokePhase
  | reading
  | finding (row : GrantRow)
  | deleting
  deriving DecidableEq

structure Revoking where
  actorRoles : List String
  grantId : Nat
  phase : RevokePhase
  deriving DecidableEq

/-- What the open transaction has written: its own view of the assets, the assets it deleted
and the allow rows it deleted with them. -/
structure Written (J : Type) where
  config : Assets.Db J
  deleted : List AssetId
  swept : List GrantRow

inductive WritePhase (J : Type)
  | locking
  | mutating (mode : Assets.AgentAvailabilityMode) (written : Written J) (rest : List (Assets.ConfigAssetMutation J))

structure Writing (J : Type) where
  input : Assets.MutationInput J
  phase : WritePhase J

def deletedBy (config : Assets.Db J) : Assets.ConfigAssetMutation J → Option AssetId
  | .delete key _ => ((config.find? key).filter (·.status = .active)).map assetId
  | _ => none

def mutate (db : Db J) (mode : Assets.AgentAvailabilityMode) (written : Written J)
    (m : Assets.ConfigAssetMutation J) : Except AppError (Written J) := do
  let config ← Assets.applyMutation mode written.config m
  match deletedBy written.config m with
  | none => return { written with config }
  | some asset =>
    let swept := db.grants.filter fun g => allowsOn g.toPermissionGrant asset
    return ⟨config, asset :: written.deleted, swept ++ written.swept⟩

def commitWrite (db : Db J) (written : Written J) : Db J :=
  { db with
    config := { written.config with version := written.config.version + 1 }
    grants := db.grants.filter (· ∉ written.swept) }

inductive Request (J : Type)
  | grant (actorRoles : List String) (command : GrantCommand)
  | revoke (actorRoles : List String) (grantId : Nat)
  | write (input : Assets.MutationInput J)

inductive Process (J : Type)
  | granting (g : Granting)
  | revoking (r : Revoking)
  | writing (w : Writing J)

inductive Event
  | granted (row : GrantRow)
  | revoked (row : GrantRow)
  | written (deleted : List AssetId)
  | failed (error : AppError)
  deriving DecidableEq

abbrev StepResult (J : Type) := Option Event × Option (Process J) × Db J

def fails (db : Db J) (error : AppError) : StepResult J := (some (.failed error), none, db)

def goesOn (db : Db J) (t : Process J) : StepResult J := (none, some t, db)

def Granting.grant (g : Granting) (clientInstanceId : ClientInstanceId) (scope : GrantScope) (holder : Holder) :
    PermissionGrant :=
  ⟨clientInstanceId, .user, holder.id, g.command.action, g.command.effect, scope.scopeKind, scope.scopeId,
    scope.inNamespace⟩

def Granting.step (db : Db J) (g : Granting) : StepResult J :=
  match g.phase with
  | .scoping =>
    match (do requireGrantable g.command; grantScope db g.command) with
    | .error e => fails db e
    | .ok scope => goesOn db (.granting { g with phase := .finding scope })
  | .finding scope =>
    match requireHolder db g.actorRoles g.command.holderId with
    | .error e => fails db e
    | .ok holder => goesOn db (.granting { g with phase := .creating scope holder })
  | .creating scope holder =>
    match createGrant db (g.grant db.clientInstanceId scope holder) with
    | .error e => fails db e
    | .ok (row, db') => (some (.granted row), none, db')

def Revoking.step (db : Db J) (r : Revoking) : StepResult J :=
  match r.phase with
  | .reading =>
    match getGrant db r.grantId with
    | none => fails db grantNotFound
    | some row => goesOn db (.revoking { r with phase := .finding row })
  | .finding row =>
    match requireRevocable db r.actorRoles row with
    | .error e => fails db e
    | .ok _ => goesOn db (.revoking { r with phase := .deleting })
  | .deleting =>
    match deleteGrant db r.grantId with
    | .error e => fails db e
    | .ok (row, db') => (some (.revoked row), none, db')

def Writing.step (db : Db J) (w : Writing J) : StepResult J :=
  match w.phase with
  | .locking =>
    match Assets.assertConfigAssetBases w.input db.config with
    | .error e => fails db e
    | .ok _ =>
      let mode := Assets.resolveInitialAgentAvailabilityMode w.input.initialAgentAvailability
        (Assets.deletesSelectedAgent db.config w.input.mutations)
      goesOn db (.writing { w with phase := .mutating mode ⟨db.config, [], []⟩ w.input.mutations })
  | .mutating mode written (m :: rest) =>
    match mutate db mode written m with
    | .error e => fails db e
    | .ok written => goesOn db (.writing { w with phase := .mutating mode written rest })
  | .mutating _ written [] =>
    match Assets.requireDefaultAgent written.config with
    | .error e => fails db e
    | .ok _ => (some (.written written.deleted), none, commitWrite db written)

def Writing.open (w : Writing J) : Option (Written J) :=
  match w.phase with
  | .mutating _ written _ => some written
  | .locking => none

structure Others where
  holders : List Holder
  namespaces : List String

/-- A process that aborts is one that crashed: its transaction is rolled back. -/
def grantSystem (J : Type) : Processes (Db J) (Request J) (Process J) Others Event where
  start
    | .grant actorRoles command => .granting ⟨actorRoles, command, .scoping⟩
    | .revoke actorRoles grantId => .revoking ⟨actorRoles, grantId, .reading⟩
    | .write input => .writing ⟨input, .locking⟩
  blocks
    | .writing q, .writing t => q.open.isSome ∧ t.open.isNone
    | _, _ => False
  step db
    | .granting g => g.step db
    | .revoking r => r.step db
    | .writing w => w.step db
  env db others := (none, { db with holders := others.holders, namespaces := others.namespaces })

end Catalyst.Grants
