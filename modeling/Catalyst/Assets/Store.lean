import Catalyst.Assets.Model
import Catalyst.Library.Ordered
import Catalyst.Library.Table
import Mathlib.Data.List.Sort

/-!
# The config asset store

A batch of mutations is applied in one transaction that locks the instance's
state row first, so it sees what the batches before it committed. A refused
batch changes no row. Within one instance an asset's kind and name are its key;
a deleted asset keeps its row and its revisions.
-/

namespace Catalyst.Assets

open Library

inductive AssetScope
  | ofInstance
  | ofWorkspace (workspaceId : String)
  deriving DecidableEq

inductive AssetStatus
  | active | deleted
  deriving DecidableEq

inductive RevisionOperation
  | create | update | delete | revert
  deriving DecidableEq

inductive AgentAvailabilityMode
  | all | selected
  deriving DecidableEq

structure AgentAvailability where
  mode : AgentAvailabilityMode
  personalWorkspaces : Bool
  collaborationWorkspaceIds : List String
  deriving DecidableEq

inductive InitialAgentAvailability
  | mode (mode : AgentAvailabilityMode)
  | selectedWhenReplacingSelected
  deriving DecidableEq

abbrev AssetKey := AssetKindId × String

instance : LawfulBEq AssetKey := inferInstance

structure ConfigAssetRevision (J : Type) where
  id : Nat
  revision : Nat
  operation : RevisionOperation
  config : Option J
  globalVersion : Nat
  deriving DecidableEq

/-- An asset's row with the rows that hang on its id. -/
structure ConfigAsset (J : Type) where
  id : Nat
  key : AssetKey
  scope : AssetScope
  status : AssetStatus
  activeRevisionId : Nat
  revisions : List (ConfigAssetRevision J)
  availability : Option AgentAvailability
  deriving DecidableEq

structure Db (J : Type) where
  assets : List (ConfigAsset J)
  version : Nat
  defaultAgentName : Option String
  /-- The next id of an asset or a revision. -/
  nextId : Nat
  deriving DecidableEq

inductive ConfigAssetMutation (J : Type)
  | upsert (key : AssetKey) (config : J) (revert : Bool) (scope : Option AssetScope)
  | delete (key : AssetKey) (scope : Option AssetScope)
  | setDefaultAgent (agentName : Option String)
  deriving DecidableEq

structure MutationInput (J : Type) where
  baseVersion : Option Nat := none
  /-- By key the revision read, `none` where there was no active asset. -/
  baseRevisions : Option (OrderedMap AssetKey (Option Nat)) := none
  baseDefaultAgentName : Option (Option String) := none
  initialAgentAvailability : Option InitialAgentAvailability := none
  mutations : List (ConfigAssetMutation J)
  deriving DecidableEq

variable {J : Type}

def ConfigAsset.activeRevision? (asset : ConfigAsset J) : Option (ConfigAssetRevision J) :=
  asset.revisions.find? (·.id = asset.activeRevisionId)

def Db.find? (db : Db J) (key : AssetKey) : Option (ConfigAsset J) :=
  db.assets.find? (·.key = key)

structure ConfigAssetRecord (J : Type) where
  key : AssetKey
  scope : AssetScope
  revision : Nat
  config : Option J
  deriving DecidableEq

def ConfigAsset.record? (asset : ConfigAsset J) : Option (ConfigAssetRecord J) :=
  asset.activeRevision?.map fun r => ⟨asset.key, asset.scope, r.revision, r.config⟩

def AssetKindId.le : AssetKindId → AssetKindId → Bool
  | .skill, .agent => false
  | _, _ => true

/-- ORDER BY kind, name; `nameLe` is the database's collation. -/
def AssetKey.le (nameLe : String → String → Bool) (p q : AssetKey) : Bool :=
  if p.1 = q.1 then nameLe p.2 q.2 else AssetKindId.le p.1 q.1

def listActiveConfigAssets (nameLe : String → String → Bool) (db : Db J) : List (ConfigAssetRecord J) :=
  ((db.assets.filter (·.status = .active)).filterMap ConfigAsset.record?).insertionSort
    fun p q => AssetKey.le nameLe p.key q.key

def assetSetOf (assets : List (ConfigAssetRecord J)) (defaultAgentName : Option String) : AssetSet J where
  defaultAgentName := defaultAgentName
  definitions kind := assets.filterMap fun asset => if asset.key.1 = kind then asset.config else none

def Db.set (nameLe : String → String → Bool) (db : Db J) : AssetSet J :=
  assetSetOf (listActiveConfigAssets nameLe db) db.defaultAgentName

def baseMatches (asset : Option (ConfigAsset J)) : Option Nat → Bool
  | none => asset.all (·.status = .deleted)
  | some base => (asset.bind ConfigAsset.activeRevision?).any (·.revision = base)

/-- Whether a base is stale; a key is checked at its first mutation. -/
def staleBases (input : MutationInput J) (bases : OrderedMap AssetKey (Option Nat)) (db : Db J)
    (checked : List AssetKey) : List (ConfigAssetMutation J) → Except AppError Bool
  | [] => .ok false
  | .setDefaultAgent _ :: mutations => do
    let base ← Check.need input.baseDefaultAgentName
      ⟨.validationFailed, "Missing default-agent baseline"⟩
    let stale ← staleBases input bases db checked mutations
    return base ≠ db.defaultAgentName || stale
  | .upsert key _ _ _ :: mutations | .delete key _ :: mutations =>
    if key ∈ checked then staleBases input bases db checked mutations
    else do
      let base ← Check.need (OrderedMap.get? bases key)
        ⟨.validationFailed, s!"Missing base revision for '{key.1.text}:{key.2}'"⟩
      let stale ← staleBases input bases db (key :: checked) mutations
      return !baseMatches (db.find? key) base || stale

def assertConfigAssetBases (input : MutationInput J) (db : Db J) : Except AppError Unit :=
  match input.baseRevisions with
  | none =>
    Check.require (input.baseVersion.all (· = db.version)) ⟨.conflict, "Config version mismatch"⟩
  | some bases => do
    let stale ← staleBases input bases db [] input.mutations
    Check.require (stale = false) ⟨.conflict, "Config assets changed since the last pull"⟩

def resolveInitialAgentAvailabilityMode (initial : Option InitialAgentAvailability)
    (deletesSelectedAgent : Bool) : AgentAvailabilityMode :=
  match initial with
  | some .selectedWhenReplacingSelected => if deletesSelectedAgent then .selected else .all
  | some (.mode mode) => mode
  | none => .all

def deletedAgentNames (mutations : List (ConfigAssetMutation J)) : List String :=
  mutations.filterMap fun
    | .delete (.agent, name) _ => some name
    | _ => none

def deletesSelectedAgent (db : Db J) (mutations : List (ConfigAssetMutation J)) : Bool :=
  db.assets.any fun asset => asset.key.1 = .agent && asset.key.2 ∈ deletedAgentNames mutations &&
    asset.availability.any (·.mode = .selected)

def initialAvailability (mode : AgentAvailabilityMode) : AssetKindId → Option AgentAvailability
  | .agent => some ⟨mode, false, []⟩
  | .skill => none

def appendAndActivateRevision (db : Db J) (asset : ConfigAsset J) (operation : RevisionOperation)
    (config : Option J) (status : AssetStatus) : Except AppError (ConfigAsset J) := do
  let current ← Check.need asset.activeRevision?
    ⟨.internal, "Config asset active revision is missing"⟩
  return { asset with
    status := status
    activeRevisionId := db.nextId
    revisions := asset.revisions ++
      [⟨db.nextId, current.revision + 1, operation, config, db.version + 1⟩] }

def Db.update (db : Db J) (asset : ConfigAsset J) : Db J :=
  { db with assets := updateWhere (·.id = asset.id) (fun _ => asset) db.assets, nextId := db.nextId + 1 }

def Db.insert (db : Db J) (key : AssetKey) (scope : AssetScope) (operation : RevisionOperation)
    (config : J) (mode : AgentAvailabilityMode) : Db J :=
  let first := ⟨db.nextId + 1, 1, operation, some config, db.version + 1⟩
  let asset := ⟨db.nextId, key, scope, .active, db.nextId + 1, [first], initialAvailability mode key.1⟩
  { db with assets := asset :: db.assets, nextId := db.nextId + 2 }

def requireScope (asset : ConfigAsset J) (scope : Option AssetScope) : Except AppError Unit :=
  Check.require (scope.getD .ofInstance = asset.scope)
    ⟨.validationFailed, s!"Config {asset.key.1.text} '{asset.key.2}' belongs to another scope"⟩

/-- One mutation of a batch; the version moves at the end of the batch. -/
def applyMutation (mode : AgentAvailabilityMode) (db : Db J) :
    ConfigAssetMutation J → Except AppError (Db J)
  | .setDefaultAgent agentName => .ok { db with defaultAgentName := agentName }
  | .delete key scope =>
    match db.find? key with
    | none => .ok db
    | some asset => do
      requireScope asset scope
      if asset.status = .deleted then return db
      let deleted ← appendAndActivateRevision db asset .delete none .deleted
      return db.update { deleted with availability := none }
  | .upsert key config revert scope =>
    match db.find? key with
    | none => .ok (db.insert key (scope.getD .ofInstance) (if revert then .revert else .create) config mode)
    | some asset => do
      requireScope asset scope
      let operation := if revert then .revert else if asset.status = .deleted then .create else .update
      let written ← appendAndActivateRevision db asset operation (some config) .active
      -- a name that comes back starts like a new one
      return db.update (if asset.status = .deleted then
        { written with availability := initialAvailability mode key.1 } else written)

def applyMutations (mode : AgentAvailabilityMode) (db : Db J) :
    List (ConfigAssetMutation J) → Except AppError (Db J)
  | [] => .ok db
  | mutation :: mutations => do
    let db ← applyMutation mode db mutation
    applyMutations mode db mutations

def requireDefaultAgent (db : Db J) : Except AppError Unit :=
  match db.defaultAgentName with
  | none => .ok ()
  | some name => do
    let agent ← Check.need ((db.find? (.agent, name)).filter (·.status = .active))
      ⟨.validationFailed, s!"Default agent '{name}' is not an active config asset"⟩
    Check.require (agent.availability.any (·.mode = .all))
      ⟨.validationFailed, s!"Default agent '{name}' must be available in all workspaces"⟩

def applyConfigAssetMutations (input : MutationInput J) (db : Db J) : Except AppError (Db J) := do
  assertConfigAssetBases input db
  let mode := resolveInitialAgentAvailabilityMode input.initialAgentAvailability
    (deletesSelectedAgent db input.mutations)
  let written ← applyMutations mode db input.mutations
  requireDefaultAgent written
  return { written with version := db.version + 1 }

end Catalyst.Assets
