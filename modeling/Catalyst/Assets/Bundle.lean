import Mathlib
import Catalyst.Assets.Writer

/-!
# Bundles over the stored set

A bundle carries the definitions of the kinds that have a slot in it. `replaceAssets` puts one
over the stored set: in mirror mode it takes the place of the instance's own assets of those
kinds, in merge mode it is laid over what is stored. The set that would be left is validated, and
then a batch of mutations is applied that is put together from the stored assets, the delete list
and the bundle.

The call runs against one stored set: what other writers do between its statements is the matter
of the shared writer.
-/

namespace Catalyst.Assets

open Library Library.Check

structure ConfigAssetBundle (J : Type) where
  defaultAgentName : Option String
  agents : List J
  skills : List J
  deriving DecidableEq

/-- The registered kinds with what a release needs of them. -/
structure BundleKinds (J : Type) extends AssetKindRegistry J where
  /-- An accepted definition as its kind's schema reads it, defaults applied. -/
  asRead : AssetKindId → J → J
  asRead_name : readDefinitionName (asRead kind d) = readDefinitionName d
  /-- Where a bundle carries a kind; a kind without a slot is not the release's. -/
  slot : AssetKindId → Option (ConfigAssetBundle J → List J)
  hasWorkspaceAvailability : AssetKindId → Bool
  /-- The rules for the agents a write adds or changes: the stored set and the validated one. -/
  assertChangedAgentsAllowed : AssetSet J → AssetSet J → Except AppError Unit

structure ReplaceCommand (J : Type) where
  bundle : ConfigAssetBundle J
  baseVersion : Option Nat
  merge : Bool
  baseRevisions : Option (OrderedMap AssetKey (Option Nat))
  baseDefaultAgentName : Option (Option String)
  deleteAssets : List AssetKey
  deriving DecidableEq

variable {J : Type}

def withoutDefinition (readName : J → Option String) (set : AssetSet J) (key : AssetKey) :
    AssetSet J :=
  ⟨set.defaultAgentName, Function.update set.definitions key.1
    ((set.definitions key.1).filter (readName · ≠ some key.2))⟩

def requireConfigName (readName : J → Option String) (config : J) : Except AppError String :=
  need (readName config) ⟨.validationFailed, "Config asset must have a name"⟩

def keyOf (readName : J → Option String) (entry : AssetKindId × J) : Except AppError AssetKey := do
  let name ← requireConfigName readName entry.2
  return (entry.1, name)

def AssetSet.entries (set : AssetSet J) : List (AssetKindId × J) :=
  AssetKindId.all.flatMap fun kind => (set.definitions kind).map (kind, ·)

def assetKeysOf (readName : J → Option String) (set : AssetSet J) :
    Except AppError (List AssetKey) :=
  set.entries.mapM (keyOf readName)

namespace BundleKinds

variable (kinds : BundleKinds J)

def carried (bundle : ConfigAssetBundle J) (kind : AssetKindId) : List J :=
  match kinds.slot kind with
  | some definitions => definitions bundle
  | none => []

/-- What a release bundle carries, as a set. A kind without a slot is left as `base` has it. -/
def assetSetOfBundle (bundle : ConfigAssetBundle J) (base : AssetSet J) : AssetSet J where
  defaultAgentName := bundle.defaultAgentName
  definitions kind := if (kinds.slot kind).isSome then kinds.carried bundle kind
    else base.definitions kind

/-- The stored set with what a bundle carries put over it, name by name. -/
def mergeIntoSet (stored : AssetSet J) (incoming : ConfigAssetBundle J) : AssetSet J where
  defaultAgentName := incoming.defaultAgentName.or stored.defaultAgentName
  definitions kind :=
    let sent := kinds.carried incoming kind
    if (kinds.slot kind).isSome then
      (stored.definitions kind).filter (fun config =>
        kinds.readDefinitionName config ∉ sent.map kinds.readDefinitionName) ++ sent
    else stored.definitions kind

end BundleKinds

def ConfigAssetRecord.workspaceOwned (asset : ConfigAssetRecord J) : Bool :=
  asset.scope ≠ .ofInstance

/-- Puts back the definitions workspaces own, where the set does not carry their name. -/
def withWorkspaceOwned (readName : J → Option String) (set : AssetSet J)
    (stored : List (ConfigAssetRecord J)) : Except AppError (AssetSet J) := do
  let owned := stored.filter fun asset => asset.workspaceOwned && asset.config.isSome
  if owned.isEmpty then return set
  let carried ← assetKeysOf readName set
  return ⟨set.defaultAgentName, fun kind => set.definitions kind ++ owned.filterMap fun asset =>
    if asset.key.1 = kind ∧ asset.key ∉ carried then asset.config else none⟩

namespace BundleKinds

variable (kinds : BundleKinds J)

def reads (kind : AssetKindId) (config : J) : Option J :=
  let accepts : Bool := match kind with
    | .agent => (kinds.agent.readOne agentNameRule config).toOption.isSome
    | .skill => (kinds.skill.readOne skillNameRule config).toOption.isSome
  if accepts then some (kinds.asRead kind config) else none

def accepted (set : AssetSet J) : AssetSet J where
  defaultAgentName := set.defaultAgentName
  definitions kind := (set.definitions kind).filterMap (kinds.reads kind)

def bundleOver (command : ReplaceCommand J) (stored : AssetSet J)
    (assets : List (ConfigAssetRecord J)) : Except AppError (AssetSet J) :=
  if command.merge then .ok (kinds.mergeIntoSet stored command.bundle)
  else withWorkspaceOwned kinds.readDefinitionName (kinds.assetSetOfBundle command.bundle stored)
    assets

def candidateOf (command : ReplaceCommand J) (stored : AssetSet J)
    (assets : List (ConfigAssetRecord J)) : Except AppError (AssetSet J) := do
  let base ← kinds.bundleOver command stored assets
  let candidate := command.deleteAssets.foldl (withoutDefinition kinds.readDefinitionName) base
  return if command.baseDefaultAgentName.isSome then
    { candidate with defaultAgentName := command.bundle.defaultAgentName } else candidate

end BundleKinds

def ConfigAsset.latest (asset : ConfigAsset J) : ConfigAsset J :=
  match asset.revisions.getLast? with
  | some r => { asset with
      status := if r.operation = .delete then .deleted else .active
      activeRevisionId := r.id
      revisions := [r] }
  | none => { asset with status := .deleted, revisions := [] }

def Db.latest (db : Db J) : Db J := { db with assets := db.assets.map ConfigAsset.latest }

def ReplaceCommand.setsDefault (command : ReplaceCommand J) : Bool :=
  !command.merge || command.bundle.defaultAgentName.isSome || command.baseDefaultAgentName.isSome

def ReplaceCommand.defaultMutations (command : ReplaceCommand J) : List (ConfigAssetMutation J) :=
  if command.setsDefault then [.setDefaultAgent command.bundle.defaultAgentName] else []

namespace BundleKinds

variable (kinds : BundleKinds J)

def carriedEntries (bundle : ConfigAssetBundle J) : List (AssetKindId × J) :=
  AssetKindId.all.flatMap fun kind => (kinds.carried bundle kind).map (kind, ·)

/-- Reports stale assets before references to what changed are looked at. The store repeats
these checks under its lock. -/
def assertBases (command : ReplaceCommand J) (candidate : AssetSet J)
    (assets : List (ConfigAssetRecord J)) (db : Db J) : Except AppError Unit :=
  match command.baseRevisions with
  | none => .ok ()
  | some bases => do
    let kept ← assetKeysOf kinds.readDefinitionName candidate
    let sent ← (kinds.carriedEntries command.bundle).mapM (keyOf kinds.readDefinitionName)
    let dropped := if command.merge then [] else (assets.map (·.key)).filter (· ∉ kept)
    let touched := sent ++ command.deleteAssets ++ dropped
    assertConfigAssetBases
      { baseRevisions := some bases
        baseDefaultAgentName := command.baseDefaultAgentName
        mutations := touched.map (.delete · none) ++ command.defaultMutations } db.latest

def providedDefinitions (command : ReplaceCommand J) (validated : AssetSet J)
    (kind : AssetKindId) : List (String × J) :=
  (validated.definitions kind).filterMap fun config =>
    match kinds.readDefinitionName config with
    | some name =>
      if some name ∈ (kinds.carried command.bundle kind).map kinds.readDefinitionName then
        some (name, config) else none
    | none => none

def upserts (command : ReplaceCommand J) (validated : AssetSet J) : List (AssetKey × J) :=
  AssetKindId.all.flatMap fun kind =>
    (kinds.providedDefinitions command validated kind).map fun e => ((kind, e.1), e.2)

def mutationsOf (command : ReplaceCommand J) (validated : AssetSet J) (desired : List AssetKey)
    (assets : List (ConfigAssetRecord J)) : List (ConfigAssetMutation J) :=
  (if command.merge then [] else
    ((assets.map (·.key)).filter (· ∉ desired)).map (.delete · none)) ++
  command.deleteAssets.map (.delete · none) ++
  (kinds.upserts command validated).map (fun e => .upsert e.1 e.2 false none) ++
  command.defaultMutations

end BundleKinds

def applyValidatedConfigAssetMutations (kinds : AssetKindRegistry J)
    (nameLe : String → String → Bool) (input : MutationInput J) (db : Db J) :
    Except AppError (Db J) := do
  assertScopesCanOwn input.mutations
  let stored := db.set nameLe
  kinds.validateAssetSet (candidate kinds.readDefinitionName stored input.mutations) stored
  applyConfigAssetMutations input db

def isHiddenEverywhere : Option AgentAvailability → Bool
  | none => true
  | some availability => availability.mode = .selected && !availability.personalWorkspaces &&
      availability.collaborationWorkspaceIds.isEmpty

structure Replaced (J : Type) where
  db : Db J
  hiddenAgentNames : List String
  deriving DecidableEq

namespace BundleKinds

variable (kinds : BundleKinds J)

def hiddenAgentNames (command : ReplaceCommand J) (validated : AssetSet J) (db : Db J) :
    List String :=
  (AssetKindId.all.filter kinds.hasWorkspaceAvailability).flatMap fun kind =>
    ((kinds.providedDefinitions command validated kind).map Prod.fst).filter fun name =>
      isHiddenEverywhere
        (((db.find? (.agent, name)).filter (·.status = .active)).bind (·.availability))

def replaceAssets (nameLe : String → String → Bool) (command : ReplaceCommand J) (db : Db J) :
    Except AppError (Replaced J) := do
  let assets := listActiveConfigAssets nameLe db
  let stored := db.set nameLe
  let candidate ← kinds.candidateOf command stored assets
  kinds.assertBases command candidate assets db
  kinds.validateAssetSet candidate stored
  let validated := kinds.accepted candidate
  kinds.assertChangedAgentsAllowed stored validated
  let desired ← assetKeysOf kinds.readDefinitionName validated
  let written ← applyValidatedConfigAssetMutations kinds.toAssetKindRegistry nameLe
    { baseVersion := command.baseVersion
      baseRevisions := command.baseRevisions
      baseDefaultAgentName := command.baseDefaultAgentName
      initialAgentAvailability := some .selectedWhenReplacingSelected
      mutations := kinds.mutationsOf command validated desired assets } db
  return ⟨written, kinds.hiddenAgentNames command validated written⟩

end BundleKinds

end Catalyst.Assets
