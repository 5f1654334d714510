import Mathlib
import Catalyst.Assets.Bundle
import Catalyst.Assets.Invariant

/-!
# Batches of puts and deletes in one Namespace

`syncAssets` reads the row of every item, reads the stored set, checks the items against both,
and hands one batch to the shared write path. Each read is a statement of its own, so other
writers go between any two of them and before the batch is applied. Under the store's lock the
batch is checked against the revisions the items name.

What the caller may do and read, and the kinds' own editing rules, are answers given with the
call.
-/

namespace Catalyst.Assets

open Library Library.Check Library.Processes

-- -----------------
-- Items
-- -----------------

inductive AssetSyncItem (J : Type)
  | put (kind : String) (config : J) (expectedRevision : Option Nat)
  | delete (kind name : String) (expectedRevision : Nat)
  deriving DecidableEq

structure ItemRefusal where
  code : AppErrorCode
  message : String
  action : Option String := none
  currentRevision : Option (Option Nat) := none
  deriving DecidableEq

/-- What `getConfigAsset` answers of a row, a deleted one included. -/
structure ReadRow where
  id : Nat
  scope : AssetScope
  status : AssetStatus
  revision : Nat
  deriving DecidableEq

structure PlannedItem (J : Type) where
  index : Nat
  item : AssetSyncItem J
  name : Option String := none
  kind : Option AssetKindId := none
  /-- The instance's own row of the name, a deleted one included. -/
  asset : Option ReadRow := none
  refusal : Option ItemRefusal := none
  deriving DecidableEq

structure ReadyItem (J : Type) where
  index : Nat
  item : AssetSyncItem J
  key : AssetKey
  asset : Option ReadRow
  deriving DecidableEq

variable {J : Type}

def PlannedItem.refuse (entry : PlannedItem J) (refusal : ItemRefusal) : PlannedItem J :=
  { entry with refusal := some refusal }

namespace AssetSyncItem

def kindText : AssetSyncItem J → String
  | put kind _ _ => kind
  | delete kind _ _ => kind

def name? (readName : J → Option String) : AssetSyncItem J → Option String
  | put _ config _ => readName config
  | delete _ name _ => some name

def expectedRevision : AssetSyncItem J → Option Nat
  | put _ _ expected => expected
  | delete _ _ expected => some expected

def isPut : AssetSyncItem J → Bool
  | put _ _ _ => true
  | delete _ _ _ => false

end AssetSyncItem

def AssetKindId.ofText? (text : String) : Option AssetKindId :=
  AssetKindId.all.find? (·.text = text)

def PlannedItem.ready? (entry : PlannedItem J) : Option (ReadyItem J) :=
  match entry.kind, entry.name, entry.refusal with
  | some kind, some name, none => some ⟨entry.index, entry.item, (kind, name), entry.asset⟩
  | _, _, _ => none

def readyOf (planned : List (PlannedItem J)) : List (ReadyItem J) :=
  planned.filterMap PlannedItem.ready?

def planItem (readName : J → Option String) (index : Nat) (item : AssetSyncItem J)
    (refusal : Option ItemRefusal) : PlannedItem J where
  index := index
  item := item
  name := item.name? readName
  kind := AssetKindId.ofText? item.kindText
  refusal := refusal

/-- Why an item is refused by its own input, or the key it is ready under. -/
def itemKey (readName : J → Option String) (ns : String) (seen : List AssetKey)
    (item : AssetSyncItem J) : Except String AssetKey :=
  match AssetKindId.ofText? item.kindText, item.name? readName with
  | none, _ => .error s!"Asset kind '{item.kindText}' is not registered"
  | some _, none => .error "Config asset must have a name"
  | some kind, some name =>
    if ¬ ns.toList.isPrefixOf name.toList then
      .error s!"Config {kind.text} '{name}' is outside Namespace '{ns}'"
    else if (kind, name) ∈ seen then
      .error s!"Config {kind.text} '{name}' is named by more than one item"
    else .ok (kind, name)

/-- What each item is by its own input: a registered kind, a name, inside the prefix, once. -/
def planItems (readName : J → Option String) (ns : String) (seen : List AssetKey) (index : Nat) :
    List (AssetSyncItem J) → List (PlannedItem J)
  | [] => []
  | item :: items =>
    match itemKey readName ns seen item with
    | .error message =>
      planItem readName index item (some ⟨.validationFailed, message, none, none⟩) ::
        planItems readName ns seen (index + 1) items
    | .ok key =>
      planItem readName index item none :: planItems readName ns (key :: seen) (index + 1) items

def refusalOrder : List AppErrorCode := [.forbidden, .notFound, .conflict, .validationFailed]

structure RefusedBatch where
  error : AppError
  items : List (Option ItemRefusal)
  issues : List AssetSetIssue
  deriving DecidableEq

def refusedBatch (planned : List (PlannedItem J)) (issues : List AssetSetIssue) : RefusedBatch where
  error :=
    let refused := planned.filterMap (·.refusal)
    let code := refusalOrder.find? fun code => refused.any (·.code = code)
    ⟨code.getD .validationFailed,
      if refused.isEmpty then "The batch was not applied: the assets it would leave are invalid"
      else s!"The batch was not applied: {refused.length} of {planned.length} items were refused"⟩
  items := planned.map (·.refusal)
  issues := issues

def thrown (error : AppError) : RefusedBatch := ⟨error, [], []⟩

def stopIfRefused (planned : List (PlannedItem J)) (issues : List AssetSetIssue) :
    Except RefusedBatch Unit :=
  if planned.all (·.refusal.isNone) ∧ issues = [] then .ok () else .error (refusedBatch planned issues)

def refuseBy (rule : ReadyItem J → Option ItemRefusal) (planned : List (PlannedItem J)) :
    List (PlannedItem J) :=
  planned.map fun entry =>
    match entry.ready? with
    | some ready => { entry with refusal := rule ready }
    | none => entry

def refuseAt (index : Nat) (refusal : ItemRefusal) (planned : List (PlannedItem J)) :
    List (PlannedItem J) :=
  planned.map fun entry => if entry.index = index then entry.refuse refusal else entry

def issueText (issue : AssetSetIssue) : String :=
  if issue.path.isEmpty then issue.message
  else String.intercalate "." issue.path ++ ": " ++ issue.message

def AssetSetIssue.isOf (issue : AssetSetIssue) (entry : PlannedItem J) : Bool :=
  entry.item.isPut && issue.assetKind.isSome && entry.kind == issue.assetKind &&
    entry.name == issue.assetName

def placeIssues (issues : List AssetSetIssue) (planned : List (PlannedItem J)) :
    List (PlannedItem J) :=
  planned.map fun entry =>
    match issues.filter (·.isOf entry) with
    | [] => entry
    | own =>
      entry.refuse ⟨.validationFailed, String.intercalate "; " (own.map issueText), none, none⟩

def unplaced (issues : List AssetSetIssue) (planned : List (PlannedItem J)) : List AssetSetIssue :=
  issues.filter fun issue => !planned.any (issue.isOf ·)

/-- What the environment answers during one call. -/
structure SyncRules (J : Type) where
  /-- The right on an item's asset that the caller lacks. -/
  missingRight : AssetSyncItem J → Option ReadRow → Option String
  /-- Whether the caller may change the instance's default. -/
  mayChangeDefault : Bool
  /-- What a kind asks of a put beside its write right, from the stored definition. -/
  missingUpsertRight : AssetKey → Option J → J → Option String
  prepareInteractiveUpsert : AssetKindId → Option J → J → J
  registered : String → Bool
  authorizeInteractiveWrite : Except AppError Unit
  deleteRefusal : AssetKindId → Option ItemRefusal
  /-- What the caller may be told of the change, where some assets may not be read. -/
  tellableIssues : AssetSet J → AssetSet J → List AssetSetIssue
  /-- The agents that the rules for changed agents refuse, of the stored and the accepted set. -/
  changedAgentRefusals : AssetSet J → AssetSet J → List (String × ItemRefusal)
  upsertRefusal : AssetKey → Option J → J → Option ItemRefusal

structure AssetSyncInput (J : Type) where
  /-- The prefix of the one Namespace the batch belongs to. -/
  ns : String
  items : List (AssetSyncItem J)
  rules : SyncRules J
  /-- Which of two reads that go at once comes first. -/
  stateFirst : Bool

def authorizeItem (rules : SyncRules J) (row : Option ReadRow) (entry : PlannedItem J) :
    PlannedItem J :=
  match entry.ready? with
  | none => entry
  | some ready =>
    let own := row.filter (·.scope = .ofInstance)
    match rules.missingRight entry.item own with
    | some action =>
      entry.refuse ⟨.forbidden, s!"Missing the right '{action}'", some action, none⟩
    | none =>
      if row.isSome ∧ own.isNone then
        entry.refuse ⟨.validationFailed,
          s!"Config {ready.key.1.text} '{ready.key.2}' belongs to another scope", none, none⟩
      else { entry with asset := own }

/-- The set as the items would leave it. `stored` is what each put is prepared against. -/
def leftByItems (kinds : BundleKinds J) (rules : SyncRules J) (stored : AssetSet J)
    (entries : List (ReadyItem J)) (set : AssetSet J) : AssetSet J :=
  entries.foldl (fun left entry =>
    let removed := withoutDefinition kinds.readDefinitionName left entry.key
    match entry.item with
    | .delete _ _ _ => removed
    | .put _ config _ =>
      let prepared := rules.prepareInteractiveUpsert entry.key.1
        (stored.findDefinition kinds.readDefinitionName entry.key) config
      ⟨removed.defaultAgentName, Function.update removed.definitions entry.key.1
        (removed.definitions entry.key.1 ++ [prepared])⟩) set

structure DefaultChange where
  index : Nat
  agentName : Option String
  deriving DecidableEq

/-- The change of the instance default the batch brings with it, and the item that causes it. -/
def planDefaultChange (stored candidate : AssetSet J) (entries : List (ReadyItem J)) :
    Option DefaultChange :=
  let ofKind := entries.filter (·.key.1 = .agent)
  let first := if (stored.definitions .agent).isEmpty ∧ stored.defaultAgentName.isNone ∧
      (candidate.definitions .agent).length > 0 then ofKind.find? (·.item.isPut) else none
  let last := if (candidate.definitions .agent).isEmpty ∧ stored.defaultAgentName.isSome then
      ofKind.find? (fun entry => !entry.item.isPut ∧ some entry.key.2 = stored.defaultAgentName)
    else none
  (first.map fun entry => ⟨entry.index, some entry.key.2⟩).or
    (last.map fun entry => ⟨entry.index, none⟩)

def defaultChangeRefusal : ItemRefusal :=
  ⟨.forbidden, s!"Missing the right '{AssetKindId.agent.text}.write' on the instance, which changing its default needs",
    some s!"{AssetKindId.agent.text}.write", none⟩

def refuseDefaultChange (rules : SyncRules J) (change : Option DefaultChange)
    (planned : List (PlannedItem J)) : List (PlannedItem J) :=
  match change with
  | some change =>
    if rules.mayChangeDefault then planned else refuseAt change.index defaultChangeRefusal planned
  | none => planned

def requireFurtherRights (kinds : BundleKinds J) (rules : SyncRules J) (stored : AssetSet J)
    (planned : List (PlannedItem J)) : Except RefusedBatch Unit :=
  let entries := readyOf planned
  let change := planDefaultChange stored (leftByItems kinds rules stored entries stored) entries
  let missing (entry : ReadyItem J) : Option ItemRefusal :=
    match entry.item with
    | .delete _ _ _ => none
    | .put _ config _ =>
      let current := stored.findDefinition kinds.readDefinitionName entry.key
      (rules.missingUpsertRight entry.key current
        (rules.prepareInteractiveUpsert entry.key.1 current config)).map fun action =>
          ⟨.forbidden, s!"Missing the right '{action}'", some action, none⟩
  stopIfRefused (refuseBy missing (refuseDefaultChange rules change planned)) []

def ReadyItem.current (entry : ReadyItem J) : Option Nat :=
  (entry.asset.filter (·.status = .active)).map (·.revision)

def revisionRefusal (rules : SyncRules J) (entry : ReadyItem J) : Option ItemRefusal :=
  let deleteRefusal : Option ItemRefusal :=
    if entry.item.isPut then none
    else (rules.deleteRefusal entry.key.1).or (if entry.current.isNone then
      some ⟨.notFound, s!"Config {entry.key.1.text} '{entry.key.2}' was not found", none, none⟩
      else none)
  deleteRefusal.or (if entry.current ≠ entry.item.expectedRevision then
    some ⟨.conflict,
      match entry.current with
      | none => s!"Config {entry.key.1.text} '{entry.key.2}' does not exist"
      | some current => s!"Config {entry.key.1.text} '{entry.key.2}' is at revision {current}",
      none, some entry.current⟩ else none)

def checkRevisions (input : AssetSyncInput J) (planned : List (PlannedItem J)) :
    Except RefusedBatch Unit := do
  if ¬ input.rules.registered input.ns then
    .error (thrown ⟨.validationFailed, s!"Namespace '{input.ns}' is not registered"⟩)
  match input.rules.authorizeInteractiveWrite with
  | .error e => .error (thrown e)
  | .ok _ => stopIfRefused (refuseBy (revisionRefusal input.rules) planned) []

def writeIssues (check : Except AppError (List AssetSetIssue)) :
    Except RefusedBatch (List AssetSetIssue) :=
  match check with
  | .ok issues => .ok issues
  | .error e => if e.code = .validationFailed then .ok [⟨e.message, none, none, none, []⟩]
      else .error (thrown e)

def agentRefusal (refusals : List (String × ItemRefusal)) (entry : ReadyItem J) :
    Option ItemRefusal :=
  if entry.item.isPut ∧ entry.key.1 = .agent then
    (refusals.find? (·.1 = entry.key.2)).map Prod.snd
  else none

/-- The set the batch would leave, with the change of the default it brings. -/
def syncCandidate (kinds : BundleKinds J) (rules : SyncRules J) (stored : AssetSet J)
    (planned : List (PlannedItem J)) : AssetSet J × Option DefaultChange :=
  let entries := readyOf planned
  let left := leftByItems kinds rules stored entries stored
  match planDefaultChange stored left entries with
  | some change => ({ left with defaultAgentName := change.agentName }, some change)
  | none => (left, none)

/-- What the stored set makes of the batch: its refusal, or the batch for the store. -/
def syncInput (kinds : BundleKinds J) (rules : SyncRules J) (stored : AssetSet J)
    (planned : List (PlannedItem J)) : Except RefusedBatch (MutationInput J) := do
  let (candidate, change) := syncCandidate kinds rules stored planned
  stopIfRefused (refuseDefaultChange rules change planned) []
  let tellable := rules.tellableIssues stored candidate
  stopIfRefused (placeIssues tellable planned) (unplaced tellable planned)
  let found := kinds.findAssetSetIssues candidate
  stopIfRefused (placeIssues found planned) (unplaced found planned)
  let issues ← writeIssues (kinds.validateWrite candidate stored)
  stopIfRefused planned issues
  let accepted := kinds.accepted candidate
  let refusals := rules.changedAgentRefusals stored accepted
  match refusals.find? fun r => (readyOf planned).all fun entry => (agentRefusal [r] entry).isNone with
  | some r => .error (thrown ⟨r.2.code, r.2.message⟩)
  | none =>
    let upsertRefusal (entry : ReadyItem J) : Option ItemRefusal :=
      (agentRefusal refusals entry).or (if entry.item.isPut then
        (accepted.findDefinition kinds.readDefinitionName entry.key).bind
          (rules.upsertRefusal entry.key
            (stored.findDefinition kinds.readDefinitionName entry.key)) else none)
    stopIfRefused (refuseBy upsertRefusal planned) []
    let mutations ← (readyOf planned).mapM fun entry =>
      if entry.item.isPut then
        match accepted.findDefinition kinds.readDefinitionName entry.key with
        | some config => .ok (.upsert entry.key config false (some .ofInstance))
        | none => .error (thrown ⟨.validationFailed, "Config asset must be a JSON object"⟩)
      else .ok (.delete entry.key (some .ofInstance))
    return {
      baseRevisions := some ((readyOf planned).map fun entry => (entry.key, entry.item.expectedRevision))
      baseDefaultAgentName := if change.isSome then some stored.defaultAgentName else none
      mutations := mutations ++ (change.map fun c => .setDefaultAgent c.agentName).toList }

inductive SetRead (J : Type)
  | begun
  | stateRead (defaultAgentName : Option String)
  | assetsRead (assets : List (ConfigAssetRecord J))

def SetRead.step (nameLe : String → String → Bool) (stateFirst : Bool) (db : Db J) :
    SetRead J → SetRead J ⊕ AssetSet J
  | begun =>
    .inl (if stateFirst then .stateRead db.defaultAgentName
      else .assetsRead (listActiveConfigAssets nameLe db))
  | stateRead name => .inr (assetSetOf (listActiveConfigAssets nameLe db) name)
  | assetsRead assets => .inr (assetSetOf assets db.defaultAgentName)

inductive SyncPhase (J : Type)
  /-- The rows of the items are read, one after the other. -/
  | reading (done todo : List (PlannedItem J))
  | furtherRights (planned : List (PlannedItem J)) (read : SetRead J)
  | loading (planned : List (PlannedItem J)) (read : SetRead J)
  | writing (planned : List (PlannedItem J)) (batch : MutationInput J) (read : SetRead J)
  | validated (planned : List (PlannedItem J)) (batch : MutationInput J)

structure SyncCall (J : Type) where
  input : AssetSyncInput J
  phase : SyncPhase J

structure SyncedItem where
  put : Bool
  key : AssetKey
  revision : Nat
  deriving DecidableEq

inductive SyncAnswer
  | applied (version : Nat) (items : List SyncedItem)
  | refused (batch : RefusedBatch)
  deriving DecidableEq

def ReadyItem.reported (entry : ReadyItem J) : Nat := (entry.asset.map (·.revision)).getD 0 + 1

def ConfigAsset.readRow (asset : ConfigAsset J) : Option ReadRow :=
  asset.activeRevision?.map fun r => ⟨asset.id, asset.scope, asset.status, r.revision⟩

def getConfigAsset (db : Db J) (key : AssetKey) : Option ReadRow :=
  (db.find? key).bind ConfigAsset.readRow

def markConflicts (db : Db J) (planned : List (PlannedItem J)) : List (PlannedItem J) :=
  refuseBy (fun entry =>
    if baseMatches (db.find? entry.key) entry.item.expectedRevision then none
    else some ⟨.conflict, s!"Config {entry.key.1.text} '{entry.key.2}' changed meanwhile", none,
      some ((getConfigAsset db entry.key).map (·.revision))⟩) planned

namespace SyncCall

variable (kinds : BundleKinds J) (nameLe : String → String → Bool)

def goTo (t : SyncCall J) (phase : SyncPhase J) : SyncCall J := { t with phase := phase }

def start (input : AssetSyncInput J) (readName : J → Option String) : SyncCall J :=
  ⟨input, .reading [] (planItems readName input.ns [] 0 input.items)⟩

abbrev Outcome (J : Type) := Option SyncAnswer × Option (SyncCall J)

def orRefused (t : SyncCall J) (check : Except RefusedBatch (SyncPhase J)) : Outcome J :=
  match check with
  | .ok phase => (none, some (t.goTo phase))
  | .error batch => (some (.refused batch), none)

def readSet (t : SyncCall J) (db : Db J) (read : SetRead J) (more : SetRead J → SyncPhase J)
    (done : AssetSet J → Except RefusedBatch (SyncPhase J)) : Outcome J :=
  match read.step nameLe t.input.stateFirst db with
  | .inl read => (none, some (t.goTo (more read)))
  | .inr stored => t.orRefused (done stored)

/-- One statement of the call. -/
def step (s : Instance J) (t : SyncCall J) : Option SyncAnswer × Option (SyncCall J) × Instance J :=
  let same (outcome : Outcome J) : Option SyncAnswer × Option (SyncCall J) × Instance J :=
    (outcome.1, outcome.2, s)
  match t.phase with
  | .reading done (entry :: todo) =>
    let row := entry.ready?.bind fun ready => getConfigAsset s.toDb ready.key
    same (none, some (t.goTo (.reading (done ++ [authorizeItem t.input.rules row entry]) todo)))
  | .reading planned [] =>
    same (t.orRefused do
      stopIfRefused planned []
      return .furtherRights planned .begun)
  | .furtherRights planned read =>
    same (t.readSet nameLe s.toDb read (.furtherRights planned) fun stored => do
      requireFurtherRights kinds t.input.rules stored planned
      checkRevisions t.input planned
      return .loading planned .begun)
  | .loading planned read =>
    same (t.readSet nameLe s.toDb read (.loading planned) fun stored => do
      let batch ← syncInput kinds t.input.rules stored planned
      return .writing planned batch .begun)
  | .writing planned batch read =>
    same (t.readSet nameLe s.toDb read (.writing planned batch) fun stored =>
      match kinds.validateAssetSet (candidate kinds.readDefinitionName stored batch.mutations)
          stored with
      | .error e => .error (thrown e)
      | .ok _ => .ok (.validated planned batch))
  | .validated planned batch =>
    match AssetCall.transact s (.applyConfigAssetMutations batch) with
    | (.ok (.version version), s') =>
      (some (.applied version ((readyOf planned).map fun entry =>
        ⟨entry.item.isPut, entry.key, entry.reported⟩)), none, s')
    | (.ok _, s') => (none, none, s')
    | (.error e, s') =>
      let marked := markConflicts s.toDb planned
      let refused := if e.code = .conflict ∧ marked.any (·.refusal.isSome) then
        refusedBatch marked [] else thrown e
      (some (.refused refused), none, s')

end SyncCall

/-- Any number of sync calls, and every other writer of the assets as the environment. -/
def syncs (kinds : BundleKinds J) (nameLe : String → String → Bool) :
    Processes (Instance J) (AssetSyncInput J) (SyncCall J) (AssetCall J) SyncAnswer where
  start input := .start input kinds.readDefinitionName
  blocks _ _ := False
  step := SyncCall.step kinds nameLe
  env s call := (none, (call.transact s).2)

abbrev SyncPool (J : Type) := Pool (Instance J) (SyncCall J)

abbrev SyncMove (J : Type) := Move (AssetSyncInput J) (AssetCall J)

def syncSystem (kinds : BundleKinds J) (nameLe : String → String → Bool) :
    Machine (SyncPool J) (SyncMove J) (Option SyncAnswer) :=
  (syncs kinds nameLe).machine (fun s => s = .empty) fun _ _ => True

end Catalyst.Assets
