import Catalyst.Grants.Model

/-!
# Namespaces and the grants that name them

A Namespace is a registered prefix of names. Whoever registers or removes one, or writes a
grant, holds the access lock of the instance from the first statement of the transaction to
its end; a grant goes without it. Each statement sees what is committed when it runs.
-/

namespace Catalyst.Namespaces

open Library Access Grants

structure ProductUser where
  clientInstanceId : ClientInstanceId
  id : String
  deletionRequested : Bool
  deriving DecidableEq

structure Namespace where
  clientInstanceId : ClientInstanceId
  namePrefix : String
  displayName : String
  allowedToolNames : Option (List String)
  allowedModelBindingIds : Option (List String)
  createdBy : String
  deriving DecidableEq

def Namespace.key (n : Namespace) : ClientInstanceId × String := (n.clientInstanceId, n.namePrefix)

structure Db where
  users : List ProductUser
  namespaces : List Namespace
  grants : List GrantRow
  nextGrantId : Nat
  deriving DecidableEq

def startsWith (name namePrefix : String) : Prop := namePrefix.toList <+: name.toList

instance : Decidable (startsWith name namePrefix) := inferInstanceAs (Decidable (_ <+: _))

def overlaps (p q : String) : Prop := startsWith p q ∨ startsWith q p

instance : Decidable (overlaps p q) := inferInstanceAs (Decidable (_ ∨ _))

def violates (constraint : String) : AppError := ⟨.internal, s!"new row violates constraint {constraint}"⟩

def checkHolder (db : Db) (input : PermissionGrant) : Except AppError Unit :=
  let holder := db.users.find? fun user => user.clientInstanceId = input.clientInstanceId ∧ user.id = input.holderId
  Check.require (input.holderKind = .user → ∀ user ∈ holder, user.deletionRequested = false) userInDeletionError

def checkRegistered (db : Db) (input : PermissionGrant) : Except AppError Unit :=
  Check.require (input.scopeKind = .ofNamespace →
      ∃ n ∈ db.namespaces, n.key = (input.clientInstanceId, input.inNamespace.getD ""))
    (refused "Namespace is not registered")

def insertGrant (db : Db) (input : PermissionGrant) : Except AppError (GrantRow × Db) := do
  Check.require (input.scopeKind = .ofNamespace ↔ input.inNamespace.isSome) (violates "permission_grants_namespace_check")
  Check.require (input.scopeKind = .workspace ∨ input.scopeKind = .asset ↔ input.scopeId.isSome)
    (violates "permission_grants_scope_id_check")
  Check.require (∀ g ∈ db.grants, uniqueKey g.toPermissionGrant ≠ uniqueKey input)
    ⟨.conflict, "The holder already has a grant row for this scope"⟩
  let row : GrantRow := { input with id := db.nextGrantId }
  return (row, { db with grants := row :: db.grants, nextGrantId := db.nextGrantId + 1 })

def matchesGrant (clientInstanceId : ClientInstanceId) (grantId : Nat) (row : GrantRow) : Prop :=
  row.clientInstanceId = clientInstanceId ∧ row.id = grantId

instance : DecidablePred (matchesGrant clientInstanceId grantId) := fun _ => inferInstanceAs (Decidable (_ ∧ _))

def deleteGrant (db : Db) (clientInstanceId : ClientInstanceId) (grantId : Nat) : Option GrantRow × Db :=
  (db.grants.find? (matchesGrant clientInstanceId grantId ·),
    { db with grants := deleteWhere (matchesGrant clientInstanceId grantId) db.grants })

def overlapping (db : Db) (input : Namespace) : List Namespace :=
  db.namespaces.filter fun n => n.clientInstanceId = input.clientInstanceId ∧ overlaps input.namePrefix n.namePrefix

def checkOverlaps (db : Db) (input : Namespace) : Except AppError Unit :=
  match ((overlapping db input).map (·.namePrefix)).mergeSort with
  | [] => .ok ()
  | registered :: _ =>
    .error ⟨.conflict, s!"Namespace '{input.namePrefix}' overlaps the registered Namespace '{registered}'"⟩

def insertNamespace (db : Db) (input : Namespace) : Except AppError Db := do
  Check.require (∀ n ∈ db.namespaces, n.key ≠ input.key) (violates "namespaces_pk")
  return { db with namespaces := input :: db.namespaces }

def checkUnused (db : Db) (clientInstanceId : ClientInstanceId) (namePrefix : String) : Except AppError Unit :=
  let grantCount := count (fun g : GrantRow => g.clientInstanceId = clientInstanceId ∧ g.inNamespace = some namePrefix) db.grants
  let plural := if grantCount = 1 then "" else "s"
  Check.require (grantCount = 0)
    ⟨.conflict, s!"Namespace '{namePrefix}' is named by {grantCount} grant row{plural}"⟩

def deleteNamespace (db : Db) (clientInstanceId : ClientInstanceId) (namePrefix : String) : Option Namespace × Db :=
  (db.namespaces.find? (·.key = (clientInstanceId, namePrefix)),
    { db with namespaces := deleteWhere (·.key = (clientInstanceId, namePrefix)) db.namespaces })

structure NamespaceUpdate where
  displayName : Option String
  allowedToolNames : Option (Option (List String))
  allowedModelBindingIds : Option (Option (List String))
  deriving DecidableEq

def NamespaceUpdate.set (update : NamespaceUpdate) (n : Namespace) : Namespace :=
  { n with
    displayName := update.displayName.getD n.displayName
    allowedToolNames := update.allowedToolNames.getD n.allowedToolNames
    allowedModelBindingIds := update.allowedModelBindingIds.getD n.allowedModelBindingIds }

def updateNamespace (db : Db) (clientInstanceId : ClientInstanceId) (namePrefix : String) (update : NamespaceUpdate) :
    Option Namespace × Db :=
  ((db.namespaces.find? (·.key = (clientInstanceId, namePrefix))).map update.set,
    { db with namespaces := updateWhere (·.key = (clientInstanceId, namePrefix)) update.set db.namespaces })

def markUserDeletionRequested (db : Db) (clientInstanceId : ClientInstanceId) (userId : String) : Db :=
  let users := updateWhere (fun user : ProductUser => user.clientInstanceId = clientInstanceId ∧ user.id = userId)
    (fun user => { user with deletionRequested := true }) db.users
  { db with users }

inductive GrantPhase
  | acquiring | findingHolder | findingNamespace | inserting
  deriving DecidableEq

inductive NamespacePhase
  | acquiring | checking | writing
  deriving DecidableEq

inductive Process
  | granting (input : PermissionGrant) (phase : GrantPhase)
  | revoking (clientInstanceId : ClientInstanceId) (grantId : Nat)
  | creating (input : Namespace) (phase : NamespacePhase)
  | updating (clientInstanceId : ClientInstanceId) (namePrefix : String) (update : NamespaceUpdate)
  | deleting (clientInstanceId : ClientInstanceId) (namePrefix : String) (phase : NamespacePhase)
  | marking (clientInstanceId : ClientInstanceId) (userId : String)
  deriving DecidableEq

inductive Request
  | createGrant (input : PermissionGrant)
  | deleteGrant (clientInstanceId : ClientInstanceId) (grantId : Nat)
  | createNamespace (input : Namespace)
  | updateNamespace (clientInstanceId : ClientInstanceId) (namePrefix : String) (update : NamespaceUpdate)
  | deleteNamespace (clientInstanceId : ClientInstanceId) (namePrefix : String)
  | markUserDeletionRequested (clientInstanceId : ClientInstanceId) (userId : String)
  deriving DecidableEq

inductive Answer
  | granted (row : GrantRow)
  | revoked (row : Option GrantRow)
  | created (row : Namespace)
  | updated (row : Option Namespace)
  | deleted (row : Option Namespace)
  | marked
  | failed (error : AppError)
  deriving DecidableEq

abbrev StepResult := Option Answer × Option Process × Db

def answers (db : Db) (answer : Answer) : StepResult := (some answer, none, db)

def checks (db : Db) (check : Except AppError Unit) (next : Process) : StepResult :=
  match check with
  | .error e => answers db (.failed e)
  | .ok _ => (none, some next, db)

def grant (db : Db) (input : PermissionGrant) : GrantPhase → StepResult
  | .acquiring => (none, some (.granting input .findingHolder), db)
  | .findingHolder => checks db (checkHolder db input) (.granting input .findingNamespace)
  | .findingNamespace => checks db (checkRegistered db input) (.granting input .inserting)
  | .inserting =>
    match insertGrant db input with
    | .error e => answers db (.failed e)
    | .ok (row, db') => answers db' (.granted row)

def create (db : Db) (input : Namespace) : NamespacePhase → StepResult
  | .acquiring => (none, some (.creating input .checking), db)
  | .checking => checks db (checkOverlaps db input) (.creating input .writing)
  | .writing =>
    match insertNamespace db input with
    | .error e => answers db (.failed e)
    | .ok db' => answers db' (.created input)

def delete (db : Db) (clientInstanceId : ClientInstanceId) (namePrefix : String) : NamespacePhase → StepResult
  | .acquiring => (none, some (.deleting clientInstanceId namePrefix .checking), db)
  | .checking => checks db (checkUnused db clientInstanceId namePrefix) (.deleting clientInstanceId namePrefix .writing)
  | .writing =>
    let (row, db') := deleteNamespace db clientInstanceId namePrefix
    answers db' (.deleted row)

def Process.access : Process → Option ClientInstanceId
  | granting _ .acquiring | creating _ .acquiring | deleting _ _ .acquiring => none
  | granting input _ => some input.clientInstanceId
  | creating input _ => some input.clientInstanceId
  | deleting clientInstanceId _ _ => some clientInstanceId
  | revoking .. | updating .. | marking .. => none

def Process.shares : Process → Option (ClientInstanceId × String)
  | granting input .findingNamespace | granting input .inserting =>
    if input.holderKind = .user then some (input.clientInstanceId, input.holderId) else none
  | granting .. | revoking .. | creating .. | updating .. | deleting .. | marking .. => none

def waitsFor (q : Process) : Process → Prop
  | .granting input .acquiring => q.access = some input.clientInstanceId
  | .creating input .acquiring => q.access = some input.clientInstanceId
  | .deleting clientInstanceId _ .acquiring => q.access = some clientInstanceId
  | .marking clientInstanceId userId => q.shares = some (clientInstanceId, userId)
  | _ => False

def accessSystem : Processes Db Request Process Empty Answer where
  start
    | .createGrant input => .granting input .acquiring
    | .deleteGrant clientInstanceId grantId => .revoking clientInstanceId grantId
    | .createNamespace input => .creating input .acquiring
    | .updateNamespace clientInstanceId namePrefix update => .updating clientInstanceId namePrefix update
    | .deleteNamespace clientInstanceId namePrefix => .deleting clientInstanceId namePrefix .acquiring
    | .markUserDeletionRequested clientInstanceId userId => .marking clientInstanceId userId
  blocks q t := waitsFor q t
  step db
    | .granting input phase => grant db input phase
    | .revoking clientInstanceId grantId =>
      let (row, db') := deleteGrant db clientInstanceId grantId
      answers db' (.revoked row)
    | .creating input phase => create db input phase
    | .updating clientInstanceId namePrefix update =>
      let (row, db') := updateNamespace db clientInstanceId namePrefix update
      answers db' (.updated row)
    | .deleting clientInstanceId namePrefix phase => delete db clientInstanceId namePrefix phase
    | .marking clientInstanceId userId => answers (markUserDeletionRequested db clientInstanceId userId) .marked
  env _ e := e.elim

end Catalyst.Namespaces
