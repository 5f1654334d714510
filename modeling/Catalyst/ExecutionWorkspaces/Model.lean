import Catalyst.Core
import Catalyst.Library.Check
import Catalyst.Library.Ordered
import Catalyst.Library.Processes
import Catalyst.Library.Table

/-!
# Execution workspaces and their files

The bytes of a file are stored objects; its row names the object it has now and, in its
metadata, those it had. A write holds the row lock of the conversation from early on to its
end; a file's removal takes no lock before its UPDATE. Each statement sees what is committed
when it runs, and the last writes of a transaction are seen when it commits.
-/

namespace Catalyst.ExecutionWorkspaces

open Library

inductive JsonItem
  | string (value : String)
  | other (text : String)
  deriving DecidableEq

inductive JsonField
  | array (items : List JsonItem)
  | other (text : String)
  deriving DecidableEq

abbrev JsonObject := OrderedMap String JsonField

def JsonItem.string? : JsonItem → Option String
  | string value => some value
  | other _ => none

def uniqueStrings (values : List String) : List String := values.eraseDups

def retainedObjectKeys (metadata : JsonObject) : List String :=
  match metadata.get? "retainedObjectKeys" with
  | some (.array items) => items.filterMap JsonItem.string?
  | _ => []

/-- `{ ...metadata, retainedObjectKeys: keys }` -/
def withRetained (metadata : JsonObject) (keys : List String) : JsonObject :=
  metadata.set "retainedObjectKeys" (.array ((uniqueStrings keys).map .string))

def workspaceFileMetadataWithRetainedObjectKey (metadata : JsonObject) (objectKey : String) : JsonObject :=
  withRetained metadata (retainedObjectKeys metadata ++ [objectKey])

def preserveRetainedObjectKeys (metadata : JsonObject) (existingMetadata : Option JsonObject) : JsonObject :=
  let retained := (existingMetadata.map retainedObjectKeys).getD []
  if retained = [] then metadata else withRetained metadata (retainedObjectKeys metadata ++ retained)

structure Conversation where
  id : String
  active : Bool
  /-- Its workspace, or the user it belongs to, is marked. -/
  inDeletion : Bool
  deriving DecidableEq

inductive ExecutionWorkspaceStatus
  | active | deleted
  deriving DecidableEq

structure ExecutionWorkspace where
  id : String
  conversationId : String
  status : ExecutionWorkspaceStatus
  deletedAt : Option Time
  updatedAt : Time
  deriving DecidableEq

structure WorkspaceFile where
  workspaceId : String
  path : String
  conversationId : String
  objectKey : String
  byteSize : Nat
  checksum : String
  mimeType : Option String
  metadata : JsonObject
  lastCommandId : Option String
  deletedAt : Option Time
  createdAt : Time
  updatedAt : Time
  deriving DecidableEq

def WorkspaceFile.key (file : WorkspaceFile) : String × String := (file.workspaceId, file.path)

def WorkspaceFile.objectKeys (file : WorkspaceFile) : List String :=
  file.objectKey :: retainedObjectKeys file.metadata

structure Db where
  conversations : List Conversation
  workspaces : List ExecutionWorkspace
  files : List WorkspaceFile
  deriving DecidableEq

def workspaceFileMetadataForUpsert (metadata : JsonObject) (existing : Option WorkspaceFile)
    (nextObjectKey : String) : JsonObject :=
  let preserved := preserveRetainedObjectKeys metadata (existing.map (·.metadata))
  match existing with
  | none => preserved
  | some file =>
    if file.objectKey = nextObjectKey then preserved
    else workspaceFileMetadataWithRetainedObjectKey preserved file.objectKey

structure UpsertWorkspaceFileInput where
  workspaceId : String
  path : String
  objectKey : String
  byteSize : Nat
  checksum : String
  mimeType : Option String := none
  metadata : JsonObject := []
  lastCommandId : Option String := none
  updatedAt : Time
  deriving DecidableEq

structure DeleteWorkspaceFileInput where
  workspaceId : String
  path : String
  lastCommandId : Option String := none
  deletedAt : Time
  deriving DecidableEq

structure ExecutionWorkspaceDeletionSummary where
  workspaceCount : Nat
  fileCount : Nat
  fileObjectKeys : List String
  deriving DecidableEq

def workspaceNotFound : AppError := ⟨.notFound, "Execution workspace is not available"⟩

def conversationNotFound : AppError := ⟨.notFound, "Conversation is not available"⟩

def requireActiveWorkspace (db : Db) (workspaceId : String) : Except AppError ExecutionWorkspace :=
  Check.need (db.workspaces.find? fun w => w.id = workspaceId ∧ w.status = .active) workspaceNotFound

def findConversation (db : Db) (conversationId : String) : Option Conversation :=
  db.conversations.find? fun c => c.id = conversationId ∧ c.active

def requireNotInDeletion (db : Db) (conversationId : String) : Except AppError Unit := do
  let place ← Check.need (db.conversations.find? (·.id = conversationId)) conversationNotFound
  Check.require (place.inDeletion = false) ⟨.conflict, "Conversation no longer accepts messages"⟩

def findFile (db : Db) (workspaceId path : String) : Option WorkspaceFile :=
  db.files.find? (·.key = (workspaceId, path))

def findLiveFile (db : Db) (workspaceId path : String) : Option WorkspaceFile :=
  db.files.find? fun file => file.key = (workspaceId, path) ∧ file.deletedAt = none

def touchWorkspace (db : Db) (workspaceId : String) (updatedAt : Time) : List ExecutionWorkspace :=
  updateWhere (·.id = workspaceId) ({ · with updatedAt := updatedAt }) db.workspaces

/-- The row that INSERT … ON CONFLICT DO UPDATE leaves; `current` is the row in its way. -/
def UpsertWorkspaceFileInput.row (input : UpsertWorkspaceFileInput) (conversationId : String)
    (existing current : Option WorkspaceFile) : WorkspaceFile where
  workspaceId := input.workspaceId
  path := input.path
  conversationId := (current.map (·.conversationId)).getD conversationId
  objectKey := input.objectKey
  byteSize := input.byteSize
  checksum := input.checksum
  mimeType := input.mimeType
  metadata := workspaceFileMetadataForUpsert input.metadata existing input.objectKey
  lastCommandId := input.lastCommandId
  deletedAt := none
  createdAt := (current.map (·.createdAt)).getD input.updatedAt
  updatedAt := input.updatedAt

def putFile (db : Db) (file : WorkspaceFile) (updatedAt : Time) : Db :=
  { db with
    files := upsert WorkspaceFile.key file db.files
    workspaces := touchWorkspace db file.workspaceId updatedAt }

def DeleteWorkspaceFileInput.row (input : DeleteWorkspaceFileInput) (existing current : WorkspaceFile) :
    WorkspaceFile :=
  { current with
    metadata := workspaceFileMetadataWithRetainedObjectKey existing.metadata existing.objectKey
    lastCommandId := input.lastCommandId <|> existing.lastCommandId
    deletedAt := some input.deletedAt
    updatedAt := input.deletedAt }

def collectExecutionWorkspaceDeletionSummary (db : Db) (conversationId : String) :
    ExecutionWorkspaceDeletionSummary :=
  let files := db.files.filter (·.conversationId = conversationId)
  { workspaceCount := count (·.conversationId = conversationId) db.workspaces
    fileCount := files.length
    fileObjectKeys := uniqueStrings (files.flatMap WorkspaceFile.objectKeys) }

def removeWorkspaces (db : Db) (conversationId : String) (deletedAt : Time) : Db :=
  { db with
    files := deleteWhere (·.conversationId = conversationId) db.files
    workspaces := updateWhere (·.conversationId = conversationId)
      ({ · with status := .deleted, deletedAt := some deletedAt, updatedAt := deletedAt }) db.workspaces }

inductive UpsertPhase
  | checking
  | locking (conversationId : String)
  | locked (conversationId : String)
  | rechecking (conversationId : String)
  | reading (lockedId conversationId : String)
  | writing (lockedId conversationId : String) (existing : Option WorkspaceFile)
  deriving DecidableEq

inductive DeletePhase
  | checking
  | reading
  | writing (existing : WorkspaceFile)
  deriving DecidableEq

inductive RemovalPhase
  | collecting
  | removing (summary : ExecutionWorkspaceDeletionSummary)
  deriving DecidableEq

inductive Process
  | upserting (input : UpsertWorkspaceFileInput) (phase : UpsertPhase)
  | deleting (input : DeleteWorkspaceFileInput) (phase : DeletePhase)
  | removing (conversationId : String) (deletedAt : Time) (phase : RemovalPhase)
  | closing (conversationId : String)
  deriving DecidableEq

inductive Request
  | upsertWorkspaceFile (input : UpsertWorkspaceFileInput)
  | deleteWorkspaceFile (input : DeleteWorkspaceFileInput)
  | markExecutionWorkspaceDeleted (conversationId : String) (deletedAt : Time)
  /-- A deletion or an expiry claims the conversation, under its row lock. -/
  | closeConversation (conversationId : String)
  deriving DecidableEq

inductive Answer
  | upserted (file : WorkspaceFile)
  | deleted (file : Option WorkspaceFile)
  | removed (conversationId : String) (summary : ExecutionWorkspaceDeletionSummary)
  | closed
  | refused (e : AppError)
  deriving DecidableEq

def Request.start : Request → Process
  | upsertWorkspaceFile input => .upserting input .checking
  | deleteWorkspaceFile input => .deleting input .checking
  | markExecutionWorkspaceDeleted conversationId deletedAt => .removing conversationId deletedAt .collecting
  | closeConversation conversationId => .closing conversationId

def Process.holds : Process → Option String
  | upserting _ (.locked c) | upserting _ (.rechecking c) | upserting _ (.reading c _)
  | upserting _ (.writing c _ _) => some c
  | _ => none

def waitsFor (q : Process) : Process → Prop
  | .upserting _ (.locking c) => q.holds = some c
  | .closing c => q.holds = some c
  | _ => False

abbrev Outcome := Option Answer × Option Process × Db

def orRefused (db : Db) (check : Except AppError α) (next : α → Process) : Outcome :=
  match check with
  | .ok a => (none, some (next a), db)
  | .error e => (some (.refused e), none, db)

def upsertWorkspaceFile (db : Db) (input : UpsertWorkspaceFileInput) : UpsertPhase → Outcome
  | .checking =>
    orRefused db (requireActiveWorkspace db input.workspaceId) fun w => .upserting input (.locking w.conversationId)
  | .locking c =>
    orRefused db (Check.need (findConversation db c) conversationNotFound) fun _ => .upserting input (.locked c)
  | .locked c => orRefused db (requireNotInDeletion db c) fun _ => .upserting input (.rechecking c)
  | .rechecking locked =>
    orRefused db (requireActiveWorkspace db input.workspaceId) fun w => .upserting input (.reading locked w.conversationId)
  | .reading locked c =>
    (none, some (.upserting input (.writing locked c (findFile db input.workspaceId input.path))), db)
  | .writing _ c existing =>
    let row := input.row c existing (findFile db input.workspaceId input.path)
    (some (.upserted row), none, putFile db row input.updatedAt)

def deleteWorkspaceFile (db : Db) (input : DeleteWorkspaceFileInput) : DeletePhase → Outcome
  | .checking => orRefused db (requireActiveWorkspace db input.workspaceId) fun _ => .deleting input .reading
  | .reading =>
    match findLiveFile db input.workspaceId input.path with
    | none => (some (.deleted none), none, db)
    | some existing => (none, some (.deleting input (.writing existing)), db)
  | .writing existing =>
    match findLiveFile db input.workspaceId input.path with
    | none => (some (.deleted none), none, db)
    | some current =>
      let row := input.row existing current
      (some (.deleted (some row)), none, putFile db row input.deletedAt)

def markExecutionWorkspaceDeleted (db : Db) (c : String) (deletedAt : Time) : RemovalPhase → Outcome
  | .collecting =>
    (none, some (.removing c deletedAt (.removing (collectExecutionWorkspaceDeletionSummary db c))), db)
  | .removing summary => (some (.removed c summary), none, removeWorkspaces db c deletedAt)

def closeConversation (db : Db) (c : String) : Outcome :=
  (some .closed, none,
    { db with conversations := updateWhere (·.id = c) ({ · with active := false }) db.conversations })

inductive Mark
  | inDeletion (conversationId : String)
  deriving DecidableEq

def workspaceSystem : Processes Db Request Process Mark Answer where
  start := Request.start
  blocks := waitsFor
  step db
    | .upserting input phase => upsertWorkspaceFile db input phase
    | .deleting input phase => deleteWorkspaceFile db input phase
    | .removing c deletedAt phase => markExecutionWorkspaceDeleted db c deletedAt phase
    | .closing c => closeConversation db c
  env db
    | .inDeletion c =>
      (none, { db with conversations := updateWhere (·.id = c) ({ · with inDeletion := true }) db.conversations })

def Closed (db : Db) (c : String) : Prop := ∀ conversation ∈ db.conversations, conversation.id = c → conversation.active = false

def allowed (s : Pool Db Process) : Move Request Mark → Prop
  | .start (.markExecutionWorkspaceDeleted c _) => Closed s.store c
  | _ => True

def workspaceMachine : Machine (Pool Db Process) (Move Request Mark) (Option Answer) :=
  workspaceSystem.machine (fun db => db.files = [] ∧ (db.workspaces.map (·.id)).Nodup) allowed

end Catalyst.ExecutionWorkspaces
