import Mathlib
import Catalyst.Patches.Parse
import Catalyst.WorkspaceCommands.Model

/-!
# The patch tool

The tool reads the files a patch names, applies the patch to their texts and checks the size of the
workspace before it stores anything. Then it stores the new files one by one, the bytes and then the
row of each, and removes the deleted ones last. Every call it makes of a store may throw.
-/

namespace Catalyst.Patches

open Library Library.Check WorkspaceCommands
open ExecutionWorkspaces (WorkspaceFile UpsertWorkspaceFileInput DeleteWorkspaceFileInput JsonObject)

-- -----------------
-- Results
-- -----------------

inductive ToolExecutionErrorCode
  | validationFailed | handlerFailed
  deriving DecidableEq

inductive ToolFailureDetails
  | parsed (details : PatchDetails)
  | path (path : String)
  | line (path : String) (line : Nat)
  | mimeType (mimeType : String)
  | size (totalBytes maxWorkspaceBytes : Nat)
  deriving DecidableEq

inductive Thrown
  | app (error : AppError)
  | other
  deriving DecidableEq

/-- The tool's executor answers with an error where its handler fails and where it throws. -/
inductive PatchToolError
  | failed (code : ToolExecutionErrorCode) (message : String) (details : Option ToolFailureDetails)
  | thrown (thrown : Thrown)
  deriving DecidableEq

def validationFailed (message : String) (details : Option ToolFailureDetails) : PatchToolError :=
  .failed .validationFailed message details

def handlerFailed (message : String) (details : Option ToolFailureDetails) : PatchToolError :=
  .failed .handlerFailed message details

structure ChangedFile where
  path : String
  byteSize : Nat
  checksum : String
  mimeType : Option String
  deriving DecidableEq

structure PatchOutput where
  workspaceId : String
  changedFiles : List ChangedFile
  deletedFiles : List String
  deriving DecidableEq

abbrev Bytes := List UInt8

structure Stores where
  files : List WorkspaceFile
  objects : OrderedMap String Bytes
  deriving DecidableEq

structure PatchLimits extends WorkspaceCommandServiceLimits where
  maxWorkspaceBytes : Nat

structure WorkspaceToolDependencies where
  /-- Both stores of bytes are configured. -/
  fileStore : Bool
  objectStore : Bool
  limits : PatchLimits
  createWorkspaceChecksum : Bytes → String
  clientInstanceId : String
  /-- The conversation of the tool request. -/
  conversationId : Option String
  /-- The workspace that `ensureExecutionWorkspace` answers. -/
  workspaceId : String
  /-- The id that `createPlatformId` draws for the object keys of this call. -/
  patchObjectKeyId : String
  /-- The clock as the row of a path is written. -/
  now : String → Time

/-- Where the calls of one run of the tool throw. No patch names a path twice. -/
structure Faults where
  ensureExecutionWorkspace : Option Thrown
  listWorkspaceFiles : Option Thrown
  readObject : String → Option Thrown
  /-- A put that throws may have stored the bytes. -/
  putObject : String → Option (Thrown × Bool)
  upsertWorkspaceFile : String → Option Thrown
  deleteObject : String → Bool
  deleteWorkspaceFile : String → Option Thrown

def orThrow : Option Thrown → Except PatchToolError Unit
  | some thrown => .error (.thrown thrown)
  | none => .ok ()

def isUnreserved (c : Char) : Bool := c.isAlphanum || c ∈ "-_.!~*'()".toList

def percentEncode (byte : UInt8) : List Char :=
  ['%', Nat.digitChar (byte.toNat / 16) |>.toUpper, Nat.digitChar (byte.toNat % 16) |>.toUpper]

/-- `encodeURIComponent` -/
def encodeObjectKeySegment (value : String) : String :=
  String.ofList (value.toList.flatMap fun c =>
    if isUnreserved c then [c] else (String.utf8EncodeChar c).flatMap percentEncode)

def createWorkspaceFileObjectKey (deps : WorkspaceToolDependencies) (conversationId checksum path : String) : String :=
  "/".intercalate ("execution-workspaces" :: [deps.clientInstanceId, conversationId, deps.workspaceId,
    deps.patchObjectKeyId, checksum].map encodeObjectKeySegment ++
      (path.toList.splitOn '/').map fun segment => encodeObjectKeySegment (String.ofList segment))

def encodeText (text : List Char) : Bytes := text.flatMap String.utf8EncodeChar

/-- `new TextDecoder("utf-8", { fatal: true }).decode`, which takes a byte order mark away -/
def decodeText? (bytes : Bytes) : Option (List Char) := do
  let characters ← (ByteArray.mk bytes.toArray).utf8Decode?
  match characters.toList with
  | '\uFEFF' :: text => some text
  | text => some text

def isTextMimeType (mimeType : String) : Bool :=
  let type := (mimeType.toList.map Char.toLower).takeWhile (· ≠ ';')
  type ∈ ["application/csv", "application/json", "application/javascript", "application/typescript",
      "application/xml", "application/x-yaml", "application/yaml"].map String.toList ||
    "+json".toList.isSuffixOf type || "+xml".toList.isSuffixOf type || "text/".toList.isPrefixOf type

def decodeTextFile (bytes : Bytes) (mimeType : Option String) : Except PatchToolError (List Char) := do
  require (0 ∉ bytes) (handlerFailed "Workspace file appears to be binary" none)
  match mimeType with
  | some type =>
    require (type = "" ∨ isTextMimeType type)
      (handlerFailed "Workspace file is not a supported text MIME type" (some (.mimeType type)))
  | none => pure ()
  need (decodeText? bytes) (handlerFailed "Workspace file is not valid UTF-8 text" none)

structure PlannedWrite where
  path : String
  bytes : Bytes
  checksum : String
  mimeType : String
  existing : Option WorkspaceFile
  deriving DecidableEq

inductive PlannedChange
  | write (write : PlannedWrite)
  | delete (path : String)
  deriving DecidableEq

def PlannedChange.write? : PlannedChange → Option PlannedWrite
  | write w => some w
  | delete _ => none

def PlannedChange.delete? : PlannedChange → Option String
  | write _ => none
  | delete path => some path

def ofPatchFailure (failure : PatchFailure) : PatchToolError :=
  validationFailed failure.message (some (.line failure.path failure.line))

def readPatchTargetText (faults : Faults) (stores : Stores) (file : WorkspaceFile) : Except PatchToolError (List Char) := do
  orThrow (faults.readObject file.objectKey)
  let bytes ← need (stores.objects.get? file.objectKey) (.thrown .other)
  decodeTextFile bytes file.mimeType

/-- One round of the loop of `preparePatchChanges`. -/
def prepareChange (deps : WorkspaceToolDependencies) (faults : Faults) (stores : Stores)
    (existingFiles : List WorkspaceFile) (change : WorkspacePatchChange) : Except PatchToolError PlannedChange := do
  let existing := existingFiles.find? fun file => file.path = change.path
  require (¬ (change.operation = .create ∧ existing.isSome))
    (validationFailed "Workspace patch cannot create a file that already exists" (some (.path change.path)))
  require (¬ (change.operation ≠ .create ∧ existing = none))
    (validationFailed "Workspace patch target file was not found" (some (.path change.path)))
  let currentText ← match existing with
    | some file => readPatchTargetText faults stores file
    | none => pure []
  let patched ← (applyWorkspacePatchToText currentText change).mapError ofPatchFailure
  if change.operation = .delete then
    require (patched = [])
      (validationFailed "Workspace delete patch must remove the entire file" (some (.path change.path)))
    return .delete change.path
  else
    let bytes := encodeText patched
    return .write ⟨change.path, bytes, deps.createWorkspaceChecksum bytes,
      (existing.bind (·.mimeType)).getD "text/plain", existing⟩

structure PreparedChanges where
  existingFiles : List WorkspaceFile
  writes : List PlannedWrite
  deletes : List String
  deriving DecidableEq

def preparePatchChanges (deps : WorkspaceToolDependencies) (faults : Faults) (stores : Stores)
    (changes : List WorkspacePatchChange) : Except PatchToolError PreparedChanges := do
  require deps.objectStore (handlerFailed "Workspace file bytes are not available" none)
  orThrow faults.listWorkspaceFiles
  let existingFiles := listWorkspaceFiles stores.files deps.workspaceId
  let planned ← changes.mapM (prepareChange deps faults stores existingFiles)
  return ⟨existingFiles, planned.filterMap (·.write?), planned.filterMap (·.delete?)⟩

def validateWorkspaceCapacity (deps : WorkspaceToolDependencies) (prepared : PreparedChanges) : Except PatchToolError Unit :=
  let writePaths := prepared.writes.map (·.path)
  let existingBytes := ((prepared.existingFiles.filter fun file =>
    file.path ∉ writePaths ∧ file.path ∉ prepared.deletes).map (·.byteSize)).sum
  let totalBytes := existingBytes + (prepared.writes.map (·.bytes.length)).sum
  require (totalBytes ≤ deps.limits.maxWorkspaceBytes)
    (validationFailed "Patched files would exceed the workspace size limit"
      (some (.size totalBytes deps.limits.maxWorkspaceBytes)))

/-- What `applyWorkspacePatch` does before it stores anything, with the conversation it stores in. -/
def preparePatch (deps : WorkspaceToolDependencies) (faults : Faults) (stores : Stores) (patch : List Char) :
    Except PatchToolError (String × PreparedChanges) := do
  require (deps.fileStore ∧ deps.objectStore) (handlerFailed "Workspace patch editing is not configured" none)
  let changes ← (parseWorkspaceApplyPatch patch deps.limits.toWorkspaceCommandServiceLimits).mapError fun failure =>
    validationFailed failure.message (failure.details.map .parsed)
  let conversationId ← need deps.conversationId (handlerFailed "Workspace tools require an active tool request" none)
  orThrow faults.ensureExecutionWorkspace
  let prepared ← preparePatchChanges deps faults stores changes
  validateWorkspaceCapacity deps prepared
  return (conversationId, prepared)

/-- `{ ...metadata, modifiedBy }`, or `{ source }` for a new file -/
def patchedMetadata : Option WorkspaceFile → JsonObject
  | some file => file.metadata.set "modifiedBy" (.other "\"workspace.apply_patch\"")
  | none => OrderedMap.set [] "source" (.other "\"workspace.apply_patch\"")

def upsertInput (deps : WorkspaceToolDependencies) (conversationId : String) (write : PlannedWrite) :
    UpsertWorkspaceFileInput where
  workspaceId := deps.workspaceId
  path := write.path
  objectKey := createWorkspaceFileObjectKey deps conversationId write.checksum write.path
  byteSize := write.bytes.length
  checksum := write.checksum
  mimeType := some write.mimeType
  metadata := patchedMetadata write.existing
  updatedAt := deps.now write.path

def deleteInput (deps : WorkspaceToolDependencies) (path : String) : DeleteWorkspaceFileInput where
  workspaceId := deps.workspaceId
  path := path
  deletedAt := deps.now path

def PlannedChange.fileWrite (deps : WorkspaceToolDependencies) (conversationId : String) : PlannedChange → FileWrite
  | write w => .put (upsertInput deps conversationId w) conversationId
  | delete path => .remove (deleteInput deps path)

def changedFile (write : PlannedWrite) : ChangedFile :=
  ⟨write.path, write.bytes.length, write.checksum, if write.mimeType = "" then none else some write.mimeType⟩

def isNotFound : Thrown → Bool
  | .app error => error.code = .notFound
  | .other => false

/-- `putWorkspaceFile` and `upsertStoredWorkspaceFile`, which removes the bytes of a refused row. -/
def storeWrite (deps : WorkspaceToolDependencies) (faults : Faults) (conversationId : String) (stores : Stores)
    (write : PlannedWrite) : Except PatchToolError ChangedFile × Stores :=
  let input := upsertInput deps conversationId write
  let put := { stores with objects := stores.objects.set input.objectKey write.bytes }
  match faults.putObject write.path with
  | some (thrown, stored) => (.error (.thrown thrown), if stored then put else stores)
  | none =>
    match faults.upsertWorkspaceFile write.path with
    | some thrown =>
      (.error (.thrown thrown),
        if isNotFound thrown ∧ ¬ faults.deleteObject input.objectKey then
          { put with objects := put.objects.erase input.objectKey }
        else put)
    | none =>
      (.ok (changedFile write),
        { put with files := FileWrite.apply stores.files (PlannedChange.fileWrite deps conversationId (.write write)) })

def storeWrites (deps : WorkspaceToolDependencies) (faults : Faults) (conversationId : String) (stores : Stores) :
    List PlannedWrite → Except PatchToolError (List ChangedFile) × Stores
  | [] => (.ok [], stores)
  | write :: rest =>
    match storeWrite deps faults conversationId stores write with
    | (.error e, stores) => (.error e, stores)
    | (.ok file, stores) =>
      let (files, stores) := storeWrites deps faults conversationId stores rest
      (files.map (file :: ·), stores)

def storeDeletes (deps : WorkspaceToolDependencies) (faults : Faults) (stores : Stores) :
    List String → Except PatchToolError (List String) × Stores
  | [] => (.ok [], stores)
  | path :: rest =>
    match faults.deleteWorkspaceFile path with
    | some thrown => (.error (.thrown thrown), stores)
    | none =>
      let found := (listWorkspaceFiles stores.files deps.workspaceId).any (·.path = path)
      let removed := { stores with files := FileWrite.apply stores.files (.remove (deleteInput deps path)) }
      let (paths, stores) := storeDeletes deps faults removed rest
      (paths.map fun paths => if found then path :: paths else paths, stores)

def applyWorkspacePatch (deps : WorkspaceToolDependencies) (faults : Faults) (stores : Stores) (patch : List Char) :
    Except PatchToolError PatchOutput × Stores :=
  match preparePatch deps faults stores patch with
  | .error e => (.error e, stores)
  | .ok (conversationId, prepared) =>
    match storeWrites deps faults conversationId stores prepared.writes with
    | (.error e, stores) => (.error e, stores)
    | (.ok changedFiles, stores) =>
      let (deletedFiles, stores) := storeDeletes deps faults stores prepared.deletes
      (deletedFiles.map fun deletedFiles => ⟨deps.workspaceId, changedFiles, deletedFiles⟩, stores)

def PreparedChanges.changes (prepared : PreparedChanges) : List PlannedChange :=
  prepared.writes.map .write ++ prepared.deletes.map .delete

def PlannedChange.Stored (faults : Faults) : PlannedChange → Prop
  | write w => faults.putObject w.path = none ∧ faults.upsertWorkspaceFile w.path = none
  | delete path => faults.deleteWorkspaceFile path = none

section

variable {deps : WorkspaceToolDependencies} {faults : Faults} {conversationId : String}

def objectKeys (deps : WorkspaceToolDependencies) (conversationId : String) (changes : List PlannedChange) : List String :=
  (changes.filterMap (·.write?)).map fun write => (upsertInput deps conversationId write).objectKey

/-- The first `k` changes are stored, the next one is not, and nothing else is changed. -/
structure StoredTo (deps : WorkspaceToolDependencies) (faults : Faults) (conversationId : String)
    (changes : List PlannedChange) (stores : Stores) (k : Nat) (stores' : Stores) : Prop where
  stored : ∀ c ∈ changes.take k, c.Stored faults
  next : ∀ c ∈ changes[k]?, ¬ c.Stored faults
  files : stores'.files = replay stores.files ((changes.take k).map (·.fileWrite deps conversationId))
  objects : ∀ key, key ∉ objectKeys deps conversationId changes → stores'.objects.get? key = stores.objects.get? key

theorem StoredTo.nil : StoredTo deps faults conversationId [] stores 0 stores where
  stored := by simp
  next := by simp
  files := rfl
  objects _ _ := rfl

theorem StoredTo.failed (h : ¬ c.Stored faults) (hfiles : stores'.files = stores.files)
    (hobjects : ∀ key, key ∉ objectKeys deps conversationId [c] → stores'.objects.get? key = stores.objects.get? key) :
    StoredTo deps faults conversationId (c :: rest) stores 0 stores' where
  stored := by simp
  next := by simpa using h
  files := hfiles
  objects key hkey := by
    refine hobjects key fun hc => hkey ?_
    rw [objectKeys, List.mem_map] at hc ⊢
    obtain ⟨w, hw, rfl⟩ := hc
    exact ⟨w, (((List.nil_sublist rest).cons_cons c).filterMap _).subset hw, rfl⟩

theorem StoredTo.cons (h : c.Stored faults)
    (hfiles : stores₁.files = FileWrite.apply stores.files (c.fileWrite deps conversationId))
    (hobjects : ∀ key, key ∉ objectKeys deps conversationId [c] → stores₁.objects.get? key = stores.objects.get? key)
    (hrest : StoredTo deps faults conversationId rest stores₁ k stores') :
    StoredTo deps faults conversationId (c :: rest) stores (k + 1) stores' where
  stored := by
    rw [List.take_succ_cons]
    exact List.forall_mem_cons.mpr ⟨h, hrest.stored⟩
  next := hrest.next
  files := by
    rw [hrest.files, hfiles]
    rfl
  objects key hkey := by
    have hsplit : objectKeys deps conversationId (c :: rest)
        = objectKeys deps conversationId [c] ++ objectKeys deps conversationId rest := by
      rw [objectKeys, objectKeys, objectKeys, ← List.map_append, ← List.filterMap_append]
      rfl
    rw [hsplit, List.mem_append, not_or] at hkey
    rw [hrest.objects key hkey.2, hobjects key hkey.1]

theorem StoredTo.append_left (h : StoredTo deps faults conversationId xs stores k stores') (hk : k < xs.length) :
    StoredTo deps faults conversationId (xs ++ ys) stores k stores' where
  stored := by
    rw [List.take_append_of_le_length (Nat.le_of_lt hk)]
    exact h.stored
  next := by
    rw [List.getElem?_append_left hk]
    exact h.next
  files := by
    rw [List.take_append_of_le_length (Nat.le_of_lt hk)]
    exact h.files
  objects key hkey := by
    refine h.objects key fun hx => hkey ?_
    rw [objectKeys, List.filterMap_append, List.map_append]
    exact List.mem_append_left _ hx

theorem StoredTo.append (h : StoredTo deps faults conversationId xs stores xs.length stores₁)
    (h' : StoredTo deps faults conversationId ys stores₁ k stores') :
    StoredTo deps faults conversationId (xs ++ ys) stores (xs.length + k) stores' where
  stored := by
    rw [List.take_length_add_append]
    refine List.forall_mem_append.mpr ⟨?_, h'.stored⟩
    have hxs := h.stored
    rwa [List.take_length] at hxs
  next := by
    rw [List.getElem?_append_right (Nat.le_add_right _ _), Nat.add_sub_cancel_left]
    exact h'.next
  files := by
    have hfiles := h.files
    rw [List.take_length] at hfiles
    rw [List.take_length_add_append, List.map_append, h'.files, hfiles, replay, replay, replay, List.foldl_append]
  objects key hkey := by
    rw [objectKeys, List.filterMap_append, List.map_append, List.mem_append, not_or] at hkey
    rw [h'.objects key hkey.2, h.objects key hkey.1]

def EndsAt (result : Except PatchToolError α) (k length : Nat) : Prop :=
  (k = length ∧ ∃ a, result = .ok a) ∨ (k < length ∧ ∃ e, result = .error e)

theorem EndsAt.map {f : α → β} (h : EndsAt result k length) : EndsAt (result.map f) (k + 1) (length + 1) := by
  rcases h with ⟨hk, a, rfl⟩ | ⟨hk, e, rfl⟩
  · exact .inl ⟨congrArg (· + 1) hk, f a, rfl⟩
  · exact .inr ⟨Nat.succ_lt_succ hk, e, rfl⟩

variable (deps faults conversationId)

theorem storeWrite_cases (stores : Stores) (write : PlannedWrite) :
    (PlannedChange.Stored faults (.write write) ∧ ∃ file stores',
        storeWrite deps faults conversationId stores write = (.ok file, stores') ∧
        stores'.files = FileWrite.apply stores.files (PlannedChange.fileWrite deps conversationId (.write write)) ∧
        ∀ key, key ∉ objectKeys deps conversationId [.write write] → stores'.objects.get? key = stores.objects.get? key) ∨
      (¬ PlannedChange.Stored faults (.write write) ∧ ∃ e stores',
        storeWrite deps faults conversationId stores write = (.error e, stores') ∧ stores'.files = stores.files ∧
        ∀ key, key ∉ objectKeys deps conversationId [.write write] → stores'.objects.get? key = stores.objects.get? key) := by
  have hput : ∀ key, key ∉ objectKeys deps conversationId [.write write] →
      (stores.objects.set (upsertInput deps conversationId write).objectKey write.bytes).get? key
        = stores.objects.get? key := by
    intro key hkey
    exact OrderedMap.get?_set_of_ne fun he => hkey (he ▸ List.mem_singleton.mpr rfl)
  unfold storeWrite
  cases hp : faults.putObject write.path with
  | some thrown =>
    refine .inr ⟨fun h => by simp [PlannedChange.Stored, hp] at h, _, _, rfl, ?_, fun key hkey => ?_⟩
    · split <;> rfl
    · split
      · exact hput key hkey
      · rfl
  | none =>
    cases hu : faults.upsertWorkspaceFile write.path with
    | none => exact .inl ⟨⟨hp, hu⟩, _, _, rfl, rfl, hput⟩
    | some thrown =>
      refine .inr ⟨fun h => by simp [PlannedChange.Stored, hu] at h, _, _, rfl, ?_, fun key hkey => ?_⟩
      · split <;> rfl
      · split
        · refine (OrderedMap.get?_erase_of_ne fun he => hkey ?_).trans (hput key hkey)
          exact he ▸ List.mem_singleton.mpr rfl
        · exact hput key hkey

theorem storeWrites_storedTo (stores : Stores) (writes : List PlannedWrite) :
    ∃ k, StoredTo deps faults conversationId (writes.map .write) stores k
        (storeWrites deps faults conversationId stores writes).2 ∧
      EndsAt (storeWrites deps faults conversationId stores writes).1 k writes.length := by
  induction writes generalizing stores with
  | nil => exact ⟨0, .nil, .inl ⟨rfl, [], rfl⟩⟩
  | cons write rest ih =>
    rcases storeWrite_cases deps faults conversationId stores write with
      ⟨hstored, file, stores₁, h, hfiles, hobjects⟩ | ⟨hnot, e, stores₁, h, hfiles, hobjects⟩
    · obtain ⟨k, hk, hends⟩ := ih stores₁
      refine ⟨k + 1, ?_, ?_⟩
      · simp only [storeWrites, h, List.map_cons]
        exact .cons hstored hfiles hobjects hk
      · simp only [storeWrites, h, List.length_cons]
        exact hends.map
    · refine ⟨0, ?_, .inr ⟨Nat.succ_pos _, e, ?_⟩⟩
      · simp only [storeWrites, h, List.map_cons]
        exact .failed hnot hfiles hobjects
      · simp only [storeWrites, h]

theorem storeDeletes_storedTo (stores : Stores) (paths : List String) :
    ∃ k, StoredTo deps faults conversationId (paths.map .delete) stores k (storeDeletes deps faults stores paths).2 ∧
      EndsAt (storeDeletes deps faults stores paths).1 k paths.length := by
  induction paths generalizing stores with
  | nil => exact ⟨0, .nil, .inl ⟨rfl, [], rfl⟩⟩
  | cons path rest ih =>
    cases hd : faults.deleteWorkspaceFile path with
    | some thrown =>
      refine ⟨0, ?_, .inr ⟨Nat.succ_pos _, .thrown thrown, ?_⟩⟩
      · simp only [storeDeletes, hd, List.map_cons]
        exact .failed (fun h => by simp [PlannedChange.Stored, hd] at h) rfl fun _ _ => rfl
      · simp only [storeDeletes, hd]
    | none =>
      let removed : Stores := { stores with files := FileWrite.apply stores.files (.remove (deleteInput deps path)) }
      obtain ⟨k, hk, hends⟩ := ih removed
      refine ⟨k + 1, ?_, ?_⟩
      · simp only [storeDeletes, hd, List.map_cons]
        have hremoved : removed.files = FileWrite.apply stores.files (PlannedChange.fileWrite deps conversationId (.delete path)) := rfl
        exact .cons hd hremoved (fun _ _ => rfl) hk
      · simp only [storeDeletes, hd, List.length_cons]
        exact hends.map

end

/-- An error before the first file is stored leaves everything as it was. One while the changes are
stored leaves the files with exactly the changes before it. -/
theorem applyWorkspacePatch_stored (deps : WorkspaceToolDependencies) (faults : Faults) (stores : Stores) (patch : List Char) :
    (∀ e, preparePatch deps faults stores patch = .error e →
      applyWorkspacePatch deps faults stores patch = (.error e, stores)) ∧
    ∀ conversationId prepared, preparePatch deps faults stores patch = .ok (conversationId, prepared) →
      ∃ k, StoredTo deps faults conversationId prepared.changes stores k (applyWorkspacePatch deps faults stores patch).2 ∧
        EndsAt (applyWorkspacePatch deps faults stores patch).1 k prepared.changes.length := by
  constructor
  · intro e he
    simp only [applyWorkspacePatch, he]
  · intro conversationId prepared hprepared
    obtain ⟨k, hk, hends⟩ := storeWrites_storedTo deps faults conversationId stores prepared.writes
    rcases hw : storeWrites deps faults conversationId stores prepared.writes with ⟨result, stores₁⟩
    rw [hw] at hk hends
    have hlength : prepared.changes.length = prepared.writes.length + prepared.deletes.length := by
      simp [PreparedChanges.changes]
    rcases hends with ⟨rfl, files, rfl⟩ | ⟨hlt, e, rfl⟩
    · obtain ⟨j, hj, hends⟩ := storeDeletes_storedTo deps faults conversationId stores₁ prepared.deletes
      rcases hd : storeDeletes deps faults stores₁ prepared.deletes with ⟨deleted, stores₂⟩
      rw [hd] at hj hends
      refine ⟨prepared.writes.length + j, ?_, ?_⟩
      · simp only [applyWorkspacePatch, hprepared, hw, hd]
        have hall : StoredTo deps faults conversationId (prepared.writes.map .write) stores
            (prepared.writes.map PlannedChange.write).length stores₁ := by
          rw [List.length_map]
          exact hk
        have happend := hall.append hj
        rwa [List.length_map] at happend
      · simp only [applyWorkspacePatch, hprepared, hw, hd, hlength]
        rcases hends with ⟨rfl, paths, rfl⟩ | ⟨hlt, e, rfl⟩
        · exact .inl ⟨rfl, _, rfl⟩
        · exact .inr ⟨Nat.add_lt_add_left hlt _, e, rfl⟩
    · refine ⟨k, ?_, ?_⟩
      · simp only [applyWorkspacePatch, hprepared, hw]
        exact hk.append_left (by simpa using hlt)
      · simp only [applyWorkspacePatch, hprepared, hw, hlength]
        exact .inr ⟨Nat.lt_add_right _ hlt, e, rfl⟩

namespace Example

def toolDeps : WorkspaceToolDependencies where
  fileStore := true
  objectStore := true
  limits := ⟨⟨⟨512⟩, 1000⟩, 1000⟩
  createWorkspaceChecksum bytes := String.ofList (Nat.toDigits 10 bytes.length)
  clientInstanceId := "acme"
  conversationId := some "conv_1"
  workspaceId := "exec_1"
  patchObjectKeyId := "wcmd_patch_1"
  now _ := 5

def secondRow : Faults where
  ensureExecutionWorkspace := none
  listWorkspaceFiles := none
  readObject _ := none
  putObject _ := none
  upsertWorkspaceFile path := if path = "b.txt" then some .other else none
  deleteObject _ := false
  deleteWorkspaceFile _ := none

def twoFiles : List Char :=
  "--- /dev/null\n+++ b/a.txt\n@@ -0,0 +1 @@\n+one\n--- /dev/null\n+++ b/b.txt\n@@ -0,0 +1 @@\n+two\n".toList

end Example

open Example in
/-- The tool answers with an error, and the first of two new files is there. -/
theorem applyWorkspacePatch_secondRow :
    (applyWorkspacePatch toolDeps secondRow ⟨[], []⟩ twoFiles).1 = .error (.thrown .other) ∧
      (applyWorkspacePatch toolDeps secondRow ⟨[], []⟩ twoFiles).2.files.map (·.path) = ["a.txt"] := by
  have hpatch : ∃ cs, twoFiles = cs ∧ (applyWorkspacePatch toolDeps secondRow ⟨[], []⟩ cs).1 = .error (.thrown .other) ∧
      (applyWorkspacePatch toolDeps secondRow ⟨[], []⟩ cs).2.files.map (·.path) = ["a.txt"] :=
    ⟨_, String.toList_ofList, by decide +kernel⟩
  obtain ⟨cs, rfl, h⟩ := hpatch
  exact h

end Catalyst.Patches
