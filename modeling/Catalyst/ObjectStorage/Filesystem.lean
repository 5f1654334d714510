import Catalyst.Library.Base64Url
import Catalyst.Library.Keyset
import Catalyst.Library.Table
import Catalyst.Library.Utf8Stream
import Catalyst.ObjectStorage.Keys
import Mathlib

/-!
# Objects as files

The file system adapter keeps an object in the file that its key leads to from the root. A slash at the
end of a key leads nowhere, so a key and the same key with a slash are one file.
-/

namespace Catalyst.ObjectStorage

open Library PosixPath Keyset

abbrev Name := { s : Segment // IsName s ∧ '/' ∉ s }

abbrev Path := List Name

def Path.segments (path : Path) : List Segment := path.map Subtype.val

def toPath (segments : List Segment) : Path :=
  segments.filterMap fun s => if h : IsName s ∧ '/' ∉ s then some ⟨s, h⟩ else none

structure StoredFile where
  path : Path
  bytes : List UInt8
  deriving DecidableEq

-- -----------------
-- The file system
-- -----------------

structure Disk where
  files : List StoredFile
  directories : Finset Path
  root_mem : [] ∈ directories
  closed : ∀ path ∈ directories, ∀ front, front <+: path → front ∈ directories
  enclosed : ∀ file ∈ files, file.path.dropLast ∈ directories
  apart : ∀ file ∈ files, file.path ∉ directories
  nodup : (files.map (·.path)).Nodup

def Disk.empty : Disk where
  files := []
  directories := {[]}
  root_mem := Finset.mem_singleton_self []
  closed path hpath front hfront := by
    rw [Finset.mem_singleton] at hpath ⊢
    exact List.prefix_nil.mp (hpath ▸ hfront)
  enclosed _ hfile := absurd hfile List.not_mem_nil
  apart _ hfile := absurd hfile List.not_mem_nil
  nodup := List.nodup_nil

inductive SystemErrorCode where
  | ENOENT | ENOTDIR | EISDIR | EEXIST | ERR_FS_EISDIR
  deriving DecidableEq

inductive Stats where
  | file (file : StoredFile)
  | directory

namespace Disk

def fileAt (disk : Disk) (path : Path) : Option StoredFile := disk.files.find? (·.path = path)

def lstat (disk : Disk) (path : Path) : Except SystemErrorCode Stats :=
  if path ∈ disk.directories then .ok .directory
  else
    match disk.fileAt path with
    | some file => .ok (.file file)
    | none => if ∃ file ∈ disk.files, file.path <+: path then .error .ENOTDIR else .error .ENOENT

/-- `mkdir(path, { recursive: true })` -/
def mkdir (disk : Disk) (path : Path) : Except SystemErrorCode Disk :=
  if h : ∃ file ∈ disk.files, file.path <+: path then
    .error (if ∃ file ∈ disk.files, file.path = path then .EEXIST else .ENOTDIR)
  else .ok {
    files := disk.files
    directories := disk.directories ∪ path.inits.toFinset
    root_mem := Finset.mem_union_left _ disk.root_mem
    closed := fun directory hdirectory front hfront => by
      rw [Finset.mem_union, List.mem_toFinset, List.mem_inits] at hdirectory ⊢
      exact hdirectory.imp (fun hmem => disk.closed directory hmem front hfront) hfront.trans
    enclosed := fun file hfile => Finset.mem_union_left _ (disk.enclosed file hfile)
    apart := fun file hfile hmem => by
      rw [Finset.mem_union, List.mem_toFinset, List.mem_inits] at hmem
      exact hmem.elim (disk.apart file hfile) fun hfront => h ⟨file, hfile, hfront⟩
    nodup := disk.nodup }

def remove (disk : Disk) (keep : StoredFile → Bool) : Disk where
  files := disk.files.filter keep
  directories := disk.directories
  root_mem := disk.root_mem
  closed := disk.closed
  enclosed file hfile := disk.enclosed file (List.mem_of_mem_filter hfile)
  apart file hfile := disk.apart file (List.mem_of_mem_filter hfile)
  nodup := disk.nodup.sublist (List.filter_sublist.map _)

def writeFile (disk : Disk) (path : Path) (bytes : List UInt8) : Except SystemErrorCode Disk :=
  if hdirectory : path ∈ disk.directories then .error .EISDIR
  else if hparent : path.dropLast ∉ disk.directories then .error .ENOENT
  else .ok {
    files := ⟨path, bytes⟩ :: disk.files.filter (·.path ≠ path)
    directories := disk.directories
    root_mem := disk.root_mem
    closed := disk.closed
    enclosed := List.forall_mem_cons.mpr
      ⟨not_not.mp hparent, fun file hfile => disk.enclosed file (List.mem_of_mem_filter hfile)⟩
    apart := List.forall_mem_cons.mpr ⟨hdirectory, fun file hfile => disk.apart file (List.mem_of_mem_filter hfile)⟩
    nodup := by
      rw [List.map_cons, List.nodup_cons]
      refine ⟨fun hmem => ?_, disk.nodup.sublist (List.filter_sublist.map _)⟩
      obtain ⟨file, hfile, hpath⟩ := List.mem_map.mp hmem
      exact of_decide_eq_true (List.mem_filter.mp hfile).2 hpath }

/-- `rm(path, { force: true })` -/
def rm (disk : Disk) (path : Path) : Except SystemErrorCode Disk :=
  match disk.lstat path with
  | .ok .directory => .error .ERR_FS_EISDIR
  | .ok (.file _) => .ok (disk.remove (·.path ≠ path))
  | .error .ENOENT => .ok disk
  | .error code => .error code

/-- `rm(path, { recursive: true, force: true })`. The root is there again with the next write. -/
def rmRecursive (disk : Disk) (path : Path) : Disk where
  files := disk.files.filter (¬path <+: ·.path)
  directories := insert [] (disk.directories.filter (¬path <+: ·))
  root_mem := Finset.mem_insert_self _ _
  closed directory hdirectory front hfront := by
    rw [Finset.mem_insert, Finset.mem_filter] at hdirectory ⊢
    obtain rfl | ⟨hmem, hkeep⟩ := hdirectory
    · exact .inl (List.prefix_nil.mp hfront)
    · exact .inr ⟨disk.closed directory hmem front hfront, fun hpath => hkeep (hpath.trans hfront)⟩
  enclosed file hfile := by
    obtain ⟨hmem, hkeep⟩ := List.mem_filter.mp hfile
    refine Finset.mem_insert_of_mem (Finset.mem_filter.mpr ⟨disk.enclosed file hmem, fun hpath => ?_⟩)
    exact of_decide_eq_true hkeep (hpath.trans (List.dropLast_prefix _))
  apart file hfile hmem := by
    obtain ⟨hfile, -⟩ := List.mem_filter.mp hfile
    obtain hnil | hmem := Finset.mem_insert.mp hmem
    · exact disk.apart file hfile (hnil ▸ disk.root_mem)
    · exact disk.apart file hfile (Finset.mem_filter.mp hmem).1
  nodup := disk.nodup.sublist (List.filter_sublist.map _)

end Disk

inductive ObjectStorageError where
  | refused (reason : Refusal)
  | notFound
  /-- The request failed, with the provider's code where it may be told. -/
  | unavailable (providerErrorCode : Option SystemErrorCode)
  deriving DecidableEq

inductive Access where
  | read | write
  deriving DecidableEq

def reportedCodes : List SystemErrorCode := [.EISDIR, .ENOTDIR]

def toPortError (code : SystemErrorCode) (access : Access) : ObjectStorageError :=
  if access = .read ∧ code ∈ [.ENOENT, .ENOTDIR, .EISDIR] then .notFound
  else .unavailable (if code ∈ reportedCodes then some code else none)

/-- The root of a store: a directory below `/`, where no path is below the root. -/
structure Root where
  names : List Segment
  spelled : Names names

def absolute (names : List Segment) : List Char := '/' :: joinWith '/' names

/-- `resolve(root, ...key.split("/"))` -/
def Root.resolve (root : Root) (key : Key) : List Segment := PosixPath.resolve false (root.names ++ key.splitOn '/')

def pathOf (root : Root) (key : Key) : Except ObjectStorageError Path :=
  let target := root.resolve key
  if target ≠ root.names ∧ ¬absolute root.names ++ ['/'] <+: absolute target then .error (.unavailable none)
  else .ok (toPath (target.drop root.names.length))

inductive ObjectBody where
  | bytes (bytes : List UInt8)
  /-- Chunks that end with a failure, or come to an end. -/
  | stream (chunks : List (List UInt8)) (fails : Bool)

def dropFile (disk : Disk) (path : Path) (error : ObjectStorageError) : Except ObjectStorageError Unit × Disk :=
  match disk.rm path with
  | .ok disk => (.error error, disk)
  | .error code => (.error (toPortError code .write), disk)

def writeBody (disk : Disk) (path : Path) : ObjectBody → Except ObjectStorageError Unit × Disk
  | .bytes bytes =>
    match disk.writeFile path bytes with
    | .ok disk => (.ok (), disk)
    | .error code => (.error (toPortError code .write), disk)
  | .stream chunks fails =>
    match disk.writeFile path chunks.flatten with
    | .ok written => if fails then dropFile written path (.unavailable none) else (.ok (), written)
    | .error code => dropFile disk path (toPortError code .write)

def put (root : Root) (key : Key) (body : ObjectBody) (disk : Disk) : Except ObjectStorageError Unit × Disk :=
  match pathOf root key with
  | .error error => (.error error, disk)
  | .ok path =>
    match disk.mkdir path.dropLast with
    | .error code => (.error (toPortError code .write), disk)
    | .ok disk => writeBody disk path body

def objectAt (root : Root) (key : Key) (disk : Disk) : Except ObjectStorageError StoredFile :=
  match pathOf root key with
  | .error error => .error error
  | .ok path =>
    match disk.lstat path with
    | .ok (.file file) => .ok file
    | .ok .directory => .error .notFound
    | .error code => .error (toPortError code .read)

def head (root : Root) (key : Key) (disk : Disk) : Except ObjectStorageError Nat :=
  (objectAt root key disk).map fun file => file.bytes.length

def get (root : Root) (key : Key) (disk : Disk) : Except ObjectStorageError (List UInt8) :=
  (objectAt root key disk).map StoredFile.bytes

def delete (root : Root) (key : Key) (disk : Disk) : Except ObjectStorageError Unit × Disk :=
  match pathOf root key with
  | .error error => (.error error, disk)
  | .ok path =>
    match disk.rm path with
    | .ok disk => (.ok (), disk)
    | .error code => (.error (toPortError code .write), disk)

structure ObjectListEntry where
  key : Key
  size : Nat
  deriving DecidableEq

def StoredFile.key (file : StoredFile) : Key := joinWith '/' file.path.segments

def StoredFile.entry (file : StoredFile) : ObjectListEntry := ⟨file.key, file.bytes.length⟩

def keyBytes (key : Key) : List Nat := (Utf8Stream.encode key).map UInt8.toNat

def ObjectListEntry.bytes (entry : ObjectListEntry) : List Nat := keyBytes entry.key

def readdir (disk : Disk) (directory : Path) : List ObjectListEntry :=
  (disk.files.filter (directory <+: ·.path)).map StoredFile.entry

def objectsBelow (root : Root) (objectPrefix : Key) (disk : Disk) : Except ObjectStorageError (List ObjectListEntry) :=
  match if objectPrefix = [] then .ok [] else pathOf root objectPrefix with
  | .error error => .error error
  | .ok directory =>
    if directory ∈ disk.directories then .ok (ordered ObjectListEntry.bytes (readdir disk directory)) else .ok []

def deletePrefix (root : Root) (objectPrefix : Key) (disk : Disk) : Except ObjectStorageError Nat × Disk :=
  match pathOf root objectPrefix with
  | .error error => (.error error, disk)
  | .ok directory =>
    if directory ∈ disk.directories then
      match objectsBelow root objectPrefix disk with
      | .error error => (.error error, disk)
      | .ok objects => (.ok objects.length, disk.rmRecursive directory)
    else (.ok 0, disk)

def encodeCursor (key : Key) : List Char := Base64Url.encode (Utf8Stream.encode key)

def decodeCursor (cursor : List Char) : Key := Utf8Stream.decode (Base64Url.decode cursor)

structure ObjectListPage where
  objects : List ObjectListEntry
  cursor : Option (List Char)
  deriving DecidableEq

def list (root : Root) (pageSize : Nat) (objectPrefix : Key) (cursor : Option (List Char)) (disk : Disk) :
    Except ObjectStorageError ObjectListPage :=
  match objectsBelow root objectPrefix disk with
  | .error error => .error error
  | .ok below =>
    let remaining := behind ObjectListEntry.bytes (cursor.map fun cursor => keyBytes (decodeCursor cursor)) below
    let objects := remaining.take pageSize
    .ok ⟨objects, if objects.length < remaining.length then objects.getLast?.map fun last => encodeCursor last.key else none⟩

variable {root : Root} {names segments : List Segment} {slash : Bool} {disk disk' : Disk} {path other : Path} {file : StoredFile}

theorem segments_valid (path : Path) : ∀ s ∈ path.segments, IsName s ∧ '/' ∉ s := by
  intro s hs
  obtain ⟨name, -, rfl⟩ := List.mem_map.mp hs
  exact name.2

theorem segments_injective : Function.Injective Path.segments := List.map_injective_iff.mpr Subtype.val_injective

theorem segments_toPath (h : ∀ s ∈ segments, IsName s ∧ '/' ∉ s) : (toPath segments).segments = segments := by
  induction segments with
  | nil => rfl
  | cons s segments ih =>
    obtain ⟨hs, hsegments⟩ := List.forall_mem_cons.mp h
    rw [toPath, List.filterMap_cons, dif_pos hs]
    exact congrArg (s :: ·) (ih hsegments)

theorem valid_names (h : Names names) : ∀ s ∈ names, IsName s ∧ '/' ∉ s := fun s hs => ⟨h.isName s hs, h.unbroken s hs⟩

theorem toPath_ne_nil (h : Names names) : toPath names ≠ [] := fun he =>
  h.ne_nil (segments_toPath (valid_names h) ▸ congrArg Path.segments he)

theorem toPath_injective {names' : List Segment} (h : Names names) (h' : Names names') (he : toPath names = toPath names') :
    names = names' := by
  rw [← segments_toPath (valid_names h), he, segments_toPath (valid_names h')]

theorem resolve_spell (h : Names names) : root.resolve (spell names slash) = root.names ++ names := by
  have hall : ∀ s ∈ root.names ++ names, IsName s := fun s hs =>
    (List.mem_append.mp hs).elim (root.spelled.isName s) (h.isName s)
  rw [Root.resolve, splitOn_spell h, ← List.append_assoc]
  cases slash with
  | false => simpa using resolve_names hall
  | true =>
    rw [if_pos rfl, PosixPath.resolve, resolve_concat, push_nothing (.inl rfl)]
    exact resolve_names hall

theorem pathOf_spell (h : Names names) : pathOf root (spell names slash) = .ok (toPath names) := by
  have hbelow : absolute root.names ++ ['/'] <+: absolute (root.names ++ names) := by
    refine ⟨joinWith '/' names, ?_⟩
    rw [absolute, absolute, joinWith_append root.spelled.ne_nil h.ne_nil]
    simp
  unfold pathOf
  rw [resolve_spell h]
  dsimp only
  rw [if_neg fun hrefused => hrefused.2 hbelow, List.drop_left]

theorem Disk.fileAt_some (disk : Disk) : disk.fileAt path = some file ↔ file ∈ disk.files ∧ file.path = path :=
  find?_key_eq_some disk.nodup

theorem objectAt_spell (h : Names names) : objectAt root (spell names slash) disk =
    match disk.fileAt (toPath names) with
    | some file => .ok file
    | none => .error .notFound := by
  rw [objectAt, pathOf_spell h]
  dsimp only
  rw [Disk.lstat]
  cases hfile : disk.fileAt (toPath names) with
  | some file =>
    obtain ⟨hmem, hpath⟩ := disk.fileAt_some.mp hfile
    rw [if_neg (hpath ▸ disk.apart file hmem)]
  | none => split_ifs <;> rfl

theorem objectAt_ok (h : Names names) : objectAt root (spell names slash) disk = .ok file ↔
    file ∈ disk.files ∧ file.path = toPath names := by
  rw [← disk.fileAt_some, objectAt_spell h]
  cases disk.fileAt (toPath names) <;> simp

-- -----------------
-- What a request leaves as it is
-- -----------------

namespace Disk

theorem remove_fileAt {keep : StoredFile → Bool} (hkeep : ∀ file, file.path = other → keep file) :
    (disk.remove keep).fileAt other = disk.fileAt other := by
  rw [fileAt, remove, List.find?_filter, fileAt]
  refine congrArg (fun p => List.find? p disk.files) (funext fun file => ?_)
  by_cases hpath : file.path = other <;> simp [hpath, hkeep]

theorem rm_fileAt (h : disk.rm path = .ok disk') (hne : other ≠ path) : disk'.fileAt other = disk.fileAt other := by
  unfold rm at h
  split at h
  · cases h
  · obtain rfl := Except.ok.inj h
    exact remove_fileAt fun file hpath => by simpa [hpath] using hne
  · rw [Except.ok.inj h]
  · cases h

theorem mkdir_files (h : disk.mkdir path = .ok disk') : disk'.files = disk.files := by
  unfold mkdir at h
  split_ifs at h
  obtain rfl := Except.ok.inj h
  rfl

theorem writeFile_files (h : disk.writeFile path bytes = .ok disk') :
    disk'.files = ⟨path, bytes⟩ :: disk.files.filter (·.path ≠ path) := by
  unfold writeFile at h
  split_ifs at h
  obtain rfl := Except.ok.inj h
  rfl

theorem writeFile_fileAt (h : disk.writeFile path bytes = .ok disk') (hne : other ≠ path) :
    disk'.fileAt other = disk.fileAt other := by
  have hkept : (disk.remove (·.path ≠ path)).fileAt other = disk.fileAt other :=
    remove_fileAt fun file hpath => by simpa [hpath] using hne
  rw [← hkept, fileAt, writeFile_files h, List.find?_cons_of_neg (by simpa using hne.symm)]
  rfl

end Disk

theorem dropFile_fileAt (hne : other ≠ path) : (dropFile disk path error).2.fileAt other = disk.fileAt other := by
  unfold dropFile
  split
  · next hrm => exact Disk.rm_fileAt hrm hne
  · rfl

theorem writeBody_fileAt (body : ObjectBody) (hne : other ≠ path) :
    (writeBody disk path body).2.fileAt other = disk.fileAt other := by
  cases body with
  | bytes bytes =>
    rw [writeBody]
    split
    · next hwrite => exact Disk.writeFile_fileAt hwrite hne
    · rfl
  | stream chunks fails =>
    rw [writeBody]
    split
    · next hwrite =>
      split_ifs
      · rw [dropFile_fileAt hne, Disk.writeFile_fileAt hwrite hne]
      · exact Disk.writeFile_fileAt hwrite hne
    · exact dropFile_fileAt hne

theorem put_fileAt (h : Names names) (body : ObjectBody) (hne : other ≠ toPath names) :
    (put root (spell names slash) body disk).2.fileAt other = disk.fileAt other := by
  rw [put, pathOf_spell h]
  dsimp only
  split
  · rfl
  · next hmkdir =>
    rw [writeBody_fileAt body hne, Disk.fileAt, Disk.mkdir_files hmkdir]
    rfl

theorem delete_fileAt (h : Names names) (hne : other ≠ toPath names) :
    (delete root (spell names slash) disk).2.fileAt other = disk.fileAt other := by
  rw [delete, pathOf_spell h]
  dsimp only
  split
  · next hrm => exact Disk.rm_fileAt hrm hne
  · rfl

theorem put_empty (h : Names names) (bytes : List UInt8) : ⟨toPath names, bytes⟩ ∈ (put root (spell names slash) (.bytes bytes) .empty).2.files := by
  rw [put, pathOf_spell h]
  dsimp only
  have hmkdir : ¬∃ file ∈ Disk.empty.files, file.path <+: (toPath names).dropLast := by
    rintro ⟨file, hfile, -⟩
    exact List.not_mem_nil hfile
  rw [Disk.mkdir, dif_neg hmkdir]
  dsimp only [writeBody]
  have hdirectory : toPath names ∉ Disk.empty.directories ∪ (toPath names).dropLast.inits.toFinset := by
    rw [Finset.mem_union, List.mem_toFinset, List.mem_inits]
    rintro (hmem | hfront)
    · exact toPath_ne_nil h (Finset.mem_singleton.mp hmem)
    · have hle := hfront.length_le
      have hpos := List.length_pos_iff.mpr (toPath_ne_nil h)
      rw [List.length_dropLast] at hle
      omega
  have hparent : (toPath names).dropLast ∈ Disk.empty.directories ∪ (toPath names).dropLast.inits.toFinset :=
    Finset.mem_union_right _ (List.mem_toFinset.mpr ((List.mem_inits _ _).mpr List.prefix_rfl))
  rw [Disk.writeFile, dif_neg hdirectory, dif_neg (not_not.mpr hparent)]
  exact List.mem_cons_self

/-- Two keys name different objects: no file is the object of both, and what is done under either leaves the
object of the other. -/
def DifferentObjects (root : Root) (key other : Key) : Prop := ∀ disk : Disk,
  (∀ file, objectAt root key disk = .ok file → objectAt root other disk ≠ .ok file) ∧
  (∀ body, objectAt root other (put root key body disk).2 = objectAt root other disk ∧
    objectAt root key (put root other body disk).2 = objectAt root key disk) ∧
  objectAt root other (delete root key disk).2 = objectAt root other disk ∧
  objectAt root key (delete root other disk).2 = objectAt root key disk

theorem differentObjects_iff {names' : List Segment} {slash' : Bool} (h : Names names) (h' : Names names') :
    DifferentObjects root (spell names slash) (spell names' slash') ↔ names ≠ names' := by
  constructor
  · rintro hdifferent rfl
    have hmem : ⟨toPath names, []⟩ ∈ (put root (spell names slash) (.bytes []) .empty).2.files := put_empty h []
    exact (hdifferent _).1 _ ((objectAt_ok h).mpr ⟨hmem, rfl⟩) ((objectAt_ok h).mpr ⟨hmem, rfl⟩)
  · intro hne disk
    have hpath : toPath names ≠ toPath names' := fun he => hne (toPath_injective h h' he)
    refine ⟨fun file hfile hfile' => ?_, fun body => ⟨?_, ?_⟩, ?_, ?_⟩
    · exact hpath (((objectAt_ok h).mp hfile).2.symm.trans ((objectAt_ok h').mp hfile').2)
    · rw [objectAt_spell h', objectAt_spell h', put_fileAt h body hpath.symm]
    · rw [objectAt_spell h, objectAt_spell h, put_fileAt h' body hpath]
    · rw [objectAt_spell h', objectAt_spell h', delete_fileAt h hpath.symm]
    · rw [objectAt_spell h, objectAt_spell h, delete_fileAt h' hpath]

theorem spell_prefix (h : Names names) (hsegments : ∀ s ∈ segments, IsName s ∧ '/' ∉ s) :
    spell names true <+: joinWith '/' segments ↔ names <+: segments ∧ names ≠ segments := by
  constructor
  · rintro ⟨rest, hrest⟩
    have hjoin : joinWith '/' segments = joinWith '/' (names ++ rest.splitOn '/') := by
      rw [joinWith_append h.ne_nil (List.splitOn_ne_nil _ _), ← hrest, spell, if_pos rfl]
      have hback : joinWith '/' (rest.splitOn '/') = rest := List.intercalate_splitOn '/'
      rw [hback, List.append_assoc, List.singleton_append]
    have hne : segments ≠ [] := by
      rintro rfl
      simp [spell] at hrest
    have hunbroken : ∀ s ∈ names ++ rest.splitOn '/', '/' ∉ s := fun s hs => (List.mem_append.mp hs).elim (h.unbroken s)
      fun hs hc => (Lines.mem_splitOn hs '/' hc).2 rfl
    have hsplit : segments = names ++ rest.splitOn '/' := by
      rw [← splitOn_joinWith (fun s hs => (hsegments s hs).2) hne, hjoin, splitOn_joinWith hunbroken (by simp [h.ne_nil])]
    refine ⟨⟨_, hsplit.symm⟩, fun he => List.splitOn_ne_nil '/' rest ?_⟩
    exact List.append_right_eq_self.mp (hsplit.symm.trans he.symm)
  · rintro ⟨⟨more, rfl⟩, hne⟩
    have hmore : more ≠ [] := by
      rintro rfl
      exact hne (List.append_nil names).symm
    rw [joinWith_append h.ne_nil hmore, spell, if_pos rfl]
    exact ⟨joinWith '/' more, by rw [List.append_assoc, List.singleton_append]⟩

theorem prefix_toPath (h : Names names) : toPath names <+: path ↔ names <+: path.segments := by
  have hnames : names = (toPath names).segments := (segments_toPath (valid_names h)).symm
  constructor
  · rintro ⟨more, rfl⟩
    exact ⟨more.map Subtype.val, by rw [Path.segments, List.map_append]; exact congrArg (· ++ _) hnames⟩
  · rintro ⟨more, hmore⟩
    obtain ⟨front, rest, hpath, hfront, -⟩ := List.map_eq_append_iff.mp hmore.symm
    refine ⟨rest, ?_⟩
    rw [hpath, List.append_left_inj]
    exact segments_injective (hnames.symm.trans hfront.symm)

theorem below_iff (h : Names names) (hfile : file ∈ disk.files) :
    spell names true <+: file.key ↔ toPath names ∈ disk.directories ∧ toPath names <+: file.path := by
  rw [StoredFile.key, spell_prefix h (segments_valid _), ← prefix_toPath h]
  constructor
  · rintro ⟨⟨more, hmore⟩, hne⟩
    have hnil : more ≠ [] := by
      rintro rfl
      rw [List.append_nil] at hmore
      exact hne (by rw [← hmore, segments_toPath (valid_names h)])
    have hdirectory : toPath names <+: file.path.dropLast := by
      rw [← hmore, List.dropLast_append_of_ne_nil hnil]
      exact List.prefix_append _ _
    exact ⟨disk.closed _ (disk.enclosed file hfile) _ hdirectory, more, hmore⟩
  · rintro ⟨hmem, hfront⟩
    refine ⟨hfront, fun he => disk.apart file hfile ?_⟩
    have hpath : file.path = toPath names := segments_injective (by rw [← he, segments_toPath (valid_names h)])
    rwa [hpath]

def Disk.below (disk : Disk) (objectPrefix : Key) : List StoredFile := disk.files.filter (objectPrefix <+: ·.key)

theorem spell_true_ne_nil (names : List Segment) : spell names true ≠ [] := by
  simp [spell]

theorem readdir_eq (h : Names names) (hmem : toPath names ∈ disk.directories) :
    readdir disk (toPath names) = (disk.below (spell names true)).map StoredFile.entry := by
  rw [readdir, Disk.below]
  refine congrArg (List.map StoredFile.entry) (List.filter_congr fun file hfile => ?_)
  rw [decide_eq_decide, below_iff h hfile]
  exact (and_iff_right hmem).symm

theorem below_nil (h : Names names) (hmem : toPath names ∉ disk.directories) : disk.below (spell names true) = [] := by
  refine List.filter_eq_nil_iff.mpr fun file hfile => ?_
  rw [decide_eq_true_eq, below_iff h hfile]
  exact fun hbelow => hmem hbelow.1

theorem objectsBelow_ok {objectPrefix : Key} (h : normalizeObjectPrefix given allowAll = .ok objectPrefix) :
    objectsBelow root objectPrefix disk =
      .ok (ordered ObjectListEntry.bytes ((disk.below objectPrefix).map StoredFile.entry)) := by
  rw [objectsBelow]
  obtain ⟨-, rfl | ⟨names, hnames, rfl⟩⟩ := normalizeObjectPrefix_ok h
  · have hall : readdir disk [] = (disk.below []).map StoredFile.entry := by
      simp [readdir, Disk.below]
    rw [if_pos rfl]
    dsimp only
    rw [if_pos disk.root_mem, hall]
  · rw [if_neg (spell_true_ne_nil _), pathOf_spell hnames.toNames]
    dsimp only
    split_ifs with hmem
    · rw [readdir_eq hnames.toNames hmem]
    · rw [below_nil hnames.toNames hmem, List.map_nil, ordered_eq_self .nil]

theorem deletePrefix_ok {objectPrefix : Key} (h : normalizeObjectPrefix given false = .ok objectPrefix) :
    ∃ left, deletePrefix root objectPrefix disk = (.ok (disk.below objectPrefix).length, left) ∧
      left.files = disk.files.filter (¬objectPrefix <+: ·.key) := by
  obtain ⟨rfl, rfl | ⟨names, hnames, rfl⟩⟩ := normalizeObjectPrefix_ok h
  · cases h
  · rw [deletePrefix, pathOf_spell hnames.toNames]
    dsimp only
    split_ifs with hmem
    · rw [objectsBelow_ok h]
      refine ⟨disk.rmRecursive (toPath names), ?_, List.filter_congr fun file hfile => ?_⟩
      · dsimp only
        rw [(ordered_perm _).length_eq, List.length_map]
      · rw [decide_eq_decide, below_iff hnames.toNames hfile, and_iff_right hmem]
    · have hnone := below_nil hnames.toNames hmem
      refine ⟨disk, by rw [hnone]; rfl, (List.filter_eq_self.mpr fun file hfile => ?_).symm⟩
      have hkey := List.filter_eq_nil_iff.mp hnone file hfile
      simpa using hkey

theorem keyBytes_injective : Function.Injective keyBytes := fun _ _ he =>
  Utf8Stream.encode_injective (List.map_injective_iff.mpr (fun _ _ => UInt8.toNat_inj.mp) he)

theorem decodeCursor_encodeCursor (key : Key) : decodeCursor (encodeCursor key) = key := by
  rw [decodeCursor, encodeCursor, Base64Url.decode_encode, Utf8Stream.decode_encode]

theorem splitOn_key (hfile : file ∈ disk.files) : file.key.splitOn '/' = file.path.segments := by
  refine splitOn_joinWith (fun s hs => (segments_valid _ s hs).2) fun hnil => disk.apart file hfile ?_
  rw [List.map_eq_nil_iff.mp hnil]
  exact disk.root_mem

theorem path_eq_of_key {file' : StoredFile} (hfile : file ∈ disk.files) (hfile' : file' ∈ disk.files)
    (hkey : file.key = file'.key) : file.path = file'.path :=
  segments_injective (by rw [← splitOn_key hfile, hkey, splitOn_key hfile'])

theorem entries_nodup (disk : Disk) (objectPrefix : Key) :
    (((disk.below objectPrefix).map StoredFile.entry).map ObjectListEntry.bytes).Nodup := by
  rw [List.map_map]
  have hpaths : ((disk.below objectPrefix).map (·.path)).Nodup := disk.nodup.sublist (List.filter_sublist.map _)
  refine List.Nodup.map_on (fun file hfile file' hfile' he => ?_) hpaths.of_map
  have hmem := List.mem_of_mem_filter hfile
  have hmem' := List.mem_of_mem_filter hfile'
  exact eq_of_key disk.nodup hmem hmem' (path_eq_of_key hmem hmem' (keyBytes_injective he))

inductive Listing (root : Root) (pageSize : Nat) (objectPrefix : Key) (disk : Disk) :
    Option (List Char) → List (List ObjectListEntry) → Prop
  | last (h : list root pageSize objectPrefix cursor disk = .ok ⟨objects, none⟩) :
    Listing root pageSize objectPrefix disk cursor [objects]
  | next (h : list root pageSize objectPrefix cursor disk = .ok ⟨objects, some following⟩)
    (hrest : Listing root pageSize objectPrefix disk (some following) pages) :
    Listing root pageSize objectPrefix disk cursor (objects :: pages)

def afterOf (cursor : Option (List Char)) : Option (List Nat) := cursor.map fun cursor => keyBytes (decodeCursor cursor)

theorem list_page {objectPrefix : Key} (h : normalizeObjectPrefix given allowAll = .ok objectPrefix) (root : Root)
    (pageSize : Nat) (disk : Disk) (cursor : Option (List Char)) : ∃ following,
    list root pageSize objectPrefix cursor disk = .ok ⟨(page ObjectListEntry.bytes pageSize (afterOf cursor)
      ((disk.below objectPrefix).map StoredFile.entry)).1, following⟩ ∧
    afterOf following = (page ObjectListEntry.bytes pageSize (afterOf cursor)
      ((disk.below objectPrefix).map StoredFile.entry)).2 := by
  rw [list, objectsBelow_ok h]
  refine ⟨_, rfl, ?_⟩
  rw [page, ← afterOf]
  dsimp only
  rw [List.length_take]
  split_ifs with hshort hmore hmore
  · rw [afterOf, Option.map_map]
    refine congrArg (fun f => Option.map f _) (funext fun last => ?_)
    simp only [Function.comp_apply, decodeCursor_encodeCursor]
    rfl
  · omega
  · omega
  · rfl

theorem Listing.toPages {objectPrefix : Key} {pages : List (List ObjectListEntry)} (h : normalizeObjectPrefix given allowAll = .ok objectPrefix)
    (hlisting : Listing root pageSize objectPrefix disk cursor pages) :
    Pages ObjectListEntry.bytes pageSize ((disk.below objectPrefix).map StoredFile.entry) (afterOf cursor) pages := by
  induction hlisting with
  | @last cursor objects hpage =>
    obtain ⟨following, hlist, hfollowing⟩ := list_page h root pageSize disk cursor
    rw [hpage] at hlist
    obtain ⟨rfl, rfl⟩ := ObjectListPage.mk.inj (Except.ok.inj hlist)
    exact .last hfollowing.symm
  | @next cursor objects following pages hpage _ ih =>
    obtain ⟨following, hlist, hfollowing⟩ := list_page h root pageSize disk cursor
    rw [hpage] at hlist
    obtain ⟨rfl, rfl⟩ := ObjectListPage.mk.inj (Except.ok.inj hlist)
    exact .next hfollowing.symm ih

theorem exists_listing {objectPrefix : Key} (h : normalizeObjectPrefix given allowAll = .ok objectPrefix) (root : Root)
    (pageSize : Nat) (disk : Disk) : ∃ pages, Listing root pageSize objectPrefix disk none pages := by
  obtain ⟨pages, hpages⟩ := exists_pages (entries_nodup disk objectPrefix) pageSize (afterOf none)
  suffices hall : ∀ after pages, Pages ObjectListEntry.bytes pageSize ((disk.below objectPrefix).map StoredFile.entry) after pages →
      ∀ cursor, afterOf cursor = after → Listing root pageSize objectPrefix disk cursor pages from
    ⟨pages, hall _ _ hpages none rfl⟩
  intro after pages hpages
  induction hpages with
  | last hend =>
    rintro cursor rfl
    obtain ⟨following, hlist, hfollowing⟩ := list_page h root pageSize disk cursor
    rw [hend] at hfollowing
    obtain rfl := Option.map_eq_none_iff.mp hfollowing
    exact .last hlist
  | next hnext _ ih =>
    rintro cursor rfl
    obtain ⟨following, hlist, hfollowing⟩ := list_page h root pageSize disk cursor
    rw [hnext] at hfollowing
    obtain ⟨text, rfl, -⟩ := Option.map_eq_some_iff.mp hfollowing
    exact .next hlist (ih _ hfollowing)

theorem Listing.exact {objectPrefix : Key} {pages : List (List ObjectListEntry)}
    (h : normalizeObjectPrefix given allowAll = .ok objectPrefix) (hsize : 0 < pageSize)
    (hlisting : Listing root pageSize objectPrefix disk none pages) :
    pages.flatten.Perm ((disk.below objectPrefix).map StoredFile.entry) ∧
      pages.flatten.Pairwise fun a b => keyBytes a.key < keyBytes b.key := by
  have hflatten := (hlisting.toPages h).flatten hsize (entries_nodup disk objectPrefix)
  rw [afterOf, Option.map_none, behind_none] at hflatten
  rw [hflatten]
  exact ⟨ordered_perm _, pairwise_lt_ordered (entries_nodup disk objectPrefix)⟩

/-- A key is normalized to itself again unless it is blank, and never leaves the root; two normal keys name
different objects unless a slash at the end is all they differ in; what is deleted below a prefix is what is
below it; and the pages of a listing give that once, in the order of the bytes. -/
theorem object_keys_faithful_iff (root : Root) :
    (∀ key normal, normalizeObjectKey key = .ok normal →
      (normalizeObjectKey normal = .ok normal ↔ Js.trim normal ≠ []) ∧
      root.names <+: root.resolve normal ∧ root.names ≠ root.resolve normal) ∧
    (∀ key key' normal normal', normalizeObjectKey key = .ok normal → normalizeObjectKey key' = .ok normal' → normal ≠ normal' →
      (DifferentObjects root normal normal' ↔ ¬(normal = normal' ++ ['/'] ∨ normal' = normal ++ ['/']))) ∧
    (∀ given objectPrefix disk, normalizeObjectPrefix given false = .ok objectPrefix →
      ∃ left, deletePrefix root objectPrefix disk = (.ok (disk.below objectPrefix).length, left) ∧
        left.files = disk.files.filter (¬objectPrefix <+: ·.key)) ∧
    ∀ given objectPrefix disk pageSize, normalizeObjectPrefix given true = .ok objectPrefix → 0 < pageSize →
      (∃ pages, Listing root pageSize objectPrefix disk none pages) ∧
      ∀ pages, Listing root pageSize objectPrefix disk none pages →
        pages.flatten.Perm ((disk.below objectPrefix).map StoredFile.entry) ∧
        pages.flatten.Pairwise fun a b => keyBytes a.key < keyBytes b.key := by
  refine ⟨fun key normal h => ⟨normalizeObjectKey_again h, ?_⟩, fun key key' normal normal' h h' hne => ?_,
    fun _ _ _ h => deletePrefix_ok h, fun _ _ disk pageSize h hsize => ⟨exists_listing h root pageSize disk,
      fun _ hlisting => hlisting.exact h hsize⟩⟩
  · obtain ⟨names, slash, hnames, rfl⟩ := normalizeObjectKey_ok h
    rw [resolve_spell hnames.toNames]
    exact ⟨List.prefix_append _ _, fun he => hnames.ne_nil (List.self_eq_append_right.mp he)⟩
  · obtain ⟨names, slash, hnames, rfl⟩ := normalizeObjectKey_ok h
    obtain ⟨names', slash', hnames', rfl⟩ := normalizeObjectKey_ok h'
    rw [differentObjects_iff hnames.toNames hnames'.toNames, spell_slash hnames.toNames hnames'.toNames,
      spell_slash hnames'.toNames hnames.toNames, not_iff_not]
    constructor
    · rintro rfl
      cases slash <;> cases slash' <;> simp at hne ⊢
    · rintro (⟨rfl, -⟩ | ⟨rfl, -⟩)
      · rfl
      · rfl

/-- A root at `/data`. -/
def dataRoot : Root := ⟨[['d', 'a', 't', 'a']], by decide, by decide, by decide⟩

/-- The key `./ ` is normalized to a blank one, which is refused, and what is put under `a/` is what `a` names. -/
theorem object_keys_collide :
    (normalizeObjectKey ['.', '/', ' '] = .ok [' '] ∧ normalizeObjectKey [' '] = .error .emptyKey) ∧
    (normalizeObjectKey ['a'] = .ok ['a'] ∧ normalizeObjectKey ['a', '/'] = .ok ['a', '/'] ∧
      get dataRoot ['a'] (put dataRoot ['a', '/'] (.bytes [2]) (put dataRoot ['a'] (.bytes [1]) .empty).2).2 = .ok [2]) := by
  decide

end Catalyst.ObjectStorage
