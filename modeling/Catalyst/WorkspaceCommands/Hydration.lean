import Catalyst.Library.Ordered
import Catalyst.Library.Transition
import Catalyst.ObjectStorage.Filesystem
import Catalyst.WorkspacePaths.Normalize

/-!
# Hydration and sync of a workspace

A command works in a directory that is made of the durable files of its workspace. What it leaves there is
scanned, compared with what was hydrated, and stored. A runner may keep the directory for the next command.
-/

namespace Catalyst.Hydration

open Library Library.Check PosixPath WorkspacePaths
open ObjectStorage (Disk Path Root StoredFile SystemErrorCode toPath absolute)

/-- A file by its path and its bytes: a durable one, of which size and checksum are stored, or a scanned one. -/
structure WorkspaceFile where
  path : Text
  bytes : List UInt8
  deriving DecidableEq

structure Runner where
  /-- The workspace directory. -/
  root : Root
  limits : WorkspacePathLimits
  reuseWorkspaceDirectories : Bool
  createWorkspaceChecksum : List UInt8 → Text
  /-- `localeCompare` puts the first path not behind the second. -/
  inLocaleOrder : Text → Text → Bool

inductive RunnerFailure where
  | symlinkRejected (path : Text)
  | fileTypeRejected (path : Text)
  | pathRejected (failure : WorkspacePathFailure)
  | sizeLimitExceeded (path : Text) (totalBytes maxWorkspaceBytes : Nat)
  | system (code : SystemErrorCode)
  deriving DecidableEq

/-- What `readdir` finds that is no directory. -/
inductive Entry where
  | file (file : StoredFile)
  | symbolicLink (path : Path)
  | other (path : Path)

def Entry.file? : Entry → Option StoredFile
  | .file stored => some stored
  | .symbolicLink _ | .other _ => none

structure WorkspaceDirectory where
  disk : Disk
  entries : List Entry
  files : (entries.filterMap Entry.file?).Perm disk.files

def pathText (path : Path) : Text := joinWith '/' path.segments

/-- `relative(..).split("\\").join("/")` -/
def workspacePath (path : Path) : Text := (pathText path).map fun c => if c = '\\' then '/' else c

def resolveWorkspaceFilesystemPath (root : Root) (value : Text) (limits : WorkspacePathLimits) :
    Except WorkspacePathFailure Path := do
  let normalized ← normalizeWorkspacePath value limits
  let target := if normalized = ['.'] then root.names else root.resolve normalized
  require (target = root.names ∨ absolute root.names ++ ['/'] <+: absolute target)
    ⟨"Workspace path cannot traverse outside the workspace", some (.path value)⟩
  return toPath (target.drop root.names.length)

def STANDARD_WORKSPACE_DIRECTORIES : List Path :=
  [toPath ["scripts".toList], toPath ["artifacts".toList], toPath ["previews".toList], toPath ["tmp".toList]]

def ensureStandardWorkspaceDirectories (disk : Disk) : Except SystemErrorCode Disk :=
  STANDARD_WORKSPACE_DIRECTORIES.foldlM Disk.mkdir disk

section

variable (runner : Runner) (maxWorkspaceBytes : Nat)

def scanEntries : Nat → List Entry → Except RunnerFailure (List WorkspaceFile)
  | _, [] => .ok []
  | _, .symbolicLink path :: _ => .error (.symlinkRejected (workspacePath path))
  | _, .other path :: _ => .error (.fileTypeRejected (workspacePath path))
  | totalBytes, .file stored :: entries => do
    let path ← (normalizeWorkspaceFilePath (workspacePath stored.path) runner.limits).mapError .pathRejected
    let totalBytes := totalBytes + stored.bytes.length
    require (totalBytes ≤ maxWorkspaceBytes) (.sizeLimitExceeded path totalBytes maxWorkspaceBytes)
    let scanned ← scanEntries totalBytes entries
    return ⟨path, stored.bytes⟩ :: scanned

def scanWorkspaceFiles (directory : WorkspaceDirectory) : Except RunnerFailure (List WorkspaceFile) :=
  (scanEntries runner maxWorkspaceBytes 0 directory.entries).map
    (·.insertionSort fun left right => runner.inLocaleOrder left.path right.path)

/-- The directory of an earlier command with its files. One that cannot be scanned goes, and counts as none. -/
def readCachedDirectory : Option WorkspaceDirectory → Disk × List WorkspaceFile
  | none => (.empty, [])
  | some directory =>
    match ensureStandardWorkspaceDirectories directory.disk, scanWorkspaceFiles runner maxWorkspaceBytes directory with
    | .ok disk, .ok files => (disk, files)
    | _, _ => (.empty, [])

def SetsEqual (left right : List Text) : Prop := left.toFinset.card = right.toFinset.card ∧ ∀ value ∈ left, value ∈ right
  deriving Decidable

def SameContent (other : Option WorkspaceFile) (file : WorkspaceFile) : Prop :=
  ∃ known ∈ other, runner.createWorkspaceChecksum known.bytes = runner.createWorkspaceChecksum file.bytes ∧
    known.bytes.length = file.bytes.length

instance (other : Option WorkspaceFile) (file : WorkspaceFile) : Decidable (SameContent runner other file) := by
  unfold SameContent
  infer_instance

def hydrateFile (cachedFiles : List WorkspaceFile) (state : Disk × OrderedMap Text WorkspaceFile)
    (file : WorkspaceFile) : Except RunnerFailure (Disk × OrderedMap Text WorkspaceFile) := do
  let normalized ← (normalizeWorkspaceFilePath file.path runner.limits).mapError .pathRejected
  let target ← (resolveWorkspaceFilesystemPath runner.root normalized runner.limits).mapError .pathRejected
  -- of files with one path the map of cached files has the last
  let cached := (cachedFiles.filter (·.path = normalized)).getLast?
  let disk ← (if SameContent runner cached file then .ok state.1
    else (state.1.mkdir target.dropLast >>= fun disk => disk.writeFile target file.bytes).mapError .system :
      Except RunnerFailure Disk)
  return (disk, state.2.set normalized ⟨normalized, file.bytes⟩)

def hydrateWorkspace (cached : Option WorkspaceDirectory) (files : List WorkspaceFile) :
    Except RunnerFailure (Disk × OrderedMap Text WorkspaceFile) := do
  let found :=
    if runner.reuseWorkspaceDirectories then readCachedDirectory runner maxWorkspaceBytes cached else (.empty, [])
  let disk ← (ensureStandardWorkspaceDirectories found.1).mapError .system
  if runner.reuseWorkspaceDirectories ∧ ¬ SetsEqual (found.2.map (·.path)) (files.map (·.path)) then
    let disk ← (ensureStandardWorkspaceDirectories .empty).mapError .system
    files.foldlM (hydrateFile runner []) (disk, [])
  else
    files.foldlM (hydrateFile runner found.2) (disk, [])

inductive FileChange where
  | put (file : WorkspaceFile)
  | delete (path : Text)
  deriving DecidableEq

def FileChange.apply (files : List WorkspaceFile) : FileChange → List WorkspaceFile
  | .put file => file :: files.filter (·.path ≠ file.path)
  | .delete path => files.filter (·.path ≠ path)

def fileChanges (baselineFiles : OrderedMap Text WorkspaceFile) (scannedFiles : List WorkspaceFile) : List FileChange :=
  ((scannedFiles.filter fun file => ¬ SameContent runner (baselineFiles.get? file.path) file).map .put) ++
    (baselineFiles.keys.filter (· ∉ scannedFiles.map (·.path))).map .delete

/-- The files of the workspace after a command that left a directory, and what was changed. -/
def syncWorkspace (files : List WorkspaceFile) (baselineFiles : OrderedMap Text WorkspaceFile)
    (left : WorkspaceDirectory) : Except RunnerFailure (List FileChange) × List WorkspaceFile :=
  match scanWorkspaceFiles runner maxWorkspaceBytes left with
  | .error failure => (.error failure, files)
  | .ok scannedFiles =>
    let changes := fileChanges runner baselineFiles scannedFiles
    (.ok changes, changes.foldl FileChange.apply files)

end

variable {limits : WorkspacePathLimits} {value t p : Text}

theorem withoutRoot_length (value : Text) : (withoutRoot value).length ≤ value.length ∧
    ((withoutRoot value).length = value.length → withoutRoot value = value) := by
  have htrim := trim_sublist value
  have hle := htrim.length_le
  simp only [withoutRoot]
  split_ifs with hroot hslash
  · rw [hroot] at hle
    have hten : root.length = 10 := rfl
    simp only [List.length_singleton]
    omega
  · obtain ⟨rest, hrest⟩ := hslash
    have heleven : rootSlash.length = 11 := rfl
    rw [← hrest, List.length_append] at hle
    rw [← hrest, List.drop_left]
    omega
  · exact ⟨hle, htrim.eq_of_length⟩

theorem Accepted.length_shrinks (h : Accepted limits t p) : p.length ≤ t.length := by
  have hp := h.normalized.symm.trans (normalize_relative h.ne_nil h.slash rfl)
  have hpos := List.length_pos_of_ne_nil h.ne_nil
  by_cases htrailing : t.getLast? = some '/'
  · obtain ⟨front, rfl⟩ := List.getLast?_eq_some_iff.mp htrailing
    have hfront : 0 < front.length := by
      refine List.length_pos_of_ne_nil fun hnil => h.slash ?_
      rw [hnil]
      rfl
    rw [hp, if_pos htrailing, List.length_append, List.length_append]
    refine Nat.add_le_add_right ?_ _
    split_ifs with hnil
    · exact hfront
    · have hne : resolve true ((front ++ ['/']).splitOn '/') ≠ [] := fun he => hnil (by rw [he]; rfl)
      have hsub : (namesOf (front ++ ['/'])).Sublist (front.splitOn '/' ++ [[]]) := by
        have h' := h.sublist
        rwa [List.splitOn_append_cons_self] at h'
      have hfilter : (namesOf (front ++ ['/'])).Sublist (front.splitOn '/') := by
        have hkept := hsub.filter (· ≠ [])
        rw [List.filter_append, List.filter_eq_self.mpr fun s hs => by simpa using ((h.names hne).isName s hs).1] at hkept
        exact (by simpa using hkept : (namesOf (front ++ ['/'])).Sublist _).trans List.filter_sublist
      have hjoined : joinWith '/' (front.splitOn '/') = front := List.intercalate_splitOn '/'
      have hle : (joinWith '/' (namesOf (front ++ ['/']))).length ≤ (joinWith '/' (front.splitOn '/')).length :=
        (joinWith_sublist hfilter).length_le
      rwa [hjoined] at hle
  · rw [hp, if_neg htrailing, List.append_nil]
    split_ifs with hnil
    · exact hpos
    · exact h.names_sublist.length_le

theorem normalize_length (h : normalizeWorkspaceFilePath value limits = .ok p) :
    p.length ≤ value.length ∧ (p.length = value.length → p = value) := by
  obtain ⟨hacc, hdot, hslash⟩ := normalizeWorkspaceFilePath_ok.mp h
  obtain ⟨hle, hsame⟩ := withoutRoot_length value
  have hshrinks := Accepted.length_shrinks hacc
  refine ⟨hshrinks.trans hle, fun hlength => ?_⟩
  have hroot : withoutRoot value = value := hsame (by omega)
  rw [hroot] at hacc
  obtain ⟨-, rfl⟩ := hacc.result hdot hslash
  exact hacc.names_sublist.eq_of_length hlength

section resolve

variable {root : Root} {path : Path}

/-- What is accepted leads to the names of its parts below the root, be it written as the root itself or not. -/
theorem target_eq (hacc : Accepted limits (withoutRoot value) p) : root.resolve p = root.names ++ namesOf (withoutRoot value) ∧
    (if p = ['.'] then root.names else root.resolve p) = root.names ++ namesOf (withoutRoot value) := by
  have hp := hacc.normalized.symm.trans (normalize_relative hacc.ne_nil hacc.slash rfl)
  have hdots : ∀ dots ∈ [['.'], ['.', '/']], root.resolve dots = root.names := by
    intro dots hmem
    rw [ObjectStorage.Root.resolve, PosixPath.resolve, List.foldl_append, foldl_push_names root.spelled.isName]
    obtain rfl | rfl : dots = ['.'] ∨ dots = ['.', '/'] := by simpa using hmem
    · rw [show (['.'] : Text).splitOn '/' = [['.']] by decide]
      simp [push]
    · rw [show (['.', '/'] : Text).splitOn '/' = [['.'], []] by decide]
      simp [push]
  by_cases hne : namesOf (withoutRoot value) = []
  · -- only dots are left, with or without a slash
    have hmem : p ∈ [['.'], ['.', '/']] := by
      rw [show resolve true ((withoutRoot value).splitOn '/') = [] from hne] at hp
      split_ifs at hp with hnil htrailing
      · simp [hp]
      · simp [hp]
      · exact absurd rfl hnil
      · exact absurd rfl hnil
    rw [hne, List.append_nil, hdots p hmem, ite_self]
    exact ⟨rfl, rfl⟩
  · have hnames := hacc.names hne
    have hp : p = ObjectStorage.spell (namesOf (withoutRoot value)) ((withoutRoot value).getLast? = some '/') := by
      rw [if_neg hnames.path_ne_nil] at hp
      simpa [ObjectStorage.spell] using hp
    have hresolve : root.resolve p = root.names ++ namesOf (withoutRoot value) := hp ▸ ObjectStorage.resolve_spell hnames
    refine ⟨hresolve, ?_⟩
    rw [if_neg, hresolve]
    rintro rfl
    rw [hdots _ List.mem_cons_self] at hresolve
    exact hne (List.append_cancel_left ((List.append_nil _).trans hresolve)).symm

theorem resolve_eq (hacc : Accepted limits (withoutRoot value) p) :
    resolveWorkspaceFilesystemPath root value limits = .ok (toPath (namesOf (withoutRoot value))) := by
  have hinside : root.names ++ namesOf (withoutRoot value) = root.names ∨
      absolute root.names ++ ['/'] <+: absolute (root.names ++ namesOf (withoutRoot value)) := by
    by_cases hne : namesOf (withoutRoot value) = []
    · exact .inl (by rw [hne, List.append_nil])
    · refine .inr ⟨joinWith '/' (namesOf (withoutRoot value)), ?_⟩
      rw [absolute, absolute, joinWith_append root.spelled.ne_nil hne]
      simp
  simp only [resolveWorkspaceFilesystemPath, bind_ok, require_ok, pure_ok, normalizeWorkspacePath_ok]
  refine ⟨p, hacc, (), ?_, ?_⟩
  · rw [(target_eq hacc).2]
    exact hinside
  · rw [(target_eq hacc).2, List.drop_left]

theorem resolve_length (h : resolveWorkspaceFilesystemPath root p limits = .ok path) :
    (pathText path).length ≤ p.length ∧ ((pathText path).length = p.length → pathText path = p) := by
  obtain ⟨q, hacc⟩ : ∃ q, Accepted limits (withoutRoot p) q := by
    simp only [resolveWorkspaceFilesystemPath, bind_ok, normalizeWorkspacePath_ok] at h
    exact h.imp fun q hq => hq.1
  obtain rfl := Except.ok.inj ((resolve_eq hacc).symm.trans h)
  by_cases hne : namesOf (withoutRoot p) = []
  · rw [hne]
    exact ⟨Nat.zero_le _, fun hlength => (List.length_eq_zero_iff.mp hlength.symm).symm⟩
  · have hnames := hacc.names hne
    obtain ⟨hle, hsame⟩ := withoutRoot_length p
    rw [pathText, ObjectStorage.segments_toPath (ObjectStorage.valid_names hnames)]
    have hsub := hacc.names_sublist
    refine ⟨hsub.length_le.trans hle, fun hlength => ?_⟩
    have hroot : withoutRoot p = p := hsame (le_antisymm hle (hlength ▸ hsub.length_le))
    exact (hsub.eq_of_length (hlength.trans (congrArg List.length hroot).symm)).trans hroot

/-- A path is refused only where its normal form is. Any other leads below the root, to the names of its parts. -/
theorem resolved_inside (root : Root) (value : Text) (limits : WorkspacePathLimits) :
    (∀ failure, normalizeWorkspacePath value limits = .error failure →
      resolveWorkspaceFilesystemPath root value limits = .error failure) ∧
    ∀ p, normalizeWorkspacePath value limits = .ok p →
      (∀ s ∈ namesOf (withoutRoot value), IsName s ∧ '/' ∉ s) ∧ root.resolve p = root.names ++ namesOf (withoutRoot value) ∧
        resolveWorkspaceFilesystemPath root value limits = .ok (toPath (namesOf (withoutRoot value))) := by
  refine ⟨fun failure h => ?_, fun p h => ?_⟩
  · rw [resolveWorkspaceFilesystemPath, h]
    rfl
  · have hacc := normalizeWorkspacePath_ok.mp h
    refine ⟨?_, (target_eq hacc).1, resolve_eq hacc⟩
    by_cases hne : namesOf (withoutRoot value) = []
    · simp [hne]
    · exact ObjectStorage.valid_names (hacc.names hne)

theorem names_segments (hne : path ≠ []) : Names path.segments where
  isName s hs := (ObjectStorage.segments_valid path s hs).1
  unbroken s hs := (ObjectStorage.segments_valid path s hs).2
  ne_nil h := hne (List.map_eq_nil_iff.mp h)

theorem pathText_injective : Function.Injective pathText := by
  intro path other h
  have hnil {path : Path} (h : pathText path = []) : path = [] := by
    by_contra hne
    exact (names_segments hne).path_ne_nil h
  by_cases hpath : path = []
  · subst hpath
    exact (hnil h.symm).symm
  · have hother : other ≠ [] := fun he => hpath (hnil (h.trans (congrArg pathText he)))
    refine ObjectStorage.segments_injective ?_
    rw [← (names_segments hpath).split, ← (names_segments hother).split]
    exact congrArg (·.splitOn '/') h

theorem below_text {other : Path} (hpath : path ≠ []) (hother : other ≠ []) :
    pathText path ++ ['/'] <+: pathText other ↔ path <+: other.dropLast := by
  constructor
  · rintro ⟨rest, hrest⟩
    have htext : pathText path ++ '/' :: rest = pathText other := by simpa using hrest
    have hsplit : path.segments ++ rest.splitOn '/' = other.segments := by
      rw [← (names_segments hother).split, ← pathText, ← htext, List.splitOn_append_cons_self, pathText,
        (names_segments hpath).split]
    have htake : path = other.take path.length := by
      refine ObjectStorage.segments_injective ?_
      calc path.segments = (path.segments ++ rest.splitOn '/').take path.segments.length := List.take_left.symm
        _ = other.segments.take path.length := by rw [hsplit, Path.segments, List.length_map]
        _ = Path.segments (other.take path.length) := List.map_take.symm
    have hlength : path.length < other.length := by
      have h := congrArg List.length hsplit
      rw [List.length_append, Path.segments, Path.segments, List.length_map, List.length_map] at h
      have := List.length_pos_of_ne_nil (List.splitOn_ne_nil '/' rest)
      omega
    rw [List.dropLast_eq_take, htake]
    exact List.take_prefix_take_left (by omega)
  · rintro ⟨rest, hrest⟩
    have hother' : other = path ++ (rest ++ [other.getLast hother]) := by
      rw [← List.append_assoc, hrest, List.dropLast_append_getLast]
    have hbelow : Path.segments (rest ++ [other.getLast hother]) ≠ [] := by simp [Path.segments]
    have hsegments : other.segments = path.segments ++ Path.segments (rest ++ [other.getLast hother]) := by
      rw [Path.segments, Path.segments, Path.segments, ← List.map_append, ← hother']
    rw [pathText, pathText, hsegments, joinWith_append (names_segments hpath).ne_nil hbelow]
    exact ⟨_, List.append_assoc _ _ _⟩

theorem workspacePath_clean {path : Path} (h : '\\' ∉ pathText path) : workspacePath path = pathText path := by
  refine (List.map_congr_left fun c hc => if_neg ?_).trans (List.map_id _)
  rintro rfl
  exact h hc

def Plain (path : Path) : Prop := '\\' ∉ pathText path ∧ Trimmed (pathText path)

abbrev WorkspaceDirectory.PlainFiles (directory : WorkspaceDirectory) : Prop :=
  ∀ stored ∈ directory.disk.files, Plain stored.path

theorem scanned_path_iff (hne : path ≠ []) (h : normalizeWorkspaceFilePath (workspacePath path) limits = .ok p) :
    p = pathText path ↔ Plain path := by
  have hn := names_segments hne
  obtain ⟨hacc, -, -⟩ := normalizeWorkspaceFilePath_ok.mp h
  constructor
  · rintro rfl
    have hsame : pathText path = workspacePath path := (normalize_length h).2 (List.length_map _).symm
    have hback : '\\' ∉ pathText path := by
      rw [hsame]
      intro hmem
      obtain ⟨c, -, hc⟩ := List.mem_map.mp hmem
      split_ifs at hc with hslash
      · cases hc
      · exact hslash hc
    rw [← hsame] at h hacc
    have hroot : withoutRoot (pathText path) = pathText path :=
      (withoutRoot_length _).2 (le_antisymm (withoutRoot_length _).1 (Accepted.length_shrinks hacc))
    rw [hroot] at hacc
    exact ⟨hback, ((normalize_names_iff hn hacc.length_le hacc.nul hback).mp h).1⟩
  · rintro ⟨hback, htrim⟩
    rw [workspacePath_clean hback, withoutRoot_of_relative htrim hn.head_ne] at hacc
    exact hacc.normalized.symm.trans hn.normalize

/-- A path that normalizing leaves as it is. -/
abbrev Canonical (limits : WorkspacePathLimits) (path : Text) : Prop := normalizeWorkspaceFilePath path limits = .ok path

/-- A path that normalizing leaves as it is leads to the file that it spells. -/
theorem resolve_canonical (root : Root) (h : Canonical limits p) :
    ∃ path, path ≠ [] ∧ pathText path = p ∧ resolveWorkspaceFilesystemPath root p limits = .ok path := by
  obtain ⟨hacc, hdot, hslash⟩ := normalizeWorkspaceFilePath_ok.mp h
  have hroot : withoutRoot p = p :=
    (withoutRoot_length p).2 (le_antisymm (withoutRoot_length p).1 (Accepted.length_shrinks hacc))
  rw [hroot] at hacc
  obtain ⟨hnames, hp⟩ := hacc.result hdot hslash
  refine ⟨toPath (namesOf p), ObjectStorage.toPath_ne_nil hnames, ?_, ?_⟩
  · rw [pathText, ObjectStorage.segments_toPath (ObjectStorage.valid_names hnames), ← hp]
  · have hresolve : resolveWorkspaceFilesystemPath root p limits = .ok (toPath (namesOf (withoutRoot p))) :=
      resolve_eq (hroot.symm ▸ hacc)
    rwa [hroot] at hresolve

end resolve

section scan

variable {runner : Runner} {maxWorkspaceBytes totalBytes : Nat} {entries : List Entry} {directory : WorkspaceDirectory}
  {scanned : List WorkspaceFile}

def ScannedAs (runner : Runner) (stored : StoredFile) (file : WorkspaceFile) : Prop :=
  normalizeWorkspaceFilePath (workspacePath stored.path) runner.limits = .ok file.path ∧ file.bytes = stored.bytes

theorem mapError_ok {ε ε' α : Type} {f : ε → ε'} {x : Except ε α} {a : α} : x.mapError f = .ok a ↔ x = .ok a := by
  cases x <;> simp [Except.mapError]

theorem scanEntries_ok (h : scanEntries runner maxWorkspaceBytes totalBytes entries = .ok scanned) :
    List.Forall₂ (ScannedAs runner) (entries.filterMap Entry.file?) scanned := by
  induction entries generalizing totalBytes scanned with
  | nil => cases h; exact .nil
  | cons entry entries ih =>
    cases entry with
    | symbolicLink path => cases h
    | other path => cases h
    | file stored =>
      simp only [scanEntries, bind_ok, require_ok, pure_ok, mapError_ok] at h
      obtain ⟨path, hpath, -, -, files, hfiles, rfl⟩ := h
      exact .cons ⟨hpath, rfl⟩ (ih hfiles)

theorem mem_scan (h : scanWorkspaceFiles runner maxWorkspaceBytes directory = .ok scanned) :
    (∀ stored ∈ directory.disk.files, ∃ file ∈ scanned, ScannedAs runner stored file) ∧
      ∀ file ∈ scanned, ∃ stored ∈ directory.disk.files, ScannedAs runner stored file := by
  unfold scanWorkspaceFiles at h
  cases hscan : scanEntries runner maxWorkspaceBytes 0 directory.entries with
  | error failure => rw [hscan] at h; cases h
  | ok files =>
    rw [hscan] at h
    obtain rfl := Except.ok.inj h
    have hpairs := scanEntries_ok hscan
    constructor
    · intro stored hstored
      obtain ⟨file, hfile, has⟩ := forall₂_mem_left hpairs (directory.files.mem_iff.mpr hstored)
      exact ⟨file, (List.mem_insertionSort _).mpr hfile, has⟩
    · intro file hfile
      obtain ⟨stored, hstored, has⟩ := forall₂_mem_right hpairs ((List.mem_insertionSort _).mp hfile)
      exact ⟨stored, directory.files.mem_iff.mp hstored, has⟩

end scan

section disk

variable {disk disk' : Disk} {paths : List Path} {target : Path} {bytes : List UInt8}

theorem mkdir_ok (h : disk.mkdir target = .ok disk') : (∀ file ∈ disk.files, ¬ file.path <+: target) ∧
    disk'.files = disk.files ∧ ∀ path, path ∈ disk'.directories ↔ path ∈ disk.directories ∨ path <+: target := by
  unfold Disk.mkdir at h
  split_ifs at h with hfile
  obtain rfl := Except.ok.inj h
  refine ⟨fun file hf hprefix => hfile ⟨file, hf, hprefix⟩, rfl, fun path => ?_⟩
  simp

theorem mkdir_total (disk : Disk) (target : Path) (h : ∀ file ∈ disk.files, ¬ file.path <+: target) :
    ∃ disk', disk.mkdir target = .ok disk' := by
  unfold Disk.mkdir
  rw [dif_neg fun hfile => h _ hfile.choose_spec.1 hfile.choose_spec.2]
  exact ⟨_, rfl⟩

theorem mkdirs_ok (h : paths.foldlM Disk.mkdir disk = .ok disk') :
    (∀ file ∈ disk.files, ∀ path ∈ paths, ¬ file.path <+: path) ∧ disk'.files = disk.files ∧
      ∀ path, path ∈ disk'.directories ↔ path ∈ disk.directories ∨ ∃ made ∈ paths, path <+: made := by
  induction paths generalizing disk with
  | nil =>
    obtain rfl := Except.ok.inj h
    simp
  | cons made paths ih =>
    rw [List.foldlM_cons] at h
    obtain ⟨next, hnext, h⟩ := bind_ok.mp h
    obtain ⟨hfree, hfiles, hdirectories⟩ := mkdir_ok hnext
    obtain ⟨hrest, hfiles', hdirectories'⟩ := ih h
    refine ⟨fun file hfile => List.forall_mem_cons.mpr ⟨hfree file hfile, hrest file (hfiles ▸ hfile)⟩,
      hfiles'.trans hfiles, fun path => ?_⟩
    rw [hdirectories', hdirectories, List.exists_mem_cons_iff, or_assoc]

theorem mkdirs_total (disk : Disk) (paths : List Path) (h : ∀ file ∈ disk.files, ∀ path ∈ paths, ¬ file.path <+: path) :
    ∃ disk', paths.foldlM Disk.mkdir disk = .ok disk' := by
  induction paths generalizing disk with
  | nil => exact ⟨disk, rfl⟩
  | cons made paths ih =>
    obtain ⟨next, hnext⟩ := mkdir_total disk made fun file hfile => h file hfile made List.mem_cons_self
    obtain ⟨disk', hdisk'⟩ := ih next fun file hfile path hpath =>
      h file ((mkdir_ok hnext).2.1 ▸ hfile) path (List.mem_cons_of_mem _ hpath)
    exact ⟨disk', by rw [List.foldlM_cons, hnext]; exact hdisk'⟩

theorem writeFile_ok (h : disk.writeFile target bytes = .ok disk') : target ∉ disk.directories ∧
    disk'.files = ⟨target, bytes⟩ :: disk.files.filter (·.path ≠ target) ∧ disk'.directories = disk.directories := by
  unfold Disk.writeFile at h
  split_ifs at h with hdirectory hparent
  obtain rfl := Except.ok.inj h
  exact ⟨hdirectory, rfl, rfl⟩

theorem writeFile_total (bytes : List UInt8) (h : target ∉ disk.directories) (hparent : target.dropLast ∈ disk.directories) :
    ∃ disk', disk.writeFile target bytes = .ok disk' := by
  unfold Disk.writeFile
  rw [dif_neg h, dif_neg (not_not.mpr hparent)]
  exact ⟨_, rfl⟩

theorem file_path_ne_nil {file : StoredFile} (h : file ∈ disk.files) : file.path ≠ [] := fun he =>
  disk.apart file h (he ▸ disk.root_mem)

end disk

section hydrate

variable {runner : Runner} {maxWorkspaceBytes : Nat} {disk disk' : Disk} {baseline baseline' : OrderedMap Text WorkspaceFile}
  {cachedFiles files : List WorkspaceFile} {file : WorkspaceFile}

def Targets (runner : Runner) (file : WorkspaceFile) (path : Path) : Prop :=
  ∃ normalized, normalizeWorkspaceFilePath file.path runner.limits = .ok normalized ∧
    resolveWorkspaceFilesystemPath runner.root normalized runner.limits = .ok path

theorem hydrateFile_ok (h : hydrateFile runner cachedFiles (disk, baseline) file = .ok (disk', baseline')) :
    ∃ path, Targets runner file path ∧
      (disk' = disk ∨ ∃ made, disk.mkdir path.dropLast = .ok made ∧ made.writeFile path file.bytes = .ok disk') := by
  simp only [hydrateFile, bind_ok, pure_ok, mapError_ok] at h
  obtain ⟨normalized, hnormalized, path, hpath, written, hwritten, he⟩ := h
  obtain ⟨rfl, -⟩ := Prod.mk.inj he
  refine ⟨path, ⟨normalized, hnormalized, hpath⟩, ?_⟩
  split_ifs at hwritten
  · exact .inl (Except.ok.inj hwritten).symm
  · exact .inr (bind_ok.mp (mapError_ok.mp hwritten))

structure Grown (runner : Runner) (files : List WorkspaceFile) (disk disk' : Disk) : Prop where
  files_kept : ∀ stored ∈ disk.files, ∃ stored' ∈ disk'.files, stored'.path = stored.path
  directories_kept : ∀ path ∈ disk.directories, path ∈ disk'.directories
  written : ∀ stored' ∈ disk'.files,
    (∃ stored ∈ disk.files, stored.path = stored'.path) ∨ ∃ file ∈ files, Targets runner file stored'.path
  total : ∀ file ∈ files, ∃ path, Targets runner file path

theorem grown_write {path : Path} {made : Disk} {bytes : List UInt8} (hmade : disk.mkdir path.dropLast = .ok made)
    (hwrite : made.writeFile path bytes = .ok disk') :
    (∀ stored ∈ disk.files, ∃ stored' ∈ disk'.files, stored'.path = stored.path) ∧
      (∀ directory ∈ disk.directories, directory ∈ disk'.directories) ∧
      ∀ stored' ∈ disk'.files, (∃ stored ∈ disk.files, stored.path = stored'.path) ∨ stored'.path = path := by
  obtain ⟨-, hfiles, hdirectories⟩ := mkdir_ok hmade
  obtain ⟨-, hfiles', hdirectories'⟩ := writeFile_ok hwrite
  rw [hfiles', hdirectories', hfiles]
  refine ⟨fun stored hstored => ?_, fun directory h => (hdirectories directory).mpr (.inl h), fun stored' hstored' => ?_⟩
  · by_cases hpath : stored.path = path
    · exact ⟨_, List.mem_cons_self, hpath.symm⟩
    · exact ⟨stored, List.mem_cons_of_mem _ (List.mem_filter.mpr ⟨hstored, by simpa using hpath⟩), rfl⟩
  · obtain rfl | hold := List.mem_cons.mp hstored'
    · exact .inr rfl
    · exact .inl ⟨stored', List.mem_of_mem_filter hold, rfl⟩

theorem hydrated_grown (h : files.foldlM (hydrateFile runner cachedFiles) (disk, baseline) = .ok (disk', baseline')) :
    Grown runner files disk disk' := by
  induction files generalizing disk baseline with
  | nil =>
    obtain ⟨rfl, -⟩ := Prod.mk.inj (Except.ok.inj h)
    exact ⟨fun stored h => ⟨stored, h, rfl⟩, fun _ h => h, fun stored h => .inl ⟨stored, h, rfl⟩, fun _ h => by cases h⟩
  | cons file files ih =>
    rw [List.foldlM_cons] at h
    obtain ⟨⟨next, nextBaseline⟩, hnext, h⟩ := bind_ok.mp h
    have hrest := ih h
    obtain ⟨path, htarget, hdisk⟩ := hydrateFile_ok hnext
    have hstep : (∀ stored ∈ disk.files, ∃ stored' ∈ next.files, stored'.path = stored.path) ∧
        (∀ directory ∈ disk.directories, directory ∈ next.directories) ∧
        ∀ stored' ∈ next.files, (∃ stored ∈ disk.files, stored.path = stored'.path) ∨ stored'.path = path := by
      obtain rfl | ⟨made, hmade, hwrite⟩ := hdisk
      · exact ⟨fun stored h => ⟨stored, h, rfl⟩, fun _ h => h, fun stored h => .inl ⟨stored, h, rfl⟩⟩
      · exact grown_write hmade hwrite
    obtain ⟨hfiles, hdirectories, hwritten⟩ := hstep
    refine ⟨fun stored hstored => ?_, fun directory hd => hrest.directories_kept _ (hdirectories _ hd), fun stored' hstored' => ?_,
      List.forall_mem_cons.mpr ⟨⟨path, htarget⟩, hrest.total⟩⟩
    · obtain ⟨stored₁, hstored₁, hpath₁⟩ := hfiles stored hstored
      obtain ⟨stored₂, hstored₂, hpath₂⟩ := hrest.files_kept stored₁ hstored₁
      exact ⟨stored₂, hstored₂, hpath₂.trans hpath₁⟩
    · obtain ⟨stored₁, hstored₁, hpath₁⟩ | ⟨file', hfile', htarget'⟩ := hrest.written stored' hstored'
      · obtain ⟨stored, hstored, hpath⟩ | hpath := hwritten stored₁ hstored₁
        · exact .inl ⟨stored, hstored, hpath.trans hpath₁⟩
        · exact .inr ⟨file, List.mem_cons_self, hpath₁ ▸ hpath ▸ htarget⟩
      · exact .inr ⟨file', List.mem_cons_of_mem _ hfile', htarget'⟩

/-- The files may be those of one directory beside the standard directories, each under the path that it is scanned under. -/
structure Restorable (runner : Runner) (files : List WorkspaceFile) : Prop where
  canonical : ∀ file ∈ files, Canonical runner.limits file.path
  standard : ∀ file ∈ files, file.path ∉ STANDARD_WORKSPACE_DIRECTORIES.map pathText
  apart : ∀ file ∈ files, ∀ other ∈ files, ¬ file.path ++ ['/'] <+: other.path

def Runner.CollisionFree (runner : Runner) : Prop := ∀ bytes other,
  runner.createWorkspaceChecksum bytes = runner.createWorkspaceChecksum other → bytes.length = other.length → bytes = other

structure Hydrating (files cachedFiles done : List WorkspaceFile) (disk : Disk)
    (baseline : OrderedMap Text WorkspaceFile) : Prop where
  inside : ∀ stored ∈ disk.files, ∃ file ∈ files, pathText stored.path = file.path
  apart : ∀ file ∈ files, ∀ path ∈ disk.directories, pathText path ≠ file.path
  cached : ∀ known ∈ cachedFiles, known.path ∈ done.map (·.path) ∨
    ∃ stored ∈ disk.files, pathText stored.path = known.path ∧ stored.bytes = known.bytes
  hydrated : ∀ file ∈ done, ∃ stored ∈ disk.files, pathText stored.path = file.path ∧ stored.bytes = file.bytes
  baseline : ∀ path file, baseline.get? path = some file ↔ file ∈ done ∧ file.path = path

variable {done : List WorkspaceFile}

theorem baseline_set (h : ∀ path file, baseline.get? path = some file ↔ file ∈ done ∧ file.path = path)
    (hnew : file.path ∉ done.map (·.path)) (path : Text) (other : WorkspaceFile) :
    (baseline.set file.path file).get? path = some other ↔ other ∈ done ++ [file] ∧ other.path = path := by
  by_cases hpath : file.path = path
  · subst hpath
    rw [OrderedMap.get?_set_self, Option.some_inj, List.mem_append, List.mem_singleton]
    constructor
    · rintro rfl
      exact ⟨.inr rfl, rfl⟩
    · rintro ⟨hdone | rfl, hother⟩
      · exact absurd (hother ▸ List.mem_map_of_mem hdone) hnew
      · rfl
  · rw [OrderedMap.get?_set_of_ne hpath, h, List.mem_append, List.mem_singleton]
    constructor
    · rintro ⟨hdone, hother⟩
      exact ⟨.inl hdone, hother⟩
    · rintro ⟨hdone | rfl, hother⟩
      · exact ⟨hdone, hother⟩
      · exact absurd hother hpath

/-- A file that is not cached as it is can be written, and stands in the way of no other. -/
theorem Hydrating.write (hR : Restorable runner files) (h : Hydrating files cachedFiles done disk baseline)
    (hfile : file ∈ files) {path : Path} (hne : path ≠ []) (htext : pathText path = file.path) :
    ∃ made disk', disk.mkdir path.dropLast = .ok made ∧ made.writeFile path file.bytes = .ok disk' ∧
      disk'.files = ⟨path, file.bytes⟩ :: disk.files.filter (·.path ≠ path) ∧
      ∀ other ∈ files, ∀ directory ∈ disk'.directories, pathText directory ≠ other.path := by
  have hparents : ∀ directory, directory <+: path.dropLast → ∀ other ∈ files, pathText directory ≠ other.path := by
    intro directory hprefix other hother he
    obtain ⟨otherPath, hotherPath, hotherText, -⟩ := resolve_canonical runner.root (hR.canonical other hother)
    obtain rfl : directory = otherPath := pathText_injective (he.trans hotherText.symm)
    have hbelow := (below_text hotherPath hne).mpr hprefix
    rw [hotherText, htext] at hbelow
    exact hR.apart other hother file hfile hbelow
  obtain ⟨made, hmade⟩ := mkdir_total disk path.dropLast fun stored hstored hprefix => by
    obtain ⟨other, hother, he⟩ := h.inside stored hstored
    exact hparents _ hprefix other hother he
  obtain ⟨-, hfiles, hdirectories⟩ := mkdir_ok hmade
  have hmadeApart : ∀ other ∈ files, ∀ directory ∈ made.directories, pathText directory ≠ other.path := by
    intro other hother directory hdirectory
    obtain hold | hprefix := (hdirectories directory).mp hdirectory
    · exact h.apart other hother directory hold
    · exact hparents directory hprefix other hother
  obtain ⟨disk', hwrite⟩ := writeFile_total file.bytes (fun hmem => hmadeApart file hfile path hmem htext)
    ((hdirectories _).mpr (.inr List.prefix_rfl))
  obtain ⟨-, hfiles', hdirectories'⟩ := writeFile_ok hwrite
  exact ⟨made, disk', hmade, hwrite, hfiles ▸ hfiles', hdirectories'.symm ▸ hmadeApart⟩

theorem Hydrating.step (hC : runner.CollisionFree) (hR : Restorable runner files)
    (h : Hydrating files cachedFiles done disk baseline) (hfile : file ∈ files) (hnew : file.path ∉ done.map (·.path)) :
    ∃ disk' baseline', hydrateFile runner cachedFiles (disk, baseline) file = .ok (disk', baseline') ∧
      Hydrating files cachedFiles (done ++ [file]) disk' baseline' := by
  have hcanonical := hR.canonical file hfile
  obtain ⟨path, hne, htext, hresolve⟩ := resolve_canonical runner.root hcanonical
  have hbaseline := baseline_set h.baseline hnew
  by_cases hsame : SameContent runner ((cachedFiles.filter (·.path = file.path)).getLast?) file
  · refine ⟨disk, baseline.set file.path file, ?_, h.inside, h.apart, ?_, ?_, hbaseline⟩
    · simp only [hydrateFile, bind_ok, pure_ok, mapError_ok]
      exact ⟨_, hcanonical, _, hresolve, disk, if_pos hsame, rfl⟩
    · intro known hknown
      exact (h.cached known hknown).imp_left fun hdone => by simp [hdone]
    · intro other hother
      obtain hother | hother := List.mem_append.mp hother
      · exact h.hydrated other hother
      · obtain rfl := List.mem_singleton.mp hother
        obtain ⟨known, hknown, hchecksum, hlength⟩ := hsame
        obtain ⟨hcached, hpath⟩ := List.mem_filter.mp (List.mem_of_mem_getLast? hknown)
        have hpath : known.path = other.path := by simpa using hpath
        obtain ⟨stored, hstored, hstoredText, hbytes⟩ := (h.cached known hcached).resolve_left (hpath ▸ hnew)
        exact ⟨stored, hstored, hstoredText.trans hpath, hbytes.trans (hC _ _ hchecksum hlength)⟩
  · obtain ⟨made, disk', hmade, hwrite, hfiles, hapart⟩ := h.write hR hfile hne htext
    have hkept {stored : StoredFile} (hstored : stored ∈ disk.files) (hother : pathText stored.path ≠ file.path) :
        stored ∈ disk'.files := by
      rw [hfiles]
      refine List.mem_cons_of_mem _ (List.mem_filter.mpr ⟨hstored, ?_⟩)
      have hpath : stored.path ≠ path := fun he => hother (he ▸ htext)
      simpa using hpath
    have hwritten : ⟨path, file.bytes⟩ ∈ disk'.files := hfiles ▸ List.mem_cons_self
    refine ⟨disk', baseline.set file.path file, ?_, ?_, hapart, ?_, ?_, hbaseline⟩
    · simp only [hydrateFile, bind_ok, pure_ok, mapError_ok]
      exact ⟨_, hcanonical, _, hresolve, disk', (if_neg hsame).trans (mapError_ok.mpr (bind_ok.mpr ⟨made, hmade, hwrite⟩)), rfl⟩
    · intro stored hstored
      rw [hfiles] at hstored
      obtain rfl | hold := List.mem_cons.mp hstored
      · exact ⟨file, hfile, htext⟩
      · exact h.inside stored (List.mem_of_mem_filter hold)
    · intro known hknown
      by_cases hpath : known.path = file.path
      · exact .inl (by simp [hpath])
      · obtain hdone | ⟨stored, hstored, hstoredText, hbytes⟩ := h.cached known hknown
        · exact .inl (by simp [hdone])
        · exact .inr ⟨stored, hkept hstored fun he => hpath (hstoredText.symm.trans he), hstoredText, hbytes⟩
    · intro other hother
      obtain hother | hother := List.mem_append.mp hother
      · obtain ⟨stored, hstored, hstoredText, hbytes⟩ := h.hydrated other hother
        refine ⟨stored, hkept hstored fun he => hnew ?_, hstoredText, hbytes⟩
        rw [← he, hstoredText]
        exact List.mem_map_of_mem hother
      · obtain rfl := List.mem_singleton.mp hother
        exact ⟨_, hwritten, htext, rfl⟩

theorem Hydrating.run (hC : runner.CollisionFree) (hR : Restorable runner files) {rest : List WorkspaceFile}
    (h : Hydrating files cachedFiles done disk baseline) (hrest : ∀ file ∈ rest, file ∈ files)
    (hnodup : ((done ++ rest).map (·.path)).Nodup) :
    ∃ disk' baseline', rest.foldlM (hydrateFile runner cachedFiles) (disk, baseline) = .ok (disk', baseline') ∧
      Hydrating files cachedFiles (done ++ rest) disk' baseline' := by
  induction rest generalizing done disk baseline with
  | nil => exact ⟨disk, baseline, rfl, by rwa [List.append_nil]⟩
  | cons file rest ih =>
    obtain ⟨hfile, hrest⟩ := List.forall_mem_cons.mp hrest
    have hsplit : done ++ file :: rest = (done ++ [file]) ++ rest := by simp
    have hnew : file.path ∉ done.map (·.path) := by
      rw [List.map_append, List.map_cons] at hnodup
      intro hmem
      exact (List.nodup_append.mp hnodup).2.2 _ hmem _ List.mem_cons_self rfl
    obtain ⟨next, nextBaseline, hnext, hstep⟩ := h.step hC hR hfile hnew
    obtain ⟨disk', baseline', hrun, hend⟩ := ih hstep hrest (hsplit ▸ hnodup)
    exact ⟨disk', baseline', by rw [List.foldlM_cons, hnext]; exact hrun, hsplit ▸ hend⟩

-- -----------------
-- What hydration restores
-- -----------------

def Holds (disk : Disk) (files : List WorkspaceFile) : Prop := ∀ path bytes, ⟨path, bytes⟩ ∈ files ↔
  ∃ stored ∈ disk.files, pathText stored.path = path ∧ stored.bytes = bytes

def Restores (runner : Runner) (maxWorkspaceBytes : Nat) (cached : Option WorkspaceDirectory)
    (files : List WorkspaceFile) : Prop :=
  ∃ disk baseline, hydrateWorkspace runner maxWorkspaceBytes cached files = .ok (disk, baseline) ∧ Holds disk files

def Reuses (runner : Runner) (maxWorkspaceBytes : Nat) (directory : WorkspaceDirectory)
    (files : List WorkspaceFile) : Prop :=
  runner.reuseWorkspaceDirectories = true ∧ ∃ disk scanned,
    ensureStandardWorkspaceDirectories directory.disk = .ok disk ∧
    scanWorkspaceFiles runner maxWorkspaceBytes directory = .ok scanned ∧
    SetsEqual (scanned.map (·.path)) (files.map (·.path))

variable {cached : Option WorkspaceDirectory} {directory : WorkspaceDirectory} {scanned : List WorkspaceFile}

theorem Hydrating.holds (h : Hydrating files cachedFiles files disk baseline) : Holds disk files := by
  intro path bytes
  constructor
  · intro hmem
    exact h.hydrated _ hmem
  · rintro ⟨stored, hstored, rfl, rfl⟩
    obtain ⟨file, hfile, htext⟩ := h.inside stored hstored
    obtain ⟨stored', hstored', htext', hbytes⟩ := h.hydrated file hfile
    obtain rfl : stored' = stored :=
      List.inj_on_of_nodup_map disk.nodup hstored' hstored (pathText_injective (htext'.trans htext.symm))
    rw [htext, hbytes]
    exact hfile

theorem ensure_empty : ∃ disk, ensureStandardWorkspaceDirectories .empty = .ok disk ∧ disk.files = [] ∧
    ∀ path, path ∈ disk.directories ↔ path = [] ∨ ∃ made ∈ STANDARD_WORKSPACE_DIRECTORIES, path <+: made := by
  obtain ⟨disk, hdisk⟩ := mkdirs_total .empty STANDARD_WORKSPACE_DIRECTORIES fun _ h => by cases h
  obtain ⟨-, hfiles, hdirectories⟩ := mkdirs_ok hdisk
  refine ⟨disk, hdisk, hfiles, fun path => (hdirectories path).trans (or_congr_left ?_)⟩
  exact Finset.mem_singleton

theorem hydrate_fresh (h : ∀ directory ∈ cached, ¬ Reuses runner maxWorkspaceBytes directory files)
    (hdisk : ensureStandardWorkspaceDirectories .empty = .ok disk) :
    hydrateWorkspace runner maxWorkspaceBytes cached files = files.foldlM (hydrateFile runner []) (disk, []) := by
  have hensured : (ensureStandardWorkspaceDirectories .empty).mapError RunnerFailure.system = .ok disk := mapError_ok.mpr hdisk
  unfold hydrateWorkspace
  by_cases hreuse : runner.reuseWorkspaceDirectories = true
  · cases cached with
    | none =>
      simp only [hreuse, if_true, readCachedDirectory, hensured]
      split_ifs <;> rfl
    | some directory =>
      simp only [hreuse, if_true, readCachedDirectory]
      split
      · rename_i kept scanned hkept hscan
        have hsets : ¬ SetsEqual (scanned.map (·.path)) (files.map (·.path)) := fun hsets =>
          h directory rfl ⟨hreuse, kept, scanned, hkept, hscan, hsets⟩
        obtain ⟨hfree, hfiles, -⟩ := mkdirs_ok hkept
        obtain ⟨again, hagain⟩ := mkdirs_total kept STANDARD_WORKSPACE_DIRECTORIES
          fun file hfile => hfree file (hfiles ▸ hfile)
        have hagain : (ensureStandardWorkspaceDirectories kept).mapError RunnerFailure.system = .ok again :=
          mapError_ok.mpr hagain
        simp only [hagain, hsets, not_false_eq_true, and_self, if_true, hensured]
        rfl
      · simp only [hensured]
        split_ifs <;> rfl
  · simp only [hreuse, Bool.false_eq_true, if_false, false_and, hensured]
    rfl

theorem hydrate_reused (hreuse : runner.reuseWorkspaceDirectories = true)
    (hdisk : ensureStandardWorkspaceDirectories directory.disk = .ok disk)
    (hscan : scanWorkspaceFiles runner maxWorkspaceBytes directory = .ok scanned)
    (hsets : SetsEqual (scanned.map (·.path)) (files.map (·.path))) :
    ∃ disk', disk'.files = directory.disk.files ∧ (∀ path ∈ STANDARD_WORKSPACE_DIRECTORIES, path ∈ disk'.directories) ∧
      hydrateWorkspace runner maxWorkspaceBytes (some directory) files =
        files.foldlM (hydrateFile runner scanned) (disk', []) := by
  obtain ⟨hfree, hfiles, -⟩ := mkdirs_ok hdisk
  obtain ⟨again, hagain⟩ := mkdirs_total disk STANDARD_WORKSPACE_DIRECTORIES
    fun file hfile => hfree file (hfiles ▸ hfile)
  obtain ⟨-, hfiles', hdirectories⟩ := mkdirs_ok hagain
  refine ⟨again, hfiles'.trans hfiles, fun path hpath => (hdirectories path).mpr (.inr ⟨path, hpath, List.prefix_rfl⟩), ?_⟩
  have hagain : (ensureStandardWorkspaceDirectories disk).mapError RunnerFailure.system = .ok again := mapError_ok.mpr hagain
  unfold hydrateWorkspace
  simp only [hreuse, if_true, readCachedDirectory, hdisk, hscan, hagain, hsets, not_true_eq_false, and_false, if_false]
  rfl

/-- A map that makes no text longer and reaches every text of a finite set keeps all lengths, and reaches nothing else. -/
theorem lengths_kept {S : Finset Text} {g : Text → Text} (hle : ∀ t ∈ S, (g t).length ≤ t.length)
    (hcover : S ⊆ S.image g) : S.image g = S ∧ ∀ t ∈ S, (g t).length = t.length := by
  have himage : S = S.image g := Finset.eq_of_subset_of_card_le hcover Finset.card_image_le
  have hinj : Set.InjOn g S := Finset.card_image_iff.mp (congrArg Finset.card himage).symm
  refine ⟨himage.symm, (Finset.sum_eq_sum_iff_of_le hle).mp ?_⟩
  calc ∑ t ∈ S, (g t).length = ∑ t ∈ S.image g, t.length := (Finset.sum_image hinj).symm
    _ = ∑ t ∈ S, t.length := by rw [← himage]

theorem setsEqual_iff {left right : List Text} : SetsEqual left right ↔ left.toFinset = right.toFinset := by
  constructor
  · rintro ⟨hcard, hsub⟩
    exact Finset.eq_of_subset_of_card_le (fun t ht => List.mem_toFinset.mpr (hsub t (List.mem_toFinset.mp ht))) hcard.ge
  · intro h
    exact ⟨congrArg Finset.card h, fun t ht => List.mem_toFinset.mp (h ▸ List.mem_toFinset.mpr ht)⟩

/-- Files that a directory holds stand in each other's way as little as in it. -/
theorem restorable_of_holds (hcanonical : ∀ file ∈ files, Canonical runner.limits file.path)
    (hstandard : ∀ file ∈ files, file.path ∉ STANDARD_WORKSPACE_DIRECTORIES.map pathText) (hholds : Holds disk files) :
    Restorable runner files := by
  refine ⟨hcanonical, hstandard, fun file hfile other hother hbelow => ?_⟩
  obtain ⟨stored, hstored, htext, -⟩ := (hholds _ _).mp hfile
  obtain ⟨stored', hstored', htext', -⟩ := (hholds _ _).mp hother
  rw [← htext, ← htext', below_text (file_path_ne_nil hstored) (file_path_ne_nil hstored')] at hbelow
  exact disk.apart stored hstored (disk.closed _ (disk.enclosed stored' hstored') _ hbelow)

theorem standard_of_holds (hstandard : ∀ path ∈ STANDARD_WORKSPACE_DIRECTORIES, path ∈ disk.directories)
    (hholds : Holds disk files) : ∀ file ∈ files, file.path ∉ STANDARD_WORKSPACE_DIRECTORIES.map pathText := by
  intro file hfile hmem
  obtain ⟨stored, hstored, htext, -⟩ := (hholds _ _).mp hfile
  obtain ⟨path, hpath, he⟩ := List.mem_map.mp hmem
  obtain rfl : path = stored.path := pathText_injective (he.trans htext.symm)
  exact disk.apart stored hstored (hstandard _ hpath)

def targetText (runner : Runner) (path : Text) : Text :=
  match normalizeWorkspaceFilePath path runner.limits with
  | .error _ => []
  | .ok normalized =>
    match resolveWorkspaceFilesystemPath runner.root normalized runner.limits with
    | .error _ => []
    | .ok target => pathText target

theorem targetText_eq {path : Path} (h : Targets runner file path) : targetText runner file.path = pathText path ∧
    (pathText path).length ≤ file.path.length ∧ ((pathText path).length = file.path.length →
      Canonical runner.limits file.path) := by
  obtain ⟨normalized, hnormalized, hpath⟩ := h
  obtain ⟨hle, hsame⟩ := normalize_length hnormalized
  have hle' := (resolve_length hpath).1
  refine ⟨by rw [targetText, hnormalized]; dsimp only; rw [hpath], hle'.trans hle, fun hlength => ?_⟩
  exact hnormalized.trans (congrArg _ (hsame (by omega)))

theorem canonical_of_fresh (hfiles : disk.files = []) (hgrown : Grown runner files disk disk')
    (hholds : Holds disk' files) : ∀ file ∈ files, Canonical runner.limits file.path := by
  have hle : ∀ t ∈ (files.map (·.path)).toFinset, (targetText runner t).length ≤ t.length := by
    intro t ht
    obtain ⟨file, hfile, rfl⟩ := List.mem_map.mp (List.mem_toFinset.mp ht)
    obtain ⟨path, htarget⟩ := hgrown.total file hfile
    obtain ⟨he, hle, -⟩ := targetText_eq htarget
    rwa [he]
  have hcover : (files.map (·.path)).toFinset ⊆ (files.map (·.path)).toFinset.image (targetText runner) := by
    intro t ht
    obtain ⟨file, hfile, rfl⟩ := List.mem_map.mp (List.mem_toFinset.mp ht)
    obtain ⟨stored, hstored, htext, -⟩ := (hholds _ _).mp hfile
    obtain ⟨old, hold, -⟩ | ⟨other, hother, htarget⟩ := hgrown.written stored hstored
    · rw [hfiles] at hold
      cases hold
    · rw [← htext, ← (targetText_eq htarget).1]
      exact Finset.mem_image_of_mem _ (List.mem_toFinset.mpr (List.mem_map_of_mem hother))
  intro file hfile
  obtain ⟨path, htarget⟩ := hgrown.total file hfile
  obtain ⟨he, -, hcanonical⟩ := targetText_eq htarget
  refine hcanonical ?_
  rw [← he]
  exact (lengths_kept hle hcover).2 _ (List.mem_toFinset.mpr (List.mem_map_of_mem hfile))

def scannedText (runner : Runner) (path : Text) : Text :=
  match normalizeWorkspaceFilePath (path.map fun c => if c = '\\' then '/' else c) runner.limits with
  | .error _ => []
  | .ok normalized => normalized

theorem scannedText_eq {stored : StoredFile} (h : ScannedAs runner stored file) :
    scannedText runner (pathText stored.path) = file.path ∧ file.path.length ≤ (pathText stored.path).length ∧
      (file.path.length = (pathText stored.path).length → file.path = workspacePath stored.path) := by
  obtain ⟨hpath, -⟩ := h
  obtain ⟨hle, hsame⟩ := normalize_length hpath
  rw [workspacePath, List.length_map] at hle hsame
  refine ⟨?_, hle, hsame⟩
  rw [workspacePath] at hpath
  rw [scannedText, hpath]

/-- A kept directory whose files are all found is one whose files are scanned under their own paths. -/
theorem plain_of_reused (hscan : scanWorkspaceFiles runner maxWorkspaceBytes directory = .ok scanned)
    (hcover : ∀ stored ∈ directory.disk.files, pathText stored.path ∈ scanned.map (·.path)) :
    directory.PlainFiles := by
  obtain ⟨hto, hback⟩ := mem_scan hscan
  let S := (directory.disk.files.map fun stored => pathText stored.path).toFinset
  have hmem {stored : StoredFile} (h : stored ∈ directory.disk.files) : pathText stored.path ∈ S :=
    List.mem_toFinset.mpr (List.mem_map_of_mem h)
  have hle : ∀ t ∈ S, (scannedText runner t).length ≤ t.length := by
    intro t ht
    obtain ⟨stored, hstored, rfl⟩ := List.mem_map.mp (List.mem_toFinset.mp ht)
    obtain ⟨file, -, has⟩ := hto stored hstored
    obtain ⟨he, hle, -⟩ := scannedText_eq has
    rwa [he]
  have hcovered : S ⊆ S.image (scannedText runner) := by
    intro t ht
    obtain ⟨stored, hstored, rfl⟩ := List.mem_map.mp (List.mem_toFinset.mp ht)
    obtain ⟨file, hfile, hpath⟩ := List.mem_map.mp (hcover stored hstored)
    obtain ⟨origin, horigin, has⟩ := hback file hfile
    rw [← hpath, ← (scannedText_eq has).1]
    exact Finset.mem_image_of_mem _ (hmem horigin)
  obtain ⟨himage, hlengths⟩ := lengths_kept hle hcovered
  have hsame {stored : StoredFile} {file : WorkspaceFile} (hstored : stored ∈ directory.disk.files)
      (has : ScannedAs runner stored file) : file.path = workspacePath stored.path := by
    obtain ⟨he, -, hsame⟩ := scannedText_eq has
    exact hsame (he ▸ hlengths _ (hmem hstored))
  intro stored hstored
  -- a path that is reached has no backslash
  have hclean : '\\' ∉ pathText stored.path := by
    have hreached : pathText stored.path ∈ S.image (scannedText runner) := hcovered (hmem hstored)
    obtain ⟨t, ht, he⟩ := Finset.mem_image.mp hreached
    obtain ⟨origin, horigin, rfl⟩ := List.mem_map.mp (List.mem_toFinset.mp ht)
    obtain ⟨file, -, has⟩ := hto origin horigin
    rw [← he, (scannedText_eq has).1, hsame horigin has]
    intro hslash
    obtain ⟨c, -, hc⟩ := List.mem_map.mp hslash
    split_ifs at hc with h
    · cases hc
    · exact h hc
  obtain ⟨file, -, has⟩ := hto stored hstored
  exact (scanned_path_iff (file_path_ne_nil hstored) has.1).mp ((hsame hstored has).trans (workspacePath_clean hclean))

theorem plain_of_canonical {path : Path} (hne : path ≠ [])
    (h : Canonical limits (pathText path)) : Plain path := by
  obtain ⟨hacc, -, -⟩ := normalizeWorkspaceFilePath_ok.mp h
  have hroot : withoutRoot (pathText path) = pathText path :=
    (withoutRoot_length _).2 (le_antisymm (withoutRoot_length _).1 (Accepted.length_shrinks hacc))
  have hclean : '\\' ∉ pathText path := hroot ▸ hacc.backslash
  have hscanned : normalizeWorkspaceFilePath (workspacePath path) limits = .ok (pathText path) := by
    rwa [workspacePath_clean hclean]
  exact (scanned_path_iff hne hscanned).mp rfl

theorem canonical_of_plain {stored : StoredFile} (hne : stored.path ≠ []) (has : ScannedAs runner stored file)
    (hplain : Plain stored.path) :
    file.path = pathText stored.path ∧ Canonical runner.limits (pathText stored.path) := by
  have hpath := (scanned_path_iff hne has.1).mpr hplain
  refine ⟨hpath, ?_⟩
  have hscanned := has.1
  rwa [hpath, workspacePath_clean hplain.1] at hscanned

theorem restores_imp (h : Restores runner maxWorkspaceBytes cached files) : Restorable runner files ∧
    ∀ directory ∈ cached, Reuses runner maxWorkspaceBytes directory files → directory.PlainFiles := by
  obtain ⟨disk, baseline, hhydrate, hholds⟩ := h
  by_cases hreuses : ∃ directory ∈ cached, Reuses runner maxWorkspaceBytes directory files
  · obtain ⟨directory, hcached, hreuse, kept, scanned, hkept, hscan, hsets⟩ := hreuses
    obtain rfl : cached = some directory := hcached
    obtain ⟨start, hfiles, hstandard, he⟩ := hydrate_reused hreuse hkept hscan hsets
    have hgrown := hydrated_grown (he.symm.trans hhydrate)
    have hpaths := setsEqual_iff.mp hsets
    have hplain : directory.PlainFiles := by
      refine plain_of_reused hscan fun stored hstored => ?_
      obtain ⟨stored', hstored', hpath⟩ := hgrown.files_kept stored (hfiles.symm ▸ hstored)
      have hfile := (hholds (pathText stored.path) stored'.bytes).mpr ⟨stored', hstored', congrArg pathText hpath, rfl⟩
      have hmem : pathText stored.path ∈ (files.map (·.path)).toFinset := List.mem_toFinset.mpr (List.mem_map_of_mem hfile)
      exact List.mem_toFinset.mp (hpaths ▸ hmem)
    refine ⟨restorable_of_holds (fun file hfile => ?_) (standard_of_holds (fun path hpath =>
      hgrown.directories_kept path (hstandard path hpath)) hholds) hholds, ?_⟩
    · have hmem : file.path ∈ (scanned.map (·.path)).toFinset := hpaths ▸ List.mem_toFinset.mpr (List.mem_map_of_mem hfile)
      obtain ⟨found, hfound, hpath⟩ := List.mem_map.mp (List.mem_toFinset.mp hmem)
      obtain ⟨stored, hstored, has⟩ := (mem_scan hscan).2 found hfound
      obtain ⟨htext, hcanonical⟩ := canonical_of_plain (file_path_ne_nil hstored) has (hplain stored hstored)
      rwa [← hpath, htext]
    · rintro other hother -
      obtain rfl : directory = other := Option.some.inj hother
      exact hplain
  · have hfresh : ∀ directory ∈ cached, ¬ Reuses runner maxWorkspaceBytes directory files := fun directory hd hr =>
      hreuses ⟨directory, hd, hr⟩
    obtain ⟨start, hstart, hfiles, hdirectories⟩ := ensure_empty
    have hgrown := hydrated_grown ((hydrate_fresh hfresh hstart).symm.trans hhydrate)
    refine ⟨restorable_of_holds (canonical_of_fresh hfiles hgrown hholds) (standard_of_holds (fun path hpath => ?_) hholds) hholds,
      fun directory hd hr => absurd hr (hfresh directory hd)⟩
    exact hgrown.directories_kept path ((hdirectories path).mpr (.inr ⟨path, hpath, List.prefix_rfl⟩))

/-- Restorable files are restored, and are what the command's files are compared with. -/
theorem hydrates (maxWorkspaceBytes : Nat) (cached : Option WorkspaceDirectory) (hC : runner.CollisionFree)
    (hnodup : (files.map (·.path)).Nodup) (hR : Restorable runner files)
    (hplain : ∀ directory ∈ cached, Reuses runner maxWorkspaceBytes directory files →
      directory.PlainFiles) :
    ∃ disk baseline, hydrateWorkspace runner maxWorkspaceBytes cached files = .ok (disk, baseline) ∧ Holds disk files ∧
      ∀ path file, baseline.get? path = some file ↔ file ∈ files ∧ file.path = path := by
  have hbaseline : ∀ path file, OrderedMap.get? ([] : OrderedMap Text WorkspaceFile) path = some file ↔
      file ∈ ([] : List WorkspaceFile) ∧ file.path = path := by simp
  by_cases hreuses : ∃ directory ∈ cached, Reuses runner maxWorkspaceBytes directory files
  · obtain ⟨directory, hcached, hr⟩ := hreuses
    obtain rfl : cached = some directory := hcached
    have hplain := hplain directory rfl hr
    obtain ⟨hreuse, kept, scanned, hkept, hscan, hsets⟩ := hr
    obtain ⟨start, hfiles, -, he⟩ := hydrate_reused hreuse hkept hscan hsets
    obtain ⟨hto, hback⟩ := mem_scan hscan
    have hpaths := setsEqual_iff.mp hsets
    have hfound {found : WorkspaceFile} (h : found ∈ scanned) :
        ∃ stored ∈ start.files, pathText stored.path = found.path ∧ stored.bytes = found.bytes := by
      obtain ⟨stored, hstored, has⟩ := hback found h
      exact ⟨stored, hfiles.symm ▸ hstored, (canonical_of_plain (file_path_ne_nil hstored) has (hplain stored hstored)).1.symm,
        has.2.symm⟩
    have hinit : Hydrating files scanned [] start [] := by
      refine ⟨fun stored hstored => ?_, fun file hfile path hpath htext => ?_, fun known hknown => .inr (hfound hknown),
        fun _ h => (by cases h), hbaseline⟩
      · obtain ⟨found, hscanned, has⟩ := hto stored (hfiles ▸ hstored)
        have htext := (canonical_of_plain (file_path_ne_nil hstored) has (hplain stored (hfiles ▸ hstored))).1
        have hmem : found.path ∈ (files.map (·.path)).toFinset := hpaths ▸ List.mem_toFinset.mpr (List.mem_map_of_mem hscanned)
        obtain ⟨file, hfile, hpath⟩ := List.mem_map.mp (List.mem_toFinset.mp hmem)
        exact ⟨file, hfile, (hpath.trans htext).symm⟩
      · have hmem : file.path ∈ (scanned.map (·.path)).toFinset := hpaths ▸ List.mem_toFinset.mpr (List.mem_map_of_mem hfile)
        obtain ⟨found, hscanned, hsame⟩ := List.mem_map.mp (List.mem_toFinset.mp hmem)
        obtain ⟨stored, hstored, hstoredText, -⟩ := hfound hscanned
        obtain rfl : path = stored.path := pathText_injective (htext.trans (hsame.symm.trans hstoredText.symm))
        exact start.apart stored hstored hpath
    obtain ⟨disk, baseline, hrun, hend⟩ := hinit.run hC hR (fun _ h => h) hnodup
    exact ⟨disk, baseline, he.trans hrun, hend.holds, hend.baseline⟩
  · have hfresh : ∀ directory ∈ cached, ¬ Reuses runner maxWorkspaceBytes directory files := fun directory hd hr =>
      hreuses ⟨directory, hd, hr⟩
    obtain ⟨start, hstart, hfiles, hdirectories⟩ := ensure_empty
    have hinit : Hydrating files [] [] start [] := by
      refine ⟨fun stored h => (by rw [hfiles] at h; cases h), fun file hfile path hpath htext => ?_, fun _ h => (by cases h),
        fun _ h => (by cases h), hbaseline⟩
      obtain ⟨own, hne, howntext, -⟩ := resolve_canonical runner.root (hR.canonical file hfile)
      obtain rfl : path = own := pathText_injective (htext.trans howntext.symm)
      obtain hnil | ⟨made, hmade, hprefix⟩ := (hdirectories path).mp hpath
      · exact hne hnil
      · have hone : ∀ made ∈ STANDARD_WORKSPACE_DIRECTORIES, made.length = 1 := by decide
        obtain rfl : path = made := hprefix.eq_of_length
          (le_antisymm hprefix.length_le ((hone made hmade).le.trans (List.length_pos_of_ne_nil hne)))
        exact hR.standard file hfile (howntext ▸ List.mem_map_of_mem hmade)
    obtain ⟨disk, baseline, hrun, hend⟩ := hinit.run hC hR (fun _ h => h) hnodup
    exact ⟨disk, baseline, (hydrate_fresh hfresh hstart).trans hrun, hend.holds, hend.baseline⟩

theorem mem_puts {puts : List WorkspaceFile} (hnodup : (puts.map (·.path)).Nodup) :
    file ∈ (puts.map FileChange.put).foldl FileChange.apply files ↔
      file ∈ puts ∨ file ∈ files ∧ file.path ∉ puts.map (·.path) := by
  induction puts generalizing files with
  | nil => simp
  | cons put puts ih =>
    obtain ⟨hput, hnodup⟩ := List.nodup_cons.mp hnodup
    rw [List.map_cons, List.foldl_cons, ih hnodup]
    simp only [FileChange.apply, List.mem_cons, List.mem_filter, List.map_cons, not_or, decide_eq_true_eq]
    constructor
    · rintro (hmem | ⟨rfl | ⟨hmem, hne⟩, hother⟩)
      · exact .inl (.inr hmem)
      · exact .inl (.inl rfl)
      · exact .inr ⟨hmem, hne, hother⟩
    · rintro ((rfl | hmem) | ⟨hmem, hne, hother⟩)
      · exact .inr ⟨.inl rfl, hput⟩
      · exact .inl hmem
      · exact .inr ⟨.inr ⟨hmem, hne⟩, hother⟩

theorem mem_deletes {deletes : List Text} : file ∈ (deletes.map FileChange.delete).foldl FileChange.apply files ↔
    file ∈ files ∧ file.path ∉ deletes := by
  induction deletes generalizing files with
  | nil => simp
  | cons path deletes ih =>
    rw [List.map_cons, List.foldl_cons, ih]
    simp [FileChange.apply, and_assoc]

theorem nodup_apply {changes : List FileChange} (h : (files.map (·.path)).Nodup) :
    ((changes.foldl FileChange.apply files).map (·.path)).Nodup := by
  induction changes generalizing files with
  | nil => exact h
  | cons change changes ih =>
    refine ih ?_
    have hkept (path : Text) : ((files.filter (·.path ≠ path)).map (·.path)).Nodup := h.sublist (List.filter_sublist.map _)
    cases change with
    | delete path => exact hkept path
    | put file =>
      refine List.nodup_cons.mpr ⟨fun hmem => ?_, hkept file.path⟩
      obtain ⟨other, hother, hpath⟩ := List.mem_map.mp hmem
      exact of_decide_eq_true (List.mem_filter.mp hother).2 hpath

theorem scanned_paths {storeds : List StoredFile} (h : List.Forall₂ (ScannedAs runner) storeds scanned)
    (hown : ∀ stored ∈ storeds, ∀ {file}, ScannedAs runner stored file → pathText stored.path = file.path) :
    scanned.map (·.path) = storeds.map fun stored => pathText stored.path := by
  induction h with
  | nil => rfl
  | cons has _ ih =>
    obtain ⟨hfirst, hrest⟩ := List.forall_mem_cons.mp hown
    rw [List.map_cons, List.map_cons, ← hfirst has, ih hrest]

theorem scan_plain (hscan : scanWorkspaceFiles runner maxWorkspaceBytes directory = .ok scanned)
    (hplain : directory.PlainFiles) : Holds directory.disk scanned ∧ (scanned.map (·.path)).Nodup := by
  have hown {stored : StoredFile} {file : WorkspaceFile} (hstored : stored ∈ directory.disk.files)
      (has : ScannedAs runner stored file) : pathText stored.path = file.path :=
    (canonical_of_plain (file_path_ne_nil hstored) has (hplain stored hstored)).1.symm
  obtain ⟨hto, hback⟩ := mem_scan hscan
  constructor
  · intro path bytes
    constructor
    · intro hmem
      obtain ⟨stored, hstored, has⟩ := hback _ hmem
      exact ⟨stored, hstored, hown hstored has, has.2.symm⟩
    · rintro ⟨stored, hstored, rfl, rfl⟩
      obtain ⟨file, hfile, has⟩ := hto stored hstored
      rw [hown hstored has, ← has.2]
      exact hfile
  · unfold scanWorkspaceFiles at hscan
    cases hentries : scanEntries runner maxWorkspaceBytes 0 directory.entries with
    | error failure => rw [hentries] at hscan; cases hscan
    | ok found =>
      rw [hentries] at hscan
      obtain rfl := Except.ok.inj hscan
      have hpairs := scanEntries_ok hentries
      have hpaths := scanned_paths hpairs fun stored hstored => hown (directory.files.mem_iff.mp hstored)
      rw [((List.perm_insertionSort _ found).map _).nodup_iff, hpaths, (directory.files.map _).nodup_iff]
      have htexts := directory.disk.nodup.map pathText_injective
      rwa [List.map_map] at htexts

theorem mem_synced (hC : runner.CollisionFree)
    (hbaseline : ∀ path file, baseline.get? path = some file ↔ file ∈ files ∧ file.path = path)
    (hnodup : (scanned.map (·.path)).Nodup) :
    file ∈ (fileChanges runner baseline scanned).foldl FileChange.apply files ↔ file ∈ scanned := by
  have hsub : ((scanned.filter fun file => ¬ SameContent runner (baseline.get? file.path) file).map (·.path)).Nodup :=
    hnodup.sublist (List.filter_sublist.map _)
  rw [fileChanges, List.foldl_append, mem_deletes, mem_puts hsub]
  have hsame {file : WorkspaceFile} (h : SameContent runner (baseline.get? file.path) file) : file ∈ files := by
    obtain ⟨known, hknown, hchecksum, hlength⟩ := h
    obtain ⟨hmem, hpath⟩ := (hbaseline _ _).mp hknown
    obtain ⟨path, bytes⟩ := known
    obtain rfl : bytes = file.bytes := hC _ _ hchecksum hlength
    obtain rfl : path = file.path := hpath
    exact hmem
  constructor
  · rintro ⟨hchanged | ⟨hfile, hunchanged⟩, hkept⟩
    · exact List.mem_of_mem_filter hchanged
    · have hkey : baseline.get? file.path = some file := (hbaseline _ _).mpr ⟨hfile, rfl⟩
      have hmem : file.path ∈ scanned.map (·.path) := by
        by_contra hout
        refine hkept (List.mem_filter.mpr ⟨OrderedMap.mem_keys_iff.mpr ?_, by simpa using hout⟩)
        rw [OrderedMap.has, hkey]
        rfl
      obtain ⟨found, hfound, hpath⟩ := List.mem_map.mp hmem
      have hcontent : SameContent runner (baseline.get? found.path) found := by
        by_contra hchanged
        exact hunchanged (List.mem_map.mpr ⟨found, List.mem_filter.mpr ⟨hfound, by simpa using hchanged⟩, hpath⟩)
      obtain rfl : found = file := by
        have hown := (hbaseline found.path found).mpr ⟨hsame hcontent, rfl⟩
        rw [hpath, hkey] at hown
        exact (Option.some.inj hown).symm
      exact hfound
  · intro hmem
    have hkept : file.path ∉ baseline.keys.filter (· ∉ scanned.map (·.path)) := fun hgone =>
      of_decide_eq_true (List.mem_filter.mp hgone).2 (List.mem_map_of_mem hmem)
    refine ⟨?_, hkept⟩
    by_cases hcontent : SameContent runner (baseline.get? file.path) file
    · refine .inr ⟨hsame hcontent, fun hchanged => ?_⟩
      obtain ⟨other, hother, hpath⟩ := List.mem_map.mp hchanged
      obtain ⟨hscanned, hnot⟩ := List.mem_filter.mp hother
      obtain rfl : other = file := eq_of_key hnodup hscanned hmem hpath
      exact of_decide_eq_true hnot hcontent
    · exact .inl (List.mem_filter.mpr ⟨hmem, by simpa using hcontent⟩)

/-- A command that hydrates the files, with or without a cached directory, and leaves a directory. -/
structure Inverse (runner : Runner) (maxWorkspaceBytes : Nat) (cached : Option WorkspaceDirectory)
    (files : List WorkspaceFile) (left : WorkspaceDirectory) : Prop where
  restored : Restores runner maxWorkspaceBytes cached files
  unchanged : ∀ disk baseline, hydrateWorkspace runner maxWorkspaceBytes cached files = .ok (disk, baseline) →
    ∀ same : WorkspaceDirectory, same.disk.files.Perm disk.files → ∀ changes files',
      syncWorkspace runner maxWorkspaceBytes files baseline same = (.ok changes, files') → changes = []
  /-- The next hydration begins in an empty directory, or in the one that was left. -/
  synced : ∀ disk baseline, hydrateWorkspace runner maxWorkspaceBytes cached files = .ok (disk, baseline) → ∀ changes files',
    syncWorkspace runner maxWorkspaceBytes files baseline left = (.ok changes, files') →
      Holds left.disk files' ∧ ∀ maxWorkspaceBytes' listed, listed.Perm files' →
        Restores runner maxWorkspaceBytes' none listed ∧ Restores runner maxWorkspaceBytes' (some left) listed
  refused : ∀ baseline failure files', syncWorkspace runner maxWorkspaceBytes files baseline left = (.error failure, files') →
    files' = files

/-- Nothing is spelled as another path than it has, and no file stands where a standard directory goes. -/
structure InverseWhen (runner : Runner) (maxWorkspaceBytes : Nat) (cached : Option WorkspaceDirectory)
    (files : List WorkspaceFile) (left : WorkspaceDirectory) : Prop where
  restorable : Restorable runner files
  cache : ∀ directory ∈ cached, Reuses runner maxWorkspaceBytes directory files →
    directory.PlainFiles
  left : ∀ scanned, scanWorkspaceFiles runner maxWorkspaceBytes left = .ok scanned → ∀ stored ∈ left.disk.files,
    Plain stored.path ∧ stored.path ∉ STANDARD_WORKSPACE_DIRECTORIES

variable {left : WorkspaceDirectory}

theorem syncWorkspace_ok {changes : List FileChange} {files' : List WorkspaceFile} :
    syncWorkspace runner maxWorkspaceBytes files baseline left = (.ok changes, files') ↔ ∃ scanned,
      scanWorkspaceFiles runner maxWorkspaceBytes left = .ok scanned ∧ changes = fileChanges runner baseline scanned ∧
        files' = changes.foldl FileChange.apply files := by
  unfold syncWorkspace
  cases scanWorkspaceFiles runner maxWorkspaceBytes left with
  | error failure => simp
  | ok scanned =>
    simp only [Prod.mk.injEq, Except.ok.injEq, exists_eq_left']
    constructor
    · rintro ⟨rfl, rfl⟩
      exact ⟨rfl, rfl⟩
    · rintro ⟨rfl, rfl⟩
      exact ⟨rfl, rfl⟩

theorem inverse_imp (h : Inverse runner maxWorkspaceBytes cached files left) :
    InverseWhen runner maxWorkspaceBytes cached files left := by
  obtain ⟨hR, hcache⟩ := restores_imp h.restored
  refine ⟨hR, hcache, fun scanned hscan stored hstored => ?_⟩
  obtain ⟨disk, baseline, hhydrate, -⟩ := h.restored
  obtain ⟨hholds, hnext⟩ := h.synced disk baseline hhydrate _ _ (syncWorkspace_ok.mpr ⟨scanned, hscan, rfl, rfl⟩)
  have hR' := (restores_imp (hnext 0 _ (.refl _)).1).1
  have hfile := (hholds (pathText stored.path) stored.bytes).mpr ⟨stored, hstored, rfl, rfl⟩
  exact ⟨plain_of_canonical (file_path_ne_nil hstored) (hR'.canonical _ hfile), fun hmem =>
    hR'.standard _ hfile (List.mem_map_of_mem hmem)⟩

theorem inverse_of (hC : runner.CollisionFree) (hnodup : (files.map (·.path)).Nodup)
    (h : InverseWhen runner maxWorkspaceBytes cached files left) : Inverse runner maxWorkspaceBytes cached files left := by
  obtain ⟨start, startBaseline, hhydrate, hholds, hbaseline⟩ := hydrates maxWorkspaceBytes cached hC hnodup h.restorable h.cache
  have hsame {disk : Disk} {baseline : OrderedMap Text WorkspaceFile}
      (he : hydrateWorkspace runner maxWorkspaceBytes cached files = .ok (disk, baseline)) :
      disk = start ∧ baseline = startBaseline := Prod.mk.inj (Except.ok.inj (he.symm.trans hhydrate))
  refine ⟨⟨start, startBaseline, hhydrate, hholds⟩, ?_, ?_, ?_⟩
  · intro disk baseline he same hperm changes files' hsync
    obtain ⟨rfl, rfl⟩ := hsame he
    obtain ⟨scanned, hscan, rfl, -⟩ := syncWorkspace_ok.mp hsync
    have hplain : same.PlainFiles := by
      intro stored hstored
      have hfile := (hholds (pathText stored.path) stored.bytes).mpr ⟨stored, hperm.mem_iff.mp hstored, rfl, rfl⟩
      exact plain_of_canonical (file_path_ne_nil hstored) (h.restorable.canonical _ hfile)
    have hfiles : ∀ file, file ∈ scanned ↔ file ∈ files := fun file =>
      (((scan_plain hscan hplain).1 file.path file.bytes).trans
        (exists_congr fun stored => and_congr_left fun _ => hperm.mem_iff)).trans (hholds file.path file.bytes).symm
    have hputs : scanned.filter (fun file => ¬ SameContent runner (baseline.get? file.path) file) = [] := by
      refine List.filter_eq_nil_iff.mpr fun file hfile => ?_
      have hknown := (hbaseline file.path file).mpr ⟨(hfiles file).mp hfile, rfl⟩
      simp only [decide_eq_true_eq, not_not]
      exact ⟨file, hknown, rfl, rfl⟩
    have hdeletes : baseline.keys.filter (· ∉ scanned.map (·.path)) = [] := by
      refine List.filter_eq_nil_iff.mpr fun path hpath => ?_
      obtain ⟨file, hfile⟩ := Option.isSome_iff_exists.mp (OrderedMap.mem_keys_iff.mp hpath)
      obtain ⟨hmem, rfl⟩ := (hbaseline path file).mp hfile
      simpa using ⟨file, (hfiles file).mpr hmem, rfl⟩
    rw [fileChanges, hputs, hdeletes]
    rfl
  · intro disk baseline he changes files' hsync
    obtain ⟨rfl, rfl⟩ := hsame he
    obtain ⟨scanned, hscan, rfl, rfl⟩ := syncWorkspace_ok.mp hsync
    have hleft := h.left scanned hscan
    have hplain : left.PlainFiles := fun stored hstored => (hleft stored hstored).1
    obtain ⟨hscanned, hdistinct⟩ := scan_plain hscan hplain
    have hheld : Holds left.disk ((fileChanges runner baseline scanned).foldl FileChange.apply files) := fun path bytes =>
      (mem_synced hC hbaseline hdistinct).trans (hscanned path bytes)
    refine ⟨hheld, fun maxWorkspaceBytes' listed hlisted => ?_⟩
    have hheld' : Holds left.disk listed := fun path bytes => hlisted.mem_iff.trans (hheld path bytes)
    have hR : Restorable runner listed := by
      refine restorable_of_holds (fun file hfile => ?_) (fun file hfile hmem => ?_) hheld'
      · obtain ⟨stored, hstored, htext, -⟩ := (hheld' _ _).mp hfile
        obtain ⟨found, -, has⟩ := (mem_scan hscan).1 stored hstored
        rw [← htext]
        exact (canonical_of_plain (file_path_ne_nil hstored) has (hplain stored hstored)).2
      · obtain ⟨stored, hstored, htext, -⟩ := (hheld' _ _).mp hfile
        obtain ⟨path, hpath, he⟩ := List.mem_map.mp hmem
        obtain rfl : path = stored.path := pathText_injective (he.trans htext.symm)
        exact (hleft stored hstored).2 hpath
    have hnodup' : (listed.map (·.path)).Nodup := (hlisted.map _).nodup_iff.mpr (nodup_apply hnodup)
    obtain ⟨empty, emptyBaseline, hempty, hemptyHolds, -⟩ := hydrates maxWorkspaceBytes' none
      hC hnodup' hR fun _ hd => by cases hd
    obtain ⟨kept, keptBaseline, hkept, hkeptHolds, -⟩ := hydrates maxWorkspaceBytes' (some left)
      hC hnodup' hR fun directory hd _ => by
        obtain rfl : left = directory := Option.some.inj hd
        exact hplain
    exact ⟨⟨empty, emptyBaseline, hempty, hemptyHolds⟩, ⟨kept, keptBaseline, hkept, hkeptHolds⟩⟩
  · intro baseline failure files' hsync
    unfold syncWorkspace at hsync
    split at hsync
    · exact (Prod.mk.inj hsync).2.symm
    · cases (Prod.mk.inj hsync).1

/-- Hydration and sync are inverse if and only if all files have the paths that they are scanned under, and none has
the path of a standard directory. -/
theorem hydration_inverse_iff (hC : runner.CollisionFree) (hnodup : (files.map (·.path)).Nodup) :
    Inverse runner maxWorkspaceBytes cached files left ↔ InverseWhen runner maxWorkspaceBytes cached files left :=
  ⟨inverse_imp, inverse_of hC hnodup⟩

end hydrate

-- -----------------
-- One command after another
-- -----------------

section runs

/-- The durable files of a workspace, and the directories that workers kept of it. -/
structure Workspace where
  files : List WorkspaceFile
  cached : String → Option WorkspaceDirectory

inductive Change where
  /-- A worker hydrates the files as they are listed, runs the command and syncs what it left. -/
  | command (worker : String) (listed : List WorkspaceFile) (left : WorkspaceDirectory)
  /-- Other writers of the files. -/
  | write (files : List WorkspaceFile)
  | cleanUp (worker : String)

variable (runner : Runner) (maxWorkspaceBytes : Nat)

def Workspace.change (workspace : Workspace) : Change → Workspace
  | .command worker listed left =>
    match hydrateWorkspace runner maxWorkspaceBytes (workspace.cached worker) listed with
    | .error _ => workspace
    | .ok (_, baseline) =>
      ⟨(syncWorkspace runner maxWorkspaceBytes listed baseline left).2, Function.update workspace.cached worker (some left)⟩
  | .write files => { workspace with files := files }
  | .cleanUp worker => { workspace with cached := Function.update workspace.cached worker none }

def Change.Enabled (workspace : Workspace) : Change → Prop
  | .command _ listed _ => listed.Perm workspace.files
  | _ => True

def commands : Machine Workspace Change Unit where
  init workspace := workspace.files = [] ∧ ∀ worker, workspace.cached worker = none
  enabled := Change.Enabled
  step workspace change := ((), workspace.change runner maxWorkspaceBytes change)

def LeavesPlain (left : WorkspaceDirectory) : Prop :=
  ∀ scanned, scanWorkspaceFiles runner maxWorkspaceBytes left = .ok scanned → ∀ stored ∈ left.disk.files,
    Plain stored.path ∧ stored.path ∉ STANDARD_WORKSPACE_DIRECTORIES

/-- What commands leave and others write has paths that are spelled as they are stored. -/
def Change.Orderly (_ : Workspace) : Change → Prop
  | .command _ _ left => LeavesPlain runner maxWorkspaceBytes left
  | .write files => (files.map (·.path)).Nodup ∧ Restorable runner files
  | .cleanUp _ => True

structure WorkspaceOk (workspace : Workspace) : Prop where
  nodup : (workspace.files.map (·.path)).Nodup
  restorable : Restorable runner workspace.files
  cached : ∀ worker, ∀ directory ∈ workspace.cached worker, LeavesPlain runner maxWorkspaceBytes directory

variable {runner maxWorkspaceBytes} {workspace : Workspace} {listed : List WorkspaceFile} {left : WorkspaceDirectory}

theorem Restorable.perm (h : Restorable runner workspace.files) (hlisted : listed.Perm workspace.files) :
    Restorable runner listed where
  canonical file hfile := h.canonical file (hlisted.mem_iff.mp hfile)
  standard file hfile := h.standard file (hlisted.mem_iff.mp hfile)
  apart file hfile other hother := h.apart file (hlisted.mem_iff.mp hfile) other (hlisted.mem_iff.mp hother)

theorem WorkspaceOk.inverse (h : WorkspaceOk runner maxWorkspaceBytes workspace) (hC : runner.CollisionFree)
    (hlisted : listed.Perm workspace.files) (hleft : LeavesPlain runner maxWorkspaceBytes left) (worker : String) :
    Inverse runner maxWorkspaceBytes (workspace.cached worker) listed left :=
  inverse_of hC ((hlisted.map _).nodup_iff.mpr h.nodup) {
    restorable := h.restorable.perm hlisted
    cache := by
      rintro directory hd ⟨_, _, scanned, _, hscan, _⟩ stored hstored
      exact (h.cached worker directory hd scanned hscan stored hstored).1
    left := hleft }

theorem update_cached (worker : String) {kept : Option WorkspaceDirectory} (h : WorkspaceOk runner maxWorkspaceBytes workspace)
    (hkept : ∀ directory ∈ kept, LeavesPlain runner maxWorkspaceBytes directory) :
    ∀ other, ∀ directory ∈ Function.update workspace.cached worker kept other, LeavesPlain runner maxWorkspaceBytes directory := by
  intro other directory hd
  by_cases hother : other = worker
  · rw [hother, Function.update_self] at hd
    exact hkept directory hd
  · rw [Function.update_of_ne hother] at hd
    exact h.cached other directory hd

theorem workspace_preserves (hC : runner.CollisionFree) : ((commands runner maxWorkspaceBytes).when
    (Change.Orderly runner maxWorkspaceBytes)).Preserves (WorkspaceOk runner maxWorkspaceBytes) := by
  intro workspace change h henabled
  obtain ⟨henabled, horderly⟩ := henabled
  change WorkspaceOk runner maxWorkspaceBytes (workspace.change runner maxWorkspaceBytes change)
  cases change with
  | command worker listed left =>
    have hlisted : listed.Perm workspace.files := henabled
    have hinverse := h.inverse hC hlisted horderly worker
    obtain ⟨disk, baseline, hhydrate, -⟩ := hinverse.restored
    have hcached := update_cached worker h fun directory hd => Option.some.inj hd ▸ horderly
    have hnodup := (hlisted.map (·.path)).nodup_iff.mpr h.nodup
    simp only [Workspace.change, hhydrate]
    cases hsync : syncWorkspace runner maxWorkspaceBytes listed baseline left with
    | mk result files' =>
      cases result with
      | error failure =>
        rw [hinverse.refused baseline failure files' hsync]
        exact ⟨hnodup, h.restorable.perm hlisted, hcached⟩
      | ok changes =>
        obtain ⟨scanned, -, -, rfl⟩ := syncWorkspace_ok.mp hsync
        have hnext := (hinverse.synced disk baseline hhydrate changes _ hsync).2 0 _ (.refl _)
        exact ⟨nodup_apply hnodup, (restores_imp hnext.1).1, hcached⟩
  | write files => exact ⟨horderly.1, horderly.2, h.cached⟩
  | cleanUp worker => exact ⟨h.nodup, h.restorable, update_cached worker h fun _ hd => by cases hd⟩

end runs

namespace Sample

def runner : Runner where
  root := ObjectStorage.dataRoot
  limits := ⟨512⟩
  reuseWorkspaceDirectories := true
  createWorkspaceChecksum bytes := bytes.map fun byte => Char.ofNat byte.toNat
  inLocaleOrder left right := left ≤ right

theorem runner_collisionFree : runner.CollisionFree := by
  intro bytes other h _
  refine List.map_injective_iff.mpr (fun byte byte' he => ?_) h
  have hvalid (b : UInt8) : b.toNat.isValidChar := .inl (by have := b.toNat_lt; omega)
  have he := congrArg Char.toNat he
  simp only [Char.ofNat, dif_pos (hvalid _)] at he
  exact UInt8.toNat_inj.mp he

def oneFile (name : ObjectStorage.Name) (bytes : List UInt8) : WorkspaceDirectory where
  disk := {
    files := [⟨[name], bytes⟩]
    directories := {[]}
    root_mem := ObjectStorage.Disk.empty.root_mem
    closed := ObjectStorage.Disk.empty.closed
    enclosed := by simp
    apart := by simp
    nodup := List.nodup_singleton _ }
  entries := [.file ⟨[name], bytes⟩]
  files := .refl _

def notes : WorkspaceDirectory := oneFile ⟨"notes.txt".toList, by decide⟩ [104, 105]

def backslash : WorkspaceDirectory := oneFile ⟨"a\\b".toList, by decide⟩ [104, 105]

end Sample

theorem hydration_inverse_iff_notes : Inverse Sample.runner 1000 none [] Sample.notes := by
  have hnodup : (([] : List WorkspaceFile).map (·.path)).Nodup := List.nodup_nil
  refine (hydration_inverse_iff Sample.runner_collisionFree hnodup).mpr ⟨⟨?_, ?_, ?_⟩, ?_, ?_⟩
  · simp
  · simp
  · simp
  · simp
  · rintro scanned - stored hstored
    obtain rfl := List.mem_singleton.mp hstored
    refine ⟨⟨by decide, ?_⟩, by decide⟩
    simp [Trimmed, Js.isWhitespace, pathText, Path.segments, joinWith]

/-- A file whose name has a backslash is stored under a path with a slash, where the next hydration makes it. -/
theorem backslash_renamed : ¬ ∀ cached files left, (files.map WorkspaceFile.path).Nodup →
    Inverse Sample.runner 1000 cached files left := by
  intro h
  have hscan : scanWorkspaceFiles Sample.runner 1000 Sample.backslash = .ok [⟨"a/b".toList, [104, 105]⟩] := by decide
  have hleft := (inverse_imp (h none [] Sample.backslash List.nodup_nil)).left _ hscan _ List.mem_cons_self
  exact hleft.1.1 (by decide)

end Catalyst.Hydration
