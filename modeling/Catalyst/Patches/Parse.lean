import Catalyst.Patches.Apply
import Catalyst.WorkspacePaths.Normalize
import Mathlib

/-!
# The text of a patch

A patch is read line by line: for each file two header lines, then its hunks. What a line is, is
told by how it begins, also inside a hunk: one that begins a file or a hunk ends the hunk before it,
whatever the counts of that hunk still ask for.
-/

namespace Catalyst.Patches

open Library Library.Lines Library.Check WorkspacePaths

structure WorkspaceCommandServiceLimits extends WorkspacePathLimits where
  maxApplyPatchBytes : Nat

inductive PatchDetails where
  | maxApplyPatchBytes (limit : Nat)
  | line (line : Nat)
  | lineOf (line : Nat) (path : Text)
  | path (path : Text)
  | counts (path : Text) (oldCount actualOldCount newCount actualNewCount : Nat)
  | paths (oldPath newPath : Text)
  | pathCheck (detail : PathDetail)
  deriving DecidableEq

structure PatchParseFailure where
  message : String
  details : Option PatchDetails
  deriving DecidableEq

abbrev UnbrokenLine := { line : Line // Unbroken line }

abbrev HunkLine := { line : WorkspacePatchLine // Unbroken line.text }

def patchLines (patch : List Char) : List Line :=
  let lines := (normalizeBreaks patch).splitOn '\n'
  if lines.getLast? = some [] then lines.dropLast else lines

theorem unbroken_of_mem_patchLines (h : line ∈ patchLines patch) : Unbroken line := by
  have hmem : line ∈ (normalizeBreaks patch).splitOn '\n' := by
    unfold patchLines at h
    simp only at h
    split at h
    · exact (List.dropLast_sublist _).subset h
    · exact h
  exact ⟨fun hc => (mem_splitOn hmem _ hc).2 rfl, fun hc => return_not_mem_normalizeBreaks patch (mem_splitOn hmem _ hc).1⟩

def splitPatchLines (patch : List Char) : List UnbrokenLine :=
  (patchLines patch).attach.map fun line => ⟨line.1, unbroken_of_mem_patchLines line.2⟩

/-- `line.startsWith(word)` -/
def startsWith (line : Line) (word : String) : Bool := word.toList.isPrefixOf line

def isGitMetadataLine (line : Line) : Bool :=
  ["index ", "new file mode ", "deleted file mode ", "old mode ", "new mode ", "similarity index ", "rename from ",
    "rename to "].any (startsWith line)

def isBlank (line : Line) : Bool := Js.trim line = []

def isBinary (line : Line) : Bool := startsWith line "Binary files " || startsWith line "GIT binary patch"

def startsFile (line : Line) : Bool := startsWith line "--- " || startsWith line "diff --git "

def endsHunk (line : Line) : Bool := startsWith line "@@ " || startsFile line

def stripWorkspacePatchPrefix (rawPath : Text) : Except PatchParseFailure Text :=
  if rawPath = root then .error ⟨"Workspace patch path must name a file", none⟩
  else if rootSlash <+: rawPath then .ok (rawPath.drop rootSlash.length)
  else if rawPath.head? = some '/' ∨ rawPath.head? = some '\\' then
    .error ⟨"Workspace patch path must be under /workspace", some (.path rawPath)⟩
  else if startsWith rawPath "a/" ∨ startsWith rawPath "b/" then .ok (rawPath.drop 2)
  else .ok rawPath

def ofPathCheck (result : Except WorkspacePathFailure Text) : Except PatchParseFailure Text :=
  result.mapError fun failure => ⟨failure.message, failure.details.map .pathCheck⟩

def devNull : Text := "/dev/null".toList

/-- The path in a header line, up to a tab; none for `/dev/null`. -/
def normalizePatchHeaderPath (headerValue : Text) (limits : WorkspaceCommandServiceLimits) :
    Except PatchParseFailure (Option Text) :=
  let rawPath := Js.trim (headerValue.takeWhile (· ≠ '\t'))
  if rawPath = devNull then .ok none
  else do
    let workspacePath ← stripWorkspacePatchPrefix rawPath
    let normalized ← ofPathCheck (normalizeWorkspaceFilePath workspacePath limits.toWorkspacePathLimits)
    return some normalized

def resolvePatchOperation : Option Text → Option Text → Except PatchParseFailure (PatchOperation × Text)
  | none, none => .error ⟨"Workspace patch cannot have both old and new paths as /dev/null", none⟩
  | none, some newPath => .ok (.create, newPath)
  | some oldPath, none => .ok (.delete, oldPath)
  | some oldPath, some newPath =>
    if oldPath ≠ newPath then
      .error ⟨"Workspace patch does not support renames or copies", some (.paths oldPath newPath)⟩
    else .ok (.update, oldPath)

structure HunkHeader where
  oldStart : Nat
  oldCount : Nat
  newStart : Nat
  newCount : Nat
  deriving DecidableEq

def expect (word : String) (s : Line) : Option Line := if startsWith s word then some (s.drop word.length) else none

/-- `(\d+)`, as a number. -/
def digits? (s : Line) : Option (Nat × Line) :=
  let digits := s.takeWhile Char.isDigit
  if digits = [] then none else some (Nat.ofDigitChars 10 digits 0, s.dropWhile Char.isDigit)

/-- `(?:,(\d+))?`, where 1 stands for none. -/
def count? : Line → Option (Nat × Line)
  | ',' :: rest => digits? rest
  | rest => some (1, rest)

def isLineTerminator (c : Char) : Bool := c ∈ ['\n', '\r', '\u2028', '\u2029']

/-- `/^@@ -(\d+)(?:,(\d+))? \+(\d+)(?:,(\d+))? @@(?: .*)?$/` -/
def hunkHeader? (header : Line) : Option HunkHeader := do
  let rest ← expect "@@ -" header
  let (oldStart, rest) ← digits? rest
  let (oldCount, rest) ← count? rest
  let rest ← expect " +" rest
  let (newStart, rest) ← digits? rest
  let (newCount, rest) ← count? rest
  let rest ← expect " @@" rest
  if rest = [] ∨ rest.head? = some ' ' ∧ ¬ rest.any isLineTerminator then some ⟨oldStart, oldCount, newStart, newCount⟩
  else none

theorem unbroken_tail (h : Unbroken (c :: text)) : Unbroken text :=
  ⟨fun hc => h.1 (List.mem_cons_of_mem _ hc), fun hc => h.2 (List.mem_cons_of_mem _ hc)⟩

def hunkLine? : UnbrokenLine → Option HunkLine
  | ⟨' ' :: text, h⟩ => some ⟨.context text, unbroken_tail h⟩
  | ⟨'-' :: text, h⟩ => some ⟨.delete text, unbroken_tail h⟩
  | ⟨'+' :: text, h⟩ => some ⟨.add text, unbroken_tail h⟩
  | _ => none

def parseHunkLines (filePath : Text) (index : Nat) : List UnbrokenLine → Except PatchParseFailure (List HunkLine)
  | [] => .ok []
  | line :: rest =>
    if endsHunk line then .ok []
    else if line.1 = "\\ No newline at end of file".toList then parseHunkLines filePath (index + 1) rest
    else do
      let hunkLine ← need (hunkLine? line)
        ⟨"Workspace patch hunk line must start with space, +, or -", some (.lineOf (index + 1) filePath)⟩
      let others ← parseHunkLines filePath (index + 1) rest
      return hunkLine :: others

/-- The hunk whose header is `header`, with the lines behind it. -/
def parseHunk (filePath : Text) (hunkIndex : Nat) (header : UnbrokenLine) (rest : List UnbrokenLine) :
    Except PatchParseFailure WorkspacePatchHunk := do
  let numbers ← need (hunkHeader? header)
    ⟨"Workspace patch hunk header is invalid", some (.lineOf (hunkIndex + 1) filePath)⟩
  let hunkLines ← parseHunkLines filePath (hunkIndex + 1) rest
  let lines := hunkLines.map (·.1)
  let oldLineCount := (lines.filterMap (·.old?)).length
  let newLineCount := (lines.filterMap (·.new?)).length
  if h : oldLineCount = numbers.oldCount ∧ newLineCount = numbers.newCount then
    have hunbroken : ∀ line ∈ hunkLines.map (·.1), Unbroken line.text := fun _ hline => by
      obtain ⟨hunkLine, -, rfl⟩ := List.mem_map.mp hline
      exact hunkLine.2
    return ⟨numbers.oldStart, numbers.oldCount, numbers.newStart, numbers.newCount, lines, h.1, h.2, hunbroken⟩
  else .error ⟨"Workspace patch hunk line counts do not match the header",
    some (.counts filePath numbers.oldCount oldLineCount numbers.newCount newLineCount)⟩

def behindHunk (rest : List UnbrokenLine) : List UnbrokenLine := rest.dropWhile (!endsHunk ·)

def behindFile (rest : List UnbrokenLine) : List UnbrokenLine := rest.dropWhile (!startsFile ·)

def parseHunks (path : Text) (index : Nat) : List UnbrokenLine → Except PatchParseFailure (List WorkspacePatchHunk)
  | [] => .ok []
  | line :: rest =>
    if startsFile line then .ok []
    else if isBlank line || isGitMetadataLine line then parseHunks path (index + 1) rest
    else if isBinary line then .error ⟨"Workspace patch cannot apply binary file changes", none⟩
    else if !startsWith line "@@ " then
      .error ⟨"Workspace patch hunk is missing an @@ header", some (.lineOf (index + 1) path)⟩
    else do
      let hunk ← parseHunk path index line rest
      let hunks ← parseHunks path (index + 1 + (rest.length - (behindHunk rest).length)) (behindHunk rest)
      return hunk :: hunks
  termination_by lines => lines.length
  decreasing_by
    · simp
    · exact Nat.lt_succ_of_le (List.length_dropWhile_le _ _)

/-- The loop over the files. -/
def parseFiles (limits : WorkspaceCommandServiceLimits) (index : Nat) :
    List UnbrokenLine → Except PatchParseFailure (List WorkspacePatchChange)
  | [] => .ok []
  | line :: rest =>
    if isBlank line || startsWith line "diff --git " || isGitMetadataLine line then parseFiles limits (index + 1) rest
    else if isBinary line then .error ⟨"Workspace patch cannot apply binary file changes", none⟩
    else if !startsWith line "--- " then
      .error ⟨"Workspace patch must use unified diff file headers", some (.line (index + 1))⟩
    else do
      let oldPath ← normalizePatchHeaderPath (line.1.drop 4) limits
      let next : Line := (rest.head?.map (·.1)).getD []
      require (startsWith next "+++ ") ⟨"Workspace patch file header is missing a +++ line", some (.line (index + 2))⟩
      let newPath ← normalizePatchHeaderPath (next.drop 4) limits
      let (operation, path) ← resolvePatchOperation oldPath newPath
      let hunks ← parseHunks path (index + 2) rest.tail
      require (hunks ≠ []) ⟨"Workspace patch file change must include at least one hunk", some (.path path)⟩
      let behind := behindFile rest.tail
      let changes ← parseFiles limits (index + 2 + (rest.tail.length - behind.length)) behind
      return ⟨operation, String.ofList path, hunks⟩ :: changes
  termination_by lines => lines.length
  decreasing_by
    · simp
    · have hbehind : (behindFile rest.tail).length ≤ rest.tail.length := List.length_dropWhile_le _ _
      rw [List.length_tail] at hbehind
      rw [List.length_cons]
      omega

def repeatedPath? (seenPaths : List String) : List WorkspacePatchChange → Option String
  | [] => none
  | change :: rest => if change.path ∈ seenPaths then some change.path else repeatedPath? (change.path :: seenPaths) rest

def parseWorkspaceApplyPatch (patch : List Char) (limits : WorkspaceCommandServiceLimits) :
    Except PatchParseFailure (List WorkspacePatchChange) := do
  require (jsLength patch ≤ limits.maxApplyPatchBytes)
    ⟨"Workspace patch is too large", some (.maxApplyPatchBytes limits.maxApplyPatchBytes)⟩
  require ('\x00' ∉ patch) ⟨"Workspace patch cannot contain NUL bytes", none⟩
  let changes ← parseFiles limits 0 (splitPatchLines patch)
  require (changes ≠ []) ⟨"Workspace patch must include at least one file change", none⟩
  match repeatedPath? [] changes with
  | some path => .error ⟨"Workspace patch must not modify the same path more than once", some (.path path.toList)⟩
  | none => return changes

end Catalyst.Patches
