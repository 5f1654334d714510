import Mathlib
import Catalyst.Library.EditScript
import Catalyst.Library.Lines

/-!
# Unified diffs of asset files

`catalyst config diff` shows what a pull or a push would change of a file. A table of longest
common subsequences is filled from the ends of both texts, a walk through the table gives the
edit script, and the changes are shown with three lines around them.
-/

namespace Catalyst.ConfigCli

open Library Library.Lines Library.EditScript

-- -----------------
-- The edit script
-- -----------------

structure DiffFile where
  path : List Char
  /-- None where there is no such file. -/
  contents : Option (List Char)
  deriving DecidableEq

abbrev DiffLine := Edit Line

/-- `contents.replaceAll("\r\n", "\n")` -/
def joinBreaks : List Char → List Char
  | '\r' :: '\n' :: rest => '\n' :: joinBreaks rest
  | c :: rest => c :: joinBreaks rest
  | [] => []

def splitLines (contents : List Char) : List Line :=
  if contents = [] then [] else (withoutFinalBreak (joinBreaks contents)).splitOn '\n'

/-- A row of the table from its last column on; `below` is the row under it. -/
def fillRow (oldLine : Line) (below : List Nat) : List Line → List Nat
  | [] => [0]
  | newLine :: newLines =>
    let right := fillRow oldLine below.tail newLines
    (if oldLine = newLine then below.tail.headD 0 + 1 else max (below.headD 0) (right.headD 0)) :: right

/-- `lengths`, from its last row on. -/
def fillTable (newLines : List Line) : List Line → List (List Nat)
  | [] => [List.replicate (newLines.length + 1) 0]
  | oldLine :: oldLines =>
    let table := fillTable newLines oldLines
    fillRow oldLine (table.headD []) newLines :: table

/-- `lengths[oldIndex]![newIndex]!` -/
def entry (lengths : List (List Nat)) (oldIndex newIndex : Nat) : Nat :=
  (lengths[oldIndex]?.bind (·[newIndex]?)).getD 0

/-- The walk through the table; a tie deletes first. -/
def walk (lengths : List (List Nat)) (oldLines newLines : List Line) (oldIndex newIndex : Nat) :
    List DiffLine :=
  match ho : oldLines[oldIndex]?, hn : newLines[newIndex]? with
  | some oldLine, some newLine =>
    if oldLine = newLine then .context oldLine :: walk lengths oldLines newLines (oldIndex + 1) (newIndex + 1)
    else if entry lengths oldIndex (newIndex + 1) ≤ entry lengths (oldIndex + 1) newIndex then
      .delete oldLine :: walk lengths oldLines newLines (oldIndex + 1) newIndex
    else .insert newLine :: walk lengths oldLines newLines oldIndex (newIndex + 1)
  | some oldLine, none => .delete oldLine :: walk lengths oldLines newLines (oldIndex + 1) newIndex
  | none, some newLine => .insert newLine :: walk lengths oldLines newLines oldIndex (newIndex + 1)
  | none, none => []
termination_by (oldLines.length - oldIndex) + (newLines.length - newIndex)
decreasing_by
  all_goals
    first
    | have hold := (List.getElem?_eq_some_iff.mp ho).1; omega
    | have hnew := (List.getElem?_eq_some_iff.mp hn).1; omega

def calculateDiff (oldLines newLines : List Line) : List DiffLine :=
  walk (fillTable newLines oldLines) oldLines newLines 0 0

def contextLines : Nat := 3

/-- A part of the script, by the index of its first line and the one behind its last. -/
structure HunkRange where
  start : Nat
  stop : Nat
  deriving DecidableEq

def growHunks (length start stop : Nat) : List Nat → List HunkRange
  | [] => [⟨start, stop⟩]
  | change :: changes =>
    let nextStart := change - contextLines
    let nextStop := min length (change + contextLines + 1)
    if nextStart ≤ stop then growHunks length start nextStop changes
    else ⟨start, stop⟩ :: growHunks length nextStart nextStop changes

def changeIndices (lines : List DiffLine) : List Nat :=
  lines.zipIdx.filterMap fun (line, index) => if line.isChange then some index else none

def createHunks (lines : List DiffLine) : List HunkRange :=
  match changeIndices lines with
  | [] => []
  | first :: changes =>
    growHunks lines.length (first - contextLines) (min lines.length (first + contextLines + 1)) changes

def isInsert : DiffLine → Bool
  | .insert _ => true
  | _ => false

def isDelete : DiffLine → Bool
  | .delete _ => true
  | _ => false

def consumedOld (lines : List DiffLine) : Nat := (lines.filter fun line => !isInsert line).length

def consumedNew (lines : List DiffLine) : Nat := (lines.filter fun line => !isDelete line).length

def linePrefix : DiffLine → Char
  | .context _ => ' '
  | .delete _ => '-'
  | .insert _ => '+'

def lineText : DiffLine → Line
  | .context text | .delete text | .insert text => text

def hunkOf (lines : List DiffLine) (range : HunkRange) : Hunk Line :=
  let front := lines.take range.start
  let body := (lines.take range.stop).drop range.start
  { oldStart := consumedOld front + if consumedOld body = 0 then 0 else 1
    oldCount := consumedOld body
    newStart := consumedNew front + if consumedNew body = 0 then 0 else 1
    newCount := consumedNew body
    lines := body }

def printHunk (hunk : Hunk Line) : List Line :=
  s!"@@ -{hunk.oldStart},{hunk.oldCount} +{hunk.newStart},{hunk.newCount} @@".toList ::
    hunk.lines.map fun line => linePrefix line :: lineText line

def printFiles (oldFile newFile : DiffFile) : List Line :=
  let a := "a/".toList ++ oldFile.path
  let b := "b/".toList ++ newFile.path
  ["diff --git ".toList ++ a ++ " ".toList ++ b,
    "--- ".toList ++ if oldFile.contents.isNone then "/dev/null".toList else a,
    "+++ ".toList ++ if newFile.contents.isNone then "/dev/null".toList else b]

def createUnifiedDiff (oldFile newFile : DiffFile) : List Char :=
  if oldFile.contents = newFile.contents then []
  else
    let lines := calculateDiff (splitLines (oldFile.contents.getD [])) (splitLines (newFile.contents.getD []))
    let hunks := (createHunks lines).map (hunkOf lines)
    ['\n'].intercalate (printFiles oldFile newFile ++ hunks.flatMap printHunk) ++ ['\n']

section

variable {oldLines newLines : List Line} {oldLine : Line}

def lengthRow (newLines oldLines : List Line) : List Nat := newLines.tails.map (lcsLength oldLines)

theorem fillRow_eq (oldLine : Line) (oldLines newLines : List Line) :
    fillRow oldLine (lengthRow newLines oldLines) newLines = lengthRow newLines (oldLine :: oldLines) := by
  induction newLines with
  | nil => simp [fillRow, lengthRow]
  | cons newLine newLines ih =>
    have htail : (lengthRow (newLine :: newLines) oldLines).tail = lengthRow newLines oldLines := rfl
    have hhead (newLines lines : List Line) : (lengthRow newLines lines).headD 0 = lcsLength lines newLines := by
      cases newLines <;> rfl
    simp only [fillRow, htail, ih, hhead]
    rw [← lcsLength_cons]
    rfl

theorem fillTable_eq (newLines oldLines : List Line) :
    fillTable newLines oldLines = oldLines.tails.map (lengthRow newLines) := by
  induction oldLines with
  | nil =>
    have hzero : lengthRow newLines [] = List.replicate (newLines.length + 1) 0 := by
      refine List.eq_replicate_iff.mpr ⟨by simp [lengthRow], fun n hn => ?_⟩
      obtain ⟨lines, -, rfl⟩ := List.mem_map.mp hn
      exact lcsLength_nil_left lines
    simp [fillTable, hzero]
  | cons oldLine oldLines ih =>
    have hhead : (oldLines.tails.map (lengthRow newLines)).headD [] = lengthRow newLines oldLines := by
      cases oldLines <;> rfl
    simp only [fillTable, ih, hhead, fillRow_eq, List.tails_cons, List.map_cons]

theorem getElem?_tails {α : Type} (l : List α) (h : n ≤ l.length) : l.tails[n]? = some (l.drop n) := by
  have hlt : n < l.tails.length := by simpa [Nat.lt_succ_iff] using h
  rw [List.getElem?_eq_getElem hlt, List.getElem_tails]

theorem entry_fillTable (hold : oldIndex ≤ oldLines.length) (hnew : newIndex ≤ newLines.length) :
    entry (fillTable newLines oldLines) oldIndex newIndex =
      lcsLength (oldLines.drop oldIndex) (newLines.drop newIndex) := by
  rw [entry, fillTable_eq, List.getElem?_map, getElem?_tails _ hold, Option.map_some, Option.bind_some,
    lengthRow, List.getElem?_map, getElem?_tails _ hnew, Option.map_some, Option.getD_some]

/-- What a walk from a place in the table gives: a script of what is left of both texts that keeps
a longest common subsequence of it. -/
structure Walked (oldLines newLines : List Line) (script : List DiffLine) : Prop where
  old : oldSide script = oldLines
  new : newSide script = newLines
  kept : (kept script).length = lcsLength oldLines newLines

theorem Walked.context (line : Line) (h : Walked oldLines newLines script) :
    Walked (line :: oldLines) (line :: newLines) (.context line :: script) where
  old := congrArg (line :: ·) h.old
  new := congrArg (line :: ·) h.new
  kept := by rw [lcsLength_cons, if_pos rfl, kept_context, List.length_cons, h.kept]

theorem Walked.delete {newLine : Line} (hne : oldLine ≠ newLine)
    (hle : lcsLength (oldLine :: oldLines) newLines ≤ lcsLength oldLines (newLine :: newLines))
    (h : Walked oldLines (newLine :: newLines) script) :
    Walked (oldLine :: oldLines) (newLine :: newLines) (.delete oldLine :: script) where
  old := congrArg (oldLine :: ·) h.old
  new := h.new
  kept := by rw [lcsLength_cons, if_neg hne, max_eq_left hle, kept_delete, h.kept]

theorem Walked.insert {newLine : Line} (hne : oldLine ≠ newLine)
    (hle : lcsLength oldLines (newLine :: newLines) ≤ lcsLength (oldLine :: oldLines) newLines)
    (h : Walked (oldLine :: oldLines) newLines script) :
    Walked (oldLine :: oldLines) (newLine :: newLines) (.insert newLine :: script) where
  old := h.old
  new := congrArg (newLine :: ·) h.new
  kept := by rw [lcsLength_cons, if_neg hne, max_eq_right hle, kept_insert, h.kept]

theorem drop_of_getElem? {α : Type} {l : List α} {n : Nat} {a : α} (h : l[n]? = some a) :
    n < l.length ∧ l.drop n = a :: l.drop (n + 1) := by
  obtain ⟨hn, rfl⟩ := List.getElem?_eq_some_iff.mp h
  exact ⟨hn, List.drop_eq_getElem_cons hn⟩

theorem walk_walked (hold : oldIndex ≤ oldLines.length) (hnew : newIndex ≤ newLines.length) :
    Walked (oldLines.drop oldIndex) (newLines.drop newIndex)
      (walk (fillTable newLines oldLines) oldLines newLines oldIndex newIndex) := by
  fun_induction walk (fillTable newLines oldLines) oldLines newLines oldIndex newIndex with
  | case1 oldIndex newIndex line hn ho ih =>
    obtain ⟨hlo, hdo⟩ := drop_of_getElem? ho
    obtain ⟨hln, hdn⟩ := drop_of_getElem? hn
    rw [hdo, hdn]
    exact (ih hlo hln).context line
  | case2 oldIndex newIndex oldLine newLine ho hn hne hle ih =>
    obtain ⟨hlo, hdo⟩ := drop_of_getElem? ho
    obtain ⟨hln, hdn⟩ := drop_of_getElem? hn
    rw [entry_fillTable hold hln, entry_fillTable hlo hnew, hdo, hdn] at hle
    rw [hdo]
    have hrest := ih hlo hnew
    rw [hdn] at hrest ⊢
    exact hrest.delete hne hle
  | case3 oldIndex newIndex oldLine newLine ho hn hne hlt ih =>
    obtain ⟨hlo, hdo⟩ := drop_of_getElem? ho
    obtain ⟨hln, hdn⟩ := drop_of_getElem? hn
    rw [entry_fillTable hold hln, entry_fillTable hlo hnew, hdo, hdn] at hlt
    rw [hdn]
    have hrest := ih hold hln
    rw [hdo] at hrest ⊢
    exact hrest.insert hne (le_of_not_ge hlt)
  | case4 oldIndex newIndex oldLine ho hn ih =>
    obtain ⟨hlo, hdo⟩ := drop_of_getElem? ho
    have hrest := ih hlo hnew
    rw [List.drop_eq_nil_of_le (List.getElem?_eq_none_iff.mp hn)] at hrest ⊢
    rw [hdo]
    exact ⟨congrArg (oldLine :: ·) hrest.old, hrest.new, by simpa using hrest.kept⟩
  | case5 oldIndex newIndex newLine ho hn ih =>
    obtain ⟨hln, hdn⟩ := drop_of_getElem? hn
    have hrest := ih hold hln
    rw [List.drop_eq_nil_of_le (List.getElem?_eq_none_iff.mp ho)] at hrest ⊢
    rw [hdn]
    exact ⟨hrest.old, congrArg (newLine :: ·) hrest.new, by simpa using hrest.kept⟩
  | case6 oldIndex newIndex ho hn =>
    rw [List.drop_eq_nil_of_le (List.getElem?_eq_none_iff.mp ho),
      List.drop_eq_nil_of_le (List.getElem?_eq_none_iff.mp hn)]
    exact ⟨rfl, rfl, by simp [kept]⟩

theorem calculateDiff_walked (oldLines newLines : List Line) :
    Walked oldLines newLines (calculateDiff oldLines newLines) :=
  walk_walked (Nat.zero_le _) (Nat.zero_le _)

end

section

variable {lines : List DiffLine} {range : HunkRange} {ranges : List HunkRange}

def slice (lines : List DiffLine) (start stop : Nat) : List DiffLine := (lines.take stop).drop start

theorem take_append_slice (lines : List DiffLine) (h : start ≤ stop) :
    lines.take start ++ slice lines start stop = lines.take stop := by
  have htake : (lines.take stop).take start = lines.take start := by rw [List.take_take, min_eq_left h]
  rw [slice, ← htake, List.take_append_drop]

theorem slice_append_drop (lines : List DiffLine) (h : start ≤ stop) :
    slice lines start stop ++ lines.drop stop = lines.drop start := by
  have hdrop : (lines.drop start).drop (stop - start) = lines.drop stop := by
    rw [List.drop_drop, Nat.add_sub_cancel' h]
  rw [slice, List.drop_take, ← hdrop, List.take_append_drop]

/-- The ranges from the cursor on, one behind the other, with nothing changed outside of them. -/
def RangesOk (lines : List DiffLine) : Nat → List HunkRange → Prop
  | cursor, [] => Unchanged (lines.drop cursor)
  | cursor, range :: ranges =>
    (cursor ≤ range.start ∧ range.start ≤ range.stop ∧ range.stop ≤ lines.length) ∧
      Unchanged (slice lines cursor range.start) ∧ (∀ next ∈ ranges.head?, range.stop < next.start) ∧
      RangesOk lines range.stop ranges

def segmentsOf (lines : List DiffLine) : Nat → List HunkRange → List (Segment Line)
  | _, [] => []
  | cursor, range :: ranges =>
    ⟨slice lines cursor range.start, slice lines range.start range.stop⟩ :: segmentsOf lines range.stop ranges

def behind (lines : List DiffLine) : Nat → List HunkRange → List DiffLine
  | cursor, [] => lines.drop cursor
  | _, range :: ranges => behind lines range.stop ranges

theorem joined_segmentsOf (h : RangesOk lines cursor ranges) :
    joined (behind lines cursor ranges) (segmentsOf lines cursor ranges) = lines.drop cursor := by
  induction ranges generalizing cursor with
  | nil => rfl
  | cons range ranges ih =>
    obtain ⟨⟨hstart, hstop, -⟩, -, -, hrest⟩ := h
    rw [segmentsOf, behind, joined, ih hrest, List.append_assoc, slice_append_drop _ hstop,
      slice_append_drop _ hstart]

theorem consumedOld_eq (lines : List DiffLine) : consumedOld lines = (oldSide lines).length := by
  induction lines with
  | nil => rfl
  | cons line lines ih =>
    cases line with
    | context text => exact congrArg (· + 1) ih
    | delete text => exact congrArg (· + 1) ih
    | insert text => exact ih

theorem consumedNew_eq (lines : List DiffLine) : consumedNew lines = (newSide lines).length := by
  induction lines with
  | nil => rfl
  | cons line lines ih =>
    cases line with
    | context text => exact congrArg (· + 1) ih
    | delete text => exact ih
    | insert text => exact congrArg (· + 1) ih

theorem hunkOf_eq (lines : List DiffLine) (range : HunkRange) :
    hunkOf lines range = hunkAfter (lines.take range.start) (slice lines range.start range.stop) := by
  simp only [hunkOf, hunkAfter, startOf, consumedOld_eq, consumedNew_eq]
  rfl

theorem hunksAfter_segmentsOf (h : RangesOk lines cursor ranges) :
    hunksAfter (lines.take cursor) (segmentsOf lines cursor ranges) = ranges.map (hunkOf lines) := by
  induction ranges generalizing cursor with
  | nil => rfl
  | cons range ranges ih =>
    obtain ⟨⟨hstart, hstop, -⟩, -, -, hrest⟩ := h
    rw [segmentsOf, hunksAfter, take_append_slice _ hstart, take_append_slice _ hstop, ih hrest,
      List.map_cons, hunkOf_eq]

theorem gaps_unchanged (h : RangesOk lines cursor ranges) :
    (∀ segment ∈ segmentsOf lines cursor ranges, Unchanged segment.gap) ∧
      Unchanged (behind lines cursor ranges) := by
  induction ranges generalizing cursor with
  | nil => exact ⟨by simp [segmentsOf], h⟩
  | cons range ranges ih =>
    obtain ⟨-, hgap, -, hrest⟩ := h
    obtain ⟨hgaps, hbehind⟩ := ih hrest
    exact ⟨List.forall_mem_cons.mpr ⟨hgap, hgaps⟩, hbehind⟩

theorem gaps_apart (h : RangesOk lines cursor ranges) (hhead : ∀ next ∈ ranges.head?, cursor < next.start) :
    ∀ segment ∈ segmentsOf lines cursor ranges, segment.gap ≠ [] := by
  induction ranges generalizing cursor with
  | nil => simp [segmentsOf]
  | cons range ranges ih =>
    obtain ⟨⟨-, hstop, hlength⟩, -, hnext, hrest⟩ := h
    refine List.forall_mem_cons.mpr ⟨fun hnil => ?_, ih hrest hnext⟩
    have hempty := congrArg List.length hnil
    have hstart := hhead range rfl
    simp only [slice, List.length_drop, List.length_take, List.length_nil] at hempty
    omega

theorem unifiedDiff_of_ranges (hwalked : Walked oldLines newLines lines) (h : RangesOk lines 0 ranges) :
    UnifiedDiff oldLines newLines (ranges.map (hunkOf lines)) := by
  have hjoined : joined (behind lines 0 ranges) (segmentsOf lines 0 ranges) = lines := joined_segmentsOf h
  obtain ⟨hgaps, hbehind⟩ := gaps_unchanged h
  have hapart : ∀ segment ∈ (segmentsOf lines 0 ranges).tail, segment.gap ≠ [] := by
    cases ranges with
    | nil => simp [segmentsOf]
    | cons range ranges => exact gaps_apart h.2.2.2 h.2.2.1
  have hdiff := unifiedDiff_of_segments (behind lines 0 ranges) (segmentsOf lines 0 ranges)
    (by rw [hjoined, hwalked.old, hwalked.new, hwalked.kept]) hgaps hbehind hapart
  rwa [hjoined, hwalked.old, hwalked.new, ← List.take_zero (l := lines), hunksAfter_segmentsOf h] at hdiff

def ChangeAt (lines : List DiffLine) (index : Nat) : Prop := ∃ line ∈ lines[index]?, line.isChange = true

theorem mem_changeIndices : index ∈ changeIndices lines ↔ ChangeAt lines index := by
  simp only [changeIndices, List.mem_filterMap, Prod.exists, List.mem_zipIdx_iff_getElem?, ChangeAt]
  constructor
  · rintro ⟨line, i, hline, hi⟩
    split at hi
    · obtain rfl := Option.some.inj hi
      exact ⟨line, hline, ‹_›⟩
    · cases hi
  · rintro ⟨line, hline, hchange⟩
    exact ⟨line, index, hline, by rw [if_pos hchange]⟩

theorem changeIndices_sorted (lines : List DiffLine) : (changeIndices lines).Pairwise (· < ·) := by
  have hpairs : lines.zipIdx.Pairwise fun p q => p.2 < q.2 := by
    rw [← List.pairwise_map (f := Prod.snd), List.zipIdx_map_snd]
    exact List.pairwise_lt_range'
  refine List.Pairwise.filterMap _ (fun p q hlt a ha b hb => ?_) hpairs
  simp only [Option.ite_none_right_eq_some, Option.some.injEq] at ha hb
  exact ha.2 ▸ hb.2 ▸ hlt

theorem unchanged_slice (h : ∀ index, start ≤ index → index < stop → ¬ ChangeAt lines index) :
    Unchanged (slice lines start stop) := by
  intro line hline
  obtain ⟨n, hn⟩ := List.mem_iff_getElem?.mp hline
  rw [slice, List.getElem?_drop, List.getElem?_take] at hn
  split at hn
  next hlt => exact Bool.eq_false_iff.mpr fun hchange => h _ (Nat.le_add_right _ _) hlt ⟨line, hn, hchange⟩
  next => cases hn

theorem unchanged_drop (h : ∀ index, start ≤ index → ¬ ChangeAt lines index) : Unchanged (lines.drop start) := by
  intro line hline
  obtain ⟨n, hn⟩ := List.mem_iff_getElem?.mp hline
  rw [List.getElem?_drop] at hn
  exact Bool.eq_false_iff.mpr fun hchange => h _ (Nat.le_add_right _ _) ⟨line, hn, hchange⟩

theorem growHunks_head (length start stop : Nat) (changes : List Nat) :
    (growHunks length start stop changes).head?.map (·.start) = some start := by
  induction changes generalizing stop with
  | nil => rfl
  | cons change changes ih =>
    simp only [growHunks]
    split
    · exact ih _
    · rfl

/-- The loop: `last` is the change the range was last grown for. What is changed from the range's
start on lies in the range or is still to come. -/
theorem growHunks_ok {changes : List Nat} (hlast : last < lines.length) (hstart : start ≤ last)
    (hstop : stop = min lines.length (last + contextLines + 1))
    (hsorted : (last :: changes).Pairwise (· < ·)) (hin : ∀ change ∈ changes, change < lines.length)
    (hcursor : cursor ≤ start) (hgap : ∀ index, cursor ≤ index → index < start → ¬ ChangeAt lines index)
    (hrest : ∀ index, start ≤ index → ChangeAt lines index → index < stop ∨ index ∈ changes) :
    RangesOk lines cursor (growHunks lines.length start stop changes) := by
  have hordered : start ≤ stop := by omega
  have hlength : stop ≤ lines.length := by omega
  induction changes generalizing cursor start stop last with
  | nil =>
    have htail : Unchanged (lines.drop stop) := by
      refine unchanged_drop fun index hindex hchange => ?_
      rcases hrest index (by omega) hchange with hlt | hmem
      · omega
      · cases hmem
    exact ⟨⟨hcursor, hordered, hlength⟩, unchanged_slice hgap, by simp, htail⟩
  | cons change changes ih =>
    obtain ⟨hfirst, hsorted⟩ := List.pairwise_cons.mp hsorted
    obtain ⟨hchange, hin⟩ := List.forall_mem_cons.mp hin
    have hlt := hfirst change List.mem_cons_self
    simp only [growHunks]
    split
    next hnear =>
      refine ih hchange (by omega) rfl hsorted hin hcursor hgap (fun index hindex hat => ?_) (by omega) (by omega)
      rcases hrest index hindex hat with hinside | hmem
      · exact .inl (by omega)
      · rcases List.mem_cons.mp hmem with rfl | hmem
        · exact .inl (by omega)
        · exact .inr hmem
    next hfar =>
      have hnone : ∀ index, stop ≤ index → index < change → ¬ ChangeAt lines index := by
        intro index hindex hbefore hat
        rcases hrest index (by omega) hat with hinside | hmem
        · omega
        · rcases List.mem_cons.mp hmem with rfl | hmem
          · omega
          · have hlater := (List.pairwise_cons.mp hsorted).1 index hmem
            omega
      have htail : RangesOk lines stop (growHunks lines.length (change - contextLines)
          (min lines.length (change + contextLines + 1)) changes) := by
        refine ih hchange (by omega) rfl hsorted hin (by omega)
          (fun index hindex hbefore => hnone index hindex (by omega)) (fun index hindex hat => ?_) (by omega) (by omega)
        rcases hrest index (by omega) hat with hinside | hmem
        · omega
        · rcases List.mem_cons.mp hmem with rfl | hmem
          · exact .inl (by omega)
          · exact .inr hmem
      refine ⟨⟨hcursor, hordered, hlength⟩, unchanged_slice hgap, fun next hnext => ?_, htail⟩
      have hhead := growHunks_head lines.length (change - contextLines)
        (min lines.length (change + contextLines + 1)) changes
      rw [Option.mem_def.mp hnext, Option.map_some, Option.some.injEq] at hhead
      exact hhead ▸ Nat.lt_of_not_le hfar

theorem createHunks_ok (lines : List DiffLine) : RangesOk lines 0 (createHunks lines) := by
  have hsorted := changeIndices_sorted lines
  have hmem : ∀ index, index ∈ changeIndices lines ↔ ChangeAt lines index := fun _ => mem_changeIndices
  have hin : ∀ index ∈ changeIndices lines, index < lines.length := by
    intro index hindex
    obtain ⟨line, hline, -⟩ := mem_changeIndices.mp hindex
    exact (List.getElem?_eq_some_iff.mp hline).1
  unfold createHunks
  cases hchanges : changeIndices lines with
  | nil =>
    rw [hchanges] at hmem
    exact unchanged_drop fun index _ hat => absurd ((hmem index).mpr hat) List.not_mem_nil
  | cons first changes =>
    rw [hchanges] at hsorted hmem hin
    obtain ⟨hfirst, hin⟩ := List.forall_mem_cons.mp hin
    have hbefore : ∀ index, index < first → ¬ ChangeAt lines index := by
      intro index hlt hat
      rcases List.mem_cons.mp ((hmem index).mpr hat) with rfl | hlater
      · omega
      · exact absurd ((List.pairwise_cons.mp hsorted).1 index hlater) (by omega)
    refine growHunks_ok hfirst (Nat.sub_le _ _) rfl hsorted hin (Nat.zero_le _)
      (fun index _ hlt => hbefore index (by omega)) fun index _ hat => ?_
    rcases List.mem_cons.mp ((hmem index).mpr hat) with rfl | hlater
    · exact .inl (by omega)
    · exact .inr hlater

end

end Catalyst.ConfigCli
