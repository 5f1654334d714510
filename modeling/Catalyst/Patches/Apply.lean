import Catalyst.Library.Lines
import Mathlib.Data.List.Infix
import Mathlib.Algebra.Order.Ring.Nat

/-!
# A patch applied to a text

The hunks of a unified diff are applied from the first line of a text to the last. A hunk that
takes lines away names the first of them; one that only inserts names the line it stands behind,
or 0 for the front.
-/

namespace Catalyst.Patches

open Library.Lines

-- -----------------
-- Patches
-- -----------------

inductive WorkspacePatchLine where
  | context (text : Line)
  | delete (text : Line)
  | add (text : Line)
  deriving DecidableEq

def WorkspacePatchLine.text : WorkspacePatchLine → Line
  | .context text | .delete text | .add text => text

def WorkspacePatchLine.old? : WorkspacePatchLine → Option Line
  | .context text | .delete text => some text
  | .add _ => none

def WorkspacePatchLine.new? : WorkspacePatchLine → Option Line
  | .context text | .add text => some text
  | .delete _ => none

/-- A hunk as it is read: its counts are those of its lines, and no line holds a break. -/
structure WorkspacePatchHunk where
  oldStart : Nat
  oldCount : Nat
  newStart : Nat
  newCount : Nat
  lines : List WorkspacePatchLine
  oldCounted : (lines.filterMap (·.old?)).length = oldCount
  newCounted : (lines.filterMap (·.new?)).length = newCount
  unbroken : ∀ line ∈ lines, Unbroken line.text

inductive PatchOperation where
  | create | update | delete
  deriving DecidableEq

structure WorkspacePatchChange where
  operation : PatchOperation
  path : String
  hunks : List WorkspacePatchHunk

structure PatchFailure where
  message : String
  path : String
  line : Nat
  deriving DecidableEq

/-- The lines a text is patched by. A text of one empty line has none. -/
def splitTextLines (text : List Char) : List Line :=
  let normalized := normalizeBreaks text
  if normalized = [] then []
  else
    let withoutFinalNewline := withoutFinalBreak normalized
    if withoutFinalNewline = [] then [] else withoutFinalNewline.splitOn '\n'

/-- The lines of one hunk, from the cursor on: what they put out, and where the cursor is then. -/
def applyLines (path : String) (existing : List Line) (cursor : Nat) :
    List WorkspacePatchLine → Except PatchFailure (List Line × Nat)
  | [] => .ok ([], cursor)
  | .add text :: rest => do
    let (output, cursor) ← applyLines path existing cursor rest
    return (text :: output, cursor)
  | .context text :: rest =>
    if existing[cursor]? ≠ some text then
      .error ⟨"Workspace patch context did not match file content", path, cursor + 1⟩
    else do
      let (output, cursor) ← applyLines path existing (cursor + 1) rest
      return (text :: output, cursor)
  | .delete text :: rest =>
    if existing[cursor]? ≠ some text then
      .error ⟨"Workspace patch context did not match file content", path, cursor + 1⟩
    else applyLines path existing (cursor + 1) rest

def WorkspacePatchHunk.startIndex (hunk : WorkspacePatchHunk) : Nat := if hunk.oldStart = 0 then 0 else hunk.oldStart - 1

/-- `existing.lines.slice(cursor, startIndex)` -/
def slice (existing : List Line) (cursor startIndex : Nat) : List Line := (existing.take startIndex).drop cursor

/-- The loop over the hunks, with what it puts out from the cursor on. -/
def applyHunks (path : String) (existing : List Line) (cursor : Nat) :
    List WorkspacePatchHunk → Except PatchFailure (List Line)
  | [] => .ok (existing.drop cursor)
  | hunk :: rest =>
    if hunk.startIndex < cursor ∨ existing.length < hunk.startIndex then
      .error ⟨"Workspace patch hunk does not apply at the expected line", path, hunk.oldStart⟩
    else do
      let (output, next) ← applyLines path existing hunk.startIndex hunk.lines
      let behind ← applyHunks path existing next rest
      return slice existing cursor hunk.startIndex ++ output ++ behind

def applyWorkspacePatchToText (existingText : List Char) (change : WorkspacePatchChange) : Except PatchFailure (List Char) :=
  (applyHunks change.path (splitTextLines existingText) 0 change.hunks).map unlines

namespace WorkspacePatchHunk

def oldLines (hunk : WorkspacePatchHunk) : List Line := hunk.lines.filterMap (·.old?)

def newLines (hunk : WorkspacePatchHunk) : List Line := hunk.lines.filterMap (·.new?)

def place (hunk : WorkspacePatchHunk) : Nat := if hunk.oldCount = 0 then hunk.oldStart else hunk.oldStart - 1

def InsertsBehind (hunk : WorkspacePatchHunk) : Prop := hunk.oldCount = 0 ∧ 0 < hunk.oldStart
  deriving Decidable

end WorkspacePatchHunk

inductive Patched (old : List Line) : Nat → List WorkspacePatchHunk → List Line → Prop where
  | done : Patched old cursor [] (old.drop cursor)
  | hunk {hunk : WorkspacePatchHunk} (hordered : cursor ≤ hunk.place) (hinside : hunk.place ≤ old.length)
      (hold : hunk.oldLines <+: old.drop hunk.place) (hrest : Patched old (hunk.place + hunk.oldCount) rest behind) :
      Patched old cursor (hunk :: rest) (slice old cursor hunk.place ++ hunk.newLines ++ behind)

/-- The numbers of the new lines in the headers, with so many old lines read and new ones written. -/
def Numbered : Nat → Nat → List WorkspacePatchHunk → Prop
  | _, _, [] => True
  | read, written, hunk :: rest =>
    (0 < hunk.oldCount → 0 < hunk.oldStart) ∧
      hunk.newStart = written + (hunk.place - read) + (if hunk.newCount = 0 then 0 else 1) ∧
      Numbered (hunk.place + hunk.oldCount) (written + (hunk.place - read) + hunk.newCount) rest

structure UnifiedDiff (old new : List Line) (hunks : List WorkspacePatchHunk) : Prop where
  patched : Patched old 0 hunks new
  numbered : Numbered 0 0 hunks

/-- Every hunk that only inserts behind a line puts in copies of that line, and the hunk before it does not reach the
line. `cursor` is where the application stands, and `read` where it should. -/
def Placed (old : List Line) : Nat → Nat → List WorkspacePatchHunk → Prop
  | _, _, [] => True
  | cursor, read, hunk :: rest =>
    read ≤ hunk.place ∧
      if hunk.InsertsBehind then
        (cursor < hunk.oldStart ∧ ∃ line ∈ old[hunk.oldStart - 1]?, ∀ text ∈ hunk.newLines, text = line) ∧
          Placed old (hunk.oldStart - 1) hunk.oldStart rest
      else Placed old (hunk.place + hunk.oldCount) (hunk.place + hunk.oldCount) rest

section Hunks

variable {path : String} {old : List Line} {cursor read : Nat} {hunk : WorkspacePatchHunk} {rest : List WorkspacePatchHunk}

theorem cons_prefix_drop (text : Line) (texts : List Line) :
    text :: texts <+: old.drop cursor ↔ old[cursor]? = some text ∧ texts <+: old.drop (cursor + 1) := by
  by_cases hlt : cursor < old.length
  · rw [List.drop_eq_getElem_cons hlt, List.cons_prefix_cons, List.getElem?_eq_getElem hlt, Option.some_inj]
    exact and_congr_left' eq_comm
  · rw [List.drop_eq_nil_of_le (by omega), List.getElem?_eq_none (by omega)]
    simp

theorem applyLines_ok (path : String) {lines : List WorkspacePatchLine} (h : lines.filterMap (·.old?) <+: old.drop cursor) :
    applyLines path old cursor lines = .ok (lines.filterMap (·.new?), cursor + (lines.filterMap (·.old?)).length) := by
  induction lines generalizing cursor with
  | nil => rfl
  | cons line lines ih =>
    cases line with
    | add text =>
      have hlines : lines.filterMap (·.old?) <+: old.drop cursor := h
      rw [applyLines, ih hlines]
      rfl
    | context text =>
      have hcons : text :: lines.filterMap (·.old?) <+: old.drop cursor := h
      obtain ⟨hline, hlines⟩ := (cons_prefix_drop text _).mp hcons
      rw [applyLines, if_neg (not_not_intro hline), ih hlines]
      simp only [List.filterMap_cons, WorkspacePatchLine.old?, WorkspacePatchLine.new?, List.length_cons]
      rw [Nat.add_assoc, Nat.add_comm 1]
      rfl
    | delete text =>
      have hcons : text :: lines.filterMap (·.old?) <+: old.drop cursor := h
      obtain ⟨hline, hlines⟩ := (cons_prefix_drop text _).mp hcons
      rw [applyLines, if_neg (not_not_intro hline), ih hlines]
      simp only [List.filterMap_cons, WorkspacePatchLine.old?, WorkspacePatchLine.new?, List.length_cons]
      rw [Nat.add_assoc, Nat.add_comm 1]

theorem prefix_of_applyLines {lines : List WorkspacePatchLine} (h : applyLines path old cursor lines = .ok result) :
    lines.filterMap (·.old?) <+: old.drop cursor := by
  induction lines generalizing cursor result with
  | nil => exact List.nil_prefix
  | cons line lines ih =>
    cases line with
    | add text =>
      rw [applyLines] at h
      cases hrest : applyLines path old cursor lines with
      | error failure => simp [hrest, bind, Except.bind] at h
      | ok result => exact ih hrest
    | context text =>
      rw [applyLines] at h
      split at h
      · cases h
      · next hline =>
        cases hrest : applyLines path old (cursor + 1) lines with
        | error failure => simp [hrest, bind, Except.bind] at h
        | ok result => exact (cons_prefix_drop _ _).mpr ⟨not_not.mp hline, ih hrest⟩
    | delete text =>
      rw [applyLines] at h
      split at h
      · cases h
      · next hline => exact (cons_prefix_drop _ _).mpr ⟨not_not.mp hline, ih h⟩

theorem applyHunks_cons :
    applyHunks path old cursor (hunk :: rest) = .ok result ↔
      cursor ≤ hunk.startIndex ∧ hunk.startIndex ≤ old.length ∧ hunk.oldLines <+: old.drop hunk.startIndex ∧
        ∃ behind, applyHunks path old (hunk.startIndex + hunk.oldCount) rest = .ok behind ∧
          result = slice old cursor hunk.startIndex ++ hunk.newLines ++ behind := by
  rw [applyHunks]
  constructor
  · intro h
    split at h
    · cases h
    · next hplace =>
      cases hlines : applyLines path old hunk.startIndex hunk.lines with
      | error failure => simp [hlines, bind, Except.bind] at h
      | ok applied =>
        have hprefix := prefix_of_applyLines hlines
        rw [applyLines_ok path hprefix] at hlines h
        rw [hunk.oldCounted] at h
        cases hrest : applyHunks path old (hunk.startIndex + hunk.oldCount) rest with
        | error failure => simp [hrest, bind, Except.bind] at h
        | ok behind =>
          simp only [hrest, bind, Except.bind, pure, Except.pure, Except.ok.injEq] at h
          exact ⟨by omega, by omega, hprefix, behind, rfl, h.symm⟩
  · rintro ⟨hcursor, hinside, hprefix, behind, hrest, rfl⟩
    rw [if_neg (by omega), applyLines_ok path hprefix, hunk.oldCounted]
    simp only [hrest, bind, Except.bind, pure, Except.pure]
    rfl

theorem slice_self (old : List Line) (cursor : Nat) : slice old cursor cursor = [] :=
  List.drop_eq_nil_of_le (List.length_take_le _ _)

theorem slice_append (old : List Line) {a b c : Nat} (hab : a ≤ b) (hbc : b ≤ c) (hc : c ≤ old.length) :
    slice old a b ++ slice old b c = slice old a c := by
  have hfront : (old.take c).take b = old.take b := by rw [List.take_take, Nat.min_eq_left hbc]
  have hlength : a ≤ (old.take b).length := by
    rw [List.length_take]
    omega
  unfold slice
  conv_rhs => rw [← List.take_append_drop b (old.take c), hfront, List.drop_append_of_le_length hlength]

theorem slice_append_drop (old : List Line) {a b : Nat} (hab : a ≤ b) : slice old a b ++ old.drop b = old.drop a := by
  by_cases hb : b ≤ old.length
  · have hlength : a ≤ (old.take b).length := by
      rw [List.length_take]
      omega
    conv_rhs => rw [← List.take_append_drop b old, List.drop_append_of_le_length hlength]
    rfl
  · rw [slice, List.take_of_length_le (by omega), List.drop_eq_nil_of_le (i := b) (by omega), List.append_nil]

theorem slice_one (h : old[cursor]? = some line) : slice old cursor (cursor + 1) = [line] := by
  obtain ⟨hlt, hget⟩ := List.getElem?_eq_some_iff.mp h
  rw [slice, List.take_add_one, h, List.drop_append_of_le_length (by rw [List.length_take]; omega),
    List.drop_eq_nil_of_le (List.length_take_le _ _)]
  rfl

theorem slice_line (hline : old[p - 1]? = some line) (hcursor : cursor ≤ read) (hread : read ≤ p) (hp : cursor < p) :
    slice old cursor read ++ slice old read p = slice old cursor (p - 1) ++ [line] ∧ slice old (p - 1) p = [line] := by
  have hlt : p - 1 < old.length := (List.getElem?_eq_some_iff.mp hline).1
  have hone : slice old (p - 1) p = [line] := by
    have := slice_one hline
    rwa [Nat.sub_add_cancel (by omega)] at this
  refine ⟨?_, hone⟩
  rw [← hone, slice_append old hcursor hread (by omega), slice_append old (by omega) (by omega) (by omega)]

theorem startIndex_eq (h : ¬ hunk.InsertsBehind) : hunk.startIndex = hunk.place := by
  unfold WorkspacePatchHunk.startIndex WorkspacePatchHunk.place
  unfold WorkspacePatchHunk.InsertsBehind at h
  split <;> split <;> omega

theorem insertsBehind_eq (h : hunk.InsertsBehind) :
    hunk.startIndex = hunk.oldStart - 1 ∧ hunk.place = hunk.oldStart ∧ hunk.oldLines = [] := by
  obtain ⟨hcount, hstart⟩ := h
  refine ⟨?_, ?_, ?_⟩
  · rw [WorkspacePatchHunk.startIndex, if_neg (by omega)]
  · rw [WorkspacePatchHunk.place, if_pos hcount]
  · exact List.eq_nil_of_length_eq_zero (hunk.oldCounted.trans hcount)

theorem copies_append {texts : List Line} (h : ∀ text ∈ texts, text = line) (behind : List Line) :
    texts ++ line :: behind = line :: (texts ++ behind) := by
  induction texts with
  | nil => rfl
  | cons text texts ih =>
    obtain ⟨rfl, hcopies⟩ := List.forall_mem_cons.mp h
    rw [List.cons_append, ih hcopies, List.cons_append]

theorem copies_of_append {texts behind behind' : List Line} (h : texts ++ behind' = line :: (texts ++ behind)) :
    (∀ text ∈ texts, text = line) ∧ behind' = line :: behind := by
  induction texts with
  | nil => exact ⟨fun text htext => absurd htext List.not_mem_nil, h⟩
  | cons text texts ih =>
    obtain ⟨rfl, hrest⟩ := List.cons.inj h
    obtain ⟨hcopies, hbehind⟩ := ih hrest
    exact ⟨List.forall_mem_cons.mpr ⟨rfl, hcopies⟩, hbehind⟩

theorem applyHunks_placed (path : String) (hunks : List WorkspacePatchHunk) (hcursor : cursor ≤ read)
    (hplaced : Placed old cursor read hunks) :
    applyHunks path old cursor hunks = .ok result ↔
      ∃ new, Patched old read hunks new ∧ result = slice old cursor read ++ new := by
  induction hunks generalizing cursor read result with
  | nil =>
    constructor
    · intro h
      exact ⟨_, .done, (Except.ok.inj h).symm.trans (slice_append_drop old hcursor).symm⟩
    · rintro ⟨new, hnew, rfl⟩
      cases hnew
      rw [slice_append_drop old hcursor]
      rfl
  | cons hunk rest ih =>
    obtain ⟨hread, hplaced⟩ := hplaced
    rw [applyHunks_cons]
    by_cases hbehind : hunk.InsertsBehind
    · rw [if_pos hbehind] at hplaced
      obtain ⟨⟨hbefore, line, hline, hcopies⟩, hrest⟩ := hplaced
      obtain ⟨hstart, hplace, hold⟩ := insertsBehind_eq hbehind
      have hlt : hunk.oldStart - 1 < old.length := (List.getElem?_eq_some_iff.mp hline).1
      obtain ⟨hwhole, hone⟩ := slice_line hline hcursor (hplace ▸ hread) hbefore
      have hswap (behind : List Line) : slice old cursor (hunk.oldStart - 1) ++ hunk.newLines ++ ([line] ++ behind) =
          slice old cursor read ++ (slice old read hunk.oldStart ++ hunk.newLines ++ behind) := by
        rw [List.append_assoc, List.singleton_append, copies_append hcopies, ← List.singleton_append, ← List.append_assoc,
          ← hwhole, List.append_assoc, List.append_assoc]
      rw [hstart, hbehind.1, Nat.add_zero]
      constructor
      · rintro ⟨-, -, -, behind, happlied, rfl⟩
        obtain ⟨new, hnew, rfl⟩ := (ih (by omega) hrest).mp happlied
        have hpatched : Patched old read (hunk :: rest) (slice old read hunk.place ++ hunk.newLines ++ new) := by
          refine .hunk hread (by omega) (hold ▸ List.nil_prefix) ?_
          rwa [hplace, hbehind.1, Nat.add_zero]
        exact ⟨_, hpatched, by rw [hone, hplace, hswap]⟩
      · rintro ⟨new, hnew, rfl⟩
        cases hnew with
        | hunk _ _ _ hpatched =>
          rw [hplace, hbehind.1, Nat.add_zero] at hpatched
          refine ⟨by omega, by omega, hold ▸ List.nil_prefix, _, (ih (by omega) hrest).mpr ⟨_, hpatched, rfl⟩, ?_⟩
          rw [hone, hplace, hswap]
    · rw [if_neg hbehind] at hplaced
      rw [startIndex_eq hbehind]
      constructor
      · rintro ⟨-, hinside, hold, behind, happlied, rfl⟩
        obtain ⟨new, hnew, rfl⟩ := (ih le_rfl hplaced).mp happlied
        refine ⟨_, .hunk hread hinside hold hnew, ?_⟩
        rw [slice_self, List.nil_append, ← slice_append old hcursor hread hinside, List.append_assoc, List.append_assoc,
          List.append_assoc]
      · rintro ⟨new, hnew, rfl⟩
        cases hnew with
        | hunk _ hinside hold hpatched =>
          refine ⟨hcursor.trans hread, hinside, hold, _, (ih le_rfl hplaced).mpr ⟨_, hpatched, rfl⟩, ?_⟩
          rw [slice_self, List.nil_append, ← slice_append old hcursor hread hinside, List.append_assoc, List.append_assoc,
            List.append_assoc]

theorem placed_of_applyHunks (path : String) (hpatched : Patched old read hunks new) (hcursor : cursor ≤ read)
    (h : applyHunks path old cursor hunks = .ok (slice old cursor read ++ new)) : Placed old cursor read hunks := by
  induction hpatched generalizing cursor with
  | done => trivial
  | @hunk read rest behind hunk hread hinside hold hpatched ih =>
    obtain ⟨hbefore, -, -, behind', happlied, heq⟩ := applyHunks_cons.mp h
    refine ⟨hread, ?_⟩
    by_cases hbehind : hunk.InsertsBehind
    · rw [if_pos hbehind]
      obtain ⟨hstart, hplace, -⟩ := insertsBehind_eq hbehind
      have hpositive := hbehind.2
      rw [hplace] at hread hinside
      rw [hstart] at hbefore
      rw [hplace, hbehind.1, Nat.add_zero] at ih
      rw [hstart, hbehind.1, Nat.add_zero] at happlied
      have hline : old[hunk.oldStart - 1]? = some old[hunk.oldStart - 1] := List.getElem?_eq_getElem (by omega)
      obtain ⟨hwhole, hone⟩ := slice_line hline hcursor hread (by omega)
      have hsame : hunk.newLines ++ behind' = old[hunk.oldStart - 1] :: (hunk.newLines ++ behind) := by
        rw [hplace, hstart, ← List.append_assoc, ← List.append_assoc, hwhole] at heq
        simpa [List.append_assoc] using heq.symm
      obtain ⟨hcopies, rfl⟩ := copies_of_append hsame
      refine ⟨⟨by omega, _, hline, hcopies⟩, ih (by omega) ?_⟩
      rw [hone]
      exact happlied
    · rw [if_neg hbehind]
      rw [startIndex_eq hbehind, ← slice_append old hcursor hread hinside] at heq
      have hsame : behind = behind' := by simpa [List.append_assoc] using heq
      subst hsame
      rw [startIndex_eq hbehind] at happlied
      exact ih le_rfl (by rwa [slice_self, List.nil_append])

def taken (hunks : List WorkspacePatchHunk) : Nat := (hunks.map (·.oldCount)).sum

def given (hunks : List WorkspacePatchHunk) : Nat := (hunks.map (·.newCount)).sum

theorem length_slice (old : List Line) {a b : Nat} (hb : b ≤ old.length) : (slice old a b).length = b - a := by
  rw [slice, List.length_drop, List.length_take, Nat.min_eq_left hb]

theorem length_of_hold (hold : hunk.oldLines <+: old.drop cursor) (hinside : cursor ≤ old.length) :
    cursor + hunk.oldCount ≤ old.length := by
  have := hold.length_le
  rw [List.length_drop, WorkspacePatchHunk.oldLines, hunk.oldCounted] at this
  omega

theorem length_patched (h : Patched old cursor hunks new) (hcursor : cursor ≤ old.length) :
    new.length + taken hunks = old.length - cursor + given hunks := by
  induction h with
  | done => simp [taken, given]
  | @hunk cursor rest behind hunk hordered hinside hold hrest ih =>
    have hend := length_of_hold hold hinside
    have := ih hend
    have hnew : hunk.newLines.length = hunk.newCount := hunk.newCounted
    simp only [taken, given, List.map_cons, List.sum_cons, List.length_append, length_slice old hinside, hnew] at this ⊢
    omega

theorem length_applyHunks (h : applyHunks path old cursor hunks = .ok new) (hcursor : cursor ≤ old.length) :
    new.length + taken hunks = old.length - cursor + given hunks := by
  induction hunks generalizing cursor new with
  | nil =>
    obtain rfl := Except.ok.inj h
    simp [taken, given]
  | cons hunk rest ih =>
    obtain ⟨hordered, hinside, hold, behind, hrest, rfl⟩ := applyHunks_cons.mp h
    have hend := length_of_hold hold hinside
    have := ih hrest hend
    have hnew : hunk.newLines.length = hunk.newCount := hunk.newCounted
    simp only [taken, given, List.map_cons, List.sum_cons, List.length_append, length_slice old hinside, hnew] at this ⊢
    omega

theorem unbroken_applyHunks (hold : ∀ line ∈ old, Unbroken line) (h : applyHunks path old cursor hunks = .ok new) :
    ∀ line ∈ new, Unbroken line := by
  induction hunks generalizing cursor new with
  | nil =>
    obtain rfl := Except.ok.inj h
    exact fun line hline => hold line (List.mem_of_mem_drop hline)
  | cons hunk rest ih =>
    obtain ⟨-, -, -, behind, hrest, rfl⟩ := applyHunks_cons.mp h
    intro line hline
    obtain hline | hline := List.mem_append.mp hline
    · obtain hline | hline := List.mem_append.mp hline
      · exact hold line (List.mem_of_mem_take (List.mem_of_mem_drop hline))
      · obtain ⟨patchLine, hmem, hnew⟩ := List.mem_filterMap.mp hline
        have htext : patchLine.text = line := by
          cases patchLine with
          | delete text => cases hnew
          | _ => exact Option.some.inj hnew
        exact htext ▸ hunk.unbroken patchLine hmem
    · exact ih hrest line hline

theorem splitTextLines_eq (text : List Char) : splitTextLines text = if lines text = [[]] then [] else lines text := by
  unfold splitTextLines lines
  by_cases hempty : normalizeBreaks text = []
  · simp [hempty]
  · simp only [if_neg hempty]
    by_cases hone : withoutFinalBreak (normalizeBreaks text) = []
    · simp [hone]
    · have hsplit : (withoutFinalBreak (normalizeBreaks text)).splitOn '\n' ≠ [[]] := by
        intro h
        have hjoin : ['\n'].intercalate ((withoutFinalBreak (normalizeBreaks text)).splitOn '\n') =
            withoutFinalBreak (normalizeBreaks text) := List.intercalate_splitOn '\n'
        rw [h] at hjoin
        exact hone (by simpa using hjoin.symm)
      rw [if_neg hone, if_neg hsplit]

end Hunks

def Meets (text : List Char) (hunks : List WorkspacePatchHunk) : Prop := lines text ≠ [[]] ∧ Placed (lines text) 0 0 hunks

/-- A unified diff gives the new lines, and an applied patch leaves every line outside its hunks as it is and in its
place, exactly where the hunks are placed and the text is not one empty line. -/
theorem patch_ok_iff (text : List Char) (change : WorkspacePatchChange) :
    (∀ new, UnifiedDiff (lines text) new change.hunks →
      ((∃ out, applyWorkspacePatchToText text change = .ok out ∧ lines out = new) ↔ Meets text change.hunks)) ∧
    ∀ out, applyWorkspacePatchToText text change = .ok out →
      (Patched (lines text) 0 change.hunks (lines out) ↔ Meets text change.hunks) := by
  have happlied (out : List Char) : applyWorkspacePatchToText text change = .ok out ↔
      ∃ result, applyHunks change.path (splitTextLines text) 0 change.hunks = .ok result ∧ unlines result = out := by
    unfold applyWorkspacePatchToText
    cases applyHunks change.path (splitTextLines text) 0 change.hunks <;> simp [Except.map]
  have hread {result : List Line} (h : applyHunks change.path (splitTextLines text) 0 change.hunks = .ok result) :
      lines (unlines result) = result := by
    refine lines_unlines (unbroken_applyHunks (fun line hline => ?_) h)
    rw [splitTextLines_eq] at hline
    split at hline
    · exact absurd hline List.not_mem_nil
    · exact unbroken_of_mem_lines hline
  by_cases hone : lines text = [[]]
  · -- the line is lost before the first hunk
    have hlost {result : List Line} (h : applyHunks change.path (splitTextLines text) 0 change.hunks = .ok result)
        (hpatched : Patched (lines text) 0 change.hunks result) : False := by
      have hwith := length_patched hpatched (Nat.zero_le _)
      have hwithout := length_applyHunks h (Nat.zero_le _)
      rw [splitTextLines_eq, if_pos hone] at hwithout
      rw [hone] at hwith
      simp only [List.length_nil, List.length_singleton] at hwith hwithout
      omega
    refine ⟨fun new hdiff => ⟨?_, fun h => absurd hone h.1⟩, fun out hout => ⟨fun hpatched => ?_, fun h => absurd hone h.1⟩⟩
    · rintro ⟨out, hout, rfl⟩
      obtain ⟨result, hresult, rfl⟩ := (happlied out).mp hout
      exact (hlost hresult (hread hresult ▸ hdiff.patched)).elim
    · obtain ⟨result, hresult, rfl⟩ := (happlied out).mp hout
      exact (hlost hresult (hread hresult ▸ hpatched)).elim
  · have hsplit : splitTextLines text = lines text := by rw [splitTextLines_eq, if_neg hone]
    rw [hsplit] at happlied hread
    have hzero (new : List Line) : slice (lines text) 0 0 ++ new = new := by rw [slice_self, List.nil_append]
    refine ⟨fun new hdiff => ⟨?_, fun hmeets => ?_⟩, fun out hout => ⟨fun hpatched => ⟨hone, ?_⟩, fun hmeets => ?_⟩⟩
    · rintro ⟨out, hout, rfl⟩
      obtain ⟨result, hresult, rfl⟩ := (happlied out).mp hout
      rw [hread hresult] at hdiff
      exact ⟨hone, placed_of_applyHunks change.path hdiff.patched le_rfl (by rwa [hzero])⟩
    · have hresult := (applyHunks_placed change.path change.hunks le_rfl hmeets.2).mpr ⟨new, hdiff.patched, rfl⟩
      rw [hzero] at hresult
      exact ⟨_, (happlied _).mpr ⟨new, hresult, rfl⟩, hread hresult⟩
    · obtain ⟨result, hresult, rfl⟩ := (happlied out).mp hout
      rw [hread hresult] at hpatched
      exact placed_of_applyHunks change.path hpatched le_rfl (by rwa [hzero])
    · obtain ⟨result, hresult, rfl⟩ := (happlied out).mp hout
      obtain ⟨new, hnew, heq⟩ := (applyHunks_placed change.path change.hunks le_rfl hmeets.2).mp hresult
      rw [hread hresult, heq, hzero]
      exact hnew

namespace Example

/-- `@@ -1,0 +2 @@` -/
def inserting : WorkspacePatchHunk where
  oldStart := 1
  oldCount := 0
  newStart := 2
  newCount := 1
  lines := [.add "x".toList]
  oldCounted := rfl
  newCounted := rfl
  unbroken := by decide

def insertion : WorkspacePatchChange := ⟨.update, "notes.txt", [inserting]⟩

end Example

open Example in
/-- A hunk that only inserts puts its lines before the line they belong behind. -/
theorem inserted_before_its_line :
    UnifiedDiff (lines "a\nb\n".toList) ["a".toList, "x".toList, "b".toList] insertion.hunks ∧
    applyWorkspacePatchToText "a\nb\n".toList insertion = .ok "x\na\nb\n".toList ∧
    lines "x\na\nb\n".toList ≠ ["a".toList, "x".toList, "b".toList] := by
  refine ⟨⟨?_, by decide, rfl, trivial⟩, by decide, by decide⟩
  exact .hunk (by decide) (by decide) (by decide) .done

end Catalyst.Patches
