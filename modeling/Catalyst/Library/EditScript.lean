import Mathlib

/-!
# Edit scripts and unified diffs

An edit script goes through two lists at once: it keeps an item of both, deletes one of the old
list or inserts one of the new. What it keeps is a common subsequence, so a script that keeps a
longest one has the fewest changes. A unified diff shows the script without the longer stretches
that are kept: each hunk is a part of the script with the numbers of its first lines.
-/

namespace Catalyst.Library

open scoped List

inductive Edit (α : Type)
  | context (text : α)
  | delete (text : α)
  | insert (text : α)
  deriving DecidableEq

namespace Edit

variable {α : Type}

def old? : Edit α → Option α
  | context text | delete text => some text
  | insert _ => none

def new? : Edit α → Option α
  | context text | insert text => some text
  | delete _ => none

def kept? : Edit α → Option α
  | context text => some text
  | delete _ | insert _ => none

def isChange : Edit α → Bool
  | context _ => false
  | delete _ | insert _ => true

end Edit

namespace EditScript

variable {α : Type} {script : List (Edit α)} {old new : List α}

def oldSide (script : List (Edit α)) : List α := script.filterMap Edit.old?

def newSide (script : List (Edit α)) : List α := script.filterMap Edit.new?

def kept (script : List (Edit α)) : List α := script.filterMap Edit.kept?

def changes (script : List (Edit α)) : Nat := script.countP Edit.isChange

@[simp] theorem oldSide_nil : oldSide ([] : List (Edit α)) = [] := rfl

@[simp] theorem newSide_nil : newSide ([] : List (Edit α)) = [] := rfl

@[simp] theorem changes_nil : changes ([] : List (Edit α)) = 0 := rfl

@[simp] theorem oldSide_append (s t : List (Edit α)) : oldSide (s ++ t) = oldSide s ++ oldSide t :=
  List.filterMap_append

@[simp] theorem newSide_append (s t : List (Edit α)) : newSide (s ++ t) = newSide s ++ newSide t :=
  List.filterMap_append

@[simp] theorem changes_append (s t : List (Edit α)) : changes (s ++ t) = changes s + changes t :=
  List.countP_append

@[simp] theorem oldSide_context (a : α) : oldSide (.context a :: script) = a :: oldSide script := rfl

@[simp] theorem oldSide_delete (a : α) : oldSide (.delete a :: script) = a :: oldSide script := rfl

@[simp] theorem oldSide_insert (a : α) : oldSide (.insert a :: script) = oldSide script := rfl

@[simp] theorem newSide_context (a : α) : newSide (.context a :: script) = a :: newSide script := rfl

@[simp] theorem newSide_delete (a : α) : newSide (.delete a :: script) = newSide script := rfl

@[simp] theorem newSide_insert (a : α) : newSide (.insert a :: script) = a :: newSide script := rfl

@[simp] theorem kept_context (a : α) : kept (.context a :: script) = a :: kept script := rfl

@[simp] theorem kept_delete (a : α) : kept (.delete a :: script) = kept script := rfl

@[simp] theorem kept_insert (a : α) : kept (.insert a :: script) = kept script := rfl

@[simp] theorem changes_context (a : α) : changes (.context a :: script) = changes script :=
  List.countP_cons_of_neg (by simp [Edit.isChange])

@[simp] theorem changes_delete (a : α) : changes (.delete a :: script) = changes script + 1 :=
  List.countP_cons_of_pos rfl

@[simp] theorem changes_insert (a : α) : changes (.insert a :: script) = changes script + 1 :=
  List.countP_cons_of_pos rfl

theorem kept_sublist_old (script : List (Edit α)) : kept script <+ oldSide script := by
  induction script with
  | nil => exact .slnil
  | cons edit script ih =>
    cases edit with
    | context a => exact ih.cons_cons a
    | delete a => exact ih.cons a
    | insert a => exact ih

theorem kept_sublist_new (script : List (Edit α)) : kept script <+ newSide script := by
  induction script with
  | nil => exact .slnil
  | cons edit script ih =>
    cases edit with
    | context a => exact ih.cons_cons a
    | delete a => exact ih
    | insert a => exact ih.cons a

theorem length_sides (script : List (Edit α)) :
    (oldSide script).length + (newSide script).length = changes script + 2 * (kept script).length := by
  induction script with
  | nil => rfl
  | cons edit script ih =>
    cases edit <;> simp <;> omega

theorem sides_of_unchanged (h : ∀ edit ∈ script, edit.isChange = false) :
    oldSide script = newSide script ∧ (oldSide script).length = script.length ∧ changes script = 0 := by
  induction script with
  | nil => exact ⟨rfl, rfl, rfl⟩
  | cons edit script ih =>
    obtain ⟨hedit, hrest⟩ := List.forall_mem_cons.mp h
    obtain ⟨hsides, hlength, hchanges⟩ := ih hrest
    cases edit with
    | context a => exact ⟨congrArg (a :: ·) hsides, congrArg (· + 1) hlength, by simpa using hchanges⟩
    | delete a => cases hedit
    | insert a => cases hedit

section

variable [DecidableEq α]

def lcsLength : List α → List α → Nat
  | [], _ => 0
  | _ :: _, [] => 0
  | a :: as, b :: bs =>
    if a = b then lcsLength as bs + 1 else max (lcsLength as (b :: bs)) (lcsLength (a :: as) bs)

@[simp] theorem lcsLength_nil_left (bs : List α) : lcsLength [] bs = 0 := by
  rw [lcsLength]

@[simp] theorem lcsLength_nil_right (as : List α) : lcsLength as [] = 0 := by
  cases as <;> simp [lcsLength]

theorem lcsLength_cons (a : α) (as : List α) (b : α) (bs : List α) : lcsLength (a :: as) (b :: bs) =
    if a = b then lcsLength as bs + 1 else max (lcsLength as (b :: bs)) (lcsLength (a :: as) bs) := by
  rw [lcsLength]

theorem length_le_lcsLength {c : List α} (hold : c <+ old) (hnew : c <+ new) :
    c.length ≤ lcsLength old new := by
  induction old, new using lcsLength.induct generalizing c with
  | case1 new => simp [List.sublist_nil.mp hold]
  | case2 a as => simp [List.sublist_nil.mp hnew]
  | case3 as b bs ih =>
    rw [lcsLength, if_pos rfl]
    have htail := ih hold.tail hnew.tail
    rw [List.length_tail] at htail
    omega
  | case4 a as b bs hne ihold ihnew =>
    rw [lcsLength, if_neg hne]
    rcases List.sublist_cons_iff.mp hold with hold' | ⟨c', rfl, -⟩
    · exact (ihold hold' hnew).trans (le_max_left _ _)
    · rcases List.sublist_cons_iff.mp hnew with hnew' | ⟨c'', hc, -⟩
      · exact (ihnew hold hnew').trans (le_max_right _ _)
      · exact absurd (List.cons.inj hc).1 hne

theorem changes_le {other : List (Edit α)} (hkept : (kept script).length = lcsLength (oldSide script) (newSide script))
    (hold : oldSide other = oldSide script) (hnew : newSide other = newSide script) :
    changes script ≤ changes other := by
  have hle := length_le_lcsLength (kept_sublist_old other) (kept_sublist_new other)
  have hscript := length_sides script
  have hother := length_sides other
  rw [hold, hnew] at hle hother
  omega

end

structure Hunk (α : Type) where
  oldStart : Nat
  oldCount : Nat
  newStart : Nat
  newCount : Nat
  lines : List (Edit α)
  deriving DecidableEq

def placeOf (start count : Nat) : Nat := if count = 0 then start else start - 1

def Hunk.oldPlace (hunk : Hunk α) : Nat := placeOf hunk.oldStart hunk.oldCount

def Hunk.newPlace (hunk : Hunk α) : Nat := placeOf hunk.newStart hunk.newCount

/-- The old lines with each hunk's new lines for its old ones, from the line `read` on; none
where a hunk does not fit. -/
def patch [DecidableEq α] (old : List α) (read : Nat) : List (Hunk α) → Option (List α)
  | [] => some (old.drop read)
  | hunk :: hunks =>
    if read ≤ hunk.oldPlace ∧ oldSide hunk.lines = (old.drop hunk.oldPlace).take hunk.oldCount then
      (patch old (hunk.oldPlace + hunk.oldCount) hunks).map fun behind =>
        (old.drop read).take (hunk.oldPlace - read) ++ newSide hunk.lines ++ behind
    else none

/-- What a hunk says of the two lists is so. -/
structure Hunk.Fits (old new : List α) (hunk : Hunk α) : Prop where
  oldCount : hunk.oldCount = (oldSide hunk.lines).length
  newCount : hunk.newCount = (newSide hunk.lines).length
  oldStart : 0 < hunk.oldCount → 0 < hunk.oldStart
  newStart : 0 < hunk.newCount → 0 < hunk.newStart
  oldLines : oldSide hunk.lines = (old.drop hunk.oldPlace).take hunk.oldCount
  newLines : newSide hunk.lines = (new.drop hunk.newPlace).take hunk.newCount
  context : ∀ before text behind, hunk.lines = before ++ .context text :: behind →
    old[hunk.oldPlace + (oldSide before).length]? = some text ∧
      new[hunk.newPlace + (newSide before).length]? = some text

/-- A unified diff of the old list into the new one, with as few changes as there can be. -/
structure UnifiedDiff [DecidableEq α] (old new : List α) (hunks : List (Hunk α)) : Prop where
  patches : patch old 0 hunks = some new
  hunk : ∀ hunk ∈ hunks, hunk.Fits old new
  ordered : hunks.Pairwise fun p q =>
    p.oldPlace + p.oldCount < q.oldPlace ∧ p.newPlace + p.newCount < q.newPlace
  least : ∀ script, oldSide script = old → newSide script = new →
    (hunks.map fun hunk => changes hunk.lines).sum ≤ changes script

structure Segment (α : Type) where
  gap : List (Edit α)
  body : List (Edit α)

def startOf (before body : Nat) : Nat := before + if body = 0 then 0 else 1

@[simp] theorem placeOf_startOf (before body : Nat) : placeOf (startOf before body) body = before := by
  unfold placeOf startOf
  split <;> simp

def hunkAfter (before body : List (Edit α)) : Hunk α where
  oldStart := startOf (oldSide before).length (oldSide body).length
  oldCount := (oldSide body).length
  newStart := startOf (newSide before).length (newSide body).length
  newCount := (newSide body).length
  lines := body

def hunksAfter (before : List (Edit α)) : List (Segment α) → List (Hunk α)
  | [] => []
  | segment :: segments =>
    hunkAfter (before ++ segment.gap) segment.body ::
      hunksAfter (before ++ segment.gap ++ segment.body) segments

def joined (tail : List (Edit α)) : List (Segment α) → List (Edit α)
  | [] => tail
  | segment :: segments => segment.gap ++ segment.body ++ joined tail segments

def Unchanged (script : List (Edit α)) : Prop := ∀ edit ∈ script, edit.isChange = false

@[simp] theorem hunkAfter_oldPlace (before body : List (Edit α)) :
    (hunkAfter before body).oldPlace = (oldSide before).length := placeOf_startOf _ _

@[simp] theorem hunkAfter_newPlace (before body : List (Edit α)) :
    (hunkAfter before body).newPlace = (newSide before).length := placeOf_startOf _ _

@[simp] theorem hunkAfter_oldCount (before body : List (Edit α)) :
    (hunkAfter before body).oldCount = (oldSide body).length := rfl

@[simp] theorem hunkAfter_newCount (before body : List (Edit α)) :
    (hunkAfter before body).newCount = (newSide body).length := rfl

@[simp] theorem hunkAfter_lines (before body : List (Edit α)) : (hunkAfter before body).lines = body := rfl

theorem startOf_pos (before : Nat) (h : 0 < body) : 0 < startOf before body := by
  rw [startOf, if_neg h.ne']
  exact Nat.succ_pos before

theorem hunkAfter_fits (before body behind : List (Edit α)) :
    (hunkAfter before body).Fits (oldSide (before ++ body ++ behind)) (newSide (before ++ body ++ behind)) where
  oldCount := rfl
  newCount := rfl
  oldStart h := startOf_pos _ h
  newStart h := startOf_pos _ h
  oldLines := by simp
  newLines := by simp
  context inner text rest h := by
    obtain rfl : body = inner ++ .context text :: rest := h
    simp

theorem mem_hunksAfter (before tail : List (Edit α)) {segments : List (Segment α)} {hunk : Hunk α}
    (h : hunk ∈ hunksAfter before segments) :
    ∃ front body behind, hunk = hunkAfter front body ∧
      before ++ joined tail segments = front ++ body ++ behind ∧
      (oldSide before).length ≤ (oldSide front).length ∧ (newSide before).length ≤ (newSide front).length := by
  induction segments generalizing before with
  | nil => cases h
  | cons segment segments ih =>
    rcases List.mem_cons.mp h with rfl | h
    · exact ⟨before ++ segment.gap, segment.body, joined tail segments, rfl, by simp [joined], by simp, by simp⟩
    · obtain ⟨front, body, behind, rfl, hjoined, hold, hnew⟩ := ih _ h
      refine ⟨front, body, behind, rfl, by simpa [joined] using hjoined, ?_, ?_⟩
      · simp only [oldSide_append, List.length_append] at hold
        omega
      · simp only [newSide_append, List.length_append] at hnew
        omega

theorem hunksAfter_ordered (before : List (Edit α)) (segment : Segment α) (segments : List (Segment α))
    (hgaps : ∀ segment ∈ segments, Unchanged segment.gap ∧ segment.gap ≠ []) :
    (hunksAfter before (segment :: segments)).Pairwise fun p q =>
      p.oldPlace + p.oldCount < q.oldPlace ∧ p.newPlace + p.newCount < q.newPlace := by
  induction segments generalizing before segment with
  | nil => exact List.pairwise_singleton _ _
  | cons next segments ih =>
    obtain ⟨⟨hgap, hne⟩, hrest⟩ := List.forall_mem_cons.mp hgaps
    obtain ⟨hsame, hlength, -⟩ := sides_of_unchanged hgap
    have hpos := List.length_pos_of_ne_nil hne
    refine List.pairwise_cons.mpr ⟨fun q hq => ?_, ih _ next hrest⟩
    obtain ⟨front, body, -, rfl, -, hold, hnew⟩ : ∃ front body behind, q = hunkAfter front body ∧
        before ++ segment.gap ++ segment.body ++ next.gap ++ joined [] (⟨[], next.body⟩ :: segments) =
          front ++ body ++ behind ∧
        (oldSide (before ++ segment.gap ++ segment.body ++ next.gap)).length ≤ (oldSide front).length ∧
        (newSide (before ++ segment.gap ++ segment.body ++ next.gap)).length ≤ (newSide front).length :=
      mem_hunksAfter _ [] (by simpa [hunksAfter] using hq)
    simp only [oldSide_append, newSide_append, List.length_append] at hold hnew
    simp only [hunkAfter_oldPlace, hunkAfter_newPlace, oldSide_append, newSide_append, List.length_append]
    simp only [hunkAfter_oldCount, hunkAfter_newCount]
    rw [← hsame] at hnew
    omega

theorem changes_hunksAfter (before tail : List (Edit α)) (segments : List (Segment α))
    (hgaps : ∀ segment ∈ segments, Unchanged segment.gap) (htail : Unchanged tail) :
    ((hunksAfter before segments).map fun hunk => changes hunk.lines).sum = changes (joined tail segments) := by
  induction segments generalizing before with
  | nil => simp [hunksAfter, joined, (sides_of_unchanged htail).2.2]
  | cons segment segments ih =>
    obtain ⟨hgap, hrest⟩ := List.forall_mem_cons.mp hgaps
    simp [hunksAfter, joined, ih _ hrest, (sides_of_unchanged hgap).2.2]

section

variable [DecidableEq α]

theorem patch_hunksAfter (before tail : List (Edit α)) (segments : List (Segment α))
    (hgaps : ∀ segment ∈ segments, Unchanged segment.gap) (htail : Unchanged tail) :
    patch (oldSide (before ++ joined tail segments)) (oldSide before).length (hunksAfter before segments) =
      some (newSide (joined tail segments)) := by
  induction segments generalizing before with
  | nil => simp [hunksAfter, joined, patch, (sides_of_unchanged htail).1]
  | cons segment segments ih =>
    obtain ⟨hgap, hrest⟩ := List.forall_mem_cons.mp hgaps
    have hbehind := ih (before ++ segment.gap ++ segment.body) hrest
    have hsame := (sides_of_unchanged hgap).1
    have hplace : (hunkAfter (before ++ segment.gap) segment.body).oldPlace +
        (hunkAfter (before ++ segment.gap) segment.body).oldCount =
        (oldSide (before ++ segment.gap ++ segment.body)).length := by
      simp [Nat.add_assoc]
    rw [hunksAfter, joined, patch, hplace]
    rw [show before ++ (segment.gap ++ segment.body ++ joined tail segments) =
      before ++ segment.gap ++ segment.body ++ joined tail segments by simp, hbehind]
    rw [if_pos (by simp)]
    simp [hsame]

/-- The parts of a script that keeps a longest common subsequence, with nothing changed between
them, are a unified diff of its two sides. -/
theorem unifiedDiff_of_segments (tail : List (Edit α)) (segments : List (Segment α))
    (hkept : (kept (joined tail segments)).length =
      lcsLength (oldSide (joined tail segments)) (newSide (joined tail segments)))
    (hgaps : ∀ segment ∈ segments, Unchanged segment.gap) (htail : Unchanged tail)
    (hapart : ∀ segment ∈ segments.tail, segment.gap ≠ []) :
    UnifiedDiff (oldSide (joined tail segments)) (newSide (joined tail segments)) (hunksAfter [] segments) where
  patches := patch_hunksAfter [] tail segments hgaps htail
  hunk hunk h := by
    obtain ⟨front, body, behind, rfl, hjoined, -⟩ := mem_hunksAfter [] tail h
    rw [← List.nil_append (joined tail segments), hjoined]
    exact hunkAfter_fits front body behind
  ordered := by
    cases segments with
    | nil => exact .nil
    | cons segment segments =>
      exact hunksAfter_ordered [] segment segments fun s hs =>
        ⟨hgaps s (List.mem_cons_of_mem _ hs), hapart s hs⟩
  least script hold hnew := by
    rw [changes_hunksAfter [] tail segments hgaps htail]
    exact changes_le hkept hold hnew

end

end EditScript

end Catalyst.Library
