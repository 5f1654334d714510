import Mathlib
import Catalyst.Skills.Headings

/-!
# Where a section ends

The scanner's headings are those of CommonMark when at each line that reads as a heading the scanner
and CommonMark have a fenced block open or both have none. A section then ends where its next
heading begins.
-/

namespace Catalyst.Skills

open Library

variable {headings : List Heading} {found next : Heading} {label : Text} {length place : Nat}

def OnlyNamed (headings : List Heading) (label : Text) (found : Heading) : Prop :=
  found ∈ headings ∧ found.text = label ∧ ∀ other ∈ headings, other.text = label → other = found

def Heading.Closes (next found : Heading) : Prop := found.index < next.index ∧ next.level ≤ found.level

instance : Decidable (Heading.Closes next found) := inferInstanceAs (Decidable (_ ∧ _))

def EndsAt (headings : List Heading) (length : Nat) (found : Heading) (place : Nat) : Prop :=
  (∃ next ∈ headings, next.Closes found ∧ place = next.index ∧
    ∀ other ∈ headings, other.Closes found → next.index ≤ other.index) ∨
  ((∀ other ∈ headings, ¬ other.Closes found) ∧ place = length)

theorem find_closes_iff (hordered : headings.Pairwise (·.index < ·.index)) :
    ((headings.find? fun h => h.Closes found).map (·.index)).getD length = place ↔
      EndsAt headings length found place := by
  cases hfind : headings.find? fun h => h.Closes found with
  | none =>
    have hnone : ∀ other ∈ headings, ¬ other.Closes found := by simpa using hfind
    constructor
    · rintro rfl
      exact .inr ⟨hnone, rfl⟩
    · rintro (⟨next, hnext, hcloses, -⟩ | ⟨-, rfl⟩)
      · exact absurd hcloses (hnone next hnext)
      · rfl
  | some next =>
    obtain ⟨hcloses, front, behind, rfl, hfront⟩ := List.find?_eq_some_iff_append.mp hfind
    have hcloses : next.Closes found := by simpa using hcloses
    have hleast : ∀ other ∈ front ++ next :: behind, other.Closes found → next.index ≤ other.index := by
      intro other hother hcloses'
      rcases List.mem_append.mp hother with hother | hother
      · exact absurd hcloses' (by simpa using hfront other hother)
      · rcases List.mem_cons.mp hother with rfl | hother
        · exact Nat.le_refl _
        · exact Nat.le_of_lt ((List.pairwise_cons.mp (List.pairwise_append.mp hordered).2.1).1 other hother)
    have hmem : next ∈ front ++ next :: behind := by simp
    constructor
    · rintro rfl
      exact .inl ⟨next, hmem, hcloses, rfl, hleast⟩
    · rintro (⟨other, hother, hcloses', rfl, hleast'⟩ | ⟨hnone, -⟩)
      · exact Nat.le_antisymm (hleast other hother hcloses') (hleast' next hmem hcloses)
      · exact absurd hcloses (hnone next hmem)

theorem filter_eq_singleton_iff (hordered : headings.Pairwise (·.index < ·.index)) :
    headings.filter (·.text = label) = [found] ↔ OnlyNamed headings label found := by
  have hmem : ∀ other, other ∈ headings.filter (·.text = label) ↔ other ∈ headings ∧ other.text = label := by
    simp
  constructor
  · intro heq
    rw [heq] at hmem
    obtain ⟨hfound, hlabel⟩ := (hmem found).mp List.mem_cons_self
    exact ⟨hfound, hlabel, fun other hother htext => List.mem_singleton.mp ((hmem other).mpr ⟨hother, htext⟩)⟩
  · rintro ⟨hfound, hlabel, honly⟩
    have hfound := (hmem found).mpr ⟨hfound, hlabel⟩
    have hall : ∀ other ∈ headings.filter (·.text = label), other = found := fun other hother =>
      honly other ((hmem other).mp hother).1 ((hmem other).mp hother).2
    have hpairwise := hordered.filter (·.text = label)
    generalize headings.filter (·.text = label) = named at hfound hall hpairwise
    cases named with
    | nil => cases hfound
    | cons a named =>
      obtain rfl := hall a List.mem_cons_self
      cases named with
      | nil => rfl
      | cons b named =>
        obtain rfl := hall b (by simp)
        exact absurd ((List.pairwise_cons.mp hpairwise).1 b List.mem_cons_self) (Nat.lt_irrefl _)

def headingAt (offset : Nat) (line : Text) : List Heading :=
  ((atxHeading line).map fun found => Heading.mk found.1 found.2 offset).toList

theorem headingAt_index (h : found ∈ headingAt offset line) : found.index = offset := by
  obtain ⟨pair, -, rfl⟩ := Option.map_eq_some_iff.mp (Option.mem_toList.mp h)
  rfl

theorem scanHeadings_cons (offset : Nat) (fence : Option Fence) (line : Text) (lines : List Text) :
    scanHeadings offset fence (line :: lines) =
      (if (fenceMarker line).isNone ∧ fence.isNone then headingAt offset line else []) ++
      scanHeadings (offset + line.length) (scanFence fence line) lines := by
  rw [scanHeadings, headingAt]
  split
  · cases atxHeading line <;> rfl
  · rfl

theorem headingsOutside_cons (offset : Nat) (fence : Option Fence) (line : Text) (lines : List Text) :
    headingsOutside offset fence (line :: lines) =
      (if fence.isNone then headingAt offset line else []) ++
      headingsOutside (offset + line.length) (blockFence fence line) lines := by
  cases fence <;> cases hatx : atxHeading line <;> simp [headingsOutside, headingAt, hatx]

theorem atxHeading_isSome {line : Text} (h : (atxHeading line).isSome) :
    ∃ spaces rest, line = spaces ++ '#' :: rest ∧ ∀ c ∈ spaces, c = ' ' := by
  have hsplit := List.takeWhile_append_dropWhile (p := fun c => decide (c = ' ')) (l := line)
  simp only [atxHeading] at h
  split_ifs at h with hcond
  · obtain ⟨-, hlevel, -⟩ := hcond
    generalize line.dropWhile (fun c => decide (c = ' ')) = marks at *
    cases marks with
    | nil => exact absurd hlevel (by simp)
    | cons c rest =>
      by_cases hc : c = '#'
      · subst hc
        exact ⟨_, rest, hsplit.symm, fun c hc => by simpa using List.mem_takeWhile_imp hc⟩
      · simp [hc] at hlevel
  · cases h

theorem fenceMarker_of_atxHeading {line : Text} (h : (atxHeading line).isSome) : fenceMarker line = none := by
  obtain ⟨spaces, rest, rfl, hspaces⟩ := atxHeading_isSome h
  have hdrop : (spaces ++ '#' :: rest).dropWhile Js.isWhitespace = '#' :: rest := by
    rw [List.dropWhile_append_of_pos fun c hc => by rw [hspaces c hc]; decide]
    exact List.dropWhile_cons_of_neg (by decide)
  have hrun : fenceRun ('#' :: rest) = none := by simp [fenceRun]
  simp [fenceMarker, hdrop, hrun]

theorem scanHeadings_index (h : found ∈ scanHeadings offset fence lines) : offset ≤ found.index := by
  induction lines generalizing offset fence with
  | nil => cases h
  | cons line lines ih =>
    rw [scanHeadings_cons] at h
    rcases List.mem_append.mp h with h | h
    · split_ifs at h
      · exact Nat.le_of_eq (headingAt_index h).symm
      · cases h
    · exact Nat.le_trans (Nat.le_add_right _ _) (ih h)

theorem headingsOutside_index (h : found ∈ headingsOutside offset fence lines) : offset ≤ found.index := by
  induction lines generalizing offset fence with
  | nil => cases h
  | cons line lines ih =>
    rw [headingsOutside_cons] at h
    rcases List.mem_append.mp h with h | h
    · split_ifs at h
      · exact Nat.le_of_eq (headingAt_index h).symm
      · cases h
    · exact Nat.le_trans (Nat.le_add_right _ _) (ih h)

theorem linesOf_pos (hmem : line ∈ linesOf content) : 0 < line.length := by
  induction content generalizing line with
  | nil => cases hmem
  | cons c rest ih =>
    rw [linesOf] at hmem
    split_ifs at hmem
    · rcases List.mem_cons.mp hmem with rfl | hmem
      · exact Nat.one_pos
      · exact ih hmem
    · split at hmem
      · rw [List.mem_singleton.mp hmem]
        exact Nat.one_pos
      · rename_i first lines heq
        rcases List.mem_cons.mp hmem with rfl | hmem
        · exact Nat.succ_pos _
        · exact ih (heq ▸ List.mem_cons_of_mem _ hmem)

theorem headingsOutside_ordered (hpos : ∀ line ∈ lines, 0 < line.length) (offset : Nat) (fence : Option Fence) :
    (headingsOutside offset fence lines).Pairwise (·.index < ·.index) := by
  induction lines generalizing offset fence with
  | nil => exact List.Pairwise.nil
  | cons line lines ih =>
    obtain ⟨hline, hpos⟩ := List.forall_mem_cons.mp hpos
    rw [headingsOutside_cons]
    refine List.pairwise_append.mpr ⟨?_, ih hpos _ _, fun a ha b hb => ?_⟩
    · split_ifs
      · exact Option.pairwise_toList
      · exact List.Pairwise.nil
    · have hb := headingsOutside_index hb
      split_ifs at ha
      · have ha := headingAt_index ha
        omega
      · cases ha

def AgreeFrom (fence block : Option Fence) : List Text → Prop
  | [] => True
  | line :: lines => ((atxHeading line).isSome → fence.isNone = block.isNone) ∧
      AgreeFrom (scanFence fence line) (blockFence block line) lines

def FencesAgree (content : Text) : Prop := AgreeFrom none none (linesOf content)

theorem scanHeadings_eq_iff (offset : Nat) (hpos : ∀ line ∈ lines, 0 < line.length) :
    scanHeadings offset fence lines = headingsOutside offset block lines ↔ AgreeFrom fence block lines := by
  induction lines generalizing offset fence block with
  | nil => exact iff_of_true rfl trivial
  | cons line lines ih =>
    obtain ⟨hline, hpos⟩ := List.forall_mem_cons.mp hpos
    rw [AgreeFrom, ← ih (offset + line.length) hpos, scanHeadings_cons, headingsOutside_cons]
    cases hatx : atxHeading line with
    | none => simp [headingAt, hatx]
    | some pair =>
      rw [fenceMarker_of_atxHeading (hatx ▸ rfl)]
      -- What one of the two takes here the other does not take later.
      have hscan : (Heading.mk pair.1 pair.2 offset) ∉
          scanHeadings (offset + line.length) (scanFence fence line) lines := fun hmem => by
        have := scanHeadings_index hmem
        dsimp only at this
        omega
      have hblock : (Heading.mk pair.1 pair.2 offset) ∉
          headingsOutside (offset + line.length) (blockFence block line) lines := fun hmem => by
        have := headingsOutside_index hmem
        dsimp only at this
        omega
      cases fence <;> cases block <;> simp only [headingAt, hatx, Option.map_some, Option.toList_some,
        Option.isNone_none, Option.isNone_some, Option.isSome_some, and_true, true_and, and_false, if_true,
        if_false, List.nil_append, List.cons_append, List.cons.injEq, true_implies, Bool.false_eq_true,
        Bool.true_eq_false, false_and, iff_false]
      · exact fun heq => hblock (heq ▸ List.mem_cons_self)
      · exact fun heq => hscan (heq ▸ List.mem_cons_self)

theorem headingsOf_eq_iff (content : Text) : headingsOf content = markdownHeadings content ↔ FencesAgree content :=
  scanHeadings_eq_iff 0 fun _ => linesOf_pos

theorem sectionEnd_ok_iff (hagree : FencesAgree content) (heading : Text) :
    sectionEnd content heading = .ok place ↔
      ∃ found, OnlyNamed (markdownHeadings content) (headingLabel heading) found ∧
        EndsAt (markdownHeadings content) content.length found place := by
  have hordered : (markdownHeadings content).Pairwise (·.index < ·.index) :=
    headingsOutside_ordered (fun _ => linesOf_pos) 0 none
  simp only [sectionEnd, (headingsOf_eq_iff content).mpr hagree]
  constructor
  · intro h
    split at h
    · cases h
    · rename_i found heq
      obtain rfl := Except.ok.inj h
      exact ⟨found, (filter_eq_singleton_iff hordered).mp heq, (find_closes_iff hordered).mp rfl⟩
    · cases h
  · rintro ⟨found, honly, hends⟩
    rw [(filter_eq_singleton_iff hordered).mpr honly]
    exact congrArg Except.ok ((find_closes_iff hordered).mpr hends)

end Catalyst.Skills
