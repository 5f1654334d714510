import Mathlib
import Catalyst.Library.Check
import Catalyst.Skills.Paragraphs
import Catalyst.Skills.Sections

/-!
# What the operations of a change do

Each operation changes the text it names and no other. A replacement exchanges the one occurrence of
its text, an appended text goes to the end of its section, and the preview shows the paragraphs
around a replacement.
-/

namespace Catalyst.Skills

open Library Library.Check

variable {lower : LowerCase} {skill changed final : SkillConfig} {target : SkillChangeTarget}
  {operation : SkillChangeOperation} {operations : List SkillChangeOperation}
  {shown : List SkillChangePreviewChange} {before after oldText newText text : Text}

-- -----------------
-- Occurrences
-- -----------------

def OccursAt (needle text : Text) (i : Nat) : Prop := needle <+: text.drop i

def OnlyAt (needle text : Text) (i : Nat) : Prop :=
  OccursAt needle text i ∧ ∀ j, OccursAt needle text j → j = i

theorem OccursAt.length_le (h : OccursAt needle text i) (hne : needle ≠ []) : i + needle.length ≤ text.length := by
  have hle := List.IsPrefix.length_le h
  have hpos := List.length_pos_iff.mpr hne
  rw [List.length_drop] at hle
  omega

theorem OccursAt.split (h : OccursAt needle text i) :
    text = text.take i ++ needle ++ text.drop (i + needle.length) := by
  obtain ⟨behind, hbehind⟩ := h
  have hdrop : text.drop (i + needle.length) = behind := by
    rw [← List.drop_drop, ← hbehind, List.drop_left]
  rw [hdrop, List.append_assoc, hbehind, List.take_append_drop]

theorem indexOf_eq_some (hne : needle ≠ []) (h : indexOf needle text = some i) :
    OccursAt needle text i ∧ ∀ j < i, ¬ OccursAt needle text j := by
  induction text generalizing i with
  | nil => simp [indexOf, hne] at h
  | cons c rest ih =>
    rw [indexOf] at h
    split_ifs at h with hstart
    · obtain rfl := Option.some.inj h
      exact ⟨List.isPrefixOf_iff_prefix.mp hstart, fun j hj => absurd hj (Nat.not_lt_zero j)⟩
    · obtain ⟨i, hi, rfl⟩ := Option.map_eq_some_iff.mp h
      obtain ⟨hoccurs, hleast⟩ := ih hi
      refine ⟨hoccurs, fun j hj => ?_⟩
      cases j with
      | zero => exact fun h => hstart (List.isPrefixOf_iff_prefix.mpr h)
      | succ j => exact hleast j (Nat.lt_of_succ_lt_succ hj)

theorem indexOf_eq_none (hne : needle ≠ []) (h : indexOf needle text = none) (j : Nat) :
    ¬ OccursAt needle text j := by
  induction text generalizing j with
  | nil => simpa [OccursAt] using hne
  | cons c rest ih =>
    rw [indexOf] at h
    split_ifs at h with hstart
    cases j with
    | zero => exact fun h => hstart (List.isPrefixOf_iff_prefix.mpr h)
    | succ j => exact ih (Option.map_eq_none_iff.mp h) j

theorem indexOfFrom_isSome (hne : needle ≠ []) :
    (indexOfFrom needle text start).isSome ↔ ∃ j, start ≤ j ∧ OccursAt needle text j := by
  rw [indexOfFrom, Option.isSome_map]
  constructor
  · intro h
    obtain ⟨i, hi⟩ := Option.isSome_iff_exists.mp h
    have hoccurs := (indexOf_eq_some hne hi).1
    rw [OccursAt, List.drop_drop] at hoccurs
    exact ⟨start + i, Nat.le_add_right _ _, hoccurs⟩
  · rintro ⟨j, hle, hj⟩
    by_contra hnone
    refine indexOf_eq_none hne (Option.not_isSome_iff_eq_none.mp hnone) (j - start) ?_
    rwa [OccursAt, List.drop_drop, Nat.add_sub_cancel' hle]

def exchanged (oldText newText before : Text) (i : Nat) : Text :=
  before.take i ++ newText ++ before.drop (i + oldText.length)

def replaceShown (target : SkillChangeTarget) (oldText newText before : Text) (i : Nat) :
    SkillChangePreviewChange :=
  let bounds := paragraphBounds before i (i + oldText.length)
  .replace target (sliceText before bounds.1 bounds.2)
    (sliceText (exchanged oldText newText before i) bounds.1 (bounds.2 + newText.length - oldText.length))

theorem replaceIn_ok_iff (hne : oldText ≠ []) {outcome : Text × SkillChangePreviewChange} :
    replaceIn target oldText newText before = .ok outcome ↔ ∃ i, OnlyAt oldText before i ∧
      outcome = (exchanged oldText newText before i, replaceShown target oldText newText before i) := by
  rw [replaceIn]
  cases hindex : indexOf oldText before with
  | none =>
    refine iff_of_false (fun h => by cases h) ?_
    rintro ⟨i, honly, -⟩
    exact indexOf_eq_none hne hindex i honly.1
  | some index =>
    obtain ⟨hoccurs, hleast⟩ := indexOf_eq_some hne hindex
    simp only
    split_ifs with hagain
    · refine iff_of_false (fun h => by cases h) ?_
      rintro ⟨i, honly, -⟩
      obtain ⟨j, hlt, hj⟩ := (indexOfFrom_isSome hne).mp hagain
      have := honly.2 j hj
      have := honly.2 index hoccurs
      omega
    · have honly : OnlyAt oldText before index := by
        refine ⟨hoccurs, fun j hj => ?_⟩
        have hnotless : ¬ j < index := fun hlt => hleast j hlt hj
        have hnotmore : ¬ index + 1 ≤ j := fun hlt => hagain ((indexOfFrom_isSome hne).mpr ⟨j, hlt, hj⟩)
        omega
      constructor
      · intro h
        exact ⟨index, honly, (Except.ok.inj h).symm⟩
      · rintro ⟨i, honly', rfl⟩
        obtain rfl := honly.2 i honly'.1
        rfl

inductive TextChanged (skill : SkillConfig) (before after : Text) : SkillChangeTarget → SkillConfig → Prop
  | root (hbefore : skill.content = before) :
    TextChanged skill before after .root { skill with content := after }
  | resource {resource : SkillResource} {front behind : List SkillResource}
    (hresources : skill.resources = some (front ++ resource :: behind))
    (hfirst : ∀ other ∈ front, other.path ≠ resource.path) (hbefore : resource.content = before) :
    TextChanged skill before after (.resource resource.path)
      { skill with resources := some (front ++ { resource with content := after } :: behind) }

/-- The one occurrence of a text is exchanged, and the paragraphs around it in the old and in the
new text are shown. -/
def Replaced (target : SkillChangeTarget) (oldText newText before after : Text)
    (shown : List SkillChangePreviewChange) : Prop :=
  ∃ front behind start stop stop',
    before = front ++ oldText ++ behind ∧ after = front ++ newText ++ behind ∧
    OnlyAt oldText before front.length ∧
    Around before front.length (front.length + oldText.length) start stop ∧
    Around after front.length (front.length + newText.length) start stop' ∧
    shown = [.replace target (sliceText before start stop) (sliceText after start stop')]

def AppendPlace (heading : Option Text) (before : Text) (place : Nat) : Prop :=
  match heading with
  | none => place = before.length
  | some heading => ∃ found, OnlyNamed (markdownHeadings before) (headingLabel heading) found ∧
      EndsAt (markdownHeadings before) before.length found place

def Appended (target : SkillChangeTarget) (heading : Option Text) (text before after : Text)
    (shown : List SkillChangePreviewChange) : Prop :=
  ∃ place gap gap', AppendPlace heading before place ∧
    after = before.take place ++ gap ++ text ++ gap' ++ before.drop place ∧
    (∀ c ∈ gap ++ gap', c = '\n') ∧ shown = [.add target heading text]

/-- What an operation is to do with a skill. -/
def StepFaithful (lower : LowerCase) (skill : SkillConfig) (operation : SkillChangeOperation) : Prop :=
  match operation with
  | .createSkill _ _ _ _ => applyOperation lower skill operation = .ok (skill, [])
  | .createResource path content =>
    ∀ changed shown, applyOperation lower skill operation = .ok (changed, shown) →
      (∀ resource ∈ skill.resources.getD [], lower resource.path ≠ lower path) ∧
      ∃ mediaType, changed =
        { skill with resources := some (skill.resources.getD [] ++ [⟨path, mediaType, content⟩]) } ∧
        shown = [.newResource path content]
  | .replaceText target oldText newText =>
    ((∃ outcome, applyOperation lower skill operation = .ok outcome) ↔
      ∃ before i, skill.textOf target = some before ∧ OnlyAt oldText before i) ∧
    ∀ changed shown, applyOperation lower skill operation = .ok (changed, shown) →
      ∃ before after, TextChanged skill before after target changed ∧
        Replaced target oldText newText before after shown
  | .appendText target heading text =>
    (∀ before, skill.textOf target = some before → heading.isSome →
      headingsOf before = markdownHeadings before) ∧
    ((∃ outcome, applyOperation lower skill operation = .ok outcome) ↔
      ∃ before place, skill.textOf target = some before ∧ AppendPlace heading before place) ∧
    ∀ changed shown, applyOperation lower skill operation = .ok (changed, shown) →
      ∃ before after, TextChanged skill before after target changed ∧
        Appended target heading text before after shown

/-- When it does so: no paragraph break behind a replaced text is hidden by one that the text ends in,
and in a text with sections no heading's line is read with the fences apart. -/
def StepClear (skill : SkillConfig) : SkillChangeOperation → Prop
  | .replaceText target oldText _ => ∀ before i, skill.textOf target = some before →
      OnlyAt oldText before i → NoneHidden before (i + oldText.length)
  | .appendText target (some _) _ => ∀ before, skill.textOf target = some before → FencesAgree before
  | _ => True

-- -----------------
-- One operation
-- -----------------

theorem setFirst_append {front behind : List SkillResource} {resource : SkillResource}
    (h : ∀ other ∈ front, other.path ≠ resource.path) (content : Text) :
    setFirst resource.path content (front ++ resource :: behind) =
      front ++ { resource with content := content } :: behind := by
  induction front with
  | nil => simp [setFirst]
  | cons other front ih =>
    obtain ⟨hother, hfront⟩ := List.forall_mem_cons.mp h
    simp [setFirst, hother, ih hfront]

theorem withText_changed (h : skill.textOf target = some before) (after : Text) :
    TextChanged skill before after target (skill.withText after target) := by
  cases target with
  | root => exact .root (Option.some.inj h)
  | resource path =>
    obtain ⟨resource, hfind, rfl⟩ := Option.map_eq_some_iff.mp h
    obtain ⟨hpath, front, behind, heq, hfront⟩ := List.find?_eq_some_iff_append.mp hfind
    obtain rfl : resource.path = path := by simpa using hpath
    have hresources : skill.resources = some (front ++ resource :: behind) := by
      cases hskill : skill.resources with
      | none => simp [hskill] at heq
      | some resources => rw [← heq, hskill, Option.getD_some]
    have hfirst : ∀ other ∈ front, other.path ≠ resource.path := fun other hother => by
      simpa using hfront other hother
    simp only [SkillConfig.withText, hresources, Option.map_some, setFirst_append hfirst]
    exact .resource hresources hfirst rfl

theorem changeText_ok {change : Text → Except SkillChangeFailure (Text × SkillChangePreviewChange)} :
    changeText skill target change = .ok (changed, shown) ↔ ∃ before after one,
      skill.textOf target = some before ∧ change before = .ok (after, one) ∧
      changed = skill.withText after target ∧ shown = [one] := by
  cases htext : skill.textOf target with
  | none => cases target <;> simp [changeText, htext]
  | some before =>
    have heq : changeText skill target change = (change before >>= fun outcome =>
        pure (skill.withText outcome.1 target, [outcome.2])) := by
      cases target <;> simp only [changeText, htext]
    rw [heq]
    constructor
    · intro h
      obtain ⟨outcome, hchange, h⟩ := bind_ok.mp h
      obtain ⟨rfl, rfl⟩ := Prod.mk.inj (pure_ok.mp h)
      exact ⟨before, outcome.1, outcome.2, rfl, hchange, rfl, rfl⟩
    · rintro ⟨_, after, one, heq, hchange, rfl, rfl⟩
      obtain rfl := Option.some.inj heq
      exact bind_ok.mpr ⟨(after, one), hchange, rfl⟩

theorem OccursAt.of_slice (h : OccursAt needle (sliceText text start stop) i) :
    OccursAt needle text (start + i) := by
  rw [OccursAt, sliceText, List.drop_drop] at h
  exact h.trans (List.IsPrefix.drop (List.take_prefix stop text) (start + i))

theorem OccursAt.in_slice (h : OccursAt needle text i) (hstart : start ≤ i) (hstop : i + needle.length ≤ stop) :
    OccursAt needle (sliceText text start stop) (i - start) := by
  rw [OccursAt, sliceText, List.drop_drop, Nat.add_sub_cancel' hstart, List.drop_take]
  exact List.prefix_take_iff.mpr ⟨h, by omega⟩

theorem OnlyAt.slice_inj (h : OnlyAt needle text i) (hstart : start ≤ i) (hstop : i + needle.length ≤ stop)
    (hlast : stop ≤ text.length) (hstart' : start' ≤ i) (hlast' : stop' ≤ text.length)
    (heq : sliceText text start stop = sliceText text start' stop') (hne : i < stop') :
    start = start' ∧ stop = stop' := by
  have hplace := h.2 _ (heq ▸ h.1.in_slice hstart hstop).of_slice
  have hlength := congrArg List.length heq
  simp only [sliceText, List.length_drop, List.length_take] at hlength
  omega

theorem replaced_iff (hne : oldText ≠ []) (honly : OnlyAt oldText before i) :
    Replaced target oldText newText before (exchanged oldText newText before i)
      [replaceShown target oldText newText before i] ↔ NoneHidden before (i + oldText.length) := by
  have hlast := honly.1.length_le hne
  have hpos := List.length_pos_iff.mpr hne
  have hbounds := paragraphBounds_around_iff before (Nat.le_add_right i oldText.length) hlast
  obtain ⟨hstart', hstop', hlast'⟩ := paragraphBounds_le before (Nat.le_add_right i oldText.length) hlast
  rw [← hbounds, replaceShown]
  generalize paragraphBounds before i (i + oldText.length) = bounds at *
  constructor
  · rintro ⟨front, behind, start, stop, stop', -, -, honly', haround, -, hshown⟩
    obtain rfl : front.length = i := honly.2 _ honly'.1
    obtain ⟨heq, -⟩ := by simpa using hshown
    obtain ⟨rfl, rfl⟩ := honly.slice_inj hstart' hstop' hlast' haround.start_le haround.le_stop.2 heq
      (Nat.lt_of_lt_of_le (Nat.lt_add_of_pos_right hpos) haround.le_stop.1)
    exact haround
  · intro haround
    have hfront : (before.take i).length = i := List.length_take_of_le (by omega)
    have hsplit := honly.1.split
    refine ⟨before.take i, before.drop (i + oldText.length), _, _, _, hsplit, rfl, ?_, ?_, ?_, rfl⟩
    · rwa [hfront]
    · rwa [hfront]
    · have haround : Around (before.take i ++ oldText ++ before.drop (i + oldText.length)) (before.take i).length
          ((before.take i).length + oldText.length) bounds.1 bounds.2 := by
        rwa [← hsplit, hfront]
      exact haround.exchange

theorem find?_path {front behind : List SkillResource} {resource : SkillResource} (hpath : resource.path = path)
    (hfirst : ∀ other ∈ front, other.path ≠ path) :
    (front ++ resource :: behind).find? (·.path = path) = some resource := by
  refine List.find?_eq_some_iff_append.mpr ⟨by simpa using hpath, front, behind, rfl, fun other hother => ?_⟩
  simpa using hfirst other hother

theorem TextChanged.textOf (h : TextChanged skill before after target changed) :
    skill.textOf target = some before ∧ changed.textOf target = some after := by
  cases h with
  | root hbefore => exact ⟨congrArg some hbefore, rfl⟩
  | @resource resource front behind hresources hfirst hbefore =>
    have hfind : (front ++ { resource with content := after } :: behind).find? (·.path = resource.path) =
        some { resource with content := after } := find?_path rfl hfirst
    refine ⟨?_, ?_⟩
    · rw [SkillConfig.textOf, hresources, Option.getD_some, find?_path rfl hfirst, Option.map_some, hbefore]
    · rw [SkillConfig.textOf, Option.getD_some, hfind, Option.map_some]

theorem replaceText_ok_iff (hne : oldText ≠ []) :
    applyOperation lower skill (.replaceText target oldText newText) = .ok (changed, shown) ↔
      ∃ before i, skill.textOf target = some before ∧ OnlyAt oldText before i ∧
        changed = skill.withText (exchanged oldText newText before i) target ∧
        shown = [replaceShown target oldText newText before i] := by
  rw [applyOperation, changeText_ok]
  constructor
  · rintro ⟨before, after, one, htext, hchange, rfl, rfl⟩
    obtain ⟨i, honly, heq⟩ := (replaceIn_ok_iff hne).mp hchange
    obtain ⟨rfl, rfl⟩ := Prod.mk.inj heq
    exact ⟨before, i, htext, honly, rfl, rfl⟩
  · rintro ⟨before, i, htext, honly, rfl, rfl⟩
    exact ⟨before, _, _, htext, (replaceIn_ok_iff hne).mpr ⟨i, honly, rfl⟩, rfl, rfl⟩

theorem replaceText_faithful_iff (hne : oldText ≠ []) :
    StepFaithful lower skill (.replaceText target oldText newText) ↔
      StepClear skill (.replaceText target oldText newText) := by
  constructor
  · rintro ⟨-, hfaithful⟩ before i htext honly
    obtain ⟨before', after, hchanged, hreplaced⟩ :=
      hfaithful _ _ ((replaceText_ok_iff hne).mpr ⟨before, i, htext, honly, rfl, rfl⟩)
    obtain rfl := Option.some.inj (htext.symm.trans hchanged.textOf.1)
    obtain rfl := Option.some.inj ((withText_changed htext _).textOf.2.symm.trans hchanged.textOf.2)
    exact (replaced_iff hne honly).mp hreplaced
  · intro hclear
    refine ⟨⟨?_, ?_⟩, fun changed shown h => ?_⟩
    · rintro ⟨⟨changed, shown⟩, h⟩
      obtain ⟨before, i, htext, honly, -⟩ := (replaceText_ok_iff hne).mp h
      exact ⟨before, i, htext, honly⟩
    · rintro ⟨before, i, htext, honly⟩
      exact ⟨_, (replaceText_ok_iff hne).mpr ⟨before, i, htext, honly, rfl, rfl⟩⟩
    · obtain ⟨before, i, htext, honly, rfl, rfl⟩ := (replaceText_ok_iff hne).mp h
      exact ⟨before, _, withText_changed htext _, (replaced_iff hne honly).mpr (hclear before i htext honly)⟩

theorem appendIndex_ok_iff {heading : Option Text} (hagree : heading.isSome → FencesAgree before) :
    appendIndex heading before = .ok place ↔ AppendPlace heading before place := by
  cases heading with
  | none => simp [appendIndex, AppendPlace, eq_comm]
  | some heading =>
    rw [AppendPlace, ← sectionEnd_ok_iff (hagree rfl), appendIndex]
    cases sectionEnd before heading <;> simp [Except.mapError]

theorem gapBehind_feeds (front : Text) : ∀ c ∈ gapBehind front, c = '\n' := by
  rw [gapBehind]
  split_ifs <;> simp

theorem appendText_ok_iff {heading : Option Text} :
    applyOperation lower skill (.appendText target heading text) = .ok (changed, shown) ↔
      ∃ before place, skill.textOf target = some before ∧ appendIndex heading before = .ok place ∧
        changed = skill.withText (before.take place ++ gapBehind (before.take place) ++ text ++
          (if before.drop place = [] then [] else ['\n', '\n']) ++ before.drop place) target ∧
        shown = [.add target heading text] := by
  rw [applyOperation, changeText_ok]
  constructor
  · rintro ⟨before, after, one, htext, hchange, rfl, rfl⟩
    obtain ⟨place, hplace, h⟩ := bind_ok.mp hchange
    obtain ⟨rfl, rfl⟩ := Prod.mk.inj (pure_ok.mp h)
    exact ⟨before, place, htext, hplace, rfl, rfl⟩
  · rintro ⟨before, place, htext, hplace, rfl, rfl⟩
    exact ⟨before, _, _, htext, bind_ok.mpr ⟨place, hplace, rfl⟩, rfl, rfl⟩

theorem appendText_faithful_iff {heading : Option Text} :
    StepFaithful lower skill (.appendText target heading text) ↔
      StepClear skill (.appendText target heading text) := by
  have hclear : StepClear skill (.appendText target heading text) ↔
      ∀ before, skill.textOf target = some before → heading.isSome → FencesAgree before := by
    cases heading <;> simp [StepClear]
  rw [hclear]
  constructor
  · rintro ⟨hheadings, -⟩ before htext hsome
    exact (headingsOf_eq_iff before).mp (hheadings before htext hsome)
  · intro hagree
    refine ⟨fun before htext hsome => (headingsOf_eq_iff before).mpr (hagree before htext hsome),
      ⟨?_, ?_⟩, fun changed shown h => ?_⟩
    · rintro ⟨⟨changed, shown⟩, h⟩
      obtain ⟨before, place, htext, hplace, -⟩ := appendText_ok_iff.mp h
      exact ⟨before, place, htext, (appendIndex_ok_iff (hagree before htext)).mp hplace⟩
    · rintro ⟨before, place, htext, hplace⟩
      exact ⟨_, appendText_ok_iff.mpr
        ⟨before, place, htext, (appendIndex_ok_iff (hagree before htext)).mpr hplace, rfl, rfl⟩⟩
    · obtain ⟨before, place, htext, hplace, rfl, rfl⟩ := appendText_ok_iff.mp h
      refine ⟨before, _, withText_changed htext _, place, _, _,
        (appendIndex_ok_iff (hagree before htext)).mp hplace, rfl, fun c hc => ?_, rfl⟩
      rcases List.mem_append.mp hc with hc | hc
      · exact gapBehind_feeds _ c hc
      · split_ifs at hc
        · cases hc
        · simpa using hc

theorem step_faithful_iff (hok : operationOk lower operation) :
    StepFaithful lower skill operation ↔ StepClear skill operation := by
  cases operation with
  | createSkill name title description content => exact iff_of_true rfl trivial
  | createResource path content =>
    refine iff_of_true (fun changed shown h => ?_) trivial
    rw [applyOperation] at h
    split_ifs at h with hexists
    split at h
    · cases h
    · obtain ⟨rfl, rfl⟩ := Prod.mk.inj (Except.ok.inj h)
      refine ⟨fun resource hmem heq => hexists ?_, _, rfl, rfl⟩
      exact List.any_eq_true.mpr ⟨resource, hmem, decide_eq_true heq⟩
  | replaceText target oldText newText =>
    have hne : oldText ≠ [] := by
      simp only [operationOk, Bool.and_eq_true, decide_eq_true_eq] at hok
      exact hok.1.1.2
    exact replaceText_faithful_iff hne
  | appendText target heading text => exact appendText_faithful_iff

def Meets (lower : LowerCase) (original : Option SkillConfig) (operations : List SkillChangeOperation)
    (skill : SkillConfig) (operation : SkillChangeOperation) : Prop :=
  operationsOk lower operations ∧ ∃ start front behind shown, startSkill original operations = .ok start ∧
    operations = front ++ operation :: behind ∧ runOperations lower start front = .ok (skill, shown)

/-- What a list of operations is to do: each operation its own, one after the other, all or none. -/
structure Faithful (lower : LowerCase) (original : Option SkillConfig)
    (operations : List SkillChangeOperation) : Prop where
  step : ∀ skill operation, Meets lower original operations skill operation →
    StepFaithful lower skill operation
  done : ∀ final preview, applySkillChange lower original operations = .ok final →
    createSkillChangePreview lower original operations = .ok preview →
      ∃ start, startSkill original operations = .ok start ∧
        runOperations lower start operations = .ok (final, preview.changes)
  refused : ∀ skill operation failure, Meets lower original operations skill operation →
    stepOperation lower skill operation = .error failure →
      ∃ failure', applySkillChange lower original operations = .error failure' ∧
        createSkillChangePreview lower original operations = .error failure'

theorem runOperations_error {front behind : List SkillChangeOperation} {failure : SkillChangeFailure}
    (hfront : runOperations lower start front = .ok (skill, shown))
    (hrefused : stepOperation lower skill operation = .error failure) :
    runOperations lower start (front ++ operation :: behind) = .error failure := by
  induction front generalizing start shown with
  | nil =>
    obtain ⟨rfl, rfl⟩ := Prod.mk.inj (Except.ok.inj hfront)
    simp [runOperations, hrefused, bind, Except.bind]
  | cons other front ih =>
    obtain ⟨⟨changed, shown'⟩, hother, h⟩ := bind_ok.mp hfront
    obtain ⟨⟨middle, shown''⟩, hrun, h⟩ := bind_ok.mp h
    obtain ⟨rfl, rfl⟩ := Prod.mk.inj (pure_ok.mp h)
    simp [runOperations, hother, ih hrun, bind, Except.bind]

theorem evaluate_ok {outcome : SkillConfig × SkillChangePreview}
    (h : evaluate lower original operations = .ok outcome) :
    ∃ start, startSkill original operations = .ok start ∧
      runOperations lower start operations = .ok (outcome.1, outcome.2.changes) := by
  rw [evaluate] at h
  split_ifs at h
  obtain ⟨start, hstart, h⟩ := bind_ok.mp h
  obtain ⟨⟨final, changes⟩, hrun, h⟩ := bind_ok.mp h
  simp only at h
  split at h
  · cases h
  · obtain rfl := pure_ok.mp h
    exact ⟨start, hstart, hrun⟩

namespace Example

def asciiLower : LowerCase := List.map Char.toLower

/-- `A` is the one heading, in front of a block that the last line closes. -/
def guide : SkillConfig :=
  { name := "guide".toList, title := "Guide".toList, description := "A guide.".toList,
    content := "# A\n```js\n``` x\n# B\n```\n".toList }

def appendUnderA : List SkillChangeOperation := [.appendText .root (some "A".toList) "More.".toList]

end Example

end Catalyst.Skills
