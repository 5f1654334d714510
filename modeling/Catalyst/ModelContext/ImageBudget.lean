import Catalyst.Library.JsText
import Catalyst.ModelContext.Messages
import Mathlib.Data.List.Infix
import Mathlib.Data.List.Nodup
import Mathlib.Data.List.ProdSigma
import Mathlib.Data.List.Perm.Basic
import Mathlib.Algebra.Order.Ring.Nat

/-!
# The images of a request

One request carries images up to a number of bytes. The images of the newest message of the user
are counted first, then every other one from the newest to the oldest; the first that does not fit
and all behind it are left out, and a line in their message says so. A part of a content is an
object of its own, so an image is told from another one by its place.
-/

namespace Catalyst.ModelContext

open Library

-- -----------------
-- Leaving images out of a content
-- -----------------

def visualContextLoadedHeader : String := "[Visual context loaded]"

def visualContextNotLoadedHeader : String :=
  "[Visual context not loaded: older images are not kept in model context. To see one again, repeat the " ++
    "tool call that produced it with the values below.]"

/-- `text.replace(pattern, "")` -/
def removeFirst (pattern : List Char) : List Char → List Char
  | [] => []
  | c :: rest => if pattern <+: c :: rest then (c :: rest).drop pattern.length else c :: removeFirst pattern rest

def trimEnd (text : List Char) : List Char := (text.reverse.dropWhile Js.isWhitespace).reverse

def ModelImage.reloadLabel? (shown : ModelImage) : Option String :=
  match shown.source with
  | some (.toolResult label) => some label
  | _ => none

def ModelImage.label? (shown : ModelImage) : Option String :=
  match shown.source with
  | some (.toolResult label) | some (.userAttachment label) => some label
  | none => none

def withoutLoaded (reloadable : List String) (text : String) : String :=
  let left := reloadable.foldl (fun text label => removeFirst ("\n- " ++ label).toList text) text.toList
  let header := visualContextLoadedHeader.toList
  String.ofList (if header <:+ left then trimEnd (left.take (left.length - header.length)) else left)

def createVisualArtifactSummary (labels : List String) : String :=
  "\n".intercalate (visualContextLoadedHeader :: labels.map ("- " ++ ·))

def notLoadedNote (reloadable : List String) : String :=
  "\n".intercalate (visualContextNotLoadedHeader :: reloadable.map ("- " ++ ·))

def leftOutNote (count : Nat) (names : List String) : String :=
  "[" ++ (if count = 1 then "1 image was" else s!"{count} images were") ++ " too large to include in the model input and " ++
    (if count = 1 then "was" else "were") ++ " left out" ++
    (if names = [] then "" else ": " ++ ", ".intercalate names) ++ ".]"

def numberedParts : ModelContent → List (ModelContentPart × Nat)
  | .text _ => []
  | .parts parts => parts.zipIdx

def numberedImages (content : ModelContent) : List (ModelImage × Nat) :=
  (numberedParts content).filterMap fun (part, number) => part.image?.map (·, number)

def omittedImages (content : ModelContent) (omitted : Nat → Bool) : List ModelImage :=
  ((numberedImages content).filter fun (_, number) => omitted number).map Prod.fst

def remainingImages (content : ModelContent) (omitted : Nat → Bool) : List ModelImage :=
  ((numberedImages content).filter fun (_, number) => !omitted number).map Prod.fst

def omissionNotes (images : List ModelImage) : List String :=
  let reloadable := images.filterMap (·.reloadLabel?)
  let other := images.filter fun shown => shown.reloadLabel?.isNone
  (if reloadable = [] then [] else [notLoadedNote reloadable]) ++
    if other = [] then [] else [leftOutNote other.length (other.filterMap (·.label?))]

def omitModelVisibleImages (content : ModelContent) (omitted : Nat → Bool) : ModelContent :=
  let images := omittedImages content omitted
  if images = [] then content
  else
    let reloadable := images.filterMap (·.reloadLabel?)
    let text := if reloadable = [] then modelContentText content else withoutLoaded reloadable (modelContentText content)
    let remaining := remainingImages content omitted
    let projectedText := "\n\n".intercalate ((text :: omissionNotes images).filter (· ≠ ""))
    if remaining = [] then .text projectedText else .parts (.text projectedText :: remaining.map .image)

def ModelMessage.content : ModelMessage → ModelContent
  | .system content | .user content | .assistant content _ | .tool content _ => content

def ModelMessage.withContent (content : ModelContent) : ModelMessage → ModelMessage
  | .system _ => .system content
  | .user _ => .user content
  | .assistant _ toolCalls => .assistant content toolCalls
  | .tool _ toolCallId => .tool content toolCallId

def ModelMessage.isUser : ModelMessage → Bool
  | .user _ => true
  | _ => false

structure PlacedImage where
  image : ModelImage
  message : Nat
  part : Nat
  deriving DecidableEq

def PlacedImage.place (placed : PlacedImage) : Nat × Nat := (placed.message, placed.part)

def PlacedImage.bytes (placed : PlacedImage) : Nat := placed.image.data.length

def placedImages (messages : List ModelMessage) : List PlacedImage :=
  messages.zipIdx.flatMap fun (message, index) =>
    (numberedImages message.content).map fun (shown, number) => ⟨shown, index, number⟩

def newestUserIndex (messages : List ModelMessage) : Option Nat :=
  ((messages.zipIdx.filter fun (message, _) => message.isUser).map Prod.snd).getLast?

def byPriority (messages : List ModelMessage) : List PlacedImage :=
  let newestFirst := (placedImages messages).reverse
  (newestFirst.filter fun placed => some placed.message = newestUserIndex messages).reverse ++
    newestFirst.filter fun placed => some placed.message ≠ newestUserIndex messages

def omittedFrom (remainingBytes : Nat) (exhausted : Bool) : List PlacedImage → List PlacedImage
  | [] => []
  | placed :: rest =>
    let exhausted := exhausted || remainingBytes < placed.bytes
    if exhausted then placed :: omittedFrom remainingBytes exhausted rest
    else omittedFrom (remainingBytes - placed.bytes) exhausted rest

/-- `MODEL_INPUT_IMAGES_MAX_BYTES` -/
def modelInputImagesMaxBytes : Nat := 32 * 1024 * 1024

structure ModelInputImageBudgetResult where
  messages : List ModelMessage
  omittedImageCount : Nat
  deriving DecidableEq

def applyModelInputImageBudget (messages : List ModelMessage) (maxBytes : Nat := modelInputImagesMaxBytes) :
    ModelInputImageBudgetResult :=
  let omitted := (omittedFrom maxBytes false (byPriority messages)).map (·.place)
  if omitted = [] then ⟨messages, 0⟩
  else
    ⟨messages.zipIdx.map fun (message, index) =>
        message.withContent (omitModelVisibleImages message.content fun number => (index, number) ∈ omitted),
      omitted.length⟩

theorem zipIdx_images (parts : List ModelContentPart) (n : Nat) :
    ((parts.zipIdx n).filterMap fun (part, number) => part.image?.map (·, number)).map Prod.fst =
      parts.filterMap ModelContentPart.image? := by
  induction parts generalizing n with
  | nil => rfl
  | cons part parts ih =>
    cases hshown : part.image? <;> simp [hshown, ih]

theorem map_numberedImages (content : ModelContent) : (numberedImages content).map Prod.fst = modelContentImages content := by
  cases content with
  | text text => rfl
  | parts parts => exact zipIdx_images parts 0

theorem numbers_sublist (parts : List (ModelContentPart × Nat)) :
    ((parts.filterMap fun (part, number) => part.image?.map (·, number)).map Prod.snd).Sublist (parts.map Prod.snd) := by
  induction parts with
  | nil => exact .slnil
  | cons part parts ih =>
    cases hshown : part.1.image? with
    | none => simpa [hshown] using ih.cons _
    | some shown => simpa [hshown] using ih

theorem sorted_numberedImages (content : ModelContent) : ((numberedImages content).map Prod.snd).Pairwise (· < ·) := by
  have hparts : ((numberedParts content).map Prod.snd).Pairwise (· < ·) := by
    cases content with
    | text text => exact .nil
    | parts parts => simpa [numberedParts] using List.pairwise_lt_range'
  exact hparts.sublist (numbers_sublist _)

def imagesAt (index : Nat) (message : ModelMessage) : List PlacedImage :=
  (numberedImages message.content).map fun (shown, number) => ⟨shown, index, number⟩

theorem placedImages_eq (messages : List ModelMessage) :
    placedImages messages = messages.zipIdx.flatMap fun (message, index) => imagesAt index message := rfl

theorem message_of_mem_imagesAt (h : placed ∈ imagesAt index message) : placed.message = index := by
  obtain ⟨shown, -, rfl⟩ := List.mem_map.mp h
  rfl

def StandsBefore (a b : PlacedImage) : Prop := a.message < b.message ∨ a.message = b.message ∧ a.part < b.part

theorem sorted_imagesAt (index : Nat) (message : ModelMessage) : (imagesAt index message).Pairwise StandsBefore :=
  List.pairwise_map.mpr ((List.pairwise_map.mp (sorted_numberedImages message.content)).imp fun h => .inr ⟨rfl, h⟩)

theorem sorted_placedImages (messages : List ModelMessage) : (placedImages messages).Pairwise StandsBefore := by
  rw [placedImages_eq, List.pairwise_flatMap]
  refine ⟨fun entry _ => sorted_imagesAt entry.2 entry.1, ?_⟩
  have hindices : (messages.zipIdx.map Prod.snd).Pairwise (· < ·) := by simpa using List.pairwise_lt_range'
  refine (List.pairwise_map.mp hindices).imp fun {a b} hlt placed hplaced other hother => .inl ?_
  rwa [message_of_mem_imagesAt hplaced, message_of_mem_imagesAt hother]

theorem nodup_placedImages (messages : List ModelMessage) : ((placedImages messages).map PlacedImage.place).Nodup := by
  refine List.pairwise_map.mpr ((sorted_placedImages messages).imp fun {a b} h heq => ?_)
  have hmessage : a.message = b.message := (Prod.mk.inj heq).1
  have hpart : a.part = b.part := (Prod.mk.inj heq).2
  obtain h | h := h <;> omega

theorem byPriority_perm (messages : List ModelMessage) : (byPriority messages).Perm (placedImages messages) := by
  let ofNewest : PlacedImage → Bool := fun placed => some placed.message = newestUserIndex messages
  have hrest : ((placedImages messages).reverse.filter fun placed => some placed.message ≠ newestUserIndex messages) =
      (placedImages messages).reverse.filter fun placed => !ofNewest placed := by
    refine List.filter_congr fun placed _ => ?_
    simp [ofNewest]
  rw [byPriority, hrest]
  refine ((List.reverse_perm _).append_right _).trans ?_
  exact (List.filter_append_perm ofNewest _).trans (List.reverse_perm _)

/-- The images of the newest message of the user come first, in their order, and the others after them from the
newest to the oldest. -/
def ComesFirst (newestUser : Option Nat) (a b : PlacedImage) : Prop :=
  if some a.message = newestUser then some b.message = newestUser → StandsBefore a b
  else some b.message ≠ newestUser ∧ StandsBefore b a

theorem sorted_byPriority (messages : List ModelMessage) :
    (byPriority messages).Pairwise (ComesFirst (newestUserIndex messages)) := by
  have hnewest : (placedImages messages).reverse.Pairwise fun a b => StandsBefore b a :=
    List.pairwise_reverse.mpr (sorted_placedImages messages)
  refine List.pairwise_append.mpr ⟨?_, ?_, ?_⟩
  · have hsorted := (hnewest.filter fun placed => some placed.message = newestUserIndex messages)
    refine (List.pairwise_reverse.mpr hsorted).imp_of_mem fun {a b} ha _ h => ?_
    have ha : some a.message = newestUserIndex messages := by simpa using (List.mem_filter.mp (List.mem_reverse.mp ha)).2
    rw [ComesFirst, if_pos ha]
    exact fun _ => h
  · refine (hnewest.filter _).imp_of_mem fun {a b} ha hb h => ?_
    have ha : some a.message ≠ newestUserIndex messages := by simpa using (List.mem_filter.mp ha).2
    have hb : some b.message ≠ newestUserIndex messages := by simpa using (List.mem_filter.mp hb).2
    rw [ComesFirst, if_neg ha]
    exact ⟨hb, h⟩
  · intro a ha b hb
    have ha : some a.message = newestUserIndex messages := by simpa using (List.mem_filter.mp (List.mem_reverse.mp ha)).2
    have hb : some b.message ≠ newestUserIndex messages := by simpa using (List.mem_filter.mp hb).2
    rw [ComesFirst, if_pos ha]
    exact fun h => absurd h hb

theorem omittedFrom_exhausted (remainingBytes : Nat) (l : List PlacedImage) : omittedFrom remainingBytes true l = l := by
  induction l with
  | nil => rfl
  | cons placed rest ih => simp [omittedFrom, ih]

theorem omittedFrom_ok (remainingBytes : Nat) (l : List PlacedImage) :
    ∃ kept left, l = kept ++ left ∧ omittedFrom remainingBytes false l = left ∧
      (kept.map PlacedImage.bytes).sum ≤ remainingBytes ∧
      ∀ next ∈ left.head?, remainingBytes < (kept.map PlacedImage.bytes).sum + next.bytes := by
  induction l generalizing remainingBytes with
  | nil => exact ⟨[], [], rfl, rfl, Nat.zero_le _, nofun⟩
  | cons placed rest ih =>
    by_cases hfits : remainingBytes < placed.bytes
    · refine ⟨[], placed :: rest, rfl, ?_, Nat.zero_le _, ?_⟩
      · simp [omittedFrom, hfits, omittedFrom_exhausted]
      · simpa using hfits
    · obtain ⟨kept, left, rfl, hleft, hsum, hnext⟩ := ih (remainingBytes - placed.bytes)
      refine ⟨placed :: kept, left, rfl, ?_, ?_, ?_⟩
      · simp [omittedFrom, hfits, hleft]
      · rw [List.map_cons, List.sum_cons]
        omega
      · intro next hmem
        have := hnext next hmem
        rw [List.map_cons, List.sum_cons]
        omega

def loadedLine (label : String) : List Char := '\n' :: '-' :: ' ' :: label.toList

theorem toList_loadedLine (label : String) : ("\n- " ++ label).toList = loadedLine label := by
  simp [loadedLine]

theorem intercalate_cons (sep a : List α) (rest : List (List α)) :
    sep.intercalate (a :: rest) = a ++ rest.flatMap (sep ++ ·) := by
  induction rest generalizing a with
  | nil => simp
  | cons b rest ih => rw [List.intercalate_cons_cons, ih, List.flatMap_cons, List.append_assoc, List.append_assoc]

theorem toList_createVisualArtifactSummary (labels : List String) :
    (createVisualArtifactSummary labels).toList = visualContextLoadedHeader.toList ++ labels.flatMap loadedLine := by
  rw [createVisualArtifactSummary, String.toList_intercalate, List.map_cons, intercalate_cons, List.map_map,
    List.flatMap_map]
  refine congrArg _ (congrArg (labels.flatMap ·) (funext fun label => ?_))
  simp [loadedLine]

theorem removeFirst_self (hp : p ≠ []) (b : List Char) : removeFirst p (p ++ b) = b := by
  cases p with
  | nil => exact absurd rfl hp
  | cons c p =>
    have hmatch : c :: p <+: c :: (p ++ b) := ⟨b, rfl⟩
    rw [List.cons_append, removeFirst, if_pos hmatch]
    simp

theorem removeFirst_append (h : ∀ t, t <:+ a → t ≠ [] → ¬ p <+: t ++ b) : removeFirst p (a ++ b) = a ++ removeFirst p b := by
  induction a with
  | nil => rfl
  | cons c a ih =>
    have hno : ¬ p <+: c :: (a ++ b) := h (c :: a) List.suffix_rfl (List.cons_ne_nil _ _)
    rw [List.cons_append, removeFirst, if_neg hno, ih fun t ht => h t (ht.trans (List.suffix_cons _ _)), List.cons_append]

/-- A line that starts in `t` ends in it when a break or nothing follows. -/
theorem line_in_front (hq : '\n' ∉ q) (hb : ∀ c ∈ b.head?, c = '\n') (ht : t ≠ []) (h : '\n' :: q <+: t ++ b) :
    '\n' :: q <+: t := by
  by_cases hle : ('\n' :: q).length ≤ t.length
  · exact List.prefix_of_prefix_length_le h (List.prefix_append t b) hle
  · obtain ⟨u, hu⟩ := List.prefix_of_prefix_length_le (List.prefix_append t b) h (by omega)
    cases u with
    | nil => exact absurd (by simp [← hu]) hle
    | cons c u =>
      rw [← hu, List.prefix_append_right_inj] at h
      cases b with
      | nil => simp at h
      | cons d b =>
        obtain rfl : d = '\n' := hb d rfl
        obtain rfl : c = '\n' := (List.cons_prefix_cons.mp h).1
        cases t with
        | nil => exact absurd rfl ht
        | cons e t =>
          have hq' : q = t ++ '\n' :: u := (List.cons.inj hu).2.symm
          exact absurd (by simp [hq']) hq

/-- Labels that stand on lines of their own: none breaks, none is the beginning of another, and none has its line
in what stands before. -/
structure OnLines (front : List Char) (labels : List String) : Prop where
  unbroken : ∀ label ∈ labels, '\n' ∉ label.toList
  apart : ∀ label ∈ labels, ∀ other ∈ labels, label.toList <+: other.toList → label = other
  fresh : ∀ label ∈ labels, ¬ loadedLine label <:+: front

theorem head_lines (labels : List String) : ∀ c ∈ (labels.flatMap loadedLine).head?, c = '\n' := by
  cases labels <;> simp [loadedLine]

theorem removeFirst_front (hlabel : '\n' ∉ label.toList) (hfresh : ¬ loadedLine label <:+: a)
    (hb : ∀ c ∈ b.head?, c = '\n') :
    removeFirst (loadedLine label) (a ++ b) = a ++ removeFirst (loadedLine label) b := by
  refine removeFirst_append fun t ht hne hpre => hfresh ?_
  exact (line_in_front (by simpa using hlabel) hb hne hpre).isInfix.trans ht.isInfix

theorem label_of_line_inside (hother : '\n' ∉ other.toList) (h : loadedLine label <:+: loadedLine other) :
    label.toList <+: other.toList := by
  obtain h | h := List.infix_cons_iff.mp h
  · simpa [loadedLine, List.cons_prefix_cons] using h
  · have : '\n' ∈ '-' :: ' ' :: other.toList := h.subset List.mem_cons_self
    exact absurd (by simpa using this) hother

theorem removeFirst_lines (hok : OnLines front labels) (hlabel : label ∈ labels) (hshown : shown ⊆ labels) :
    removeFirst (loadedLine label) (shown.flatMap loadedLine) = (shown.erase label).flatMap loadedLine := by
  induction shown with
  | nil => rfl
  | cons other shown ih =>
    obtain ⟨hother, hshown⟩ := List.cons_subset.mp hshown
    by_cases heq : other = label
    · subst heq
      rw [List.erase_cons_head, List.flatMap_cons]
      exact removeFirst_self (List.cons_ne_nil _ _) _
    · have hno : ¬ loadedLine label <:+: loadedLine other := fun h =>
        heq (hok.apart label hlabel other hother (label_of_line_inside (hok.unbroken other hother) h)).symm
      rw [List.erase_cons_tail (by simpa using heq), List.flatMap_cons, List.flatMap_cons, ← ih hshown]
      exact removeFirst_front (hok.unbroken label hlabel) hno (head_lines shown)

theorem removeAll_lines (hok : OnLines front labels) (hreloadable : reloadable ⊆ labels) (hshown : shown ⊆ labels) :
    reloadable.foldl (fun text label => removeFirst ("\n- " ++ label).toList text) (front ++ shown.flatMap loadedLine) =
      front ++ (shown.diff reloadable).flatMap loadedLine := by
  induction reloadable generalizing shown with
  | nil => simp
  | cons label reloadable ih =>
    obtain ⟨hlabel, hreloadable⟩ := List.cons_subset.mp hreloadable
    rw [List.foldl_cons, toList_loadedLine, removeFirst_front (hok.unbroken label hlabel) (hok.fresh label hlabel)
      (head_lines shown), removeFirst_lines hok hlabel hshown, List.diff_cons]
    exact ih hreloadable fun _ hx => hshown (List.erase_subset hx)

theorem header_not_at_end (hlabel : ¬ visualContextLoadedHeader.toList <:+ label.toList) (a : List Char) :
    ¬ visualContextLoadedHeader.toList <:+ a ++ loadedLine label := by
  intro h
  have hhead : visualContextLoadedHeader.toList.head? = some '[' := by decide
  by_cases hle : visualContextLoadedHeader.toList.length ≤ (loadedLine label).length
  · have := List.suffix_of_suffix_length_le h (List.suffix_append a _) hle
    simp only [loadedLine, List.suffix_cons_iff] at this
    obtain this | this | this | this := this
    · exact absurd (hhead.symm.trans (congrArg List.head? this)) (by simp)
    · exact absurd (hhead.symm.trans (congrArg List.head? this)) (by simp)
    · exact absurd (hhead.symm.trans (congrArg List.head? this)) (by simp)
    · exact hlabel this
  · have hline : loadedLine label <:+ visualContextLoadedHeader.toList :=
      List.suffix_of_suffix_length_le (List.suffix_append a _) h (by omega)
    have hbreak : '\n' ∈ visualContextLoadedHeader.toList := hline.subset List.mem_cons_self
    exact absurd hbreak (by decide)

theorem trimEnd_breaks (text : List Char) : trimEnd (text ++ "\n\n".toList) = trimEnd text := by
  simp [trimEnd, List.dropWhile, show Js.isWhitespace '\n' = true from by decide]

def summaryFront (body : String) : List Char := (body ++ "\n\n" ++ visualContextLoadedHeader).toList

theorem summaryFront_eq (body : String) :
    summaryFront body = body.toList ++ "\n\n".toList ++ visualContextLoadedHeader.toList := by
  rw [summaryFront, String.toList_append, String.toList_append]

theorem toList_summary (body : String) (labels : List String) :
    (body ++ "\n\n" ++ createVisualArtifactSummary labels).toList = summaryFront body ++ labels.flatMap loadedLine := by
  simp [summaryFront, toList_createVisualArtifactSummary]

/-- Of a text that ends with the summary of loaded images, the lines of the images left out go, and the summary
with its last line. -/
theorem withoutLoaded_ok (hok : OnLines (summaryFront body) shown)
    (hends : ∀ label ∈ shown, ¬ visualContextLoadedHeader.toList <:+ label.toList) (hreloadable : reloadable ⊆ shown) :
    withoutLoaded reloadable (body ++ "\n\n" ++ createVisualArtifactSummary shown) =
      if shown.diff reloadable = [] then String.ofList (trimEnd body.toList)
      else body ++ "\n\n" ++ createVisualArtifactSummary (shown.diff reloadable) := by
  unfold withoutLoaded
  rw [toList_summary, removeAll_lines hok hreloadable (List.Subset.refl _)]
  by_cases hnone : shown.diff reloadable = []
  · have hhead : visualContextLoadedHeader.toList <:+ summaryFront body := by
      rw [summaryFront_eq]
      exact List.suffix_append _ _
    have htake : (summaryFront body).take ((summaryFront body).length - visualContextLoadedHeader.toList.length) =
        body.toList ++ "\n\n".toList := by
      rw [summaryFront_eq, List.length_append, Nat.add_sub_cancel, List.take_left]
    simp only [hnone, List.flatMap_nil, List.append_nil, if_true]
    rw [if_pos hhead, htake, trimEnd_breaks]
  · obtain hnil | ⟨before, label, hsplit⟩ := List.eq_nil_or_concat (shown.diff reloadable)
    · exact absurd hnil hnone
    have hleft : label ∈ shown.diff reloadable := by simp [hsplit]
    have hlabel : label ∈ shown := List.diff_subset shown reloadable hleft
    have hhead : ¬ visualContextLoadedHeader.toList <:+ summaryFront body ++ (shown.diff reloadable).flatMap loadedLine := by
      rw [hsplit, List.concat_eq_append, List.flatMap_append, List.flatMap_singleton, ← List.append_assoc]
      exact header_not_at_end (hends label hlabel) _
    simp only [if_neg hhead, if_neg hnone]
    rw [← toList_summary, String.ofList_toList]

-- -----------------
-- What stands for the images left out
-- -----------------

/-- What is left of a text when the images with these labels go. -/
structure TextLeft (reloadable : List String) (old new : String) : Prop where
  /-- Nothing is added or moved. -/
  sublist : new.toList.Sublist old.toList
  /-- Attached images are in no summary. -/
  attached : reloadable = [] → new = old
  /-- Of a summary at the end the lines of the images go, and nothing before it. -/
  loaded : ∀ body shown, old = body ++ "\n\n" ++ createVisualArtifactSummary shown → OnLines (summaryFront body) shown →
    (∀ label ∈ shown, ¬ visualContextLoadedHeader.toList <:+ label.toList) → reloadable ⊆ shown → reloadable ≠ [] →
    new = if shown.diff reloadable = [] then String.ofList (trimEnd body.toList)
      else body ++ "\n\n" ++ createVisualArtifactSummary (shown.diff reloadable)

theorem removeFirst_sublist (p text : List Char) : (removeFirst p text).Sublist text := by
  induction text with
  | nil => exact .slnil
  | cons c text ih =>
    unfold removeFirst
    split
    · exact List.drop_sublist _ _
    · exact ih.cons_cons c

theorem trimEnd_sublist (text : List Char) : (trimEnd text).Sublist text := by
  have := (List.dropWhile_sublist (l := text.reverse) Js.isWhitespace).reverse
  rwa [List.reverse_reverse] at this

theorem removeAll_sublist (labels : List String) (text : List Char) :
    (labels.foldl (fun text label => removeFirst ("\n- " ++ label).toList text) text).Sublist text := by
  induction labels generalizing text with
  | nil => exact List.Sublist.refl _
  | cons label labels ih => exact (ih _).trans (removeFirst_sublist _ _)

theorem withoutLoaded_sublist (labels : List String) (text : String) :
    (withoutLoaded labels text).toList.Sublist text.toList := by
  unfold withoutLoaded
  rw [String.toList_ofList]
  split
  · exact (trimEnd_sublist _).trans ((List.take_sublist _ _).trans (removeAll_sublist _ _))
  · exact removeAll_sublist _ _

theorem textLeft_ok (reloadable : List String) (text : String) :
    TextLeft reloadable text (if reloadable = [] then text else withoutLoaded reloadable text) := by
  by_cases hnone : reloadable = []
  · rw [if_pos hnone]
    exact ⟨List.Sublist.refl _, fun _ => rfl, fun _ _ _ _ _ _ h => absurd hnone h⟩
  · rw [if_neg hnone]
    refine ⟨withoutLoaded_sublist _ _, fun h => absurd h hnone, ?_⟩
    rintro body shown rfl hok hends hreloadable -
    exact withoutLoaded_ok hok hends hreloadable

theorem infix_intercalate {sep : String} {texts : List String} (h : text ∈ texts) :
    text.toList <:+: (sep.intercalate texts).toList := by
  rw [String.toList_intercalate]
  cases texts with
  | nil => exact absurd h List.not_mem_nil
  | cons first rest =>
    rw [List.map_cons, intercalate_cons]
    obtain rfl | h := List.mem_cons.mp h
    · exact (List.prefix_append _ _).isInfix
    · have hin : sep.toList ++ text.toList <:+: ((rest.map String.toList).map (sep.toList ++ ·)).flatten :=
        List.infix_of_mem_flatten (List.mem_map.mpr ⟨_, List.mem_map_of_mem h, rfl⟩)
      exact ((List.suffix_append _ _).isInfix.trans hin).trans (List.suffix_append _ _).isInfix

theorem infix_append_right {a b c : String} (h : a.toList <:+: c.toList) : a.toList <:+: (b ++ c).toList := by
  rw [String.toList_append]
  exact h.trans (List.suffix_append _ _).isInfix

theorem infix_append_left {a b c : String} (h : a.toList <:+: b.toList) : a.toList <:+: (b ++ c).toList := by
  rw [String.toList_append]
  exact h.trans (List.prefix_append _ _).isInfix

theorem infix_notLoadedNote (h : label ∈ reloadable) : label.toList <:+: (notLoadedNote reloadable).toList := by
  have hline : ("- " ++ label) ∈ visualContextNotLoadedHeader :: reloadable.map ("- " ++ ·) :=
    List.mem_cons_of_mem _ (List.mem_map.mpr ⟨label, h, rfl⟩)
  exact (infix_append_right List.infix_rfl).trans (infix_intercalate hline)

theorem infix_leftOutNote (count : Nat) (h : label ∈ names) : label.toList <:+: (leftOutNote count names).toList := by
  have hnames : names ≠ [] := List.ne_nil_of_mem h
  rw [leftOutNote, if_neg hnames]
  exact infix_append_left (infix_append_right (infix_append_right (infix_intercalate h)))

def notReloadable (images : List ModelImage) : List ModelImage := images.filter fun shown => shown.reloadLabel?.isNone

theorem notLoadedNote_mem (h : images.filterMap (·.reloadLabel?) ≠ []) :
    notLoadedNote (images.filterMap (·.reloadLabel?)) ∈ omissionNotes images := by
  simp only [omissionNotes, if_neg h]
  exact List.mem_append_left _ (List.mem_singleton_self _)

theorem leftOutNote_mem (h : notReloadable images ≠ []) :
    leftOutNote (notReloadable images).length ((notReloadable images).filterMap (·.label?)) ∈ omissionNotes images := by
  unfold notReloadable at h ⊢
  simp only [omissionNotes, if_neg h]
  exact List.mem_append_right _ (List.mem_singleton_self _)

theorem label_in_notes (hshown : shown ∈ images) (hlabel : shown.label? = some label) :
    ∃ note ∈ omissionNotes images, label.toList <:+: note.toList := by
  cases hreload : shown.reloadLabel? with
  | some tool =>
    have hmem : tool ∈ images.filterMap (·.reloadLabel?) := List.mem_filterMap.mpr ⟨shown, hshown, hreload⟩
    have heq : tool = label := by
      unfold ModelImage.reloadLabel? at hreload
      split at hreload
      · next hsource =>
        unfold ModelImage.label? at hlabel
        rw [hsource] at hlabel
        exact (Option.some.inj hreload).symm.trans (Option.some.inj hlabel)
      · exact absurd hreload (by simp)
    subst heq
    exact ⟨_, notLoadedNote_mem (List.ne_nil_of_mem hmem), infix_notLoadedNote hmem⟩
  | none =>
    have hother : shown ∈ notReloadable images := List.mem_filter.mpr ⟨hshown, by simp [hreload]⟩
    have hname : label ∈ (notReloadable images).filterMap (·.label?) := List.mem_filterMap.mpr ⟨shown, hother, hlabel⟩
    exact ⟨_, leftOutNote_mem (List.ne_nil_of_mem hother), infix_leftOutNote _ hname⟩

def leftText (content : ModelContent) (images : List ModelImage) : String :=
  if images.filterMap (·.reloadLabel?) = [] then modelContentText content
  else withoutLoaded (images.filterMap (·.reloadLabel?)) (modelContentText content)

def joinNotEmpty (texts : List String) : String := "\n\n".intercalate (texts.filter (· ≠ ""))

theorem omitModelVisibleImages_of_none (h : omittedImages content omitted = []) :
    omitModelVisibleImages content omitted = content := by
  simp [omitModelVisibleImages, h]

theorem omitModelVisibleImages_of_some (h : omittedImages content omitted ≠ []) :
    omitModelVisibleImages content omitted =
      let text := joinNotEmpty (leftText content (omittedImages content omitted) ::
        omissionNotes (omittedImages content omitted))
      if remainingImages content omitted = [] then .text text
      else .parts (.text text :: (remainingImages content omitted).map .image) := by
  simp [omitModelVisibleImages, h, leftText, joinNotEmpty]

theorem remaining_of_none (h : omittedImages content omitted = []) :
    remainingImages content omitted = modelContentImages content := by
  have hall : ∀ entry ∈ numberedImages content, (!omitted entry.2) = true := by
    intro entry hentry
    have := List.filter_eq_nil_iff.mp (List.map_eq_nil_iff.mp h) entry hentry
    simpa using this
  rw [remainingImages, List.filter_eq_self.mpr hall, map_numberedImages]

theorem images_omitModelVisibleImages (content : ModelContent) (omitted : Nat → Bool) :
    modelContentImages (omitModelVisibleImages content omitted) = remainingImages content omitted := by
  by_cases h : omittedImages content omitted = []
  · rw [omitModelVisibleImages_of_none h, remaining_of_none h]
  · rw [omitModelVisibleImages_of_some h]
    by_cases hnone : remainingImages content omitted = []
    · simp [hnone, modelContentImages]
    · simp [hnone, modelContentImages, ModelContentPart.image?, List.filterMap_cons, Function.comp_def]

theorem text_omitModelVisibleImages (h : omittedImages content omitted ≠ []) :
    modelContentText (omitModelVisibleImages content omitted) =
      joinNotEmpty (leftText content (omittedImages content omitted) :: omissionNotes (omittedImages content omitted)) := by
  have hno : ∀ images : List ModelImage, (images.map ModelContentPart.image).filterMap ModelContentPart.text? = [] := by
    simp [ModelContentPart.text?]
  rw [omitModelVisibleImages_of_some h]
  by_cases hnone : remainingImages content omitted = []
  · simp [hnone, modelContentText]
  · simp only [hnone, if_false, modelContentText, List.filterMap_cons, hno, ModelContentPart.text?]
    simp [String.join]

theorem note_in_text (hnote : note ∈ notes) (h : part <:+: note.toList) (text : String) :
    part <:+: (joinNotEmpty (text :: notes)).toList := by
  by_cases hempty : note = ""
  · subst hempty
    obtain rfl : part = [] := by simpa using h
    exact List.nil_infix
  · have hmem : note ∈ (text :: notes).filter (· ≠ "") :=
      List.mem_filter.mpr ⟨List.mem_cons_of_mem _ hnote, by simpa using hempty⟩
    exact h.trans (infix_intercalate hmem)

/-- A message after images at some of its numbers are left out. -/
structure ImagesLeftOut (omitted : Nat → Bool) (message result : ModelMessage) : Prop where
  /-- The role stays, and the calls or the call that is answered. -/
  same : result = message.withContent result.content
  untouched : omittedImages message.content omitted = [] → result = message
  images : modelContentImages result.content = remainingImages message.content omitted
  /-- The text is what is left of it, and the notes behind. -/
  text : omittedImages message.content omitted ≠ [] →
    ∃ text notes, modelContentText result.content = joinNotEmpty (text :: notes) ∧
      TextLeft ((omittedImages message.content omitted).filterMap (·.reloadLabel?)) (modelContentText message.content) text ∧
      -- every image with a label is named
      (∀ shown ∈ omittedImages message.content omitted, ∀ label, shown.label? = some label →
        ∃ note ∈ notes, label.toList <:+: note.toList) ∧
      -- those that no tool loads again are counted
      (notReloadable (omittedImages message.content omitted) ≠ [] →
        ∃ names, leftOutNote (notReloadable (omittedImages message.content omitted)).length names ∈ notes)
  named : ∀ shown ∈ omittedImages message.content omitted, ∀ label, shown.label? = some label →
    label.toList <:+: (modelContentText result.content).toList

@[simp] theorem content_withContent (content : ModelContent) (message : ModelMessage) :
    (message.withContent content).content = content := by
  cases message <;> rfl

theorem withContent_content (message : ModelMessage) : message.withContent message.content = message := by
  cases message <;> rfl

theorem imagesLeftOut_ok (omitted : Nat → Bool) (message : ModelMessage) :
    ImagesLeftOut omitted message (message.withContent (omitModelVisibleImages message.content omitted)) where
  same := by rw [content_withContent]
  untouched h := by rw [omitModelVisibleImages_of_none h, withContent_content]
  images := by rw [content_withContent, images_omitModelVisibleImages]
  text h := by
    rw [content_withContent, text_omitModelVisibleImages h]
    exact ⟨_, _, rfl, textLeft_ok _ _, fun shown hshown label hlabel => label_in_notes hshown hlabel,
      fun hother => ⟨_, leftOutNote_mem hother⟩⟩
  named shown hshown label hlabel := by
    obtain ⟨note, hnote, hin⟩ := label_in_notes hshown hlabel
    rw [content_withContent, text_omitModelVisibleImages (List.ne_nil_of_mem hshown)]
    exact note_in_text hnote hin _

def leftAt (left : List PlacedImage) (index number : Nat) : Bool := (index, number) ∈ left.map (·.place)

theorem applyModelInputImageBudget_eq (messages : List ModelMessage) (maxBytes : Nat) (left : List PlacedImage)
    (hleft : omittedFrom maxBytes false (byPriority messages) = left) :
    applyModelInputImageBudget messages maxBytes =
      ⟨messages.zipIdx.map fun (message, index) =>
        message.withContent (omitModelVisibleImages message.content (leftAt left index)), left.length⟩ := by
  unfold applyModelInputImageBudget
  rw [hleft]
  cases left with
  | nil =>
    have hsame : ∀ (message : ModelMessage) (index : Nat),
        message.withContent (omitModelVisibleImages message.content (leftAt [] index)) = message := by
      intro message index
      rw [omitModelVisibleImages_of_none (by simp [omittedImages, leftAt]), withContent_content]
    simp [hsame]
  | cons placed rest =>
    rw [if_neg (by simp), List.length_map]
    rfl

theorem images_of_request (messages : List ModelMessage) (left : List PlacedImage) :
    (messages.zipIdx.flatMap fun (message, index) => remainingImages message.content (leftAt left index)) =
      ((placedImages messages).filter fun placed => !leftAt left placed.message placed.part).map (·.image) := by
  rw [placedImages_eq, List.filter_flatMap, List.map_flatMap]
  refine congrArg (messages.zipIdx.flatMap ·) (funext fun entry => ?_)
  simp [remainingImages, imagesAt, List.filter_map, Function.comp_def]

theorem filter_kept {kept left : List PlacedImage} (hnodup : ((kept ++ left).map PlacedImage.place).Nodup) :
    ((kept ++ left).filter fun placed => !leftAt left placed.message placed.part) = kept := by
  rw [List.map_append, List.nodup_append'] at hnodup
  have hkept : ∀ placed ∈ kept, (!leftAt left placed.message placed.part) = true := by
    intro placed hplaced
    have := List.disjoint_left.mp hnodup.2.2 (List.mem_map_of_mem hplaced)
    simpa [leftAt, PlacedImage.place] using this
  have hleft : ∀ placed ∈ left, ¬ (!leftAt left placed.message placed.part) = true := by
    intro placed hplaced
    have : placed.place ∈ left.map PlacedImage.place := List.mem_map_of_mem hplaced
    simpa [leftAt, PlacedImage.place] using this
  rw [List.filter_append, List.filter_eq_self.mpr hkept, List.filter_eq_nil_iff.mpr hleft, List.append_nil]

def imageBytes (messages : List ModelMessage) : Nat :=
  ((messages.flatMap fun message => modelContentImages message.content).map fun shown => shown.data.length).sum

theorem bytes_of_request (hsplit : byPriority messages = kept ++ left) :
    imageBytes (messages.zipIdx.map fun (message, index) =>
      message.withContent (omitModelVisibleImages message.content (leftAt left index))) = (kept.map (·.bytes)).sum := by
  have hplaces : ((kept ++ left).map PlacedImage.place).Nodup := by
    rw [← hsplit]
    exact ((byPriority_perm messages).map _).nodup_iff.mpr (nodup_placedImages messages)
  have hperm := (byPriority_perm messages).filter fun placed => !leftAt left placed.message placed.part
  rw [hsplit, filter_kept hplaces] at hperm
  calc imageBytes _
    _ = (((messages.zipIdx.flatMap fun (message, index) => remainingImages message.content (leftAt left index))).map
          fun shown => shown.data.length).sum := by
        simp [imageBytes, List.flatMap_map, images_omitModelVisibleImages]
    _ = (((placedImages messages).filter fun placed => !leftAt left placed.message placed.part).map (·.bytes)).sum := by
        rw [images_of_request, List.map_map]
        rfl
    _ = (kept.map (·.bytes)).sum := (hperm.map _).sum_nat.symm

/-- The images kept fit, and with the next one they would not. They are counted in the stated order, so nothing is
left out before an image that is kept. Each message tells what it lost and keeps everything else. -/
theorem image_budget_ok (messages : List ModelMessage) (maxBytes : Nat) :
    (byPriority messages).Perm (placedImages messages) ∧
    (byPriority messages).Pairwise (ComesFirst (newestUserIndex messages)) ∧
    ∃ kept left, byPriority messages = kept ++ left ∧
      imageBytes (applyModelInputImageBudget messages maxBytes).messages = (kept.map (·.bytes)).sum ∧
      imageBytes (applyModelInputImageBudget messages maxBytes).messages ≤ maxBytes ∧
      (∀ next ∈ left.head?, maxBytes < (kept.map (·.bytes)).sum + next.bytes) ∧
      (applyModelInputImageBudget messages maxBytes).omittedImageCount = left.length ∧
      (applyModelInputImageBudget messages maxBytes).messages.length = messages.length ∧
      ∀ index message result, messages[index]? = some message →
        (applyModelInputImageBudget messages maxBytes).messages[index]? = some result →
        ImagesLeftOut (leftAt left index) message result := by
  refine ⟨byPriority_perm messages, sorted_byPriority messages, ?_⟩
  obtain ⟨kept, left, hsplit, hleft, hsum, hnext⟩ := omittedFrom_ok maxBytes (byPriority messages)
  have hbytes := bytes_of_request hsplit
  refine ⟨kept, left, hsplit, ?_⟩
  rw [applyModelInputImageBudget_eq messages maxBytes left hleft]
  refine ⟨hbytes, hbytes.trans_le hsum, hnext, rfl, by simp, ?_⟩
  intro index message result hmessage hresult
  have heq : message.withContent (omitModelVisibleImages message.content (leftAt left index)) = result := by
    simpa [hmessage] using hresult
  rw [← heq]
  exact imagesLeftOut_ok _ _

namespace Example

def attached : ModelImage := ⟨"image/png", [0], some (.userAttachment "small.png")⟩

def pasted : ModelImage := ⟨"image/png", [0, 0], none⟩

def question : ModelMessage := .user (.parts [.image attached, .text "Compare these.", .image pasted])

def answered : ModelMessage :=
  .user (.parts [.text ("Compare these.\n\n[1 image was too large to include in the model input and was left out.]"),
    .image attached])

end Example

open Example in
/-- An image without a source is only counted, and the text moves before an image that stays. -/
theorem pasted_not_named :
    (applyModelInputImageBudget [question] 1).messages = [answered] ∧
    (¬ ∀ shown ∈ omittedImages question.content (leftAt (omittedFrom 1 false (byPriority [question])) 0),
      ∃ label, shown.label? = some label ∧ label.toList <:+: (modelContentText answered.content).toList) ∧
    (numberedParts question.content).head? = some (.image attached, 0) ∧
    (numberedParts answered.content).head? ≠ some (.image attached, 0) := by
  refine ⟨by decide, fun h => ?_, by decide, by decide⟩
  have homitted : pasted ∈ omittedImages question.content (leftAt (omittedFrom 1 false (byPriority [question])) 0) := by
    decide
  obtain ⟨label, hlabel, -⟩ := h pasted homitted
  exact absurd hlabel (by simp [pasted, ModelImage.label?])

end Catalyst.ModelContext
