import Catalyst.Library.Utf16

/-!
# The output of a tool, cut for the model

A content beyond the limits is cut to a head and a tail with a notice between them. The limits
are of tokens, estimated at four code units each, and of bytes in UTF-8, but the room for the
content is counted in code units alone.
-/

namespace Catalyst.ModelContext

open Library Library.Js

/-- `options.toolOutput`; the configuration takes only safe integers. -/
structure ToolOutputOptions where
  maxTokens : Nat
  maxBytes : Option Nat
  maxTokens_lt : maxTokens < 2 ^ 53
  maxBytes_lt : ∀ n ∈ maxBytes, n < 2 ^ 53

/-- `CHARS_PER_TOKEN` -/
def charsPerToken : Nat := 4

def estimateTokens (us : List Nat) : Nat := (us.length + (charsPerToken - 1)) / charsPerToken

structure BoundedNotice where
  originalTokens : Nat
  originalBytes : Nat
  projectedTokens : Nat
  projectedBytes : Nat
  maxTokens : Nat
  maxBytes : Option Nat
  deriving DecidableEq

/-- `ModelOutputProjection`, whose content is its text. -/
structure ModelOutputProjection where
  text : List Nat
  notice : Option BoundedNotice
  deriving DecidableEq

def decimal (n : Nat) : List Nat := utf16 (Nat.toDigits 10 n)

def ascii (text : String) : List Nat := utf16 text.toList

def namedBytes (maxBytes : Option Nat) : Option Nat := maxBytes.filter (0 < ·)

def marker (originalTokens originalBytes : Nat) (options : ToolOutputOptions) : List Nat :=
  ascii "\n[Tool output bounded for active model context]\nOriginal estimate: " ++ decimal originalTokens ++
    ascii " tokens / " ++ decimal originalBytes ++ ascii " bytes.\nProjected limit: " ++ decimal options.maxTokens ++
    ascii " tokens" ++
    (match namedBytes options.maxBytes with
      | some maxBytes => ascii " / " ++ decimal maxBytes ++ ascii " bytes"
      | none => []) ++
    ascii (".\nThe full tool output remains stored in agent-visible history and may be available as a " ++
      "managed artifact.")

def maxChars (options : ToolOutputOptions) : Nat :=
  let maxCharsByTokens := options.maxTokens * charsPerToken
  max 1000 (match options.maxBytes with
    | some maxBytes => min maxCharsByTokens maxBytes
    | none => maxCharsByTokens)

def contentBudget (content : JsString) (options : ToolOutputOptions) : Nat :=
  maxChars options -
    ((marker (estimateTokens content.units) (byteLength content.units) options).length + 8)

def keptHead (content : JsString) (options : ToolOutputOptions) : List Nat :=
  content.units.take ((contentBudget content options + 1) / 2)

def keptTail (content : JsString) (options : ToolOutputOptions) : List Nat :=
  content.units.drop (content.units.length - contentBudget content options / 2)

def WithinLimits (options : ToolOutputOptions) (text : List Nat) : Prop :=
  estimateTokens text ≤ options.maxTokens ∧ ∀ maxBytes ∈ options.maxBytes, byteLength text ≤ maxBytes

instance : Decidable (WithinLimits options text) := inferInstanceAs (Decidable (_ ∧ ∀ maxBytes ∈ _, _))

def boundModelOutput (content : JsString) (options : ToolOutputOptions) : ModelOutputProjection :=
  let originalBytes := byteLength content.units
  let originalTokens := estimateTokens content.units
  if WithinLimits options content.units then ⟨content.units, none⟩
  else
    let bounded :=
      if content.units.length ≤ contentBudget content options then content.units
      else keptHead content options ++ marker originalTokens originalBytes options ++ [0x0a] ++ keptTail content options
    ⟨bounded, some
      { originalTokens, originalBytes
        projectedTokens := estimateTokens bounded
        projectedBytes := byteLength bounded
        maxTokens := options.maxTokens
        maxBytes := namedBytes options.maxBytes }⟩

variable {content : JsString} {options : ToolOutputOptions} {n k : Nat}

theorem digit_ascii (n : Nat) : ∀ c ∈ Nat.toDigits 10 n, c.toNat < 0x80 :=
  toDigits_forall (by decide) (by decide) n

structure Plain (n : Nat) (us : List Nat) : Prop where
  ascii : IsAscii us
  length_le : us.length ≤ n

theorem Plain.append (h : Plain n us) (h' : Plain k vs) : Plain (n + k) (us ++ vs) where
  ascii := h.ascii.append h'.ascii
  length_le := by
    rw [List.length_append]
    exact Nat.add_le_add h.length_le h'.length_le

theorem ascii_plain (n : Nat) {cs : List Char} (h : (∀ c ∈ cs, c.toNat < 0x80) ∧ cs.length ≤ n) :
    Plain n (ascii (String.ofList cs)) := by
  rw [ascii, String.toList_ofList]
  exact ⟨(utf16_ascii h.1).1, (utf16_ascii h.1).2 ▸ h.2⟩

theorem ascii_append (s t : String) : ascii (s ++ t) = ascii s ++ ascii t := by
  simp only [ascii, String.toList_append, utf16, List.flatMap_append]

theorem decimal_plain (hn : 0 < k) (h : n < 10 ^ k) : Plain k (decimal n) where
  ascii := (utf16_ascii (digit_ascii n)).1
  length_le := by
    rw [decimal, (utf16_ascii (digit_ascii n)).2]
    exact (Nat.length_toDigits_le_iff (by decide) hn).mpr h

theorem marker_plain (content : JsString) (options : ToolOutputOptions) :
    Plain 400 (marker (estimateTokens content.units) (byteLength content.units) options) := by
  have hlength := content.length_lt
  have hbytes : byteLength content.units ≤ 3 * content.units.length := byteLength_le
  have hmaxTokens := options.maxTokens_lt
  have hnamed : Plain (3 + 17 + 6) (match namedBytes options.maxBytes with
      | some maxBytes => ascii " / " ++ decimal maxBytes ++ ascii " bytes"
      | none => []) := by
    split
    · rename_i maxBytes hsome
      have hmaxBytes := options.maxBytes_lt maxBytes (Option.filter_eq_some_iff.mp hsome).1
      refine .append (.append ?_ ?_) ?_
      · exact ascii_plain _ (by decide)
      · exact decimal_plain (by decide) (by omega)
      · exact ascii_plain _ (by decide)
    · exact ⟨by simp [IsAscii], Nat.zero_le _⟩
  have hplain : Plain (67 + 17 + 10 + 17 + 25 + 17 + 7 + (3 + 17 + 6) + 106)
      (marker (estimateTokens content.units) (byteLength content.units) options) := by
    refine .append (.append (.append (.append (.append (.append (.append (.append ?_ ?_) ?_) ?_) ?_) ?_) ?_) hnamed) ?_
    · exact ascii_plain _ (by decide)
    · exact decimal_plain (by decide) (by simp only [estimateTokens, charsPerToken]; omega)
    · exact ascii_plain _ (by decide)
    · exact decimal_plain (by decide) (by omega)
    · exact ascii_plain _ (by decide)
    · exact decimal_plain (by decide) (by omega)
    · exact ascii_plain _ (by decide)
    · rw [ascii_append]
      exact .append (ascii_plain 89 (by decide)) (ascii_plain 17 (by decide))
  exact ⟨hplain.ascii, Nat.le_trans hplain.length_le (by decide)⟩

theorem estimateTokens_le {us : List Nat} (h : us.length ≤ n * charsPerToken) : estimateTokens us ≤ n := by
  simp only [estimateTokens, charsPerToken] at h ⊢
  omega

def keptSurplus (content : JsString) (options : ToolOutputOptions) : Nat :=
  surplus (keptHead content options) + surplus (keptTail content options)

/-- The content needs no cut; or it is longer than the room for it, and the bytes that its kept
parts take beyond one a unit fit what the limit of bytes is above that of tokens, and seven more. -/
def CutFits (content : JsString) (options : ToolOutputOptions) (maxBytes : Nat) : Prop :=
  WithinLimits options content.units ∨
    contentBudget content options < content.units.length ∧
      keptSurplus content options ≤ maxBytes - options.maxTokens * charsPerToken + 7

section

variable {maxBytes : Nat} (hTokens : 250 ≤ options.maxTokens) (hBytes : options.maxBytes = some maxBytes)
  (hmin : 1000 ≤ maxBytes)

include hTokens hBytes hmin

theorem maxChars_eq : maxChars options = min (options.maxTokens * charsPerToken) maxBytes := by
  simp only [maxChars, hBytes, charsPerToken]
  omega

theorem contentBudget_eq : 0 < contentBudget content options ∧ contentBudget content options +
    (marker (estimateTokens content.units) (byteLength content.units) options).length + 8 =
      min (options.maxTokens * charsPerToken) maxBytes := by
  have hmarker := (marker_plain content options).length_le
  have hmax := maxChars_eq hTokens hBytes hmin
  simp only [contentBudget, charsPerToken] at hmax ⊢
  omega

/-- A cut content is what is left of the room, and its bytes are what the kept parts add. -/
theorem cut_size (hlong : contentBudget content options < content.units.length) :
    let cut := keptHead content options ++ marker (estimateTokens content.units) (byteLength content.units) options ++
      [0x0a] ++ keptTail content options
    cut.length + 7 = min (options.maxTokens * charsPerToken) maxBytes ∧
      byteLength cut = cut.length + keptSurplus content options := by
  intro cut
  obtain ⟨_, hbudget⟩ := @contentBudget_eq content options maxBytes hTokens hBytes hmin
  have hplain := marker_plain content options
  have hhead : (keptHead content options).length = (contentBudget content options + 1) / 2 := by
    simp only [keptHead, List.length_take]
    omega
  have htail : (keptTail content options).length = contentBudget content options / 2 := by
    simp only [keptTail, List.length_drop]
    omega
  have hlength : cut.length + 7 = min (options.maxTokens * charsPerToken) maxBytes := by
    simp only [cut, List.length_append, List.length_singleton, hhead, htail]
    omega
  refine ⟨hlength, ?_⟩
  have hascii : IsAscii (marker (estimateTokens content.units) (byteLength content.units) options ++ [0x0a]) :=
    hplain.ascii.append (by simp [IsAscii])
  have hbetween : byteLength cut = byteLength (keptHead content options) +
      (marker (estimateTokens content.units) (byteLength content.units) options ++ [0x0a]).length +
      byteLength (keptTail content options) := by
    rw [← hascii.byteLength_between (by simp), ← List.append_assoc]
  have hheadBytes : byteLength (keptHead content options) = _ := byteLength_eq
  have htailBytes : byteLength (keptTail content options) = _ := byteLength_eq
  rw [hbetween, hheadBytes, htailBytes, keptSurplus]
  simp only [cut, List.length_append]
  omega

/-- A tool's output stays within both limits exactly where its cut fits. -/
theorem output_bounded_iff :
    WithinLimits options (boundModelOutput content options).text ↔ CutFits content options maxBytes := by
  by_cases hwithin : WithinLimits options content.units
  · have htext : (boundModelOutput content options).text = content.units := by
      simp only [boundModelOutput, if_pos hwithin]
    rw [htext]
    exact iff_of_true hwithin (.inl hwithin)
  · by_cases hshort : content.units.length ≤ contentBudget content options
    · have htext : (boundModelOutput content options).text = content.units := by
        simp only [boundModelOutput, if_neg hwithin, if_pos hshort]
      rw [htext]
      refine iff_of_false hwithin ?_
      rintro (h | ⟨h, _⟩)
      · exact hwithin h
      · omega
    · have hlong : contentBudget content options < content.units.length := by omega
      obtain ⟨hlength, hbytes⟩ := cut_size hTokens hBytes hmin hlong
      have htext : (boundModelOutput content options).text = keptHead content options ++
          marker (estimateTokens content.units) (byteLength content.units) options ++ [0x0a] ++
            keptTail content options := by
        simp only [boundModelOutput, if_neg hwithin, if_neg hshort]
      rw [htext, CutFits]
      constructor
      · rintro ⟨_, hfits⟩
        have := hfits maxBytes hBytes
        exact .inr ⟨hlong, by omega⟩
      · rintro (h | ⟨_, hsurplus⟩)
        · exact absurd h hwithin
        · refine ⟨estimateTokens_le (by omega), ?_⟩
          intro n hn
          rw [hBytes, Option.mem_some_iff] at hn
          omega

theorem cutFits_of_ascii (h : IsAscii content.units) : CutFits content options maxBytes := by
  obtain ⟨_, hbudget⟩ := @contentBudget_eq content options maxBytes hTokens hBytes hmin
  by_cases hshort : content.units.length ≤ contentBudget content options
  · left
    have hbytes : byteLength content.units = content.units.length + surplus content.units := byteLength_eq
    rw [h.surplus_eq] at hbytes
    refine ⟨estimateTokens_le (by omega), ?_⟩
    intro n hn
    rw [hBytes, Option.mem_some_iff] at hn
    omega
  · right
    have hhead : IsAscii (keptHead content options) := fun u hu => h u (List.mem_of_mem_take hu)
    have htail : IsAscii (keptTail content options) := fun u hu => h u (List.mem_of_mem_drop hu)
    rw [keptSurplus, hhead.surplus_eq, htail.surplus_eq]
    omega

end

namespace Example

def euros : JsString := ⟨List.replicate 400 0x20ac, by rw [List.length_replicate]; decide⟩

def limits : ToolOutputOptions := ⟨250, some 1000, by decide, by simp⟩

theorem euros_bytes : byteLength euros.units = 1200 := by decide +kernel

theorem euros_over : ¬ WithinLimits limits euros.units := by
  rintro ⟨-, h⟩
  have := h 1000 rfl
  rw [euros_bytes] at this
  omega

theorem euros_uncut : (boundModelOutput euros limits).text = euros.units := by
  have hshort : euros.units.length ≤ contentBudget euros limits := by
    have hmarker := (marker_plain euros limits).length_le
    obtain ⟨-, hbudget⟩ := @contentBudget_eq euros limits 1000 (Nat.le_refl 250) rfl (Nat.le_refl 1000)
    have hlength : euros.units.length = 400 := List.length_replicate
    have hmax : min (limits.maxTokens * charsPerToken) 1000 = 1000 := rfl
    omega
  simp only [boundModelOutput, if_neg euros_over, if_pos hshort]

end Example

/-- Its 1200 bytes are over the limit, but its 400 code units leave nothing to cut. -/
theorem euros_not_bounded :
    250 ≤ Example.limits.maxTokens ∧ Example.limits.maxBytes = some 1000 ∧
      byteLength (boundModelOutput Example.euros Example.limits).text = 1200 ∧
      ¬ WithinLimits Example.limits (boundModelOutput Example.euros Example.limits).text := by
  rw [Example.euros_uncut]
  exact ⟨Nat.le_refl 250, rfl, Example.euros_bytes, Example.euros_over⟩

theorem euros_cut_does_not_fit : ¬ CutFits Example.euros Example.limits 1000 := by
  have hiff : WithinLimits Example.limits (boundModelOutput Example.euros Example.limits).text ↔ _ :=
    output_bounded_iff (Nat.le_refl 250) rfl (Nat.le_refl 1000)
  intro h
  have hwithin := hiff.mpr h
  rw [Example.euros_uncut] at hwithin
  exact Example.euros_over hwithin

end Catalyst.ModelContext
