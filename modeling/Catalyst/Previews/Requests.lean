import Catalyst.Previews.Settings
import Mathlib

/-!
# Requests of previews

A preview is asked for by pages, slides, sheets or ranges. The selection becomes the settings of a render, and
the pages of a ready preview answer it where they carry every label that was asked for.
-/

namespace Catalyst.Previews

open Library

structure PreviewImagesInput where
  pages : Option (List ℤ)
  slides : Option (List ℤ)
  sheets : Option (List Units)
  ranges : Option (List Units)
  maxImages : ℤ

def maxPreviewImages : Nat := 12

/-- `workspacePreviewPositiveIntegerListSchema` -/
def AcceptedNumbers (values : List ℤ) : Prop := values ≠ [] ∧ values.length ≤ maxPreviewImages ∧ ∀ n ∈ values, 1 ≤ n

/-- `workspacePreviewTextListSchema` -/
def AcceptedTexts (values : List Units) : Prop :=
  values ≠ [] ∧ values.length ≤ maxPreviewImages ∧ ∀ s ∈ values, s ≠ [] ∧ s.length ≤ 160

/-- `workspacePreviewImagesInputSchema` -/
structure PreviewImagesInput.Accepted (input : PreviewImagesInput) : Prop where
  pages : ∀ pages ∈ input.pages, AcceptedNumbers pages
  slides : ∀ slides ∈ input.slides, AcceptedNumbers slides
  sheets : ∀ sheets ∈ input.sheets, AcceptedTexts sheets
  ranges : ∀ ranges ∈ input.ranges, AcceptedTexts ranges
  maxImages : 1 ≤ input.maxImages ∧ input.maxImages ≤ maxPreviewImages

def spreadsheetSelectorKey (P : SettingsPlatform) (value : Units) : Units := P.toLowerCase (trim value)

def singleSheetSelector : Option (List Units) → Option Units
  | some [sheet] => some (trim sheet)
  | _ => none

def canonicalRange (sheets : Option (List Units)) (range : Units) : Option (Units × Units) :=
  let parsed := parseSpreadsheetRangeSelector range
  (parsed.sheetName.or (singleSheetSelector sheets)).bind fun sheet =>
    if sheet = [] then none else some (sheet, formatSpreadsheetRangeSelector sheet parsed.rangeText)

inductive PreviewRefusal where
  /-- XLSX range selectors must include a sheet name or be paired with exactly one sheet selector -/
  | rangeWithoutSheet (range : Units)
  /-- XLSX sheet selectors must match requested range sheets when ranges are provided -/
  | missingRangeSheets (sheets : List Units)
  /-- selector count exceeds maxImages -/
  | tooManySelectors (selectorCount : Nat)
  deriving DecidableEq

def normalizePreviewImagesInput (P : SettingsPlatform) (input : PreviewImagesInput) :
    Except PreviewRefusal PreviewImagesInput :=
  match input.ranges with
  | none | some [] => .ok input
  | some ranges =>
    match ranges.find? fun range => (canonicalRange input.sheets range).isNone with
    | some range => .error (.rangeWithoutSheet range)
    | none =>
      let canonical := ranges.filterMap (canonicalRange input.sheets)
      let missing := ((input.sheets.getD []).map (spreadsheetSelectorKey P)).filter fun sheet =>
        sheet ∉ canonical.map fun c => spreadsheetSelectorKey P c.1
      if missing = [] then .ok { input with ranges := some (canonical.map Prod.snd) }
      else .error (.missingRangeSheets missing)

def countRequestedPreviewImages (input : PreviewImagesInput) : Nat :=
  max (max ((input.pages.getD []).length) ((input.slides.getD []).length))
    (max (((input.ranges.or input.sheets).getD []).length) ((input.sheets.getD []).length))

structure PageLabel where
  pageNumber : Option ℤ
  slideNumber : Option ℤ
  sheet : Option Units
  range : Option Units
  deriving DecidableEq

def PreviewImagesInput.HasSelection (input : PreviewImagesInput) : Prop :=
  input.pages.getD [] ≠ [] ∨ input.slides.getD [] ≠ [] ∨ input.sheets.getD [] ≠ [] ∨ input.ranges.getD [] ≠ []
  deriving Decidable

def CoversAllNumbers (candidates : List PageLabel) (values : Option (List ℤ)) (key : PageLabel → Option ℤ) : Prop :=
  ∀ value ∈ values.getD [], ∃ candidate ∈ candidates, key candidate = some value
  deriving Decidable

def CoversAllStrings (P : SettingsPlatform) (candidates : List PageLabel) (values : Option (List Units))
    (key : PageLabel → Option Units) : Prop :=
  ∀ value ∈ values.getD [], ∃ candidate ∈ candidates,
    (key candidate).map (spreadsheetSelectorKey P) = some (spreadsheetSelectorKey P value)
  deriving Decidable

def ReadyCandidatesCoverSelection (P : SettingsPlatform) (candidates : List PageLabel) (input : PreviewImagesInput) : Prop :=
  input.HasSelection → CoversAllNumbers candidates input.pages (·.pageNumber) ∧
    CoversAllNumbers candidates input.slides (·.slideNumber) ∧ CoversAllStrings P candidates input.sheets (·.sheet) ∧
    CoversAllStrings P candidates input.ranges (·.range)

instance : Decidable (ReadyCandidatesCoverSelection P candidates input) := inferInstanceAs (Decidable (_ → _))

def matchesSelection (P : SettingsPlatform) (input : PreviewImagesInput) (candidate : PageLabel) : Prop :=
  input.HasSelection →
    (∃ n ∈ candidate.pageNumber, n ∈ input.pages.getD []) ∨ (∃ n ∈ candidate.slideNumber, n ∈ input.slides.getD []) ∨
    (∃ s ∈ candidate.sheet, spreadsheetSelectorKey P s ∈ (input.sheets.getD []).map (spreadsheetSelectorKey P)) ∨
    ∃ s ∈ candidate.range, spreadsheetSelectorKey P s ∈ (input.ranges.getD []).map (spreadsheetSelectorKey P)

instance : DecidablePred (matchesSelection P input) := fun _ => inferInstanceAs (Decidable (_ → _))

structure CellRange where
  startRow : ℤ
  startColumn : ℤ
  endRow : ℤ
  endColumn : ℤ
  deriving DecidableEq

/-- `decode_range` and `encode_range` of the library of spreadsheets, none where they throw. -/
structure SpreadsheetPlatform where
  decodeRange : Units → Option CellRange
  encodeRange : CellRange → Option Units

structure Workbook where
  sheetNames : List Units
  /-- The range of a sheet that is in use, where the sheet names one. -/
  ref : Units → Option Units

inductive SourceDocument where
  /-- A text document or a PDF. -/
  | document (pageCount : Nat)
  | presentation (slideCount : Nat)
  | spreadsheet (workbook : Workbook)
  /-- Of a kind that no preview is rendered of. -/
  | other

structure SpreadsheetRenderSelection where
  sheetName : Units
  metadataRange : Option Units
  deriving DecidableEq

def spreadsheetPreviewMaxCells : ℤ := 50000

def resolveSpreadsheetSheetName (P : SettingsPlatform) (sheetNames : List Units) (requestedSheetName : Option Units) :
    Option Units :=
  (((requestedSheetName.map trim).filter (· ≠ [])).or sheetNames.head?).bind fun requested =>
    if requested = [] then none
    else sheetNames.find? fun sheetName => P.toLowerCase sheetName = P.toLowerCase requested

def WithinSpreadsheetBounds (range : CellRange) : Prop :=
  let rowCount := range.endRow - range.startRow + 1
  let columnCount := range.endColumn - range.startColumn + 1
  0 < rowCount ∧ 0 < columnCount ∧ rowCount * columnCount ≤ spreadsheetPreviewMaxCells
  deriving Decidable

section

variable (P : SettingsPlatform) (X : SpreadsheetPlatform) (workbook : Workbook)

def decodeSpreadsheetRange (rangeText : Units) : Option CellRange :=
  (X.decodeRange (trim rangeText)).filter fun range => WithinSpreadsheetBounds range

def spreadsheetSelectionFromRange (rangeText : Units) (fallbackSheetName : Option Units) : Option SpreadsheetRenderSelection := do
  let parsed := parseSpreadsheetRangeSelector rangeText
  let sheetName ← resolveSpreadsheetSheetName P workbook.sheetNames (parsed.sheetName.or fallbackSheetName)
  let range ← decodeSpreadsheetRange X parsed.rangeText
  let text ← X.encodeRange range
  some ⟨sheetName, some (formatSpreadsheetRangeSelector sheetName text)⟩

def spreadsheetSelectionFromSheet (requestedSheetName : Units) : Option SpreadsheetRenderSelection := do
  let sheetName ← resolveSpreadsheetSheetName P workbook.sheetNames (some requestedSheetName)
  let _ ← decodeSpreadsheetRange X ((workbook.ref sheetName).getD (ascii "A1:A1"))
  some ⟨sheetName, none⟩

def rangesWithSheets (ranges sheets : List Units) : List (Units × Option Units) :=
  match ranges with
  | [range] => if 1 < sheets.length then sheets.map fun sheet => (range, some sheet) else [(range, sheets.head?)]
  | ranges => ranges.zipIdx.map fun (range, index) => (range, sheets[index]?.or sheets.head?)

def spreadsheetRenderSelections (settings : ArtifactPreviewRenderSettings) (maxPages : Nat) :
    Option (List SpreadsheetRenderSelection) :=
  match settings.ranges.getD [], settings.sheets.getD [] with
  | [], [] => (workbook.sheetNames.take maxPages).mapM (spreadsheetSelectionFromSheet P X workbook)
  | [], sheet :: sheets => ((sheet :: sheets).take maxPages).mapM (spreadsheetSelectionFromSheet P X workbook)
  | range :: ranges, sheets =>
    ((rangesWithSheets (range :: ranges) sheets).mapM fun r => spreadsheetSelectionFromRange P X workbook r.1 r.2).map
      (·.take maxPages)

end

def rasterPageNumbers (requested : List ℤ) (pageCount maxPages : Nat) : Option (List ℤ) :=
  if requested ≠ [] then
    let selected := requested.filter fun n => n ≤ (pageCount : ℤ)
    if selected = [] then none else some (selected.take maxPages)
  else some ((List.range (min pageCount maxPages)).map fun index => (index : ℤ) + 1)

/-- The labels of the pages that a worker renders, where the rendering succeeds. -/
def renderedLabels (P : SettingsPlatform) (X : SpreadsheetPlatform) (source : SourceDocument)
    (settings : ArtifactPreviewRenderSettings) (maxPages : Nat) : Option (List PageLabel) :=
  let limit := min ((settings.maxImages.map Int.toNat).getD maxPages) maxPages
  (match source with
    | .document pageCount =>
      if pageCount = 0 then none
      else (rasterPageNumbers (settings.pages.getD []) pageCount limit).map fun numbers : List ℤ =>
        numbers.map fun n => ⟨some n, none, none, none⟩
    | .presentation slideCount =>
      if slideCount = 0 then none
      else (rasterPageNumbers (settings.slides.getD []) slideCount limit).map fun numbers : List ℤ =>
        numbers.map fun n => ⟨none, some n, none, none⟩
    | .spreadsheet workbook => (spreadsheetRenderSelections P X workbook settings limit).map fun selections =>
        selections.map fun s => ⟨none, none, some s.sheetName, s.metadataRange⟩
    | .other => none : Option (List PageLabel)).filter fun labels => labels ≠ [] ∧ labels.length ≤ limit

def readShortString (value : Units) : Option Units := if value ≠ [] ∧ value.length ≤ 160 then some value else none

/-- `sanitizePreviewPage` of the labels. -/
def sanitizePreviewPage (page : PageLabel) : PageLabel where
  pageNumber := page.pageNumber.filter (0 < ·)
  slideNumber := page.slideNumber.filter (0 < ·)
  sheet := page.sheet.bind readShortString
  range := page.range.bind readShortString

inductive PreviewLifecycle where
  | ready (pages : List PageLabel) (active : Bool)
  | active
  | failed
  | missing (completedWithoutManifest : Bool)

inductive PreviewAnswer where
  | refused (refusal : PreviewRefusal)
  /-- From the pages of a preview that is ready. -/
  | ready (images : List PageLabel)
  /-- A render goes on, or is queued by the call. -/
  | pending (queued : Bool)
  | failed
  deriving DecidableEq

/-- The selection of a call as it is compared and stored, where it is accepted. -/
def prepareSelection (P : SettingsPlatform) (input : PreviewImagesInput) (maxImages : ℤ) :
    Except PreviewRefusal PreviewImagesInput :=
  match normalizePreviewImagesInput P input with
  | .error refusal => .error refusal
  | .ok normalized =>
    if maxImages < countRequestedPreviewImages normalized then
      .error (.tooManySelectors (countRequestedPreviewImages normalized))
    else .ok normalized

def renderSettings (selection : PreviewImagesInput) (maxImages : ℤ) : SettingsRecord where
  pages := .ofList .integer selection.pages
  slides := .ofList .integer selection.slides
  sheets := .ofList .text selection.sheets
  ranges := .ofList .text selection.ranges
  maxImages := .integer maxImages

/-- The call for an artifact, by what is known of the preview with its settings. -/
def resolveWorkspacePreviewImages (P : SettingsPlatform) (source : SourceDocument) (lifecycle : PreviewLifecycle)
    (limit : ℤ) (input : PreviewImagesInput) : PreviewAnswer :=
  let maxImages := min input.maxImages limit
  match prepareSelection P input maxImages with
  | .error refusal => .refused refusal
  | .ok selection =>
    match lifecycle with
    | .ready pages active =>
      let candidates := pages.map sanitizePreviewPage
      match source with
      | .other => .ready ((candidates.filter fun c => matchesSelection P selection c).take maxImages.toNat)
      | _ =>
        if ReadyCandidatesCoverSelection P candidates selection then
          .ready ((candidates.filter fun c => matchesSelection P selection c).take maxImages.toNat)
        else .pending (!active)
    | .active => .pending false
    | .failed | .missing true => .failed
    | .missing false =>
      match source with
      | .other => .failed
      | _ => .pending true

def PreviewAnswer.FromPreview : PreviewAnswer → Prop
  | .ready _ => True
  | _ => False

instance : DecidablePred PreviewAnswer.FromPreview
  | .ready _ => .isTrue trivial
  | .refused _ | .pending _ | .failed => .isFalse id

end Catalyst.Previews
