import Catalyst.Library.Base64Url
import Catalyst.Previews.Selectors
import Mathlib

/-!
# Settings of previews

What a preview is rendered with is kept as a text: the settings are normalized, written as JSON
and encoded. They are normalized again when the text is read, so that a selector that was cut in
the middle may be trimmed or dropped the second time.
-/

namespace Catalyst.Previews

open Library

-- -----------------
-- Settings
-- -----------------

/-- A value as far as it is looked at: any that is no integer, text or array is like every other. -/
inductive SettingValue where
  | integer (n : ℤ)
  | text (s : Units)
  | array (items : List SettingValue)
  | other

/-- The fields that are read of a record, `other` where it has none. -/
structure SettingsRecord where
  pages : SettingValue
  slides : SettingValue
  sheets : SettingValue
  ranges : SettingValue
  maxImages : SettingValue

structure ArtifactPreviewRenderSettings where
  pages : Option (List ℤ)
  slides : Option (List ℤ)
  sheets : Option (List Units)
  ranges : Option (List Units)
  maxImages : Option ℤ
  deriving DecidableEq

def SettingValue.ofList (item : α → SettingValue) : Option (List α) → SettingValue
  | some items => .array (items.map item)
  | none => .other

def ArtifactPreviewRenderSettings.record (settings : ArtifactPreviewRenderSettings) : SettingsRecord where
  pages := .ofList .integer settings.pages
  slides := .ofList .integer settings.slides
  sheets := .ofList .text settings.sheets
  ranges := .ofList .text settings.ranges
  maxImages := settings.maxImages.elim .other .integer

/-- JSON as bytes of UTF-8, and the case mapping of the runtime. A text that is no JSON object is
read as none. -/
structure SettingsPlatform where
  toLowerCase : Units → Units
  stringify : ArtifactPreviewRenderSettings → List UInt8
  parse : List UInt8 → Option SettingsRecord

def maxSelectorValues : Nat := 40

/-- The first values of a list that differ in their keys: as many as are left to take, none whose
key was seen. -/
def distinctValues [DecidableEq κ] (value? : α → Option β) (key : β → κ) : Nat → List κ → List α → List β
  | 0, _, _ => []
  | _, _, [] => []
  | left + 1, seen, item :: items =>
    match value? item with
    | none => distinctValues value? key (left + 1) seen items
    | some value =>
      if key value ∈ seen then distinctValues value? key (left + 1) seen items
      else value :: distinctValues value? key left (key value :: seen) items

def normalizePositiveInteger : SettingValue → Option ℤ
  | .integer n => if 0 < n then some n else none
  | _ => none

def normalizePositiveIntegers : SettingValue → List ℤ
  | .array items => distinctValues normalizePositiveInteger id maxSelectorValues [] items
  | _ => []

def trimmedText : SettingValue → Option Units
  | .text s => if trim s = [] then none else some (trim s)
  | _ => none

def selectors (P : SettingsPlatform) : SettingValue → List Units
  | .array items => distinctValues trimmedText P.toLowerCase maxSelectorValues [] items
  | _ => []

def normalizeStrings (P : SettingsPlatform) (value : SettingValue) : List Units := (selectors P value).map (·.take 160)

def nonEmpty : List α → Option (List α)
  | [] => none
  | a :: as => some (a :: as)

def normalizeArtifactPreviewRenderSettings (P : SettingsPlatform) (input : SettingsRecord) :
    ArtifactPreviewRenderSettings where
  pages := nonEmpty (normalizePositiveIntegers input.pages)
  slides := nonEmpty (normalizePositiveIntegers input.slides)
  sheets := nonEmpty (normalizeStrings P input.sheets)
  ranges := nonEmpty (normalizeStrings P input.ranges)
  maxImages := normalizePositiveInteger input.maxImages

@[irreducible] def defaultSettingsHash : List Char := "default-image-pages-v1".toList

@[irreducible] def settingsPrefix : List Char := "preview-images-v1:".toList

def noSettings : ArtifactPreviewRenderSettings := ⟨none, none, none, none, none⟩

def createArtifactPreviewSettingsHash (P : SettingsPlatform) (settings : SettingsRecord) : List Char :=
  let normalized := normalizeArtifactPreviewRenderSettings P settings
  if normalized = noSettings then defaultSettingsHash
  else settingsPrefix ++ Base64Url.encode (P.stringify normalized)

def readArtifactPreviewSettingsHash (P : SettingsPlatform) (settingsHash : List Char) : ArtifactPreviewRenderSettings :=
  if settingsPrefix <+: settingsHash then
    match P.parse (Base64Url.decode (settingsHash.drop settingsPrefix.length)) with
    | some parsed => normalizeArtifactPreviewRenderSettings P parsed
    | none => noSettings
  else noSettings

section

variable {α β κ : Type} [DecidableEq κ] {value? : α → Option β} {key : β → κ} {left : Nat} {seen : List κ}
  {items : List α} {values : List β}

theorem distinctValues_length_le : (distinctValues value? key left seen items).length ≤ left ∧
    (distinctValues value? key left seen items).length ≤ items.length := by
  fun_induction distinctValues value? key left seen items with
  | case1 seen items => simp
  | case2 left seen hleft => simp
  | case3 left seen item items hnone ih => exact ⟨ih.1, ih.2.trans (Nat.le_succ _)⟩
  | case4 left seen item items value hsome hseen ih => exact ⟨ih.1, ih.2.trans (Nat.le_succ _)⟩
  | case5 left seen item items value hsome hseen ih => simpa using ih

theorem distinctValues_mem {value : β} (h : value ∈ distinctValues value? key left seen items) :
    ∃ item ∈ items, value? item = some value := by
  fun_induction distinctValues value? key left seen items with
  | case1 seen items => cases h
  | case2 left seen hleft => cases h
  | case3 left seen item items hnone ih => exact (ih h).imp fun _ h => ⟨List.mem_cons_of_mem _ h.1, h.2⟩
  | case4 left seen item items value' hsome hseen ih =>
    exact (ih h).imp fun _ h => ⟨List.mem_cons_of_mem _ h.1, h.2⟩
  | case5 left seen item items value' hsome hseen ih =>
    obtain rfl | h := List.mem_cons.mp h
    · exact ⟨item, List.mem_cons_self, hsome⟩
    · exact (ih h).imp fun _ h => ⟨List.mem_cons_of_mem _ h.1, h.2⟩

theorem distinctValues_nodup : ((distinctValues value? key left seen items).map key).Nodup ∧
    ∀ value ∈ distinctValues value? key left seen items, key value ∉ seen := by
  fun_induction distinctValues value? key left seen items with
  | case1 seen items => simp
  | case2 left seen hleft => simp
  | case3 left seen item items hnone ih => exact ih
  | case4 left seen item items value hsome hseen ih => exact ih
  | case5 left seen item items value hsome hseen ih =>
    obtain ⟨hnodup, hnew⟩ := ih
    refine ⟨List.nodup_cons.mpr ⟨fun hmem => ?_, hnodup⟩, List.forall_mem_cons.mpr ⟨hseen, fun value' h => ?_⟩⟩
    · obtain ⟨other, hother, hkey⟩ := List.mem_map.mp hmem
      exact hnew other hother (hkey ▸ List.mem_cons_self)
    · exact fun h' => hnew value' h (List.mem_cons_of_mem _ h')

/-- Values that differ in their keys are all taken, as long as there is room. -/
theorem distinctValues_all (hvalues : items.map value? = values.map some) (hroom : values.length ≤ left)
    (hnodup : (values.map key).Nodup) (hnew : ∀ value ∈ values, key value ∉ seen) :
    distinctValues value? key left seen items = values := by
  induction values generalizing left seen items with
  | nil =>
    obtain rfl := List.map_eq_nil_iff.mp hvalues
    cases left <;> rfl
  | cons value values ih =>
    cases items with
    | nil => cases hvalues
    | cons item items =>
      cases left with
      | zero => cases hroom
      | succ left =>
        obtain ⟨hvalue, hvalues⟩ := List.cons.inj hvalues
        obtain ⟨hfirst, hnodup⟩ := List.nodup_cons.mp hnodup
        obtain ⟨hseen, hnew⟩ := List.forall_mem_cons.mp hnew
        simp only [distinctValues, hvalue, if_neg hseen]
        rw [ih hvalues (Nat.le_of_succ_le_succ hroom) hnodup fun value' h hmem => ?_]
        obtain heq | hmem := List.mem_cons.mp hmem
        · exact hfirst (heq ▸ List.mem_map_of_mem h)
        · exact hnew value' h hmem

theorem distinctValues_whole (h : (distinctValues value? key left seen items).length = items.length) :
    items.map value? = (distinctValues value? key left seen items).map some := by
  fun_induction distinctValues value? key left seen items with
  | case1 seen items => rw [List.length_eq_zero_iff.mp h.symm]; rfl
  | case2 left seen hleft => rfl
  | case3 left seen item items hnone ih => exact absurd (h ▸ distinctValues_length_le.2) (Nat.not_succ_le_self _)
  | case4 left seen item items value hsome hseen ih =>
    exact absurd (h ▸ distinctValues_length_le.2) (Nat.not_succ_le_self _)
  | case5 left seen item items value hsome hseen ih =>
    rw [List.map_cons, List.map_cons, hsome, ih (Nat.succ.inj h)]

end

section

variable {P : SettingsPlatform} {input : SettingsRecord} {value : SettingValue}

theorem nonEmpty_inj {α : Type} {as bs : List α} : nonEmpty as = nonEmpty bs ↔ as = bs := by
  cases as <;> cases bs <;> simp [nonEmpty]

theorem normalizePositiveInteger_some {n : ℤ} (h : normalizePositiveInteger value = some n) :
    0 < n ∧ value = .integer n := by
  cases value with
  | integer m =>
    obtain ⟨hm, rfl⟩ : 0 < m ∧ m = n := by simpa [normalizePositiveInteger] using h
    exact ⟨hm, rfl⟩
  | _ => cases h

theorem normalizeInteger_again (value : SettingValue) :
    normalizePositiveInteger ((normalizePositiveInteger value).elim .other .integer) = normalizePositiveInteger value := by
  cases hvalue : normalizePositiveInteger value with
  | none => rfl
  | some n => exact if_pos (normalizePositiveInteger_some hvalue).1

theorem ofList_nonEmpty {α γ : Type} (f : SettingValue → γ) (item : α → SettingValue) (values : List α)
    (hother : f .other = f (.array [])) :
    f (.ofList item (nonEmpty values)) = f (.array (values.map item)) := by
  cases values with
  | nil => exact hother
  | cons v values => rfl

theorem normalizeIntegers_again (value : SettingValue) :
    normalizePositiveIntegers (.ofList .integer (nonEmpty (normalizePositiveIntegers value))) =
      normalizePositiveIntegers value := by
  cases value with
  | array items =>
    rw [ofList_nonEmpty normalizePositiveIntegers .integer _ rfl]
    refine distinctValues_all ?_ distinctValues_length_le.1 distinctValues_nodup.1 fun _ _ => List.not_mem_nil
    rw [List.map_map]
    refine List.map_congr_left fun n hn => ?_
    obtain ⟨item, _, hitem⟩ := distinctValues_mem hn
    exact if_pos (normalizePositiveInteger_some hitem).1
  | _ => rfl

/-- The cuts of the selectors stand: none ends in white space and none is like another. -/
structure CutsStand (P : SettingsPlatform) (value : SettingValue) : Prop where
  ends : ∀ s ∈ selectors P value, 160 < s.length → ∀ u ∈ s[159]?, isWhite u = false
  distinct : ((selectors P value).map fun s => P.toLowerCase (s.take 160)).Nodup

theorem trim_take {s : Units} (h : trim s = s) :
    trim (s.take 160) = s.take 160 ↔ (160 < s.length → ∀ u ∈ s[159]?, isWhite u = false) := by
  have hlast : (s.take 160).getLast? = s[159]?.or s.getLast? := by simp [List.getLast?_take]
  constructor
  · intro htrim hlong u hu
    refine trim_last (s.take 160) u ?_
    rw [htrim, hlast, hu]
    rfl
  · intro hends
    by_cases hlong : 160 < s.length
    · refine trim_eq_self (fun u hu => trim_first s u ?_) fun u hu => hends hlong u ?_
      · simpa [h, List.head?_take] using hu
      · simpa [hlast, List.getElem?_eq_getElem (show 159 < s.length by omega)] using hu
    · rw [List.take_of_length_le (Nat.not_lt.mp hlong), h]

theorem trimmedText_some {s : Units} (h : trimmedText value = some s) : s ≠ [] ∧ trim s = s := by
  cases value with
  | text t =>
    obtain ⟨hne, rfl⟩ : trim t ≠ [] ∧ trim t = s := by simpa [trimmedText] using h
    exact ⟨hne, trim_trim t⟩
  | _ => cases h

theorem selectors_trimmed {s : Units} (h : s ∈ selectors P value) : s ≠ [] ∧ trim s = s := by
  cases value with
  | array items =>
    obtain ⟨item, _, hitem⟩ := distinctValues_mem h
    exact trimmedText_some hitem
  | _ => cases h

theorem selectors_length (value : SettingValue) : (selectors P value).length ≤ maxSelectorValues := by
  cases value with
  | array items => exact distinctValues_length_le.1
  | _ => exact Nat.zero_le _

theorem selectors_nodup (value : SettingValue) : ((selectors P value).map P.toLowerCase).Nodup := by
  cases value with
  | array items => exact distinctValues_nodup.1
  | _ => exact List.nodup_nil

theorem cutsStand_iff : CutsStand P value ↔ (∀ s ∈ normalizeStrings P value, trim s = s) ∧
    ((normalizeStrings P value).map P.toLowerCase).Nodup := by
  have hends : (∀ s ∈ normalizeStrings P value, trim s = s) ↔
      ∀ s ∈ selectors P value, 160 < s.length → ∀ u ∈ s[159]?, isWhite u = false := by
    rw [normalizeStrings, List.forall_mem_map]
    exact forall₂_congr fun s hs => trim_take (selectors_trimmed hs).2
  rw [hends, normalizeStrings, List.map_map]
  exact ⟨fun h => ⟨h.ends, h.distinct⟩, fun h => ⟨h.1, h.2⟩⟩

theorem normalizeStrings_length {s : Units} (h : s ∈ normalizeStrings P value) : s ≠ [] ∧ s.length ≤ 160 := by
  obtain ⟨t, ht, rfl⟩ := List.mem_map.mp h
  exact ⟨by simpa using (selectors_trimmed ht).1, List.length_take_le _ _⟩

theorem normalizeStrings_again : normalizeStrings P (.ofList .text (nonEmpty (normalizeStrings P value))) =
    normalizeStrings P value ↔ CutsStand P value := by
  rw [ofList_nonEmpty (normalizeStrings P) .text _ rfl, cutsStand_iff]
  generalize hcuts : normalizeStrings P value = cuts
  have hcut (s : Units) (h : s ∈ cuts) : s ≠ [] ∧ s.length ≤ 160 := normalizeStrings_length (hcuts ▸ h)
  constructor
  · intro hagain
    have hwhole : (cuts.map SettingValue.text).map trimmedText = (selectors P (.array (cuts.map .text))).map some :=
      distinctValues_whole (by simpa [normalizeStrings, selectors] using congrArg List.length hagain)
    have htrims : selectors P (.array (cuts.map .text)) = cuts.map trim := by
      refine List.map_injective_iff.mpr (Option.some_injective _) (hwhole.symm.trans ?_)
      rw [List.map_map, List.map_map]
      refine List.map_congr_left fun s hs => ?_
      have hmem : trimmedText (.text s) ∈ (selectors P (.array (cuts.map .text))).map some :=
        hwhole ▸ List.mem_map_of_mem (List.mem_map_of_mem hs)
      obtain ⟨t, _, ht⟩ := List.mem_map.mp hmem
      have hne : trim s ≠ [] := fun he => by simp [trimmedText, he] at ht
      exact if_neg hne
    have hself : ∀ s ∈ cuts, trim s = s := by
      intro s hs
      rw [normalizeStrings, htrims, List.map_map] at hagain
      have hs' : (trim s).take 160 = s := List.map_inj_left.mp (hagain.trans (List.map_id cuts).symm) s hs
      rwa [List.take_of_length_le ((trim_length_le s).trans (hcut s hs).2)] at hs'
    refine ⟨hself, ?_⟩
    have hnodup := selectors_nodup (P := P) (.array (cuts.map .text))
    rwa [htrims, List.map_congr_left hself, List.map_id'] at hnodup
  · rintro ⟨hself, hnodup⟩
    have hall : selectors P (.array (cuts.map .text)) = cuts := by
      refine distinctValues_all ?_ ?_ hnodup fun _ _ => List.not_mem_nil
      · rw [List.map_map]
        refine List.map_congr_left fun s hs => ?_
        simp [trimmedText, hself s hs, (hcut s hs).1]
      · simpa [← hcuts, normalizeStrings] using selectors_length value
    rw [normalizeStrings, hall]
    exact List.map_congr_left (fun s hs => List.take_of_length_le (hcut s hs).2) |>.trans (List.map_id' cuts)

def SettingsPlatform.Carries (P : SettingsPlatform) (settings : ArtifactPreviewRenderSettings) : Prop :=
  P.parse (P.stringify settings) = some settings.record

theorem ofList_injective {α : Type} {item : α → SettingValue} (h : Function.Injective item) :
    Function.Injective (SettingValue.ofList item) := by
  intro as bs he
  cases as with
  | none =>
    cases bs with
    | none => rfl
    | some bs => cases he
  | some as =>
    cases bs with
    | none => cases he
    | some bs =>
      injection he with he
      rw [List.map_injective_iff.mpr h he]

theorem elim_injective : Function.Injective fun n : Option ℤ => n.elim SettingValue.other .integer := by
  intro m n h
  cases m <;> cases n <;> simp_all

theorem record_injective : Function.Injective ArtifactPreviewRenderSettings.record := by
  intro first second h
  have hinteger : Function.Injective SettingValue.integer := fun _ _ h => by injection h
  have htext : Function.Injective SettingValue.text := fun _ _ h => by injection h
  obtain ⟨hpages, hslides, hsheets, hranges, hmax⟩ := SettingsRecord.mk.inj h
  cases first
  cases second
  simp only [ArtifactPreviewRenderSettings.mk.injEq]
  exact ⟨ofList_injective hinteger hpages, ofList_injective hinteger hslides, ofList_injective htext hsheets,
    ofList_injective htext hranges, elim_injective hmax⟩

theorem default_ne (text : List Char) : defaultSettingsHash ≠ settingsPrefix ++ text := fun he =>
  absurd (congrArg List.head? he) (by simp [defaultSettingsHash, settingsPrefix])

theorem read_create (h : P.Carries (normalizeArtifactPreviewRenderSettings P input)) :
    readArtifactPreviewSettingsHash P (createArtifactPreviewSettingsHash P input) =
      normalizeArtifactPreviewRenderSettings P (normalizeArtifactPreviewRenderSettings P input).record := by
  unfold createArtifactPreviewSettingsHash
  generalize normalizeArtifactPreviewRenderSettings P input = normalized at h
  dsimp only
  split_ifs with hnone
  · subst hnone
    have hprefix : ¬ settingsPrefix <+: defaultSettingsHash := by
      rintro ⟨text, htext⟩
      exact default_ne text htext.symm
    rw [readArtifactPreviewSettingsHash, if_neg hprefix]
    rfl
  · rw [readArtifactPreviewSettingsHash, if_pos (List.prefix_append _ _), List.drop_left, Base64Url.decode_encode, h]

theorem create_injective {other : SettingsRecord} (h : P.Carries (normalizeArtifactPreviewRenderSettings P input))
    (hother : P.Carries (normalizeArtifactPreviewRenderSettings P other))
    (hhash : createArtifactPreviewSettingsHash P input = createArtifactPreviewSettingsHash P other) :
    normalizeArtifactPreviewRenderSettings P input = normalizeArtifactPreviewRenderSettings P other := by
  unfold createArtifactPreviewSettingsHash at hhash
  generalize normalizeArtifactPreviewRenderSettings P input = first at h hhash ⊢
  generalize normalizeArtifactPreviewRenderSettings P other = second at hother hhash ⊢
  dsimp only at hhash
  split_ifs at hhash with hfirst hsecond hsecond
  · rw [hfirst, hsecond]
  · exact absurd hhash (default_ne _)
  · exact absurd hhash.symm (default_ne _)
  · have hrecord : first.record = second.record := by
      have hbytes := Base64Url.encode_injective (List.append_cancel_left hhash)
      exact Option.some.inj (h.symm.trans ((congrArg P.parse hbytes).trans hother))
    exact record_injective hrecord

/-- What is asked of settings and selectors that are kept as texts. -/
structure SettingsSurvive (P : SettingsPlatform) (input : SettingsRecord) : Prop where
  read_back : readArtifactPreviewSettingsHash P (createArtifactPreviewSettingsHash P input) =
    normalizeArtifactPreviewRenderSettings P input
  idempotent : normalizeArtifactPreviewRenderSettings P (normalizeArtifactPreviewRenderSettings P input).record =
    normalizeArtifactPreviewRenderSettings P input
  apart : ∀ other, P.Carries (normalizeArtifactPreviewRenderSettings P other) →
    createArtifactPreviewSettingsHash P input = createArtifactPreviewSettingsHash P other →
      normalizeArtifactPreviewRenderSettings P input = normalizeArtifactPreviewRenderSettings P other
  selector : ∀ sheet range,
    parseSpreadsheetRangeSelector (formatSpreadsheetRangeSelector sheet range) = ⟨some sheet, trim range⟩
  sheets_apart : ∀ sheet sheet' range range',
    formatSpreadsheetRangeSelector sheet range = formatSpreadsheetRangeSelector sheet' range' → sheet = sheet'

/-- Settings survive if and only if the cuts of their sheets and of their ranges stand. -/
theorem settings_survive_iff (h : P.Carries (normalizeArtifactPreviewRenderSettings P input)) :
    SettingsSurvive P input ↔ CutsStand P input.sheets ∧ CutsStand P input.ranges := by
  have hagain : normalizeArtifactPreviewRenderSettings P (normalizeArtifactPreviewRenderSettings P input).record =
      normalizeArtifactPreviewRenderSettings P input ↔ CutsStand P input.sheets ∧ CutsStand P input.ranges := by
    rw [← normalizeStrings_again, ← normalizeStrings_again]
    simp [normalizeArtifactPreviewRenderSettings, ArtifactPreviewRenderSettings.record, normalizeIntegers_again,
      normalizeInteger_again, nonEmpty_inj]
  rw [← hagain]
  refine ⟨fun hsurvive => hsurvive.idempotent, fun hidempotent => ?_⟩
  refine ⟨(read_create h).trans hidempotent, hidempotent, fun other => create_injective h, parse_format, ?_⟩
  intro sheet sheet' range range' hformat
  have hparse := congrArg parseSpreadsheetRangeSelector hformat
  rw [parse_format, parse_format] at hparse
  injection hparse with hsheet
  exact Option.some.inj hsheet

end

namespace Sample

def platform (settings : ArtifactPreviewRenderSettings) (json : List Char) : SettingsPlatform where
  toLowerCase us := us.map fun u => if 0x41 ≤ u ∧ u ≤ 0x5a then u + 0x20 else u
  stringify _ := json.map fun c => .ofNat c.toNat
  parse _ := some settings.record

def spelledTwice : SettingsRecord where
  pages := .array [.integer 2]
  slides := .other
  sheets := .array [.text (ascii " Data"), .text (ascii "data ")]
  ranges := .other
  maxImages := .integer 8

def kept : ArtifactPreviewRenderSettings := ⟨some [2], none, some [ascii "Data"], none, some 8⟩

def keptText : List Char := '\x7b' :: "\"pages\":[2],\"sheets\":[\"Data\"],\"maxImages\":8\x7d".toList

def longName : Units := List.replicate 155 0x78 ++ ascii "-"

def twoRanges : SettingsRecord where
  pages := .other
  slides := .other
  sheets := .other
  ranges := .array [.text (formatSpreadsheetRangeSelector longName (ascii "A1")),
    .text (formatSpreadsheetRangeSelector longName (ascii "A2"))]
  maxImages := .integer 8

def cut : Units := [quoteMark] ++ longName ++ [quoteMark, exclamationMark] ++ ascii "A"

def cutSettings : ArtifactPreviewRenderSettings := ⟨none, none, none, some [cut, cut], some 8⟩

def cutText : List Char :=
  let range := '"' :: cut.map Char.ofNat ++ ['"']
  '\x7b' :: "\"ranges\":[".toList ++ range ++ ',' :: range ++ "],\"maxImages\":8\x7d".toList

end Sample

theorem settings_survive_iff_spelled :
    SettingsSurvive (Sample.platform Sample.kept Sample.keptText) Sample.spelledTwice := by
  have hnormalized : normalizeArtifactPreviewRenderSettings (Sample.platform Sample.kept Sample.keptText)
      Sample.spelledTwice = Sample.kept := by decide
  exact (settings_survive_iff (hnormalized ▸ rfl)).mpr ⟨⟨by decide, by decide⟩, by decide, by decide⟩

/-- Two cells of a sheet with a long name are kept as one selector twice, which is read as one. -/
theorem two_ranges_lost : ¬ ∀ input,
    (Sample.platform Sample.cutSettings Sample.cutText).Carries
      (normalizeArtifactPreviewRenderSettings (Sample.platform Sample.cutSettings Sample.cutText) input) →
    SettingsSurvive (Sample.platform Sample.cutSettings Sample.cutText) input := by
  intro h
  have hcarries : (Sample.platform Sample.cutSettings Sample.cutText).Carries (normalizeArtifactPreviewRenderSettings
      (Sample.platform Sample.cutSettings Sample.cutText) Sample.twoRanges) := by
    rw [show normalizeArtifactPreviewRenderSettings (Sample.platform Sample.cutSettings Sample.cutText)
      Sample.twoRanges = Sample.cutSettings by decide +kernel]
    rfl
  have hstand := ((settings_survive_iff hcarries).mp (h Sample.twoRanges hcarries)).2
  exact absurd hstand.distinct (by decide +kernel)

end Catalyst.Previews
