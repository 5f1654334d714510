import Catalyst.Previews.Requests
import Mathlib

/-!
# Requests that settle

A preview that was rendered with the settings of a request answers the request when it is repeated, if its pages carry
all labels that were asked for. A page out of the document, a selector of another kind of document and a range that is
not written as its label is are never covered.
-/

namespace Catalyst.Previews

open Library

variable {P : SettingsPlatform} {X : SpreadsheetPlatform} {input selection : PreviewImagesInput} {labels : List PageLabel}

-- -----------------
-- Values that are kept
-- -----------------

theorem distinctValues_complete {α β κ : Type} [DecidableEq κ] {value? : α → Option β} {key : β → κ} {left : Nat}
    (seen : List κ) {items : List α} (hroom : items.length ≤ left) {item : α} (hitem : item ∈ items) {value : β}
    (hvalue : value? item = some value) :
    key value ∈ seen ∨ ∃ kept ∈ distinctValues value? key left seen items, key kept = key value := by
  fun_induction distinctValues value? key left seen items with
  | case1 seen items => rw [List.length_eq_zero_iff.mp (Nat.le_zero.mp hroom)] at hitem; cases hitem
  | case2 left seen hleft => cases hitem
  | case3 left seen first items hnone ih =>
    obtain rfl | hitem := List.mem_cons.mp hitem
    · rw [hnone] at hvalue
      cases hvalue
    · exact ih ((Nat.le_succ _).trans hroom) hitem
  | case4 left seen first items value' hsome hseen ih =>
    obtain rfl | hitem := List.mem_cons.mp hitem
    · obtain rfl := Option.some.inj (hsome.symm.trans hvalue)
      exact .inl hseen
    · exact ih ((Nat.le_succ _).trans hroom) hitem
  | case5 left seen first items value' hsome hseen ih =>
    obtain rfl | hitem := List.mem_cons.mp hitem
    · obtain rfl := Option.some.inj (hsome.symm.trans hvalue)
      exact .inr ⟨_, List.mem_cons_self, rfl⟩
    · obtain hseen' | ⟨kept, hkept, hkey⟩ := ih (Nat.le_of_succ_le_succ hroom) hitem
      · obtain hsame | hseen' := List.mem_cons.mp hseen'
        · exact .inr ⟨_, List.mem_cons_self, hsame.symm⟩
        · exact .inl hseen'
      · exact .inr ⟨kept, List.mem_cons_of_mem _ hkept, hkey⟩

theorem length_le_of_subset_take {α : Type} {l : List α} {n : Nat} (hl : l.Nodup) (h : ∀ a ∈ l, a ∈ l.take n) :
    l.length ≤ n :=
  (hl.subperm fun a ha => h a ha).length_le.trans (List.length_take_le n l)

theorem getD_nonEmpty {α : Type} (l : List α) : (nonEmpty l).getD [] = l := by cases l <;> rfl

section numbers

variable {values : List ℤ} {count limit : Nat}

def keptNumbers (values : List ℤ) : List ℤ := normalizePositiveIntegers (.array (values.map .integer))

theorem nodup_keptNumbers : (keptNumbers values).Nodup := by
  have h : ((keptNumbers values).map id).Nodup := distinctValues_nodup.1
  rwa [List.map_id] at h

theorem mem_keptNumbers (hpositive : ∀ n ∈ values, 1 ≤ n) (hlength : values.length ≤ maxSelectorValues) {n : ℤ} :
    n ∈ keptNumbers values ↔ n ∈ values := by
  constructor
  · intro h
    obtain ⟨item, hitem, hn⟩ := distinctValues_mem h
    obtain ⟨m, hm, rfl⟩ := List.mem_map.mp hitem
    obtain ⟨-, he⟩ := normalizePositiveInteger_some hn
    injection he with he
    exact he ▸ hm
  · intro h
    have hvalue : normalizePositiveInteger (.integer n) = some n := if_pos (hpositive n h)
    have hkept : id n ∈ [] ∨ ∃ kept ∈ keptNumbers values, id kept = id n :=
      distinctValues_complete [] (by simpa using hlength) (List.mem_map_of_mem h) hvalue
    obtain hseen | ⟨kept, hkept, rfl⟩ := hkept
    · cases hseen
    · exact hkept

theorem length_keptNumbers (hpositive : ∀ n ∈ values, 1 ≤ n) (hlength : values.length ≤ maxSelectorValues) :
    (keptNumbers values).length = values.toFinset.card := by
  rw [← List.toFinset_card_of_nodup nodup_keptNumbers]
  congr 1
  ext n
  simp [mem_keptNumbers hpositive hlength]

def NumbersWithin (values : List ℤ) (count limit : Nat) : Prop :=
  (∀ n ∈ values, n ≤ (count : ℤ)) ∧ values.toFinset.card ≤ limit

/-- The pages that are rendered of the numbers have them all if and only if all are within the document and the limit. -/
theorem covers_numbers {numbers : List ℤ} (haccepted : AcceptedNumbers values)
    (hraster : rasterPageNumbers (keptNumbers values) count limit = some numbers) :
    (∀ n ∈ values, n ∈ numbers) ↔ NumbersWithin values count limit := by
  obtain ⟨hne, hlength, hpositive⟩ := haccepted
  have hlength : values.length ≤ maxSelectorValues := hlength.trans (by decide)
  have hmem {n : ℤ} : n ∈ keptNumbers values ↔ n ∈ values := mem_keptNumbers hpositive hlength
  have hkept : keptNumbers values ≠ [] := by
    obtain ⟨n, hn⟩ := List.exists_mem_of_ne_nil _ hne
    exact List.ne_nil_of_mem (hmem.mpr hn)
  have hnumbers : numbers = ((keptNumbers values).filter fun n => n ≤ (count : ℤ)).take limit := by
    rw [rasterPageNumbers, if_pos hkept] at hraster
    dsimp only at hraster
    split_ifs at hraster
    exact (Option.some.inj hraster).symm
  have hwhole (hin : ∀ n ∈ values, n ≤ (count : ℤ)) : ((keptNumbers values).filter fun n => n ≤ (count : ℤ)) = keptNumbers values :=
    List.filter_eq_self.mpr fun n hn => decide_eq_true (hin n (hmem.mp hn))
  rw [hnumbers, NumbersWithin, ← length_keptNumbers hpositive hlength]
  constructor
  · intro h
    have hin : ∀ n ∈ values, n ≤ (count : ℤ) := fun n hn => by
      simpa using (List.mem_filter.mp (List.mem_of_mem_take (h n hn))).2
    rw [hwhole hin] at h
    exact ⟨hin, length_le_of_subset_take nodup_keptNumbers fun n hn => h n (hmem.mp hn)⟩
  · rintro ⟨hin, hlimit⟩ n hn
    rw [hwhole hin, List.take_of_length_le hlimit]
    exact hmem.mpr hn

end numbers

structure SettingsPlatform.MapsCase (P : SettingsPlatform) : Prop where
  trim : ∀ s, P.toLowerCase (trim s) = trim (P.toLowerCase s)
  nil : ∀ s, P.toLowerCase s = [] ↔ s = []

def Labelled (P : SettingsPlatform) (labels : List Units) (value : Units) : Prop :=
  ∃ label ∈ labels, label ≠ [] ∧ label.length ≤ 160 ∧ spreadsheetSelectorKey P label = spreadsheetSelectorKey P value

theorem readShortString_eq_some {s t : Units} : readShortString s = some t ↔ s = t ∧ s ≠ [] ∧ s.length ≤ 160 := by
  unfold readShortString
  split_ifs with h
  · simp [h]
  · simp [h]

theorem coversAllStrings_iff {values : Option (List Units)} {key : PageLabel → Option Units}
    (hkey : ∀ label, key (sanitizePreviewPage label) = (key label).bind readShortString) :
    CoversAllStrings P (labels.map sanitizePreviewPage) values key ↔ ∀ value ∈ values.getD [], Labelled P (labels.filterMap key) value := by
  refine forall₂_congr fun value _ => ⟨?_, ?_⟩
  · rintro ⟨candidate, hcandidate, hvalue⟩
    obtain ⟨label, hlabel, rfl⟩ := List.mem_map.mp hcandidate
    obtain ⟨text, htext, hsame⟩ := Option.map_eq_some_iff.mp hvalue
    rw [hkey] at htext
    obtain ⟨written, hwritten, hshort⟩ := Option.bind_eq_some_iff.mp htext
    obtain ⟨rfl, hne, hlength⟩ := readShortString_eq_some.mp hshort
    exact ⟨written, List.mem_filterMap.mpr ⟨label, hlabel, hwritten⟩, hne, hlength, hsame⟩
  · rintro ⟨text, htext, hne, hlength, hsame⟩
    obtain ⟨label, hlabel, hwritten⟩ := List.mem_filterMap.mp htext
    refine ⟨_, List.mem_map_of_mem hlabel, ?_⟩
    rw [hkey, hwritten, Option.bind_some, readShortString_eq_some.mpr ⟨rfl, hne, hlength⟩, Option.map_some, hsame]

theorem coversAllNumbers_iff {values : Option (List ℤ)} {key : PageLabel → Option ℤ}
    (hkey : ∀ label, key (sanitizePreviewPage label) = (key label).filter (0 < ·)) (hpositive : ∀ n ∈ values.getD [], 1 ≤ n) :
    CoversAllNumbers (labels.map sanitizePreviewPage) values key ↔ ∀ n ∈ values.getD [], n ∈ labels.filterMap key := by
  refine forall₂_congr fun n hn => ?_
  simp only [List.mem_map, List.mem_filterMap, exists_exists_and_eq_and, hkey, Option.filter_eq_some_iff,
    decide_eq_true_eq]
  exact exists_congr fun label => and_congr_right fun _ => and_iff_left (hpositive n hn)

theorem mapM_eq_some {α β : Type} {f : α → Option β} {as : List α} {bs : List β} :
    as.mapM f = some bs ↔ as.map f = bs.map some := by
  induction as generalizing bs with
  | nil => cases bs <;> simp
  | cons a as ih =>
    cases bs with
    | nil => simp [List.mapM_cons, Option.bind_eq_some_iff]
    | cons b bs => simp [List.mapM_cons, Option.bind_eq_some_iff, ← ih]

theorem mem_of_mapM {α β : Type} {f : α → Option β} {as : List α} {bs : List β} (h : as.mapM f = some bs) {b : β} :
    b ∈ bs ↔ ∃ a ∈ as, f a = some b := by
  have hb : b ∈ bs ↔ some b ∈ bs.map some := by simp
  rw [hb, ← mapM_eq_some.mp h]
  simp

section sheets

variable {sheetNames sheets : List Units} {s name : Units}

theorem key_eq_nil (hP : P.MapsCase) : spreadsheetSelectorKey P s = [] ↔ trim s = [] := hP.nil _

theorem key_trim (s : Units) : spreadsheetSelectorKey P (trim s) = spreadsheetSelectorKey P s := by
  rw [spreadsheetSelectorKey, trim_trim, spreadsheetSelectorKey]

theorem resolve_some (hs : trim s ≠ []) : resolveSpreadsheetSheetName P sheetNames (some s) = some name ↔
    sheetNames.find? (fun sheetName => P.toLowerCase sheetName = spreadsheetSelectorKey P s) = some name := by
  have hrequested : ((some s).map trim).filter (· ≠ []) = some (trim s) :=
    Option.filter_eq_some_iff.mpr ⟨rfl, by simpa using hs⟩
  rw [resolveSpreadsheetSheetName, hrequested, Option.some_or, Option.bind_some, if_neg hs]
  rfl

theorem resolve_key (hP : P.MapsCase) (hs : trim s ≠ []) (h : resolveSpreadsheetSheetName P sheetNames (some s) = some name) :
    name ≠ [] ∧ spreadsheetSelectorKey P name = spreadsheetSelectorKey P s := by
  have hlower : P.toLowerCase name = spreadsheetSelectorKey P s := by
    simpa using List.find?_some ((resolve_some hs).mp h)
  have hkey : spreadsheetSelectorKey P name = spreadsheetSelectorKey P s := by
    calc spreadsheetSelectorKey P name = trim (P.toLowerCase name) := hP.trim name
      _ = trim (P.toLowerCase (trim s)) := by rw [hlower, spreadsheetSelectorKey]
      _ = P.toLowerCase (trim (trim s)) := (hP.trim _).symm
      _ = spreadsheetSelectorKey P s := by rw [trim_trim, spreadsheetSelectorKey]
  refine ⟨fun hname => hs ((key_eq_nil hP).mp ?_), hkey⟩
  rw [← hkey, hname]
  exact (key_eq_nil hP).mpr rfl

theorem resolve_congr {t : Units} (hs : trim s ≠ []) (ht : trim t ≠ []) (h : spreadsheetSelectorKey P s = spreadsheetSelectorKey P t) :
    resolveSpreadsheetSheetName P sheetNames (some s) = resolveSpreadsheetSheetName P sheetNames (some t) :=
  Option.ext fun _ => (resolve_some hs).trans (h ▸ (resolve_some ht).symm)

theorem resolve_blank (hs : trim s = []) (h : resolveSpreadsheetSheetName P sheetNames (some s) = some name) :
    sheetNames.head? = some name ∧ name ≠ [] := by
  have hrequested : ((some s).map trim).filter (· ≠ []) = none := Option.filter_eq_none_iff.mpr (by simp [hs])
  rw [resolveSpreadsheetSheetName, hrequested, Option.none_or] at h
  cases sheetNames with
  | nil => cases h
  | cons first rest =>
    rw [List.head?_cons, Option.bind_some] at h
    split_ifs at h with hfirst
    rw [List.find?_cons_of_pos (by simp)] at h
    exact ⟨h, Option.some.inj h ▸ hfirst⟩

def keptSheets (P : SettingsPlatform) (sheets : List Units) : List Units := selectors P (.array (sheets.map .text))

theorem mem_keptSheets {c : Units} (h : c ∈ keptSheets P sheets) : (∃ s ∈ sheets, trim s = c) ∧ trim c = c ∧ c ≠ [] := by
  obtain ⟨hne, htrim⟩ := selectors_trimmed h
  obtain ⟨item, hitem, hc⟩ := distinctValues_mem h
  obtain ⟨s, hs, rfl⟩ := List.mem_map.mp hitem
  have hc : trim s ≠ [] ∧ trim s = c := by simpa [trimmedText] using hc
  exact ⟨⟨s, hs, hc.2⟩, htrim, hne⟩

theorem exists_keptSheets (hlength : sheets.length ≤ maxSelectorValues) (h : s ∈ sheets) (hs : trim s ≠ []) :
    ∃ c ∈ keptSheets P sheets, spreadsheetSelectorKey P c = spreadsheetSelectorKey P s := by
  have hvalue : trimmedText (.text s) = some (trim s) := if_neg hs
  have hkept : P.toLowerCase (trim s) ∈ [] ∨ ∃ c ∈ keptSheets P sheets, P.toLowerCase c = P.toLowerCase (trim s) :=
    distinctValues_complete [] (by simpa using hlength) (List.mem_map_of_mem h) hvalue
  obtain hseen | ⟨c, hc, hkey⟩ := hkept
  · cases hseen
  · refine ⟨c, hc, ?_⟩
    rw [spreadsheetSelectorKey, (mem_keptSheets hc).2.1, hkey, spreadsheetSelectorKey]

theorem nodup_keptSheets : ((keptSheets P sheets).map (spreadsheetSelectorKey P)).Nodup := by
  have h : (keptSheets P sheets).map (spreadsheetSelectorKey P) = (keptSheets P sheets).map P.toLowerCase :=
    List.map_congr_left fun c hc => by rw [spreadsheetSelectorKey, (mem_keptSheets hc).2.1]
  rw [h]
  exact selectors_nodup _

/-- The sheets that are asked for alone settle: each by its name, no more than are rendered; or all are blank, as the
name of the first sheet is. -/
def SheetsSettle (P : SettingsPlatform) (sheetNames sheets : List Units) (maxPages : Nat) : Prop :=
  ((∀ s ∈ sheets, trim s ≠ [] ∧ ∀ name ∈ resolveSpreadsheetSheetName P sheetNames (some s), name.length ≤ 160) ∧
      (sheets.map (spreadsheetSelectorKey P)).toFinset.card ≤ maxPages) ∨
    (∀ s ∈ sheets, trim s = []) ∧ ∀ name ∈ sheetNames.head?, trim name = [] ∧ name.length ≤ 160

variable {workbook : Workbook} {selections : List SpreadsheetRenderSelection} {limit : Nat}

theorem selectionFromSheet_some {sel : SpreadsheetRenderSelection} (h : spreadsheetSelectionFromSheet P X workbook s = some sel) :
    resolveSpreadsheetSheetName P workbook.sheetNames (some s) = some sel.sheetName ∧ sel.metadataRange = none := by
  simp only [spreadsheetSelectionFromSheet, Option.bind_eq_bind, Option.bind_eq_some_iff] at h
  obtain ⟨name, hname, range, hrange, hsel⟩ := h
  obtain rfl := Option.some.inj hsel
  exact ⟨hname, rfl⟩

theorem covers_blank (hP : P.MapsCase) (hne : sheets ≠ []) (hblank : ∀ s ∈ sheets, trim s = [])
    (hrender : (workbook.sheetNames.take limit).mapM (spreadsheetSelectionFromSheet P X workbook) = some selections)
    (hselections : selections ≠ []) :
    (∀ s ∈ sheets, Labelled P (selections.map (·.sheetName)) s) ↔
      ∀ name ∈ workbook.sheetNames.head?, trim name = [] ∧ name.length ≤ 160 := by
  constructor
  · intro h name hname
    obtain ⟨s, hs⟩ := List.exists_mem_of_ne_nil _ hne
    obtain ⟨label, hlabel, -, hlength, hkey⟩ := h s hs
    obtain ⟨sel, hsel, rfl⟩ := List.mem_map.mp hlabel
    obtain ⟨n, -, hn⟩ := (mem_of_mapM hrender).mp hsel
    have hresolve := (selectionFromSheet_some hn).1
    have hlabel : trim sel.sheetName = [] := (key_eq_nil hP).mp (hkey.trans ((key_eq_nil hP).mpr (hblank s hs)))
    have hn : trim n = [] := by
      by_contra hn
      exact hn ((key_eq_nil hP).mp ((resolve_key hP hn hresolve).2.symm.trans ((key_eq_nil hP).mpr hlabel)))
    obtain rfl : sel.sheetName = name := Option.some.inj ((resolve_blank hn hresolve).1.symm.trans hname)
    exact ⟨hlabel, hlength⟩
  · intro h s hs
    cases hnames : workbook.sheetNames.take limit with
    | nil =>
      rw [hnames] at hrender
      exact absurd (Option.some.inj hrender).symm hselections
    | cons first rest =>
      have hhead : workbook.sheetNames.head? = some first := by
        have htake : (workbook.sheetNames.take limit).head? = some first := by rw [hnames, List.head?_cons]
        rw [List.head?_take] at htake
        split_ifs at htake
        exact htake
      obtain ⟨hfirst, hlength⟩ := h first hhead
      rw [hnames, List.mapM_cons, Option.bind_eq_bind, Option.bind_eq_some_iff] at hrender
      obtain ⟨sel, hsel, hrest⟩ := hrender
      obtain ⟨sels, -, hsels⟩ := Option.bind_eq_some_iff.mp hrest
      obtain ⟨hname, hne⟩ := resolve_blank hfirst (selectionFromSheet_some hsel).1
      obtain rfl : first = sel.sheetName := Option.some.inj (hhead.symm.trans hname)
      refine ⟨sel.sheetName, List.mem_map_of_mem ?_, hne, hlength, ?_⟩
      · rw [← Option.some.inj hsels]
        exact List.mem_cons_self
      · exact ((key_eq_nil hP).mpr hfirst).trans ((key_eq_nil hP).mpr (hblank s hs)).symm

/-- The sheets that are kept of the selectors are rendered where one is not blank. -/
theorem covers_named (hP : P.MapsCase) (hlength : sheets.length ≤ maxSelectorValues)
    (hrender : ((keptSheets P sheets).take limit).mapM (spreadsheetSelectionFromSheet P X workbook) = some selections) :
    (∀ s ∈ sheets, Labelled P (selections.map (·.sheetName)) s) ↔
      (∀ s ∈ sheets, trim s ≠ [] ∧ ∀ name ∈ resolveSpreadsheetSheetName P workbook.sheetNames (some s), name.length ≤ 160) ∧
        (sheets.map (spreadsheetSelectorKey P)).toFinset.card ≤ limit := by
  have hnamed {c : Units} (hc : c ∈ keptSheets P sheets) : trim c ≠ [] := by
    obtain ⟨-, htrim, hne⟩ := mem_keptSheets hc
    rwa [htrim]
  have hcard (hall : ∀ s ∈ sheets, trim s ≠ []) :
      (sheets.map (spreadsheetSelectorKey P)).toFinset.card = (keptSheets P sheets).length := by
    rw [← List.length_map (spreadsheetSelectorKey P), ← List.toFinset_card_of_nodup nodup_keptSheets]
    congr 1
    ext key
    simp only [List.mem_toFinset, List.mem_map]
    constructor
    · rintro ⟨s, hs, rfl⟩
      exact exists_keptSheets hlength hs (hall s hs)
    · rintro ⟨c, hc, rfl⟩
      obtain ⟨⟨s, hs, rfl⟩, -, -⟩ := mem_keptSheets hc
      exact ⟨s, hs, (key_trim s).symm⟩
  -- The label of a selector is the name of one of the sheets that are rendered.
  have hrendered {s : Units} (h : Labelled P (selections.map (·.sheetName)) s) : ∃ c ∈ (keptSheets P sheets).take limit,
      spreadsheetSelectorKey P c = spreadsheetSelectorKey P s ∧
        ∀ name ∈ resolveSpreadsheetSheetName P workbook.sheetNames (some c), name.length ≤ 160 := by
    obtain ⟨label, hlabel, -, hshort, hkey⟩ := h
    obtain ⟨sel, hsel, rfl⟩ := List.mem_map.mp hlabel
    obtain ⟨c, hc, hcsel⟩ := (mem_of_mapM hrender).mp hsel
    have hresolve := (selectionFromSheet_some hcsel).1
    refine ⟨c, hc, (resolve_key hP (hnamed (List.mem_of_mem_take hc)) hresolve).2.symm.trans hkey, fun name hname => ?_⟩
    obtain rfl : sel.sheetName = name := Option.some.inj (hresolve.symm.trans hname)
    exact hshort
  constructor
  · intro h
    have hall : ∀ s ∈ sheets, trim s ≠ [] := fun s hs hblank => by
      obtain ⟨c, hc, hkey, -⟩ := hrendered (h s hs)
      exact hnamed (List.mem_of_mem_take hc) ((key_eq_nil hP).mp (hkey.trans ((key_eq_nil hP).mpr hblank)))
    refine ⟨fun s hs => ⟨hall s hs, ?_⟩, ?_⟩
    · obtain ⟨c, hc, hkey, hshort⟩ := hrendered (h s hs)
      rwa [resolve_congr (hall s hs) (hnamed (List.mem_of_mem_take hc)) hkey.symm]
    · rw [hcard hall]
      refine length_le_of_subset_take (nodup_keptSheets.of_map _) fun c hc => ?_
      obtain ⟨⟨s, hs, rfl⟩, -, -⟩ := mem_keptSheets hc
      obtain ⟨c', hc', hkey, -⟩ := hrendered (h s hs)
      have hsame : c' = trim s := List.inj_on_of_nodup_map nodup_keptSheets (List.mem_of_mem_take hc') hc
        (hkey.trans (key_trim s).symm)
      exact hsame ▸ hc'
  · rintro ⟨hall, hlimit⟩ s hs
    obtain ⟨hblank, hshort⟩ := hall s hs
    rw [hcard fun s hs => (hall s hs).1] at hlimit
    obtain ⟨c, hc, hkey⟩ := exists_keptSheets (P := P) hlength hs hblank
    rw [List.take_of_length_le hlimit] at hrender
    obtain ⟨sel, hsel⟩ : ∃ sel, spreadsheetSelectionFromSheet P X workbook c = some sel := by
      have hmem : spreadsheetSelectionFromSheet P X workbook c ∈ selections.map some :=
        mapM_eq_some.mp hrender ▸ List.mem_map_of_mem hc
      obtain ⟨sel, -, hsel⟩ := List.mem_map.mp hmem
      exact ⟨sel, hsel.symm⟩
    have hresolve := (selectionFromSheet_some hsel).1
    obtain ⟨hne, hlabel⟩ := resolve_key hP (hnamed hc) hresolve
    refine ⟨sel.sheetName, List.mem_map_of_mem ((mem_of_mapM hrender).mpr ⟨c, hc, hsel⟩), hne, hshort _ ?_, hlabel.trans hkey⟩
    rwa [resolve_congr hblank (hnamed hc) hkey.symm]

end sheets

section read

variable {maxImages : ℤ} {settings : ArtifactPreviewRenderSettings}

structure ReadsBack (P : SettingsPlatform) (selection : PreviewImagesInput) (maxImages : ℤ)
    (settings : ArtifactPreviewRenderSettings) : Prop where
  pages : settings.pages.getD [] = (selection.pages.map keptNumbers).getD []
  slides : settings.slides.getD [] = (selection.slides.map keptNumbers).getD []
  sheets : settings.sheets.getD [] = (selection.sheets.map (keptSheets P)).getD []
  ranges : selection.ranges = none → settings.ranges.getD [] = []
  maxImages : 0 < maxImages → settings.maxImages = some maxImages

theorem readNumbers (values : Option (List ℤ)) :
    (nonEmpty (normalizePositiveIntegers (.ofList .integer values))).getD [] = (values.map keptNumbers).getD [] := by
  rw [getD_nonEmpty]
  cases values <;> rfl

theorem normalizeStrings_short {sheets : List Units} (hshort : ∀ s ∈ sheets, s.length ≤ 160) :
    normalizeStrings P (.array (sheets.map .text)) = keptSheets P sheets ∧ CutsStand P (.array (sheets.map .text)) := by
  have hcut : ∀ c ∈ keptSheets P sheets, c.length ≤ 160 := fun c hc => by
    obtain ⟨⟨s, hs, rfl⟩, -, -⟩ := mem_keptSheets hc
    exact (trim_length_le s).trans (hshort s hs)
  have hsame : normalizeStrings P (.array (sheets.map .text)) = keptSheets P sheets := by
    rw [normalizeStrings]
    exact (List.map_congr_left fun c hc => List.take_of_length_le (hcut c hc)).trans (List.map_id' _)
  refine ⟨hsame, cutsStand_iff.mpr ⟨fun c hc => ?_, ?_⟩⟩ <;> rw [hsame] at *
  · exact (mem_keptSheets hc).2.1
  · exact selectors_nodup _

theorem read_settings (hsheets : ∀ sheets ∈ selection.sheets, ∀ s ∈ sheets, s.length ≤ 160)
    (hcarries : P.Carries (normalizeArtifactPreviewRenderSettings P (renderSettings selection maxImages))) :
    ReadsBack P selection maxImages
      (readArtifactPreviewSettingsHash P (createArtifactPreviewSettingsHash P (renderSettings selection maxImages))) := by
  rw [read_create hcarries]
  refine ⟨?_, ?_, ?_, fun hranges => ?_, fun hpositive => ?_⟩
  · exact (congrArg (Option.getD · []) (congrArg nonEmpty (normalizeIntegers_again _))).trans (readNumbers _)
  · exact (congrArg (Option.getD · []) (congrArg nonEmpty (normalizeIntegers_again _))).trans (readNumbers _)
  · refine (getD_nonEmpty _).trans ?_
    cases hselection : selection.sheets with
    | none => simp [normalizeArtifactPreviewRenderSettings, ArtifactPreviewRenderSettings.record, renderSettings, hselection,
        SettingValue.ofList, normalizeStrings, selectors, nonEmpty]
    | some sheets =>
      obtain ⟨hsame, hstand⟩ := normalizeStrings_short (P := P) (hsheets sheets hselection)
      have hagain := normalizeStrings_again.mpr hstand
      simp only [normalizeArtifactPreviewRenderSettings, ArtifactPreviewRenderSettings.record, renderSettings, hselection,
        SettingValue.ofList] at hagain ⊢
      exact hagain.trans hsame
  · refine (getD_nonEmpty _).trans ?_
    simp [normalizeArtifactPreviewRenderSettings, ArtifactPreviewRenderSettings.record, renderSettings, hranges,
      SettingValue.ofList, normalizeStrings, selectors, nonEmpty]
  · exact (normalizeInteger_again (.integer maxImages)).trans (if_pos hpositive)

end read

-- -----------------
-- Requests that settle
-- -----------------

def RangesSettle (P : SettingsPlatform) (selections : List SpreadsheetRenderSelection) (sheets ranges : List Units) : Prop :=
  (∀ sheet ∈ sheets, Labelled P (selections.map (·.sheetName)) sheet) ∧
    ∀ range ∈ ranges, Labelled P (selections.filterMap (·.metadataRange)) range

/-- The selection is one that the pages of the document answer, of which a worker renders at most `maxPages`. -/
def Settles (P : SettingsPlatform) (X : SpreadsheetPlatform) (selection : PreviewImagesInput)
    (settings : ArtifactPreviewRenderSettings) (maxPages : Nat) : SourceDocument → Prop
  | .document pageCount => selection.slides = none ∧ selection.sheets = none ∧ selection.ranges = none ∧
    NumbersWithin (selection.pages.getD []) pageCount maxPages
  | .presentation slideCount => selection.pages = none ∧ selection.sheets = none ∧ selection.ranges = none ∧
    NumbersWithin (selection.slides.getD []) slideCount maxPages
  | .spreadsheet workbook => selection.pages = none ∧ selection.slides = none ∧
    match selection.ranges with
    | none => SheetsSettle P workbook.sheetNames (selection.sheets.getD []) maxPages
    | some ranges =>
      let limit := min ((settings.maxImages.map Int.toNat).getD maxPages) maxPages
      RangesSettle P ((spreadsheetRenderSelections P X workbook settings limit).getD []) (selection.sheets.getD []) ranges
  | .other => True

section settles

variable {maxImages : ℤ} {maxPages : Nat} {settings : ArtifactPreviewRenderSettings}

structure Prepared (selection : PreviewImagesInput) (maxImages : ℤ) : Prop where
  pages : ∀ pages ∈ selection.pages, AcceptedNumbers pages
  slides : ∀ slides ∈ selection.slides, AcceptedNumbers slides
  sheets : ∀ sheets ∈ selection.sheets, AcceptedTexts sheets
  ranges : ∀ ranges ∈ selection.ranges, ranges ≠ []
  count : (countRequestedPreviewImages selection : ℤ) ≤ maxImages

theorem prepared_of_ok (haccepted : input.Accepted) (h : prepareSelection P input maxImages = .ok selection) :
    Prepared selection maxImages := by
  unfold prepareSelection at h
  cases hnormalized : normalizePreviewImagesInput P input with
  | error refusal => rw [hnormalized] at h; cases h
  | ok normalized =>
    rw [hnormalized] at h
    dsimp only at h
    split_ifs at h with hcount
    obtain rfl := Except.ok.inj h
    have hcount := not_lt.mp hcount
    cases hranges : input.ranges with
    | none =>
      rw [normalizePreviewImagesInput, hranges] at hnormalized
      obtain rfl := Except.ok.inj hnormalized
      exact ⟨haccepted.pages, haccepted.slides, haccepted.sheets, fun ranges h => (haccepted.ranges ranges h).1, hcount⟩
    | some ranges =>
      cases ranges with
      | nil => exact absurd rfl (haccepted.ranges [] hranges).1
      | cons range ranges =>
        simp only [normalizePreviewImagesInput, hranges] at hnormalized
        cases hfind : (range :: ranges).find? fun range => (canonicalRange input.sheets range).isNone with
        | some r => rw [hfind] at hnormalized; cases hnormalized
        | none =>
          rw [hfind] at hnormalized
          dsimp only at hnormalized
          split_ifs at hnormalized
          obtain rfl := Except.ok.inj hnormalized
          refine ⟨haccepted.pages, haccepted.slides, haccepted.sheets, fun canonical h => ?_, hcount⟩
          obtain rfl := Option.some.inj h
          have hrange : canonicalRange input.sheets range ≠ none := by
            simpa using List.find?_eq_none.mp hfind range List.mem_cons_self
          obtain ⟨c, hc⟩ := Option.ne_none_iff_exists'.mp hrange
          simp [hc]

theorem Prepared.lengths (h : Prepared selection maxImages) :
    (selection.pages.getD []).length ≤ maxImages.toNat ∧ (selection.slides.getD []).length ≤ maxImages.toNat ∧
      (selection.sheets.getD []).length ≤ maxImages.toNat := by
  have hcount := h.count
  simp only [countRequestedPreviewImages] at hcount
  omega

theorem Prepared.positive (h : Prepared selection maxImages) (hselection : selection.HasSelection) : 0 < maxImages := by
  have hcount := h.count
  simp only [countRequestedPreviewImages] at hcount
  obtain hne | hne | hne | hne := hselection
  · have := List.length_pos_of_ne_nil hne
    omega
  · have := List.length_pos_of_ne_nil hne
    omega
  · have := List.length_pos_of_ne_nil hne
    omega
  · cases hranges : selection.ranges with
    | none => rw [hranges] at hne; exact absurd rfl hne
    | some ranges =>
      rw [hranges, Option.some_or, Option.getD_some] at hcount
      have := List.length_pos_of_ne_nil (h.ranges ranges hranges)
      omega

theorem card_le_min {n m : Nat} (h : n ≤ m) : n ≤ min m maxPages ↔ n ≤ maxPages := le_min_iff.trans (and_iff_right h)

theorem eq_none_iff {α : Type} {values : Option (List α)} (hne : ∀ l ∈ values, l ≠ []) {p : α → Prop} (hp : ∀ a, ¬ p a) :
    (∀ a ∈ values.getD [], p a) ↔ values = none := by
  cases values with
  | none => simp
  | some l =>
    obtain ⟨a, ha⟩ := List.exists_mem_of_ne_nil _ (hne l rfl)
    exact ⟨fun h => absurd (h a ha) (hp a), fun h => by cases h⟩

theorem labelled_nil (value : Units) : ¬ Labelled P [] value := by
  rintro ⟨label, hlabel, -⟩
  cases hlabel

theorem numbers_settle {values : Option (List ℤ)} {count : Nat} {numbers : List ℤ} (haccepted : ∀ l ∈ values, AcceptedNumbers l)
    (hlength : (values.getD []).length ≤ maxImages.toNat)
    (hraster : rasterPageNumbers ((values.map keptNumbers).getD []) count (min maxImages.toNat maxPages) = some numbers) :
    (∀ n ∈ values.getD [], n ∈ numbers) ↔ NumbersWithin (values.getD []) count maxPages := by
  cases values with
  | none => simp [NumbersWithin]
  | some values =>
    refine (covers_numbers (haccepted values rfl) hraster).trans (and_congr_right fun _ => ?_)
    exact card_le_min ((List.toFinset_card_le _).trans hlength)

theorem sheets_settle {workbook : Workbook} {selections : List SpreadsheetRenderSelection} {sheets : Option (List Units)}
    (hP : P.MapsCase) (haccepted : ∀ l ∈ sheets, AcceptedTexts l) (hlength : (sheets.getD []).length ≤ maxImages.toNat)
    (hranges : settings.ranges.getD [] = []) (hsheets : settings.sheets.getD [] = (sheets.map (keptSheets P)).getD [])
    (hrender : spreadsheetRenderSelections P X workbook settings (min maxImages.toNat maxPages) = some selections)
    (hselections : selections ≠ []) :
    (∀ s ∈ sheets.getD [], Labelled P (selections.map (·.sheetName)) s) ↔
      SheetsSettle P workbook.sheetNames (sheets.getD []) maxPages := by
  cases sheets with
  | none => simp [SheetsSettle]
  | some sheets =>
    obtain ⟨hne, hbound, -⟩ := haccepted sheets rfl
    have hbound : sheets.length ≤ maxSelectorValues := hbound.trans (by decide)
    rw [Option.map_some, Option.getD_some] at hsheets
    rw [spreadsheetRenderSelections, hranges, hsheets] at hrender
    obtain ⟨s, hs⟩ := List.exists_mem_of_ne_nil _ hne
    cases hkept : keptSheets P sheets with
    | nil =>
      rw [hkept] at hrender
      have hblank : ∀ s ∈ sheets, trim s = [] := fun s hs => by
        by_contra hs'
        obtain ⟨c, hc, -⟩ := exists_keptSheets (P := P) hbound hs hs'
        rw [hkept] at hc
        cases hc
      refine (covers_blank hP hne hblank hrender hselections).trans ⟨fun h => .inr ⟨hblank, h⟩, ?_⟩
      rintro (⟨hall, -⟩ | ⟨-, h⟩)
      · exact absurd (hblank s hs) (hall s hs).1
      · exact h
    | cons c rest =>
      rw [hkept] at hrender
      dsimp only at hrender
      rw [← hkept] at hrender
      obtain ⟨⟨s', hs', hc⟩, -, hcne⟩ := mem_keptSheets (P := P) (hkept.symm ▸ List.mem_cons_self : c ∈ keptSheets P sheets)
      refine (covers_named hP hbound hrender).trans ⟨fun h => .inl ⟨h.1, (card_le_min ?_).mp h.2⟩, ?_⟩
      · exact (List.toFinset_card_le _).trans ((List.length_map _).le.trans hlength)
      · rintro (⟨hall, hcard⟩ | ⟨hblank, -⟩)
        · exact ⟨hall, (card_le_min ((List.toFinset_card_le _).trans ((List.length_map _).le.trans hlength))).mpr hcard⟩
        · exact absurd (hc.symm.trans (hblank s' hs')) hcne

theorem covers_iff (hprepared : Prepared selection maxImages) (hselection : selection.HasSelection) :
    ReadyCandidatesCoverSelection P (labels.map sanitizePreviewPage) selection ↔
      (∀ n ∈ selection.pages.getD [], n ∈ labels.filterMap (·.pageNumber)) ∧
      (∀ n ∈ selection.slides.getD [], n ∈ labels.filterMap (·.slideNumber)) ∧
      (∀ s ∈ selection.sheets.getD [], Labelled P (labels.filterMap (·.sheet)) s) ∧
      ∀ s ∈ selection.ranges.getD [], Labelled P (labels.filterMap (·.range)) s := by
  have hpositive {values : Option (List ℤ)} (h : ∀ l ∈ values, AcceptedNumbers l) : ∀ n ∈ values.getD [], 1 ≤ n := by
    intro n hn
    cases values with
    | none => cases hn
    | some l => exact (h l rfl).2.2 n hn
  unfold ReadyCandidatesCoverSelection
  rw [coversAllNumbers_iff (fun _ => rfl) (hpositive hprepared.pages),
    coversAllNumbers_iff (fun _ => rfl) (hpositive hprepared.slides), coversAllStrings_iff fun _ => rfl,
    coversAllStrings_iff fun _ => rfl]
  exact forall_prop_of_true hselection

/-- The labels of a rendering cover the selection that it was made of if and only if the selection settles. -/
theorem rendered_cover_iff {source : SourceDocument} (hP : P.MapsCase) (hprepared : Prepared selection maxImages)
    (hselection : selection.HasSelection) (hread : ReadsBack P selection maxImages settings)
    (hrender : renderedLabels P X source settings maxPages = some labels) :
    ReadyCandidatesCoverSelection P (labels.map sanitizePreviewPage) selection ↔
      Settles P X selection settings maxPages source := by
  obtain ⟨hpages, hslides, hsheets⟩ := hprepared.lengths
  have hmax := hread.maxImages (hprepared.positive hselection)
  have hlimit : min ((settings.maxImages.map Int.toNat).getD maxPages) maxPages = min maxImages.toNat maxPages := by
    rw [hmax, Option.map_some, Option.getD_some]
  have hnone {α : Type} {values : Option (List α)} (h : ∀ l ∈ values, l ≠ []) : (∀ a ∈ values.getD [], a ∈ []) ↔ values = none :=
    eq_none_iff h fun _ => List.not_mem_nil
  have hpagesNone := hnone fun l hl => (hprepared.pages l hl).1
  have hslidesNone := hnone fun l hl => (hprepared.slides l hl).1
  have hsheetsNone := eq_none_iff (fun l hl => (hprepared.sheets l hl).1) (labelled_nil (P := P))
  have hrangesNone := eq_none_iff hprepared.ranges (labelled_nil (P := P))
  unfold renderedLabels at hrender
  obtain ⟨hrender, hkept⟩ := Option.filter_eq_some_iff.mp hrender
  rw [covers_iff hprepared hselection]
  cases source with
  | document pageCount =>
    dsimp only at hrender
    split_ifs at hrender
    obtain ⟨numbers, hraster, rfl⟩ := Option.map_eq_some_iff.mp hrender
    rw [hread.pages, hlimit] at hraster
    have hlabels := numbers_settle hprepared.pages hpages hraster
    simp only [List.filterMap_map, Function.comp_def, List.filterMap_some, List.filterMap_none, Settles]
    rw [hlabels, hslidesNone, hsheetsNone, hrangesNone]
    tauto
  | presentation slideCount =>
    dsimp only at hrender
    split_ifs at hrender
    obtain ⟨numbers, hraster, rfl⟩ := Option.map_eq_some_iff.mp hrender
    rw [hread.slides, hlimit] at hraster
    have hlabels := numbers_settle hprepared.slides hslides hraster
    simp only [List.filterMap_map, Function.comp_def, List.filterMap_some, List.filterMap_none, Settles]
    rw [hlabels, hpagesNone, hsheetsNone, hrangesNone]
    tauto
  | spreadsheet workbook =>
    dsimp only at hrender
    obtain ⟨selections, hselections, rfl⟩ := Option.map_eq_some_iff.mp hrender
    have hsome : selections ≠ [] := by simpa using (of_decide_eq_true hkept).1
    have hsheetLabels : (selections.filterMap fun s => some s.sheetName) = selections.map (·.sheetName) :=
      List.filterMap_eq_map' ▸ rfl
    simp only [List.filterMap_map, Function.comp_def, List.filterMap_none, Settles]
    rw [hsheetLabels, hpagesNone, hslidesNone]
    refine and_congr_right fun _ => and_congr_right fun _ => ?_
    cases hranges : selection.ranges with
    | none =>
      rw [hlimit] at hselections
      have hlabels := sheets_settle hP hprepared.sheets hsheets (hread.ranges hranges) hread.sheets hselections hsome
      simp [hlabels]
    | some ranges =>
      rw [hselections]
      rfl
  | other => cases hrender

end settles

theorem trim_map {f : Nat → Nat} (hf : ∀ u, isWhite (f u) = isWhite u) (us : Units) : trim (us.map f) = (trim us).map f := by
  have hwhite : isWhite ∘ f = isWhite := funext hf
  simp only [trim, List.rdropWhile, List.dropWhile_map, ← List.map_reverse, hwhite]

namespace Sample

theorem platform_mapsCase (settings : ArtifactPreviewRenderSettings) (json : List Char) :
    (platform settings json).MapsCase where
  trim us := by
    refine (trim_map (fun u => ?_) us).symm
    split_ifs with h
    · have hu : isWhite u = false := (isWordUnit_ne (by simp [isWordUnit, h])).2.2
      have hlower : isWhite (u + 0x20) = false := (isWordUnit_ne (by simp [isWordUnit]; omega)).2.2
      rw [hu, hlower]
    · rfl
  nil us := List.map_eq_nil_iff

theorem carries {settings : ArtifactPreviewRenderSettings} {json : List Char} {record : SettingsRecord}
    (h : normalizeArtifactPreviewRenderSettings (platform settings json) record = settings) :
    (platform settings json).Carries (normalizeArtifactPreviewRenderSettings (platform settings json) record) :=
  congrArg (fun s : ArtifactPreviewRenderSettings => some s.record) h.symm

def pages : SourceDocument := .document 3

def secondPage : PreviewImagesInput := ⟨some [2], none, none, none, 8⟩

def secondPageSettings : ArtifactPreviewRenderSettings := ⟨some [2], none, none, none, some 8⟩

def secondPageText : List Char := '\x7b' :: "\"pages\":[2],\"maxImages\":8\x7d".toList

def spreadsheets : SpreadsheetPlatform where
  decodeRange text := if text ∈ [ascii "A1:B2", ascii "$A$1:$B$2"] then some ⟨0, 0, 1, 1⟩ else none
  encodeRange range := if range = ⟨0, 0, 1, 1⟩ then some (ascii "A1:B2") else none

def workbook : SourceDocument := .spreadsheet ⟨[ascii "Data"], fun _ => none⟩

def fixedCells : PreviewImagesInput := ⟨none, none, none, some [ascii "Data!$A$1:$B$2"], 8⟩

def fixedCellsSettings : ArtifactPreviewRenderSettings := ⟨none, none, none, some [ascii "Data!$A$1:$B$2"], some 8⟩

def fixedCellsText : List Char := '\x7b' :: "\"ranges\":[\"Data!$A$1:$B$2\"],\"maxImages\":8\x7d".toList

def fixedCellsLabels : List PageLabel := [⟨none, none, some (ascii "Data"), some (ascii "Data!A1:B2")⟩]

end Sample

end Catalyst.Previews
