import Catalyst.Library.JsonText
import Mathlib

/-!
# Selectors of spreadsheet ranges

A range of a spreadsheet is asked for by the name of a sheet, an exclamation mark and the range.
A name with anything but letters, digits and underscores stands in quotes, its own quotes doubled.
-/

namespace Catalyst.Previews

open Library

/-- White space and line terminators, as `trim` takes them off. -/
def isWhite (u : Nat) : Bool :=
  0x09 ≤ u && u ≤ 0x0d || 0x2000 ≤ u && u ≤ 0x200a ||
    u ∈ [0x20, 0xa0, 0x1680, 0x2028, 0x2029, 0x202f, 0x205f, 0x3000, 0xfeff]

def trim (us : Units) : Units := (us.dropWhile isWhite).rdropWhile isWhite

def quoteMark : Nat := 0x27

def exclamationMark : Nat := 0x21

def isWordUnit (u : Nat) : Bool :=
  0x41 ≤ u && u ≤ 0x5a || 0x61 ≤ u && u ≤ 0x7a || 0x30 ≤ u && u ≤ 0x39 || u = 0x5f

/-- `replaceAll("'", "''")` -/
def doubleQuotes (us : Units) : Units := us.flatMap fun u => if u = quoteMark then [u, u] else [u]

/-- `replaceAll("''", "'")` -/
def halveQuotes : Units → Units
  | [] => []
  | [u] => [u]
  | u :: v :: us => if u = quoteMark ∧ v = quoteMark then u :: halveQuotes us else u :: halveQuotes (v :: us)

def quoteSpreadsheetSheetName (sheetName : Units) : Units :=
  if sheetName ≠ [] ∧ ∀ u ∈ sheetName, isWordUnit u then sheetName
  else quoteMark :: doubleQuotes sheetName ++ [quoteMark]

def unquoteSpreadsheetSheetName (value : Units) : Units :=
  let trimmed := trim value
  if trimmed.head? = some quoteMark ∧ trimmed.getLast? = some quoteMark then halveQuotes (trimmed.drop 1).dropLast
  else trimmed

def formatSpreadsheetRangeSelector (sheetName rangeText : Units) : Units :=
  quoteSpreadsheetSheetName sheetName ++ exclamationMark :: rangeText

inductive Scan where
  | plain
  | inQuotedSheet
  -- on the second of two quotes
  | doubled

/-- What stands before the first exclamation mark outside quotes, and what stands behind it. -/
def splitSelector : Scan → Units → Option (Units × Units)
  | _, [] => none
  | .doubled, u :: us => (splitSelector .inQuotedSheet us).map (Prod.map (u :: ·) id)
  | .inQuotedSheet, u :: us =>
    if u = quoteMark then
      if us.head? = some quoteMark then (splitSelector .doubled us).map (Prod.map (u :: ·) id)
      else (splitSelector .plain us).map (Prod.map (u :: ·) id)
    else (splitSelector .inQuotedSheet us).map (Prod.map (u :: ·) id)
  | .plain, u :: us =>
    if u = quoteMark then (splitSelector .inQuotedSheet us).map (Prod.map (u :: ·) id)
    else if u = exclamationMark then some ([], us)
    else (splitSelector .plain us).map (Prod.map (u :: ·) id)

structure SpreadsheetRangeSelector where
  sheetName : Option Units
  rangeText : Units
  deriving DecidableEq

def parseSpreadsheetRangeSelector (input : Units) : SpreadsheetRangeSelector :=
  match splitSelector .plain (trim input) with
  | some (sheet, range) => ⟨some (unquoteSpreadsheetSheetName sheet), trim range⟩
  | none => ⟨none, trim input⟩

section

variable {us vs : Units} {u : Nat}

theorem trim_eq_self (hfirst : ∀ u ∈ us.head?, isWhite u = false) (hlast : ∀ u ∈ us.getLast?, isWhite u = false) :
    trim us = us := by
  have hdrop : us.dropWhile isWhite = us := by
    cases us with
    | nil => rfl
    | cons u us => exact List.dropWhile_cons_of_neg (by simpa using hfirst u rfl)
  rw [trim, hdrop, List.rdropWhile_eq_self_iff]
  intro hne
  simpa using hlast _ (List.getLast_mem_getLast? hne)

theorem trim_last (us : Units) : ∀ u ∈ (trim us).getLast?, isWhite u = false := by
  intro u hu
  obtain ⟨hne, rfl⟩ := List.mem_getLast?_eq_getLast hu
  exact Bool.eq_false_iff.mpr (List.rdropWhile_last_not isWhite (us.dropWhile isWhite) hne)

theorem trim_first (us : Units) : ∀ u ∈ (trim us).head?, isWhite u = false := by
  intro u hu
  obtain ⟨rest, hrest⟩ : ∃ rest, trim us = u :: rest := List.head?_eq_some_iff.mp hu
  obtain ⟨more, hmore⟩ : trim us <+: us.dropWhile isWhite := List.rdropWhile_prefix isWhite _
  have hhead : (us.dropWhile isWhite).head? = some u := by rw [← hmore, hrest]; rfl
  simpa [hhead] using List.head?_dropWhile_not isWhite us

theorem trim_trim (us : Units) : trim (trim us) = trim us := trim_eq_self (trim_first us) (trim_last us)

theorem trim_length_le (us : Units) : (trim us).length ≤ us.length :=
  (List.rdropWhile_prefix isWhite _).length_le.trans (List.dropWhile_suffix isWhite).length_le

theorem rdropWhile_append_cons (us vs : Units) (hu : isWhite u = false) :
    (us ++ u :: vs).rdropWhile isWhite = us ++ u :: vs.rdropWhile isWhite := by
  rw [List.rdropWhile, List.rdropWhile, List.reverse_append, List.reverse_cons, List.append_assoc,
    List.dropWhile_append]
  split
  · rename_i hempty
    rw [List.isEmpty_iff.mp hempty, List.singleton_append, List.dropWhile_cons_of_neg (by simp [hu])]
    simp
  · simp

theorem trim_append_cons (hw : ∀ u ∈ us, isWhite u = true) (hu : isWhite u = false) :
    trim (us ++ u :: vs) = u :: vs.rdropWhile isWhite := by
  rw [trim, List.dropWhile_append_of_pos hw, List.dropWhile_cons_of_neg (by simp [hu])]
  exact rdropWhile_append_cons [] vs hu

theorem trim_rdropWhile (us : Units) : trim (us.rdropWhile isWhite) = trim us := by
  cases hrest : us.dropWhile isWhite with
  | nil =>
    have hall : ∀ u ∈ us, isWhite u = true := List.dropWhile_eq_nil_iff.mp hrest
    rw [List.rdropWhile_eq_nil_iff.mpr hall, trim, trim, hrest]
    rfl
  | cons u vs =>
    have hu : isWhite u = false := by simpa [hrest] using List.head?_dropWhile_not isWhite us
    have hw : ∀ u ∈ us.takeWhile isWhite, isWhite u = true := fun _ h => List.mem_takeWhile_imp h
    have heq : us = us.takeWhile isWhite ++ u :: vs := by rw [← hrest, List.takeWhile_append_dropWhile]
    rw [heq, rdropWhile_append_cons _ _ hu, trim_append_cons hw hu, trim_append_cons hw hu, List.rdropWhile_idempotent]

theorem halveQuotes_cons (hu : u ≠ quoteMark) : halveQuotes (u :: us) = u :: halveQuotes us := by
  cases us <;> simp [halveQuotes, hu]

theorem doubleQuotes_mark : doubleQuotes (quoteMark :: us) = quoteMark :: quoteMark :: doubleQuotes us := by
  simp [doubleQuotes]

theorem doubleQuotes_cons (hu : u ≠ quoteMark) : doubleQuotes (u :: us) = u :: doubleQuotes us := by
  simp [doubleQuotes, hu]

theorem halveQuotes_doubleQuotes (us : Units) : halveQuotes (doubleQuotes us) = us := by
  induction us with
  | nil => rfl
  | cons u us ih =>
    by_cases hu : u = quoteMark
    · rw [hu, doubleQuotes_mark, halveQuotes, if_pos ⟨rfl, rfl⟩, ih]
    · rw [doubleQuotes_cons hu, halveQuotes_cons hu, ih]

theorem isWordUnit_ne (h : isWordUnit u = true) : u ≠ quoteMark ∧ u ≠ exclamationMark ∧ isWhite u = false := by
  simp [isWordUnit, isWhite, quoteMark, exclamationMark] at h ⊢
  omega

theorem splitSelector_word (h : ∀ u ∈ us, isWordUnit u = true) (range : Units) :
    splitSelector .plain (us ++ exclamationMark :: range) = some (us, range) := by
  induction us with
  | nil => rfl
  | cons u us ih =>
    obtain ⟨hu, hus⟩ := List.forall_mem_cons.mp h
    obtain ⟨hquote, hmark, _⟩ := isWordUnit_ne hu
    simp [splitSelector, hquote, hmark, ih hus]

theorem splitSelector_quoted (us : Units) (hnext : vs.head? ≠ some quoteMark) :
    splitSelector .inQuotedSheet (doubleQuotes us ++ quoteMark :: vs) =
      (splitSelector .plain vs).map (Prod.map (doubleQuotes us ++ quoteMark :: ·) id) := by
  induction us with
  | nil => simp [doubleQuotes, splitSelector, hnext]
  | cons u us ih =>
    by_cases hu : u = quoteMark
    · rw [hu, doubleQuotes_mark]
      simp [splitSelector, ih, Function.comp_def]
      rfl
    · rw [doubleQuotes_cons hu]
      simp [splitSelector, hu, ih, Function.comp_def]
      rfl

theorem splitSelector_quote (sheet range : Units) :
    splitSelector .plain (quoteSpreadsheetSheetName sheet ++ exclamationMark :: range) =
      some (quoteSpreadsheetSheetName sheet, range) := by
  unfold quoteSpreadsheetSheetName
  split_ifs with hword
  · exact splitSelector_word hword.2 range
  · have hnext : (exclamationMark :: range).head? ≠ some quoteMark := by simp [exclamationMark, quoteMark]
    have hquoted := splitSelector_quoted sheet hnext
    simp only [List.cons_append, List.append_assoc, List.nil_append, splitSelector, if_true, hquoted]
    simp [exclamationMark, quoteMark]

theorem isWhite_quoteMark : isWhite quoteMark = false := by decide

theorem quote_ends (sheet : Units) : quoteSpreadsheetSheetName sheet ≠ [] ∧
    (∀ u ∈ (quoteSpreadsheetSheetName sheet).head?, isWhite u = false) ∧
    ∀ u ∈ (quoteSpreadsheetSheetName sheet).getLast?, isWhite u = false := by
  unfold quoteSpreadsheetSheetName
  split_ifs with hword
  · obtain ⟨hne, hword⟩ := hword
    have hplain (u : Nat) (hu : u ∈ sheet) : isWhite u = false := (isWordUnit_ne (hword u hu)).2.2
    exact ⟨hne, fun u hu => hplain u (List.mem_of_head? hu), fun u hu => hplain u (List.mem_of_getLast? hu)⟩
  · rw [List.getLast?_concat]
    simp [isWhite_quoteMark]

theorem unquote_quote (sheet : Units) :
    unquoteSpreadsheetSheetName (quoteSpreadsheetSheetName sheet) = sheet := by
  obtain ⟨_, hfirst, hlast⟩ := quote_ends sheet
  rw [unquoteSpreadsheetSheetName, trim_eq_self hfirst hlast]
  unfold quoteSpreadsheetSheetName
  split_ifs with hword hquoted hquoted
  · exact absurd rfl (isWordUnit_ne (hword.2 _ (List.mem_of_head? hquoted.1))).1
  · rfl
  · simp [halveQuotes_doubleQuotes]
  · exact absurd ⟨rfl, List.getLast?_concat⟩ hquoted

theorem parse_format (sheet range : Units) :
    parseSpreadsheetRangeSelector (formatSpreadsheetRangeSelector sheet range) = ⟨some sheet, trim range⟩ := by
  obtain ⟨hne, hfirst, _⟩ := quote_ends sheet
  have htrim : trim (formatSpreadsheetRangeSelector sheet range) =
      quoteSpreadsheetSheetName sheet ++ exclamationMark :: range.rdropWhile isWhite := by
    obtain ⟨u, us, hquote⟩ := List.exists_cons_of_ne_nil hne
    have hu : isWhite u = false := hfirst u (by rw [hquote]; rfl)
    rw [formatSpreadsheetRangeSelector, hquote, trim, List.cons_append, List.dropWhile_cons_of_neg (by simp [hu])]
    exact rdropWhile_append_cons (u :: us) range (by decide)
  rw [parseSpreadsheetRangeSelector, htrim, splitSelector_quote]
  simp only [unquote_quote, trim_rdropWhile]

end

end Catalyst.Previews
