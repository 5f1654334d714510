import Catalyst.Library.PostgresArray
import Mathlib

/-!
# Arrays on the way to the database and back

An array parameter goes out with every element in quotes. What comes back is the server's text of
an array, which is read element by element.
-/

namespace Catalyst.Sql

open Library PostgresArray

/-- `text.replace(/["\\]/gu, "\\$&")` -/
def escapeText (text : Units) : Units := text.flatMap fun u => if u = 0x22 ∨ u = 0x5c then [0x5c, u] else [u]

def elementLiteral : Option Units → Units
  | none => ascii "NULL"
  | some text => 0x22 :: escapeText text ++ [0x22]

def arrayLiteral (texts : List (Option Units)) : Units := 0x7b :: separated 0x2c (texts.map elementLiteral) ++ [0x7d]

def quoted : Units → Units × Units
  | [] => ([], [])
  | [u] => if u = 0x22 ∨ u = 0x5c then ([], []) else ([u], [])
  | u :: v :: rest =>
    if u = 0x22 then ([], v :: rest)
    else if u = 0x5c then
      let (text, behind) := quoted rest
      (v :: text, behind)
    else
      let (text, behind) := quoted (v :: rest)
      (u :: text, behind)

def endsBare (delimiter u : Nat) : Bool := u = delimiter || u = 0x7d

theorem quoted_length (s : Units) : (quoted s).2.length ≤ s.length := by
  fun_induction quoted s <;> simp_all <;> omega

/-- The items up to the brace that closes the array, and what follows it. -/
def readItems (delimiter : Nat) (readElement : Units → JsonValue) (s : Units) :
    { r : List JsonValue × Units // r.2.length ≤ s.length } :=
  match s with
  | [] => ⟨([], []), Nat.le_refl _⟩
  | u :: rest =>
    if u = 0x7d then ⟨([], rest), Nat.le_succ _⟩
    else if u = delimiter then
      let behind := readItems delimiter readElement rest
      ⟨behind.1, Nat.le_succ_of_le behind.2⟩
    else if u = 0x7b then
      let inner := readItems delimiter readElement rest
      let behind := readItems delimiter readElement inner.1.2
      ⟨(.array inner.1.1 :: behind.1.1, behind.1.2), Nat.le_succ_of_le (behind.2.trans inner.2)⟩
    else if u = 0x22 then
      let behind := readItems delimiter readElement (quoted rest).2
      ⟨(readElement (quoted rest).1 :: behind.1.1, behind.1.2), Nat.le_succ_of_le (behind.2.trans (quoted_length rest))⟩
    else
      let text := u :: rest.takeWhile (!endsBare delimiter ·)
      let behind := readItems delimiter readElement (rest.dropWhile (!endsBare delimiter ·))
      ⟨((if text = ascii "NULL" then .null else readElement text) :: behind.1.1, behind.1.2),
        Nat.le_succ_of_le (behind.2.trans (List.length_dropWhile_le _ _))⟩
  termination_by s.length
  decreasing_by
    · exact Nat.lt_succ_self _
    · exact Nat.lt_succ_self _
    · exact Nat.lt_succ_of_le inner.2
    · exact Nat.lt_succ_of_le (quoted_length rest)
    · exact Nat.lt_succ_of_le (List.length_dropWhile_le _ _)

def itemsOf (delimiter : Nat) (readElement : Units → JsonValue) (s : Units) : List JsonValue × Units :=
  (readItems delimiter readElement s).1

def readArray (literal : Units) (delimiter : Nat) (readElement : Units → JsonValue) : List JsonValue :=
  match literal.idxOf? 0x7b with
  | some index => (itemsOf delimiter readElement (literal.drop (index + 1))).1
  | none => (itemsOf delimiter readElement literal).1

section
variable {delimiter : Delimiter} {readElement : Units → JsonValue} {s : Units}

def Stops (delimiter : Delimiter) (s : Units) : Prop := ∀ u ∈ s.head?, endsBare delimiter.unit u

def ReadsAs (delimiter : Delimiter) (readElement : Units → JsonValue) (text : Units) (value : JsonValue) : Prop :=
  ∀ s, Stops delimiter s → itemsOf delimiter.unit readElement (text ++ s) =
    (value :: (itemsOf delimiter.unit readElement s).1, (itemsOf delimiter.unit readElement s).2)

theorem itemsOf_close (delimiter : Nat) (s : Units) : itemsOf delimiter readElement (0x7d :: s) = ([], s) := by
  rw [itemsOf, readItems, if_pos rfl]

theorem itemsOf_delimiter (delimiter : Delimiter) (s : Units) :
    itemsOf delimiter.unit readElement (delimiter.unit :: s) = itemsOf delimiter.unit readElement s := by
  rw [itemsOf, readItems, if_neg (delimiter.ne (by decide)).symm, if_pos rfl]
  rfl

theorem itemsOf_open (delimiter : Delimiter) (s : Units) :
    itemsOf delimiter.unit readElement (0x7b :: s) =
      (.array (itemsOf delimiter.unit readElement s).1 ::
        (itemsOf delimiter.unit readElement (itemsOf delimiter.unit readElement s).2).1,
        (itemsOf delimiter.unit readElement (itemsOf delimiter.unit readElement s).2).2) := by
  rw [itemsOf, readItems, if_neg (by decide), if_neg (delimiter.ne (by decide)), if_pos rfl]
  rfl

theorem itemsOf_quote (delimiter : Delimiter) (s : Units) :
    itemsOf delimiter.unit readElement (0x22 :: s) =
      (readElement (quoted s).1 :: (itemsOf delimiter.unit readElement (quoted s).2).1,
        (itemsOf delimiter.unit readElement (quoted s).2).2) := by
  rw [itemsOf, readItems, if_neg (by decide), if_neg (delimiter.ne (by decide)), if_neg (by decide), if_pos rfl]
  rfl

theorem itemsOf_bare {delimiter : Nat} (hclose : u ≠ 0x7d) (hdelimiter : u ≠ delimiter) (hopen : u ≠ 0x7b) (hquote : u ≠ 0x22)
    (rest : Units) : itemsOf delimiter readElement (u :: rest) =
      ((if u :: rest.takeWhile (!endsBare delimiter ·) = ascii "NULL" then .null
        else readElement (u :: rest.takeWhile (!endsBare delimiter ·))) ::
          (itemsOf delimiter readElement (rest.dropWhile (!endsBare delimiter ·))).1,
        (itemsOf delimiter readElement (rest.dropWhile (!endsBare delimiter ·))).2) := by
  rw [itemsOf, readItems, if_neg hclose, if_neg hdelimiter, if_neg hopen, if_neg hquote]
  rfl

theorem readsAs_bare (hends : ∀ v ∈ u :: t, endsBare delimiter.unit v = false) (hopen : u ≠ 0x7b) (hquote : u ≠ 0x22) :
    ReadsAs delimiter readElement (u :: t) (if u :: t = ascii "NULL" then .null else readElement (u :: t)) := by
  intro s hs
  obtain ⟨hu, ht⟩ := List.forall_mem_cons.mp hends
  simp only [endsBare, Bool.or_eq_false_iff, decide_eq_false_iff_not] at hu
  have hpass : ∀ v ∈ t, (!endsBare delimiter.unit v) = true := by
    intro v hv
    simp [ht v hv]
  have hstop : s.takeWhile (!endsBare delimiter.unit ·) = [] ∧ s.dropWhile (!endsBare delimiter.unit ·) = s := by
    cases s with
    | nil => exact ⟨rfl, rfl⟩
    | cons v s =>
      have hv : endsBare delimiter.unit v = true := hs v rfl
      exact ⟨List.takeWhile_cons_of_neg (by simp [hv]), List.dropWhile_cons_of_neg (by simp [hv])⟩
  rw [List.cons_append, itemsOf_bare hu.2 hu.1 hopen hquote, List.takeWhile_append_of_pos hpass,
    List.dropWhile_append_of_pos hpass, hstop.1, hstop.2, List.append_nil]

theorem quoted_close (s : Units) : quoted (0x22 :: s) = ([], s) := by
  cases s <;> rfl

theorem quoted_escaped (u : Nat) (s : Units) : quoted (0x5c :: u :: s) = (u :: (quoted s).1, (quoted s).2) := by
  rw [quoted, if_neg (by decide), if_pos rfl]

theorem quoted_plain (hq : u ≠ 0x22) (hb : u ≠ 0x5c) (s : Units) : quoted (u :: s) = (u :: (quoted s).1, (quoted s).2) := by
  cases s with
  | nil => simp [quoted, hq, hb]
  | cons v s => rw [quoted, if_neg hq, if_neg hb]

theorem quoted_escape (text s : Units) : quoted (text.flatMap escape ++ 0x22 :: s) = (text, s) := by
  induction text with
  | nil => exact quoted_close s
  | cons u text ih =>
    rw [List.flatMap_cons, List.append_assoc, escape]
    split_ifs with hu
    · rw [List.cons_append, List.cons_append, List.nil_append, quoted_escaped, ih]
    · obtain ⟨hq, hb⟩ : u ≠ 0x22 ∧ u ≠ 0x5c := by simpa [ascii] using hu
      rw [List.cons_append, List.nil_append, quoted_plain hq hb, ih]

theorem readsAs_quoted (text : Units) : ReadsAs delimiter readElement (quoteElement text) (readElement text) := by
  intro s _
  rw [quoteElement, List.cons_append, List.cons_append, List.append_assoc, List.singleton_append, itemsOf_quote, quoted_escape]

theorem readsAs_null : ReadsAs delimiter readElement (ascii "NULL") .null := by
  have hends : ∀ v ∈ ascii "NULL", endsBare delimiter.unit v = false := by
    intro v hv
    have hapart : v ∈ ascii "\x7b\x7d\"NUL" := (by decide : ∀ v ∈ ascii "NULL", v ∈ ascii "\x7b\x7d\"NUL") v hv
    have hclose : v ≠ 0x7d := (by decide : ∀ v ∈ ascii "NULL", v ≠ 0x7d) v hv
    simp [endsBare, delimiter.ne hapart, hclose]
  exact readsAs_bare hends (by decide) (by decide)

theorem itemsOf_more (h : List.Forall₂ (ReadsAs delimiter readElement) texts values) (s : Units) :
    itemsOf delimiter.unit readElement (texts.flatMap (delimiter.unit :: ·) ++ 0x7d :: s) = (values, s) := by
  induction h with
  | nil => exact itemsOf_close _ s
  | @cons text value texts values htext _ ih =>
    have hstops : Stops delimiter (texts.flatMap (delimiter.unit :: ·) ++ 0x7d :: s) := by
      cases texts <;> simp [Stops, endsBare]
    rw [List.flatMap_cons, List.append_assoc, List.cons_append, itemsOf_delimiter, htext _ hstops, ih]

theorem itemsOf_separated (h : List.Forall₂ (ReadsAs delimiter readElement) texts values) (s : Units) :
    itemsOf delimiter.unit readElement (separated delimiter.unit texts ++ 0x7d :: s) = (values, s) := by
  cases h with
  | nil => exact itemsOf_close _ s
  | @cons text value texts values htext hrest =>
    have hstops : Stops delimiter (texts.flatMap (delimiter.unit :: ·) ++ 0x7d :: s) := by
      cases texts <;> simp [Stops, endsBare]
    rw [separated, List.append_assoc, htext _ hstops, itemsOf_more hrest]

theorem readsAs_array (h : List.Forall₂ (ReadsAs delimiter readElement) texts values) :
    ReadsAs delimiter readElement (0x7b :: separated delimiter.unit texts ++ [0x7d]) (.array values) := by
  intro s _
  rw [List.cons_append, List.cons_append, List.append_assoc, List.singleton_append, itemsOf_open,
    itemsOf_separated h]

mutual
def denote (readElement : Units → JsonValue) : Value → JsonValue
  | .element none => .null
  | .element (some text) => readElement text
  | .array items => .array (denoteItems readElement items)

def denoteItems (readElement : Units → JsonValue) : List Value → List JsonValue
  | [] => []
  | item :: items => denote readElement item :: denoteItems readElement items
end

theorem denoteItems_eq (items : List Value) : denoteItems readElement items = items.map (denote readElement) := by
  induction items with
  | nil => rfl
  | cons item items ih => rw [denoteItems, ih, List.map_cons]

theorem readsAs_plain (text : Units) (h : needsQuotes delimiter text = false) :
    ReadsAs delimiter readElement text (readElement text) := by
  simp only [needsQuotes, Bool.or_eq_false_iff, decide_eq_false_iff_not, List.any_eq_false] at h
  obtain ⟨⟨hne, hnull⟩, hmarks⟩ := h
  obtain ⟨u, t, rfl⟩ := List.exists_cons_of_ne_nil hne
  have hmark : ∀ v ∈ u :: t, v ≠ 0x22 ∧ v ≠ 0x7b ∧ v ≠ 0x7d ∧ v ≠ delimiter.unit := by
    intro v hv
    have hv := hmarks v hv
    simp only [isMark, Bool.or_eq_true, decide_eq_true_eq, not_or] at hv
    obtain ⟨⟨⟨⟨hquote, hopen⟩, hclose⟩, hdelimiter⟩, -⟩ := hv
    exact ⟨by rintro rfl; exact hquote (by decide), hopen, hclose, hdelimiter⟩
  have hends : ∀ v ∈ u :: t, endsBare delimiter.unit v = false := by
    intro v hv
    simp [endsBare, hmark v hv]
  have hread : ReadsAs delimiter readElement (u :: t) (if u :: t = ascii "NULL" then .null else readElement (u :: t)) :=
    readsAs_bare hends (hmark u List.mem_cons_self).2.1 (hmark u List.mem_cons_self).1
  rwa [if_neg] at hread
  intro heq
  exact hnull (heq ▸ by decide)

theorem readsAs_element (text : Option Units) :
    ReadsAs delimiter readElement (elementOut delimiter text) (denote readElement (.element text)) := by
  cases text with
  | none => exact readsAs_null
  | some text =>
    rw [elementOut, denote]
    split_ifs with hquotes
    · exact readsAs_quoted text
    · exact readsAs_plain text (by simpa using hquotes)

theorem readsAs_valueOut (v : Value) : ReadsAs delimiter readElement (valueOut delimiter v) (denote readElement v) := by
  induction v with
  | element text => exact readsAs_element text
  | array items ih =>
    rw [valueOut, denote, itemsOut_eq, denoteItems_eq]
    refine readsAs_array ?_
    rw [List.forall₂_map_left_iff, List.forall₂_map_right_iff, List.forall₂_same]
    exact ih

theorem readsAs_elementLiteral (text : Option Units) :
    ReadsAs delimiter readElement (elementLiteral text) (denote readElement (.element text)) := by
  cases text with
  | none => exact readsAs_null
  | some text =>
    have hescape : escapeText text = text.flatMap escape :=
      List.flatMap_congr fun u _ => by simp [escape, ascii]
    have hquoted : ReadsAs delimiter readElement (quoteElement text) (readElement text) := readsAs_quoted text
    rwa [quoteElement, ← hescape] at hquoted

theorem readArray_brace (h : 0x7b ∉ bounds) (delimiter : Nat) (s : Units) :
    readArray (bounds ++ 0x7b :: s) delimiter readElement = (itemsOf delimiter readElement s).1 := by
  have hindex : (bounds ++ 0x7b :: s).idxOf? 0x7b = some bounds.length := by
    induction bounds with
    | nil => rfl
    | cons u bounds ih =>
      obtain ⟨hu, hbounds⟩ := not_or.mp (List.mem_cons.not.mp h)
      simp [List.idxOf?_cons, Ne.symm hu, ih hbounds]
  have hdrop : (bounds ++ 0x7b :: s).drop (bounds.length + 1) = s := by
    rw [← List.drop_drop, List.drop_left]
    rfl
  rw [readArray, hindex]
  simp only [hdrop]

end

def comma : Delimiter := ⟨0x2c, by decide⟩

/-- An array parameter is read back as it was, and the server's text of an array as what it stands for. -/
theorem readArray_ok :
    (∀ texts, readArray (arrayLiteral texts) 0x2c .string = texts.map fun text => (text.map .string).getD .null) ∧
      ∀ (delimiter : Delimiter) (bounds : List (Int × Int)) (items : List Value) (readElement : Units → JsonValue),
        readArray (arrayOut delimiter bounds items) delimiter.unit readElement = denoteItems readElement items := by
  constructor
  · intro texts
    have hreads : List.Forall₂ (ReadsAs comma .string) (texts.map elementLiteral)
        (texts.map fun text => denote .string (.element text)) := by
      rw [List.forall₂_map_left_iff, List.forall₂_map_right_iff, List.forall₂_same]
      exact fun text _ => readsAs_elementLiteral text
    have hread : readArray (arrayLiteral texts) 0x2c .string
        = (itemsOf 0x2c .string (separated 0x2c (texts.map elementLiteral) ++ [0x7d])).1 :=
      @readArray_brace .string [] List.not_mem_nil 0x2c _
    have hitems := itemsOf_separated hreads []
    refine (hread.trans (congrArg Prod.fst hitems)).trans (List.map_congr_left fun text _ => ?_)
    cases text <;> rfl
  · intro delimiter bounds items readElement
    have hreads : List.Forall₂ (ReadsAs delimiter readElement) (itemsOut delimiter items) (denoteItems readElement items) := by
      rw [itemsOut_eq, denoteItems_eq, List.forall₂_map_left_iff, List.forall₂_map_right_iff, List.forall₂_same]
      exact fun item _ => readsAs_valueOut item
    have hread := @readArray_brace readElement _ (brace_not_mem_boundsOut bounds) delimiter.unit
      (separated delimiter.unit (itemsOut delimiter items) ++ [0x7d])
    rwa [itemsOf_separated hreads []] at hread

end Catalyst.Sql
