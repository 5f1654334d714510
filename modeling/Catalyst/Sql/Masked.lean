import Catalyst.Library.PostgresText
import Catalyst.Sql.Screen

/-!
# What the scanners leave

The two scanners take the same spans. Where a lexeme of PostgreSQL is no literal, quoted
identifier or comment, the scanners leave its text; else they blank it out, if they read it as
PostgreSQL does.
-/

namespace Catalyst.Sql

open Library Postgres

variable {c d : Char} {s t rest : Text}

theorem readDollarQuoteTag_of_ne (h : c ≠ '$') : readDollarQuoteTag (c :: s) = none := by
  unfold readDollarQuoteTag
  split
  · rename_i hs
    exact absurd (List.cons.inj hs).1 h
  · rfl

theorem maskedSpanEnd_eq : maskedSpanEnd = maskedSpan := by
  funext s
  cases s with
  | nil => rfl
  | cons c s =>
    by_cases hq : c = '\'' ∨ c = '"'
    · simp [maskedSpanEnd, maskedSpan, hq]
    · by_cases hd : c = '$'
      · subst hd
        simp only [maskedSpanEnd, maskedSpan, hq, if_false]
        cases readDollarQuoteTag ('$' :: s) <;> simp
      · simp [maskedSpanEnd, maskedSpan, hq, readDollarQuoteTag_of_ne hd]

theorem maskLiteralsAndComments_eq (sql : Text) :
    maskLiteralsAndComments sql = maskSqlLiteralsAndComments sql := by
  rw [maskLiteralsAndComments, maskedSpanEnd_eq, maskSqlLiteralsAndComments]

abbrev mask (skip : Nat) (s : Text) : Text := maskFrom maskedSpan skip s

@[simp] theorem mask_nil (skip : Nat) : mask skip [] = [] := by cases skip <;> rfl

theorem mask_skip (n skip : Nat) (s : Text) (h : n ≤ s.length) :
    mask (n + skip) s = List.replicate n ' ' ++ mask skip (s.drop n) := by
  induction n generalizing s with
  | zero => simp
  | succ n ih =>
    cases s with
    | nil => simp at h
    | cons c s =>
      have hstep : mask (n + 1 + skip) (c :: s) = ' ' :: mask (n + skip) s := by
        rw [Nat.add_right_comm]
        rfl
      rw [hstep, ih s (Nat.le_of_succ_le_succ h), List.drop_succ_cons, List.replicate_succ, List.cons_append]

theorem mask_hidden (h : maskedSpan (c :: s) = some t) (ht : t <:+ rest) (hr : rest <:+ s) :
    mask 0 (c :: s) = List.replicate (s.length - rest.length + 1) ' ' ++ mask (rest.length - t.length) rest := by
  have hstep : mask 0 (c :: s) = ' ' :: mask (s.length - t.length) s := by simp [mask, maskFrom, h]
  have hlt := ht.length_le
  have hlr := hr.length_le
  have hsum : s.length - t.length = (s.length - rest.length) + (rest.length - t.length) := by omega
  have hdrop : s.drop (s.length - rest.length) = rest := (List.suffix_iff_eq_drop.mp hr).symm
  rw [hstep, hsum, mask_skip _ _ _ (Nat.sub_le _ _), hdrop, List.replicate_succ, List.cons_append]

theorem mask_seen (h : maskedSpan (c :: s) = none) : mask 0 (c :: s) = c :: mask 0 s := by
  simp [mask, maskFrom, h]

/-- The text from `s` to `rest` is left as it is. -/
def Seen (s rest : Text) : Prop := ∃ p, s = p ++ rest ∧ mask 0 s = p ++ mask 0 rest

theorem Seen.refl (s : Text) : Seen s s := ⟨[], rfl, rfl⟩

theorem Seen.cons (h : maskedSpan (c :: s) = none) (hs : Seen s rest) : Seen (c :: s) rest := by
  obtain ⟨p, rfl, hp⟩ := hs
  exact ⟨c :: p, rfl, by rw [mask_seen h, hp, List.cons_append]⟩

def Plain (c : Char) : Prop := c ≠ '\'' ∧ c ≠ '"' ∧ c ≠ '$' ∧ c ≠ '-' ∧ c ≠ '/'

instance : Decidable (Plain c) := inferInstanceAs (Decidable (_ ∧ _))

theorem maskedSpan_plain (h : Plain c) : maskedSpan (c :: s) = none := by
  obtain ⟨h₁, h₂, h₃, h₄, h₅⟩ := h
  simp [maskedSpan, h₁, h₂, h₄, h₅, readDollarQuoteTag_of_ne h₃]

theorem Seen.plain (h : Plain c) (hs : Seen s rest) : Seen (c :: s) rest := .cons (maskedSpan_plain h) hs

theorem maskedSpan_part (h : isIdentifierPart c = true) (htag : readDollarQuoteTag (c :: s) = none) :
    maskedSpan (c :: s) = none := by
  have hplain : c ≠ '\'' ∧ c ≠ '"' ∧ c ≠ '-' ∧ c ≠ '/' := by
    refine ⟨?_, ?_, ?_, ?_⟩
    all_goals
      rintro rfl
      revert h
      decide
  simp [maskedSpan, hplain, htag]

theorem Seen.word (p : Text) (hp : ∀ c ∈ p, isIdentifierPart c = true)
    (htag : ∀ u ∈ p.tails, readDollarQuoteTag (u ++ rest) = none) : Seen (p ++ rest) rest := by
  induction p with
  | nil => exact .refl rest
  | cons c p ih =>
    have hc := maskedSpan_part (hp c (by simp)) (htag (c :: p) (by simp))
    exact .cons hc (ih (fun d hd => hp d (by simp [hd])) fun u hu => htag u (by simp [hu]))

theorem plain_of_isTagPart (h : Postgres.isTagPart c = true) : Plain c := by
  refine ⟨?_, ?_, ?_, ?_, ?_⟩
  all_goals
    rintro rfl
    revert h
    decide

theorem Seen.numeral (h : Numeral rest s) : Seen s rest := by
  induction h with
  | done => exact .refl rest
  | part h _ ih =>
    refine .plain ?_ ih
    obtain h | rfl | rfl := h
    · exact plain_of_isTagPart h
    all_goals decide
  | @minus s h _ ih =>
    refine .cons ?_ ih
    have hminus : s.head? ≠ some '-' := by
      intro hs
      simp [hs, Postgres.isDigit] at h
    simp [maskedSpan, readDollarQuoteTag, hminus]

theorem skipQuoted_cons {quote : Char} (h : c ≠ quote) (s : Text) :
    skipQuoted quote (c :: s) = skipQuoted quote s := by
  cases s <;> simp [skipQuoted, h]

theorem skipQuoted_of_quoted {quote : Char} (h : Postgres.quoted quote s = some rest) : skipQuoted quote s = rest := by
  fun_induction Postgres.quoted quote s with
  | case1 => cases h
  | case2 => cases h; rfl
  | case3 => cases h
  | case4 c d s hc ih => rw [skipQuoted_cons hc, ih h]
  | case5 c s hc ih =>
    obtain rfl : c = quote := by simpa using hc
    simp [skipQuoted, ih h]
  | case6 c d s hd =>
    cases h
    simp_all [skipQuoted]

theorem skipQuoted_of_escaped (h : escaped s = some rest) (hs : escapesQuote s = false) :
    skipQuoted '\'' s = rest := by
  fun_induction escaped s with
  | case1 => cases h
  | case2 => cases h
  | case3 => cases h; rfl
  | case4 c s ih =>
    simp only [escapesQuote, Bool.or_eq_false_iff, decide_eq_false_iff_not] at hs
    rw [skipQuoted_cons (by decide), skipQuoted_cons hs.1, ih h hs.2]
  | case5 s ih =>
    simp only [escapesQuote, decide_true, Bool.true_and] at hs
    simp [skipQuoted, ih h hs]
  | case6 c s hc =>
    cases h
    simp [skipQuoted, hc]
  | case7 c s h₁ h₂ h₃ h₄ ih =>
    have hb : c ≠ '\\' := by
      rintro rfl
      cases s with
      | nil => exact h₁ rfl rfl
      | cons d s => exact h₃ d s rfl rfl
    have hq : c ≠ '\'' := by
      rintro rfl
      cases s with
      | nil => exact h₂ rfl rfl
      | cons d s => exact h₄ d s rfl rfl
    have hstep : escapesQuote (c :: s) = escapesQuote s := by
      cases s with
      | nil => simp [escapesQuote]
      | cons d s => rw [escapesQuote] <;> simp [hb, hq]
    rw [skipQuoted_cons hq, ih h (hstep ▸ hs)]

theorem skipBlockComment_of_blockComment (h : blockComment 0 s = some rest) (hs : nests s = false) :
    skipBlockComment s = rest := by
  fun_induction nests s with
  | case1 => cases hs
  | case2 s =>
    cases h
    rfl
  | case3 c s h₁ h₂ ih =>
    have hstep : blockComment 0 (c :: s) = blockComment 0 s := by
      cases s <;> simp_all [blockComment]
    have hno : ¬ ['*', '/'] <+: c :: s := by
      rintro ⟨t, ht⟩
      obtain ⟨rfl, rfl⟩ := List.cons.inj ht
      exact h₂ t rfl rfl
    simpa [skipBlockComment, skipThrough, hno] using ih (hstep ▸ h) hs
  | case4 => cases h

theorem skipThrough_of_behind {pattern : Text} (h : behind pattern s = some rest) :
    skipThrough pattern s = rest := by
  fun_induction behind pattern s with
  | case1 => cases h
  | case2 c s hp =>
    cases h
    simp [skipThrough, hp]
  | case3 c s hp ih => simp [skipThrough, hp, ih h]

theorem takeWhile_eq_of_forall {p q : Char → Bool} (hpq : ∀ c, p c = true → q c = true) (hq : q '$' = false)
    (h : (s.drop (s.takeWhile p).length).head? = some '$') : s.takeWhile q = s.takeWhile p := by
  induction s with
  | nil => rfl
  | cons c s ih =>
    by_cases hc : p c
    · simp only [List.takeWhile_cons_of_pos hc, List.length_cons, List.drop_succ_cons] at h
      rw [List.takeWhile_cons_of_pos hc, List.takeWhile_cons_of_pos (hpq c hc), ih h]
    · obtain rfl : c = '$' := by simpa [hc] using h
      simp [hc, hq]

theorem isTagPart_of_isWord (h : Regex.isWord c = true) : Postgres.isTagPart c = true := by
  obtain h | rfl | rfl : ((('a' ≤ c ∧ c ≤ 'z') ∨ ('A' ≤ c ∧ c ≤ 'Z')) ∨ ('0' ≤ c ∧ c ≤ '9') ∨ c = '_') ∨
      c = '\u017f' ∨ c = '\u212a' := by
    simpa [Regex.isWord, or_assoc] using h
  · obtain h | h | rfl := h
    · simp [Postgres.isTagPart, isIdentifierStart, isLetter, h]
    · simp [Postgres.isTagPart, Postgres.isDigit, h]
    · rfl
  all_goals decide

theorem isIdentifierStart_of_isTagStart (h : isTagStart c = true) : isIdentifierStart c = true := by
  obtain ⟨hword, hdigit⟩ : Regex.isWord c = true ∧ Postgres.isDigit c = false := by
    simpa only [isTagStart, Postgres.isDigit, Bool.and_eq_true, Bool.not_eq_true'] using h
  simpa [Postgres.isTagPart, hdigit] using isTagPart_of_isWord hword

theorem dollarTag_of_readDollarQuoteTag (h : readDollarQuoteTag ('$' :: s) = some t) : dollarTag s = some t := by
  cases s with
  | nil => cases h
  | cons c s =>
    by_cases hc : isTagStart c
    · have hstart := isIdentifierStart_of_isTagStart hc
      simp only [readDollarQuoteTag, List.head?_cons, Option.any_some, hc, if_true] at h
      split_ifs at h with htag
      have hname : (c :: s).takeWhile Postgres.isTagPart = (c :: s).takeWhile isTagPart :=
        takeWhile_eq_of_forall (fun _ => isTagPart_of_isWord) rfl htag
      rw [dollarTag]
      simp only [List.head?_cons, Option.any_some, hstart, if_true, hname, htag]
      exact h
    · simp only [readDollarQuoteTag, List.head?_cons, Option.any_some, hc, Bool.false_eq_true, if_false,
        List.length_nil, List.drop_zero, Option.some.injEq] at h
      split_ifs at h with htag
      subst htag
      simpa [dollarTag, isIdentifierStart, isLetter] using h

end Catalyst.Sql
