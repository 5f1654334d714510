import Catalyst.Library.Literal
import Catalyst.Sql.Lexemes
import Mathlib

/-!
# What a screen accepts

A query that a screen accepts holds one statement for PostgreSQL, and no word of the list, where
the scanner reads each of its lexemes as PostgreSQL does.
-/

namespace Catalyst.Sql

open Library Postgres

-- -----------------
-- The masked query
-- -----------------

/-- The masked text is what one lexeme after the other leaves; `fresh` where a word may start. -/
inductive Shows : Bool → List Lexeme → Text → Prop
  | nil : Shows fresh [] []
  | cons (hl : Left l p) (hword : l.token = .word → fresh = true ∧ m.head?.any Regex.isWord = false)
      (hls : Shows (separates l.token) ls m) : Shows fresh (l :: ls) (p ++ m)

variable {c d : Char} {s t m p run : Text} {l : Lexeme} {ls : List Lexeme} {fresh : Bool}

theorem mask_head (k : Nat) (s : Text) : (mask k s).head? = s.head? ∨ (mask k s).head? = some ' ' := by
  cases s with
  | nil => simp
  | cons c s =>
    cases k with
    | zero =>
      cases h : maskedSpan (c :: s) with
      | none => exact .inl (by simp [mask_seen h])
      | some rest => exact .inr (by simp [mask, maskFrom, h])
    | succ k => exact .inr rfl

theorem mask_notWord (h : s.head?.any Regex.isWord = false) (k : Nat) :
    (mask k s).head?.any Regex.isWord = false := by
  obtain hs | hs := mask_head k s
  · rw [hs, h]
  · rw [hs]
    rfl

theorem shows_lexFrom {n k : Nat} {continuation : Continuation} (hn : s.length ≤ n) (hk : k ≤ s.length)
    (hspace : ∀ c ∈ s.take k, isSpace c = true)
    (hfresh : fresh = false → s.head?.any isIdentifierStart = false)
    (halike : ∀ l ∈ lexFrom n continuation s, ReadAlike l) :
    Shows fresh (lexFrom n continuation s) (mask k s) := by
  induction n generalizing s k continuation fresh with
  | zero =>
    obtain rfl : s = [] := List.length_eq_zero_iff.mp (by omega)
    simpa [lexFrom] using Shows.nil
  | succ n ih =>
    cases s with
    | nil => simpa [lexFrom] using Shows.nil
    | cons c s =>
      simp only [lexFrom, List.mem_cons, forall_eq_or_imp] at halike ⊢
      obtain ⟨hfirst, hothers⟩ := halike
      have hsource := text_append_rest (continuation = .newline) c s
      have hlength := (lexemeAt_rest (continuation = .newline) c s).length_le
      have hleaves := leaves_ok _ hsource rfl hfirst
      cases k with
      | zero =>
        obtain ⟨p, k, hmask, hk, hspace, hleft⟩ := hleaves.left
        have hnext (hw : (lexemeAt (continuation = .newline) c s).token = .word) : fresh = true := by
          by_contra hf
          have hstart := hleaves.starts hw
          rw [source, hsource, hfresh (by simpa using hf)] at hstart
          cases hstart
        rw [source, hsource] at hmask
        rw [hmask]
        refine .cons hleft (fun hw => ⟨hnext hw, mask_notWord (hleaves.wordEnds hw) k⟩) ?_
        exact ih (le_trans hlength (Nat.le_of_succ_le_succ hn)) hk hspace hleaves.ends hothers
      | succ k =>
        have hc : isSpace c = true := hspace c (by simp)
        have hlexeme : lexemeAt (continuation = .newline) c s = ⟨.space, [c], s⟩ := by
          simp [lexemeAt, scan, hc]
        rw [hlexeme] at hothers ⊢
        have hleft : Left ⟨.space, [c], s⟩ [' '] := .blank rfl (by simp) (by simp; decide)
        refine .cons (m := mask k s) hleft (by simp) ?_
        refine ih (Nat.le_of_succ_le_succ hn) (Nat.le_of_succ_le_succ hk) ?_ (by simp [separates]) hothers
        exact fun d hd => hspace d (by simp [hd])

theorem shows_lex (halike : ∀ l ∈ lex s, ReadAlike l) : Shows true (lex s) (maskSqlLiteralsAndComments s) :=
  shows_lexFrom le_rfl (Nat.zero_le _) (by simp) (by simp) halike

theorem wordRuns_word (hp : ∀ c ∈ p, Regex.isWord c = true) (run m : Text) :
    wordRuns run (p ++ m) = wordRuns (run ++ p) m := by
  induction p generalizing run with
  | nil => simp
  | cons c p ih =>
    have hc : Regex.isWord c = true := hp c (by simp)
    simp [wordRuns, hc, ih fun d hd => hp d (by simp [hd])]

theorem wordRuns_end (hrun : run ≠ []) (hm : m.head?.any Regex.isWord = false) :
    wordRuns run m = run :: wordRuns [] m := by
  cases m with
  | nil => simp [wordRuns, hrun]
  | cons c m =>
    have hc : Regex.isWord c = false := by simpa using hm
    simp [wordRuns, hrun, hc]

def runBehind (run p : Text) : Text := p.foldl (fun run c => if Regex.isWord c then run ++ [c] else []) run

theorem wordRuns_append (run p m : Text) :
    ∃ runs, wordRuns run (p ++ m) = runs ++ wordRuns (runBehind run p) m := by
  induction p generalizing run with
  | nil => exact ⟨[], rfl⟩
  | cons c p ih =>
    by_cases hc : Regex.isWord c
    · obtain ⟨runs, hr⟩ := ih (run ++ [c])
      exact ⟨runs, by simpa [wordRuns, runBehind, hc] using hr⟩
    · obtain ⟨runs, hr⟩ := ih []
      by_cases hrun : run = []
      · exact ⟨runs, by simpa [wordRuns, runBehind, hc, hrun] using hr⟩
      · exact ⟨run :: runs, by simpa [wordRuns, runBehind, hc, hrun] using hr⟩

theorem runBehind_of_last (h : p.getLast? = some c) (hc : Regex.isWord c = false) (run : Text) :
    runBehind run p = [] := by
  obtain ⟨q, rfl⟩ := List.getLast?_eq_some_iff.mp h
  simp [runBehind, hc]

theorem wordRuns_skip (h : ∀ c ∈ p, Regex.isWord c = false) (m : Text) :
    wordRuns [] (p ++ m) = wordRuns [] m := by
  induction p with
  | nil => rfl
  | cons c p ih =>
    have hc : Regex.isWord c = false := h c (by simp)
    simp [wordRuns, hc, ih fun d hd => h d (by simp [hd])]

theorem wordRuns_drop (h : ∀ c ∈ p, Regex.isWord c = false) (run m : Text) :
    wordRuns run (m ++ p) = wordRuns run m := by
  induction m generalizing run with
  | nil =>
    by_cases hrun : run = []
    · subst hrun
      simpa [wordRuns] using wordRuns_skip h []
    · have hhead : p.head?.any Regex.isWord = false := by
        cases p with
        | nil => rfl
        | cons c p => simpa using h c (by simp)
      have hskip : wordRuns [] p = [] := by simpa [wordRuns] using wordRuns_skip h []
      simp [wordRuns_end hrun hhead, hskip, wordRuns, hrun]
  | cons c m ih => simp only [List.cons_append, wordRuns, ih]

theorem isWord_of_isSpace (h : isSpace c = true) : Regex.isWord c = false := by
  have hlist : ∀ d ∈ [' ', '\t', '\n', '\r', '\x0b', '\x0c'], Regex.isWord d = false := by decide
  exact hlist c (by simpa only [isSpace, decide_eq_true_eq] using h)

theorem Left.separates (h : Left l p) (hs : separates l.token = true) :
    ∃ c, p.getLast? = some c ∧ Regex.isWord c = false := by
  cases h with
  | blank _ hp hspace =>
    exact ⟨p.getLast hp, List.getLast?_eq_some_getLast hp, isWord_of_isSpace (hspace _ (List.getLast_mem hp))⟩
  | hidden _ n _ => exact ⟨' ', by simp [List.replicate_succ'], rfl⟩
  | seen hw =>
    cases ht : l.token with
    | symbol =>
      obtain ⟨hne, hsym⟩ : l.text ≠ [] ∧ ∀ c ∈ l.text, Ink c ∧ Regex.isWord c = false := by
        simpa only [Written, ht] using hw
      exact ⟨l.text.getLast hne, List.getLast?_eq_some_getLast hne, (hsym _ (List.getLast_mem hne)).2⟩
    | semicolon =>
      have htext : l.text = [';'] := by simpa only [Written, ht] using hw
      exact ⟨';', by simp [htext], rfl⟩
    | word | number | parameter | invalid => simp [ht, Sql.separates] at hs
    | space | lineComment | blockComment | literal | escapeLiteral | dollarLiteral | quotedIdentifier =>
      simp [Written, ht] at hw
  | invalid ht _ => simp [ht, Sql.separates] at hs

theorem Shows.word_mem (h : Shows fresh ls m) (hrun : fresh = true → run = []) (hl : l ∈ ls)
    (ht : l.token = .word) (hne : l.text ≠ []) (hword : ∀ c ∈ l.text, Regex.isWord c = true) :
    l.text ∈ wordRuns run m := by
  induction h generalizing run with
  | nil => cases hl
  | @cons first p fresh ls m hleft hfirst hls ih =>
    obtain rfl | hl := List.mem_cons.mp hl
    · obtain ⟨hfresh, hnext⟩ := hfirst ht
      obtain rfl : p = l.text := by
        cases hleft with
        | seen => rfl
        | blank h | hidden h | invalid h => simp [ht, isBlank, isHidden] at h
      rw [hrun hfresh, wordRuns_word hword, List.nil_append, wordRuns_end hne hnext]
      exact List.mem_cons_self
    · obtain ⟨runs, hr⟩ := wordRuns_append run p m
      rw [hr]
      refine List.mem_append_right _ (ih (fun hs => ?_) hl)
      obtain ⟨c, hc, hcw⟩ := hleft.separates hs
      exact runBehind_of_last hc hcw run

def notSemicolon (l : Lexeme) : Bool := l.token ≠ .semicolon

def GoesOn (t : Text) : Prop := ∃ u v, t = u ++ ';' :: v ∧ ∃ c ∈ v, Ink c

theorem GoesOn.prepend (h : GoesOn t) (s : Text) : GoesOn (s ++ t) := by
  obtain ⟨u, v, rfl, hv⟩ := h
  exact ⟨s ++ u, v, by simp, hv⟩

theorem GoesOn.of_append_left (h : GoesOn (s ++ t)) (hs : ∀ c ∈ s, c ≠ ';') : GoesOn t := by
  induction s with
  | nil => exact h
  | cons c s ih =>
    refine ih ?_ fun d hd => hs d (by simp [hd])
    obtain ⟨u, v, heq, hv⟩ := h
    cases u with
    | nil => exact absurd (List.cons.inj heq).1 (hs c (by simp))
    | cons d u => exact ⟨u, v, (List.cons.inj heq).2, hv⟩

theorem GoesOn.of_append_right (h : GoesOn (s ++ t)) (ht : ∀ c ∈ t, ¬ Ink c) : GoesOn s := by
  obtain ⟨u, v, heq, c, hc, hink⟩ := h
  obtain ⟨w, -, rfl⟩ | ⟨w, rfl, hw⟩ := List.append_eq_append_iff.mp heq
  · exact absurd hink (ht c (by simp [hc]))
  · cases w with
    | nil =>
      rw [List.nil_append] at hw
      exact absurd hink (ht c (by simp [← hw, hc]))
    | cons d w =>
      obtain ⟨rfl, rfl⟩ := List.cons.inj hw
      obtain hc | hc := List.mem_append.mp hc
      · exact ⟨u, w, rfl, c, hc, hink⟩
      · exact absurd hink (ht c hc)

theorem Left.ink (h : Left l p) (hb : isBlank l.token = false) (hs : l.token ≠ .semicolon)
    (hspan : maskedSpan (source l) = none) (htext : ¬ ∀ c ∈ l.text, Js.isWhitespace c = true) :
    ∃ c ∈ p, Ink c := by
  cases h with
  | blank h => simp [h] at hb
  | hidden _ n hp =>
    obtain ⟨c, hc, hink⟩ := hp hspan
    exact ⟨c, by simp [hc], hink⟩
  | invalid _ hp => exact hp hspan
  | seen hw =>
    cases ht : l.token with
    | word =>
      have hpart : ∀ c ∈ l.text, isIdentifierPart c = true := by simpa only [Written, ht] using hw
      obtain ⟨c, hc, hwhite⟩ : ∃ c ∈ l.text, Js.isWhitespace c = false := by simpa using htext
      refine ⟨c, hc, hwhite, ?_⟩
      rintro rfl
      exact absurd (hpart _ hc) (by decide)
    | number | parameter => simpa only [Written, ht] using hw
    | symbol =>
      obtain ⟨hne, hsym⟩ : l.text ≠ [] ∧ ∀ c ∈ l.text, Ink c ∧ Regex.isWord c = false := by
        simpa only [Written, ht] using hw
      exact ⟨l.text.getLast hne, List.getLast_mem hne, (hsym _ (List.getLast_mem hne)).1⟩
    | semicolon => exact absurd ht hs
    | invalid | space | lineComment | blockComment | literal | escapeLiteral | dollarLiteral | quotedIdentifier =>
      simp [Written, ht] at hw

theorem Shows.ink (h : Shows fresh ls m) (hl : l ∈ ls) (hleft : ∀ p, Left l p → ∃ c ∈ p, Ink c) :
    ∃ c ∈ m, Ink c := by
  induction h with
  | nil => cases hl
  | cons hfirst _ _ ih =>
    obtain rfl | hl := List.mem_cons.mp hl
    · obtain ⟨c, hc, hink⟩ := hleft _ hfirst
      exact ⟨c, by simp [hc], hink⟩
    · obtain ⟨c, hc, hink⟩ := ih hl
      exact ⟨c, by simp [hc], hink⟩

theorem Left.semicolon (h : Left l p) (ht : l.token = .semicolon) : p = [';'] := by
  cases h with
  | seen hw => simpa only [Written, ht] using hw
  | blank h | hidden h | invalid h => simp [ht, isBlank, isHidden] at h

theorem Shows.goesOn (h : Shows fresh ls m) (hl : l ∈ ls.dropWhile notSemicolon) (hs : l.token ≠ .semicolon)
    (hleft : ∀ p, Left l p → ∃ c ∈ p, Ink c) : GoesOn m := by
  induction h with
  | nil => cases hl
  | @cons first p fresh ls m hfirst _ hls ih =>
    by_cases hsemicolon : first.token = .semicolon
    · rw [List.dropWhile_cons_of_neg (by simp [notSemicolon, hsemicolon])] at hl
      obtain rfl | hl := List.mem_cons.mp hl
      · exact absurd hsemicolon hs
      · rw [hfirst.semicolon hsemicolon]
        exact ⟨[], m, rfl, hls.ink hl hleft⟩
    · rw [List.dropWhile_cons_of_pos (by simp [notSemicolon, hsemicolon])] at hl
      exact (ih hl).prepend p

/-- Where only white space stands before the first semicolon, the masked text starts with it. -/
theorem Shows.blank (h : Shows fresh ls m) (hls : ∀ l ∈ ls.takeWhile notSemicolon, isBlank l.token = true) :
    ∀ c, (m.dropWhile Js.isWhitespace).head? = some c → c = ';' := by
  induction h with
  | nil => simp
  | @cons first p fresh ls m hfirst _ _ ih =>
    by_cases hsemicolon : first.token = .semicolon
    · rw [hfirst.semicolon hsemicolon]
      intro c hc
      have hnot : Js.isWhitespace ';' = false := by decide
      simpa [hnot, eq_comm] using hc
    · rw [List.takeWhile_cons_of_pos (by simp [notSemicolon, hsemicolon])] at hls
      have hspace : ∀ c ∈ p, Js.isWhitespace c = true := by
        have hb := hls first (by simp)
        cases hfirst with
        | blank _ _ hspace =>
          have hlist : ∀ d ∈ [' ', '\t', '\n', '\r', '\x0b', '\x0c'], Js.isWhitespace d = true := by decide
          exact fun c hc => hlist c (by simpa only [isSpace, decide_eq_true_eq] using hspace c hc)
        | hidden h => cases ht : first.token <;> simp [ht, isHidden, isBlank] at h hb
        | invalid h => simp [h, isBlank] at hb
        | seen h => cases ht : first.token <;> simp [ht, Written, isBlank] at h hb
      rw [List.dropWhile_append_of_pos hspace]
      exact ih fun l hl => hls l (by simp [hl])

theorem reverse_dropWhile_split (p : Char → Bool) (s : Text) :
    ∃ b, s = (s.reverse.dropWhile p).reverse ++ b ∧ ∀ c ∈ b, p c = true := by
  refine ⟨(s.reverse.takeWhile p).reverse, ?_, fun c hc => ?_⟩
  · rw [← List.reverse_append, List.takeWhile_append_dropWhile, List.reverse_reverse]
  · exact List.mem_takeWhile_imp (List.mem_reverse.mp hc)

theorem trim_split (s : Text) : ∃ a b, s = a ++ Js.trim s ++ b ∧
    (∀ c ∈ a, Js.isWhitespace c = true) ∧ ∀ c ∈ b, Js.isWhitespace c = true := by
  obtain ⟨b, hb, hwhite⟩ := reverse_dropWhile_split Js.isWhitespace (s.dropWhile Js.isWhitespace)
  refine ⟨s.takeWhile Js.isWhitespace, b, ?_, fun c hc => List.mem_takeWhile_imp hc, hwhite⟩
  rw [Js.trim, List.append_assoc, ← hb, List.takeWhile_append_dropWhile]

theorem normalized_split (m : Text) : ∃ a b, m = a ++ normalized m ++ b ∧
    (∀ c ∈ a, Js.isWhitespace c = true) ∧ ∀ c ∈ b, Js.isWhitespace c = true ∨ c = ';' := by
  obtain ⟨a₁, b₁, h₁, ha₁, hb₁⟩ := trim_split m
  obtain ⟨b₂, h₂, hb₂⟩ := reverse_dropWhile_split (· = ';') (Js.trim m)
  obtain ⟨a₃, b₃, h₃, ha₃, hb₃⟩ := trim_split ((Js.trim m).rdropWhile (· = ';'))
  refine ⟨a₁ ++ a₃, b₃ ++ b₂ ++ b₁, ?_, ?_, ?_⟩
  · calc m = a₁ ++ ((Js.trim m).rdropWhile (· = ';') ++ b₂) ++ b₁ := h₂ ▸ h₁
      _ = a₁ ++ (a₃ ++ normalized m ++ b₃ ++ b₂) ++ b₁ := by rw [normalized, ← h₃]
      _ = a₁ ++ a₃ ++ normalized m ++ (b₃ ++ b₂ ++ b₁) := by simp
  · intro c hc
    obtain hc | hc := List.mem_append.mp hc
    · exact ha₁ c hc
    · exact ha₃ c hc
  · intro c hc
    simp only [List.mem_append] at hc
    obtain (hc | hc) | hc := hc
    · exact .inl (hb₃ c hc)
    · exact .inr (by simpa using hb₂ c hc)
    · exact .inl (hb₁ c hc)

theorem not_isWord_of_isWhitespace (h : Js.isWhitespace c = true) : Regex.isWord c = false := by
  have hlist : ∀ d ∈ ['\t', '\n', '\x0b', '\x0c', '\r', ' ', '\u00a0', '\u1680', '\u2028', '\u2029', '\u202f',
      '\u205f', '\u3000', '\ufeff'], Regex.isWord d = false := by decide
  simp only [Js.isWhitespace, Bool.or_eq_true, Bool.and_eq_true, decide_eq_true_eq] at h
  obtain hmem | ⟨hlow, hhigh⟩ := h
  · exact hlist c hmem
  · have hletter (d : Char) (hd : d.toNat < 0x2000) : ¬ c ≤ d := by
      intro hle
      have hle : c.toNat ≤ d.toNat := hle
      omega
    have hne (d : Char) (hd : d.toNat < 0x2000 ∨ 0x200a < d.toNat) : c ≠ d := by
      rintro rfl
      omega
    simp [Regex.isWord, hletter 'z' (by decide), hletter 'Z' (by decide), hletter '9' (by decide),
      hne '_' (by decide), hne '\u017f' (by decide), hne '\u212a' (by decide)]

theorem refusal_none {messages : Messages} (h : refusal messages t = none) :
    startsRead t = true ∧ severalStatements.test t = false ∧ containsDisallowedToken t = false := by
  unfold refusal at h
  split_ifs at h with h₁ h₂ h₃ h₄
  exact ⟨by simpa using h₁, by simpa using h₂, by simpa using h₄⟩

theorem severalStatements_of_goesOn (h : GoesOn t) : severalStatements.test t = true := by
  obtain ⟨u, v, rfl, c, hc, hink⟩ := h
  refine Regex.testFrom_of_places ?_
  obtain ⟨l, hl, hrest⟩ : ∃ l ∈ Regex.manyPlaces Js.isWhitespace (some ';') v, l.rest = v.dropWhile Js.isWhitespace :=
    Regex.mem_manyPlaces_dropWhile Js.isWhitespace v
  cases hv : v.dropWhile Js.isWhitespace with
  | nil => simp [List.dropWhile_eq_nil_iff.mp hv c hc, Ink] at hink
  | cons d w =>
    have hd : Js.isWhitespace d = false := by
      have hnot := List.head?_dropWhile_not Js.isWhitespace v
      rw [hv] at hnot
      exact hnot
    refine List.ne_nil_of_mem (a := ⟨some d, w⟩) ?_
    simp only [severalStatements, Regex.sequence, List.foldr, Regex.places, decide_true, if_true, List.flatMap_cons,
      List.flatMap_nil, List.append_nil, List.mem_flatMap]
    exact ⟨l, hl, by simp [hrest, hv, hd]⟩

theorem testStart_text {letter : Char} {letters : Text} {r : Regex}
    (h : Regex.testStart (Regex.sequence [Regex.text (letter :: letters), r]) t = true) :
    ∃ c s, t = c :: s ∧ Regex.folds letter c = true := by
  cases t with
  | nil => simp [Regex.testStart, Regex.sequence, Regex.text, Regex.places] at h
  | cons c s =>
    refine ⟨c, s, rfl, ?_⟩
    by_contra hc
    simp [Regex.testStart, Regex.sequence, Regex.text, Regex.places, hc] at h

theorem startsRead_head (h : startsRead t = true) : ∃ c s, t = c :: s ∧ Js.isWhitespace c = false ∧ c ≠ ';' := by
  have hselect : "select".toList = ['s', 'e', 'l', 'e', 'c', 't'] := by decide
  have hwith : "with".toList = ['w', 'i', 't', 'h'] := by decide
  have hs : ∀ c ∈ ['s', 'S', '\u017f'], Js.isWhitespace c = false ∧ c ≠ ';' := by decide
  have hw : ∀ c ∈ ['w', 'W'], Js.isWhitespace c = false ∧ c ≠ ';' := by decide
  rw [startsRead, hselect, hwith, Bool.or_eq_true] at h
  obtain h | h := h
  · obtain ⟨c, s, rfl, hc⟩ := testStart_text h
    exact ⟨c, s, rfl, hs c (by simpa [Regex.folds, or_assoc] using hc)⟩
  · obtain ⟨c, s, rfl, hc⟩ := testStart_text h
    exact ⟨c, s, rfl, hw c (by simpa [Regex.folds] using hc)⟩

/-- PostgreSQL folds the letters of ASCII. -/
def keyword (l : Lexeme) : String := String.ofList (l.text.map Char.toLower)

theorem disallowedTokens_letters : ∀ w ∈ disallowedTokens, w.toList ≠ [] ∧ ∀ c ∈ w.toList, 'a' ≤ c ∧ c ≤ 'z' := by
  decide

theorem letter_of_toLower (h : 'a' ≤ c.toLower ∧ c.toLower ≤ 'z') :
    Regex.isWord c = true ∧ isTagStart c = true ∧ toLowerCase c = c.toLower := by
  have hletter : ('a' ≤ c ∧ c ≤ 'z') ∨ ('A' ≤ c ∧ c ≤ 'Z') := by
    by_cases hupper : c.val ≥ 'A'.val ∧ c.val ≤ 'Z'.val
    · exact .inr hupper
    · simp only [Char.toLower, dif_neg hupper] at h
      exact .inl h
  have hle : c ≤ 'z' := by
    obtain ⟨-, h⟩ | ⟨-, h⟩ := hletter
    · exact h
    · exact le_trans h (by decide)
  have hlow : 'A' ≤ c := by
    obtain ⟨h, -⟩ | ⟨h, -⟩ := hletter
    · exact le_trans (by decide) h
    · exact h
  have hkelvin : c ≠ '\u212a' := by
    rintro rfl
    exact absurd hle (by decide)
  have hdigit : ¬ c ≤ '9' := fun h => absurd (le_trans hlow h) (by decide)
  have hword : Regex.isWord c = true := by
    obtain h | h := hletter
    all_goals simp [Regex.isWord, h]
  exact ⟨hword, by simp [isTagStart, hword, hdigit], by simp [toLowerCase, hkelvin]⟩

theorem letters_of_keyword (hk : keyword l ∈ disallowedTokens) :
    l.text ≠ [] ∧ ∀ c ∈ l.text, Regex.isWord c = true ∧ isTagStart c = true ∧ toLowerCase c = c.toLower := by
  obtain ⟨hne, hletters⟩ := disallowedTokens_letters _ hk
  rw [keyword, String.toList_ofList] at hne hletters
  refine ⟨by simpa using hne, fun c hc => letter_of_toLower (hletters _ (List.mem_map_of_mem hc))⟩

theorem containsDisallowedToken_of_mem (hl : l.text ∈ wordRuns [] t) (hk : keyword l ∈ disallowedTokens) :
    containsDisallowedToken t = true := by
  obtain ⟨hne, hletters⟩ := letters_of_keyword hk
  have hlower : l.text.map toLowerCase = l.text.map Char.toLower :=
    List.map_congr_left fun c hc => (hletters c hc).2.2
  have hstart : l.text.head?.any isTagStart = true := by
    cases htext : l.text with
    | nil => exact absurd htext hne
    | cons c text => exact (hletters c (by simp [htext])).2.1
  have hfound : isDisallowed l.text = true := by
    rw [isDisallowed, hstart, hlower, Bool.true_and]
    exact decide_eq_true hk
  rw [containsDisallowedToken, List.any_eq_true.mpr ⟨l.text, hl, hfound⟩, Bool.true_or]

/-- One statement, with nothing but semicolons behind it, and without the keywords of the list. -/
structure HoldsOneStatement (ls : List Lexeme) : Prop where
  starts : ∃ l ∈ ls.takeWhile notSemicolon, isBlank l.token = false
  ends : ∀ l ∈ ls.dropWhile notSemicolon, isBlank l.token = true ∨ l.token = .semicolon
  allowed : ∀ l ∈ ls, l.token = .word → keyword l ∉ disallowedTokens

/-- The scanner reads each lexeme as PostgreSQL does, and what stands behind the first semicolon
is not blanked out or white space to it. -/
structure ReadAsLexed (ls : List Lexeme) : Prop where
  alike : ∀ l ∈ ls, ReadAlike l
  shown : ∀ l ∈ ls.dropWhile notSemicolon, isBlank l.token = true ∨ l.token = .semicolon ∨
    (maskedSpan (source l) = none ∧ ¬ ∀ c ∈ l.text, Js.isWhitespace c = true)

theorem holdsOneStatement_of_refusal {query : Text} {messages : Messages} (h : ReadAsLexed (lex query))
    (haccepted : refusal messages (normalized (maskSqlLiteralsAndComments query)) = none) :
    HoldsOneStatement (lex query) := by
  obtain ⟨hread, hseveral, hdisallowed⟩ := refusal_none haccepted
  obtain ⟨a, b, hsplit, ha, hb⟩ := normalized_split (maskSqlLiteralsAndComments query)
  have hshows := shows_lex h.alike
  generalize hm : maskSqlLiteralsAndComments query = m at *
  refine ⟨?_, ?_, ?_⟩
  · by_contra hblank
    obtain ⟨c, s, hs, hwhite, hne⟩ := startsRead_head hread
    have hfirst : (m.dropWhile Js.isWhitespace).head? = some c := by
      rw [hsplit, List.append_assoc, List.dropWhile_append_of_pos ha, hs]
      simp [hwhite]
    exact hne (hshows.blank (by simpa using hblank) c hfirst)
  · intro l hl
    by_contra hnot
    obtain ⟨hb', hs⟩ := not_or.mp hnot
    have hshown := (h.shown l hl).resolve_left hb' |>.resolve_left hs
    have hink : ∀ p, Left l p → ∃ c ∈ p, Ink c := fun p hp =>
      hp.ink (by simpa using hb') hs hshown.1 hshown.2
    have hgoes := hshows.goesOn hl hs hink
    rw [hsplit, List.append_assoc] at hgoes
    have hnormal := (hgoes.of_append_left fun c hc => by
      rintro rfl
      exact absurd (ha _ hc) (by decide)).of_append_right fun c hc hink => by
        obtain hwhite | hsemi := hb c hc
        · simp [Ink, hwhite] at hink
        · exact hink.2 hsemi
    simp [severalStatements_of_goesOn hnormal] at hseveral
  · intro l hl ht hk
    obtain ⟨hne, hletters⟩ := letters_of_keyword hk
    have hmem : l.text ∈ wordRuns [] m :=
      hshows.word_mem (fun _ => rfl) hl ht hne fun c hc => (hletters c hc).1
    have ha' : ∀ c ∈ a, Regex.isWord c = false := fun c hc => not_isWord_of_isWhitespace (ha c hc)
    have hb' : ∀ c ∈ b, Regex.isWord c = false := by
      intro c hc
      obtain hwhite | rfl := hb c hc
      · exact not_isWord_of_isWhitespace hwhite
      · rfl
    rw [hsplit, wordRuns_drop hb', wordRuns_skip ha'] at hmem
    simp [containsDisallowedToken_of_mem hmem hk] at hdisallowed

theorem refusal_none_iff (messages messages' : Messages) (t : Text) : refusal messages t = none ↔ refusal messages' t = none := by
  unfold refusal
  split_ifs <;> simp

theorem assertReadOnlyQuery_ok {query : Text} :
    assertReadOnlyQuery query = .ok () ↔ refusal dataSourceMessages (normalized (maskSqlLiteralsAndComments query)) = none := by
  unfold assertReadOnlyQuery
  split
  · rename_i hrefusal
    simp [hrefusal]
  · rename_i hnone
    simp [hnone]

theorem screenPostgresQuery_ok {query : Text} : screenPostgresQuery query = .ok () ↔
    (Js.utf16 query).length ≤ postgresQueryTextMaxChars ∧
      refusal connectorMessages (normalized (maskSqlLiteralsAndComments query)) = none := by
  rw [← maskLiteralsAndComments_eq]
  simp only [screenPostgresQuery, Check.bind_ok, Check.require_ok]
  constructor
  · rintro ⟨_, hlength, h⟩
    split at h
    · cases h
    · rename_i hnone
      exact ⟨hlength, hnone⟩
  · rintro ⟨hlength, hnone⟩
    exact ⟨(), hlength, by rw [hnone]⟩

/-- What either screen accepts is one statement without the keywords of the list. -/
theorem screened_query_ok {query : Text} (h : ReadAsLexed (lex query))
    (haccepted : assertReadOnlyQuery query = .ok () ∨ screenPostgresQuery query = .ok ()) :
    HoldsOneStatement (lex query) := by
  obtain haccepted | haccepted := haccepted
  · exact holdsOneStatement_of_refusal h (assertReadOnlyQuery_ok.mp haccepted)
  · obtain ⟨_, hnone⟩ := screenPostgresQuery_ok.mp haccepted
    exact holdsOneStatement_of_refusal h hnone

theorem screened_query_ok_literal : HoldsOneStatement (lex "select 'a;b', $$;$$ from t where e = 1.5; -- done".toList) :=
  screened_query_ok
    (of_literal (P := fun query => ReadAsLexed (lex query)) ⟨by decide, by decide⟩)
    (.inl (of_literal (P := fun query => assertReadOnlyQuery query = .ok ()) (by decide)))

/-- The dollar signs of two names hide what stands between them, which PostgreSQL takes for three
more statements. -/
def hiddenDelete : Text := "select 1 as a$$;commit;delete from t;select 1 as b$$".toList

theorem hidden_delete_accepted :
    assertReadOnlyQuery hiddenDelete = .ok () ∧ screenPostgresQuery hiddenDelete = .ok () ∧
      (∃ l ∈ lex hiddenDelete, l.token = .word ∧ keyword l = "delete") ∧ ¬ HoldsOneStatement (lex hiddenDelete) := by
  have hfound : ∃ l ∈ lex hiddenDelete, l.token = .word ∧ keyword l = "delete" :=
    of_literal (P := fun query => ∃ l ∈ lex query, l.token = .word ∧ keyword l = "delete") (by decide)
  refine ⟨of_literal (P := fun query => assertReadOnlyQuery query = .ok ()) (by decide),
    of_literal (P := fun query => screenPostgresQuery query = .ok ()) (by decide), hfound, fun h => ?_⟩
  obtain ⟨l, hl, ht, hk⟩ := hfound
  exact h.allowed l hl ht (hk ▸ by decide)

end Catalyst.Sql
