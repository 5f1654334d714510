import Catalyst.Sql.Masked

/-!
# What a lexeme leaves

A lexeme that the scanners read as PostgreSQL does leaves white space where it is a comment, its
own text where it is a word, a number or a symbol, and blanks where it is a literal or a quoted
identifier.
-/

namespace Catalyst.Sql

open Library Postgres

variable {c d : Char} {s t : Text} {l : Lexeme} {continues : Bool} {lexed : Token × Text}

abbrev source (l : Lexeme) : Text := l.text ++ l.rest

def isBlank : Token → Bool
  | .space | .lineComment | .blockComment => true
  | _ => false

def isHidden : Token → Bool
  | .literal | .escapeLiteral | .dollarLiteral | .quotedIdentifier => true
  | _ => false

def separates : Token → Bool
  | .word | .number | .parameter | .invalid => false
  | _ => true

/-- Where the scanners might read another span than PostgreSQL: at a dollar sign inside a word, at
a quote behind a backslash, at a tag beyond ASCII, at a carriage return that ends a comment, and
at a comment inside another. -/
def ReadAlike (l : Lexeme) : Prop :=
  match l.token with
  | .word => ∀ u ∈ l.text.tails, readDollarQuoteTag (u ++ l.rest) = none
  | .escapeLiteral => escapesQuote ((source l).dropWhile (· ≠ '\'')).tail = false
  | .dollarLiteral => readDollarQuoteTag (source l) ≠ none
  | .lineComment => ∀ c ∈ l.rest.takeWhile (· ≠ '\n'), isSpace c = true
  | .blockComment => nests ((source l).drop 2) = false
  | _ => True

instance (l : Lexeme) : Decidable (ReadAlike l) := by
  unfold ReadAlike
  split
  all_goals infer_instance

def Ink (c : Char) : Prop := Js.isWhitespace c = false ∧ c ≠ ';'

instance : Decidable (Ink c) := inferInstanceAs (Decidable (_ ∧ _))

def Written (l : Lexeme) : Prop :=
  match l.token with
  | .word => ∀ c ∈ l.text, isIdentifierPart c = true
  | .number | .parameter => ∃ c ∈ l.text, Ink c
  | .symbol => l.text ≠ [] ∧ ∀ c ∈ l.text, Ink c ∧ Regex.isWord c = false
  | .semicolon => l.text = [';']
  | _ => False

inductive Left (l : Lexeme) : Text → Prop
  | blank (h : isBlank l.token = true) (hp : p ≠ []) (hs : ∀ c ∈ p, isSpace c = true) : Left l p
  | hidden (h : isHidden l.token = true) (n : Nat) (hp : maskedSpan (source l) = none → ∃ c ∈ p, Ink c) :
    Left l (p ++ List.replicate (n + 1) ' ')
  | seen (h : Written l) : Left l l.text
  | invalid (h : l.token = .invalid) (hp : maskedSpan (source l) = none → ∃ c ∈ p, Ink c) : Left l p

/-- What a lexeme leaves, and how much of the white space behind it is still blanked out. -/
structure Leaves (l : Lexeme) : Prop where
  left : ∃ p k, mask 0 (source l) = p ++ mask k l.rest ∧ k ≤ l.rest.length ∧
    (∀ c ∈ l.rest.take k, isSpace c = true) ∧ Left l p
  starts : l.token = .word → (source l).head?.any isIdentifierStart = true
  ends : separates l.token = false → l.rest.head?.any isIdentifierStart = false
  wordEnds : l.token = .word → l.rest.head?.any Regex.isWord = false

-- -----------------
-- The kinds of lexemes
-- -----------------

theorem Seen.text (h : Seen (source l) l.rest) : mask 0 (source l) = l.text ++ mask 0 l.rest := by
  obtain ⟨p, hp, hm⟩ := h
  rw [hm, List.append_cancel_right hp]

theorem Seen.plains {p : Text} (h : ∀ c ∈ p, Plain c) : Seen (p ++ s) s := by
  induction p with
  | nil => exact .refl s
  | cons c p ih => exact .plain (h c (by simp)) (ih fun d hd => h d (by simp [hd]))

theorem left_of_seen (h : Seen (source l) l.rest) (hw : Written l) :
    ∃ p k, mask 0 (source l) = p ++ mask k l.rest ∧ k ≤ l.rest.length ∧
      (∀ c ∈ l.rest.take k, isSpace c = true) ∧ Left l p :=
  ⟨l.text, 0, h.text, Nat.zero_le _, by simp, .seen hw⟩

theorem leaves_of_comment (hsource : source l = c :: s) (hspan : maskedSpan (c :: s) = some t) (ht : t <:+ l.rest)
    (hr : l.rest <:+ s) (hspace : ∀ c ∈ l.rest.take (l.rest.length - t.length), isSpace c = true)
    (h : isBlank l.token = true) : Leaves l where
  left := ⟨_, _, hsource ▸ mask_hidden hspan ht hr, Nat.sub_le _ _, hspace, .blank h (by simp) (by
    intro d hd
    rw [List.eq_of_mem_replicate hd]
    rfl)⟩
  starts hw := by simp [hw, isBlank] at h
  ends hs := by cases htoken : l.token <;> simp [htoken, isBlank, separates] at h hs
  wordEnds hw := by simp [hw, isBlank] at h

theorem leaves_of_quoted (p : Text) (hsource : source l = p ++ d :: t) (hplain : ∀ c ∈ p, Plain c)
    (hink : ∀ c ∈ p, Ink c) (hspan : maskedSpan (d :: t) = some l.rest) (hr : l.rest <:+ t)
    (h : isHidden l.token = true) : Leaves l where
  left := by
    obtain ⟨q, hq, hm⟩ := Seen.plains (s := d :: t) hplain
    obtain rfl := List.append_cancel_right hq
    have hcut : mask 0 (source l) = (p ++ List.replicate (t.length - l.rest.length + 1) ' ') ++ mask 0 l.rest := by
      rw [hsource, hm, mask_hidden hspan List.suffix_rfl hr, Nat.sub_self, List.append_assoc]
    refine ⟨_, 0, hcut, Nat.zero_le _, by simp, .hidden h _ fun hnone => ?_⟩
    cases p with
    | nil =>
      rw [hsource, List.nil_append, hspan] at hnone
      cases hnone
    | cons c p => exact ⟨c, by simp, hink c (by simp)⟩
  starts hw := by simp [hw, isHidden] at h
  ends hs := by cases htoken : l.token <;> simp [htoken, isHidden, separates] at h hs
  wordEnds hw := by simp [hw, isHidden] at h

theorem leaves_of_invalid (hsource : source l = c :: s) (hc : Ink c) (h : l.token = .invalid) (hr : l.rest = []) :
    Leaves l where
  left := by
    have hzero : mask 0 (source l) = mask 0 (source l) ++ mask 0 l.rest := by simp [hr]
    refine ⟨_, 0, hzero, Nat.zero_le _, by simp, .invalid h fun hnone => ⟨c, ?_, hc⟩⟩
    rw [hsource] at hnone ⊢
    simp [mask_seen hnone]
  starts hw := by simp [hw] at h
  ends _ := by simp [hr]
  wordEnds hw := by simp [hw] at h

theorem leaves_of_symbol (p : Text) (hsource : source l = p ++ l.rest) (hseen : Seen (source l) l.rest)
    (hne : p ≠ []) (hp : ∀ c ∈ p, Ink c ∧ Regex.isWord c = false) (h : l.token = .symbol) : Leaves l where
  left := by
    obtain rfl := List.append_cancel_right hsource
    exact left_of_seen hseen (by simpa only [Written, h] using ⟨hne, hp⟩)
  starts hw := by simp [hw] at h
  ends hs := by simp [h, separates] at hs
  wordEnds hw := by simp [hw] at h

theorem leaves_of_number (hsource : source l = c :: s) (hc : Plain c) (hink : Ink c) (h : l.token = .number)
    (hn : Numeral l.rest s) (hr : l.rest.head?.any isIdentifierStart = false) : Leaves l where
  left := by
    have hseen : Seen (source l) l.rest := hsource ▸ .plain hc (.numeral hn)
    refine left_of_seen hseen ?_
    obtain ⟨p, hp⟩ := hn.suffix
    have htext : l.text = c :: p := List.append_cancel_right (hsource.trans (by rw [← hp, List.cons_append]))
    simpa only [Written, h, htext] using ⟨c, List.mem_cons_self, hink⟩
  starts hw := by simp [hw] at h
  ends _ := hr
  wordEnds hw := by simp [hw] at h

theorem leaves_of_word (p : Text) (hsource : source l = p ++ l.rest) (hp : ∀ c ∈ p, isIdentifierPart c = true)
    (hstart : p.head?.any isIdentifierStart = true)
    (hrest : ∀ c, l.rest.head? = some c → isIdentifierPart c = false) (h : l.token = .word)
    (halike : ReadAlike l) : Leaves l where
  left := by
    obtain rfl := List.append_cancel_right hsource
    have htag : ∀ u ∈ l.text.tails, readDollarQuoteTag (u ++ l.rest) = none := by
      simpa only [ReadAlike, h] using halike
    exact left_of_seen (.word l.text hp htag) (by simpa only [Written, h] using hp)
  starts _ := by
    rw [hsource]
    cases p with
    | nil => simp at hstart
    | cons c p => exact hstart
  ends _ := by
    cases hd : l.rest.head? with
    | none => rfl
    | some c =>
      have hc := hrest c hd
      simp only [isIdentifierPart, Bool.or_eq_false_iff] at hc
      exact hc.1.1
  wordEnds _ := by
    cases hd : l.rest.head? with
    | none => rfl
    | some c =>
      have hc := hrest c hd
      by_contra hword
      have hpart := isTagPart_of_isWord (by simpa using hword)
      simp [isIdentifierPart, Postgres.isTagPart, -Bool.not_eq_true] at hc hpart
      simp_all

-- -----------------
-- Every lexeme
-- -----------------

def LeavesAs (c : Char) (s : Text) (lexed : Token × Text) : Prop :=
  ∀ l, source l = c :: s → (l.token, l.rest) = lexed → ReadAlike l → Leaves l

theorem leavesAs_closed (hink : Ink c)
    (h : ∀ l, source l = c :: s → l.token = token → o = some l.rest → ReadAlike l → Leaves l) :
    LeavesAs c s (closed token o) := by
  intro l hsource hl halike
  obtain ⟨ht, hr⟩ | ⟨ht, ho⟩ := closed_ok hl.symm
  · exact leaves_of_invalid hsource hink ht hr
  · exact h l hsource ht ho halike

theorem leavesAs_number (hc : Plain c) (hink : Ink c) (h : IsNumber s lexed) : LeavesAs c s lexed := by
  rintro l hsource rfl -
  obtain h | ⟨h, hn, hr⟩ := h
  · exact leaves_of_invalid hsource hink (congrArg Prod.fst h) (congrArg Prod.snd h)
  · exact leaves_of_number hsource hc hink h hn hr

theorem space_or_large (h : Js.isWhitespace c = true) : isSpace c = true ∨ 0x80 ≤ c.toNat := by
  have hlist : ∀ d ∈ ['\t', '\n', '\x0b', '\x0c', '\r', ' ', '\u00a0', '\u1680', '\u2028', '\u2029', '\u202f',
      '\u205f', '\u3000', '\ufeff'], isSpace d = true ∨ 0x80 ≤ d.toNat := by decide
  simp only [Js.isWhitespace, Bool.or_eq_true, Bool.and_eq_true, decide_eq_true_eq] at h
  obtain hmem | ⟨hlow, -⟩ := h
  · exact hlist c hmem
  · exact .inr (by omega)

theorem ink_of_not_space (h : isSpace c = false) (hs : isIdentifierStart c = false) (hc : c ≠ ';') : Ink c := by
  refine ⟨?_, hc⟩
  by_contra hwhite
  obtain hspace | hlarge := space_or_large (by simpa using hwhite)
  · simp [hspace] at h
  · simp [isIdentifierStart, hlarge] at hs

theorem not_isWord (hs : isIdentifierStart c = false) (hd : Postgres.isDigit c = false) : Regex.isWord c = false := by
  by_contra hword
  have hpart := isTagPart_of_isWord (by simpa using hword)
  simp [Postgres.isTagPart, hs, hd] at hpart

theorem not_isIdentifierStart (h : Postgres.isDigit c = true) : isIdentifierStart c = false := by
  obtain ⟨-, hdigit⟩ : '0' ≤ c ∧ c ≤ '9' := by simpa [Postgres.isDigit] using h
  have hhigh : c.toNat ≤ 57 := hdigit
  by_contra hstart
  simp only [isIdentifierStart, isLetter, Bool.not_eq_false, Bool.or_eq_true, Bool.and_eq_true,
    decide_eq_true_eq] at hstart
  obtain ((⟨ha, -⟩ | ⟨hA, -⟩) | rfl) | hlarge := hstart
  · have hlow : 97 ≤ c.toNat := ha
    omega
  · have hlow : 65 ≤ c.toNat := hA
    omega
  · revert hhigh
    decide
  · omega

theorem readDollarQuoteTag_of_digit (h : s.head?.any Postgres.isDigit = true) : readDollarQuoteTag ('$' :: s) = none := by
  cases hread : readDollarQuoteTag ('$' :: s) with
  | none => rfl
  | some tag =>
    have htag := dollarTag_of_readDollarQuoteTag hread
    cases s with
    | nil => simp at h
    | cons c s =>
      have hdigit : Postgres.isDigit c = true := by simpa using h
      have hstart := not_isIdentifierStart hdigit
      have hdollar : c ≠ '$' := by
        rintro rfl
        revert hdigit
        decide
      simp [dollarTag, hstart, hdollar] at htag

theorem readDollarQuoteTag_length (h : readDollarQuoteTag s = some t) : 0 < t.length := by
  unfold readDollarQuoteTag at h
  split at h
  · dsimp only at h
    split_ifs at h
    all_goals
      cases h
      exact Nat.zero_lt_succ _
  · cases h

theorem leavesAs_dollar : LeavesAs '$' s (dollar s) := by
  unfold dollar
  refine iteInduction (fun hdigit => ?_) fun hdigit => ?_
  · dsimp only
    refine iteInduction (fun hjunk => ?_) fun hjunk => ?_
    · rintro l hsource hl -
      obtain ⟨ht, hr⟩ := Prod.mk.inj hl
      exact leaves_of_invalid hsource (by decide) ht hr
    · rintro l hsource hl -
      obtain ⟨ht, hr⟩ := Prod.mk.inj hl
      have hseen : Seen (source l) l.rest := by
        have hdigits : Seen s (s.dropWhile Postgres.isDigit) := by
          have hplain : ∀ c ∈ s.takeWhile Postgres.isDigit, Plain c := fun c hc =>
            plain_of_isTagPart (isTagPart_of_isDigit (List.mem_takeWhile_imp hc))
          simpa only [List.takeWhile_append_dropWhile] using Seen.plains (s := s.dropWhile Postgres.isDigit) hplain
        rw [hsource, hr]
        exact .cons (maskedSpan_part (by decide) (readDollarQuoteTag_of_digit hdigit)) hdigits
      have htext : l.text = '$' :: s.takeWhile Postgres.isDigit := by
        refine List.append_cancel_right (hsource.trans ?_)
        rw [hr, List.cons_append, List.takeWhile_append_dropWhile]
      have hwritten : Written l := by
        simpa only [Written, ht, htext] using ⟨'$', List.mem_cons_self, by decide⟩
      exact ⟨left_of_seen hseen hwritten, by simp [ht], fun _ => by simpa [hr] using hjunk, by simp [ht]⟩
  · split
    · rename_i tag htag
      refine leavesAs_closed (by decide) fun l hsource ht ho halike => ?_
      have hread : readDollarQuoteTag ('$' :: s) = some tag := by
        rw [ReadAlike, ht, hsource] at halike
        obtain ⟨t, hr⟩ := Option.ne_none_iff_exists'.mp halike
        rw [hr, ← dollarTag_of_readDollarQuoteTag hr, htag]
      have hlength : s.drop (tag.length - 1) = ('$' :: s).drop tag.length := by
        obtain ⟨n, hn⟩ := Nat.exists_eq_succ_of_ne_zero (readDollarQuoteTag_length hread).ne'
        rw [hn]
        rfl
      refine leaves_of_quoted [] hsource (by simp) (by simp) ?_ ((behind_suffix ho).trans (List.drop_suffix ..))
        (by rw [ht]; rfl)
      simp [maskedSpan, hread, ← hlength, skipThrough_of_behind ho]
    · rename_i htag
      rintro l hsource hl -
      obtain ⟨ht, hr⟩ := Prod.mk.inj hl
      have hread : readDollarQuoteTag ('$' :: s) = none := by
        cases hread : readDollarQuoteTag ('$' :: s) with
        | none => rfl
        | some tag => simp [dollarTag_of_readDollarQuoteTag hread] at htag
      have hnone : maskedSpan ('$' :: s) = none := maskedSpan_part (by decide) hread
      refine leaves_of_symbol ['$'] (by rw [hsource, hr]; rfl) ?_ (by simp) (by simp; decide) ht
      rw [hsource, hr]
      exact .cons hnone (.refl s)

theorem leavesAs_quote (p : Text) (hs : c :: s = p ++ d :: t) (hp : ∀ c ∈ p, Plain c ∧ Ink c)
    (hd : d = '\'' ∨ d = '"') (token : Token) (ht : isHidden token = true) :
    LeavesAs c s (closed token (Postgres.quoted d t)) := by
  have hink : Ink c := by
    cases p with
    | nil =>
      obtain rfl := (List.cons.inj hs).1
      obtain rfl | rfl := hd
      all_goals decide
    | cons c p =>
      obtain rfl := (List.cons.inj hs).1
      exact (hp _ (by simp)).2
  refine leavesAs_closed hink fun l hsource hl ho _ => ?_
  refine leaves_of_quoted p (hsource.trans hs) (fun c hc => (hp c hc).1) (fun c hc => (hp c hc).2) ?_
    (quoted_suffix ho) (hl ▸ ht)
  simp [maskedSpan, hd, skipQuoted_of_quoted ho]

theorem leavesAs_letter (hc : isIdentifierStart c = true)
    (hs : ∀ d, s.head? = some d → isIdentifierPart d = false) : LeavesAs c s (.word, s) := by
  rintro l hsource hl halike
  obtain ⟨ht, hr⟩ := Prod.mk.inj hl
  refine leaves_of_word [c] (by rw [hsource, hr]; rfl) ?_ (by simpa using hc) (by rwa [hr]) ht halike
  simpa using isIdentifierPart_of_start hc

theorem leavesAs_identifier (hc : isIdentifierStart c = true) : LeavesAs c s (identifier c s) := by
  have hu (hu : c = 'u' ∨ c = 'U') : ∀ d ∈ [c, '&'], Plain d ∧ Ink d := by
    obtain rfl | rfl := hu
    all_goals decide
  fun_cases identifier c s with
  | case1 t he =>
    have hlist : ∀ d ∈ ['e', 'E'], Plain d ∧ Ink d ∧ d ≠ '\'' := by decide
    obtain ⟨hplain, hink, hne⟩ := hlist c (by simpa using he)
    refine leavesAs_closed hink fun l hsource ht ho halike => ?_
    have hescapes : escapesQuote t = false := by
      rw [ReadAlike, ht, hsource] at halike
      simpa [hne] using halike
    refine leaves_of_quoted [c] hsource (by simpa using hplain) (by simpa using hink) ?_ (escaped_suffix ho)
      (by rw [ht]; rfl)
    simp [maskedSpan, skipQuoted_of_escaped ho hescapes]
  | case2 t _ hb =>
    have hlist : ∀ d ∈ ['b', 'B', 'x', 'X', 'n', 'N'], Plain d ∧ Ink d := by decide
    exact leavesAs_quote [c] rfl (by simpa using hlist c hb) (.inl rfl) _ rfl
  | case3 t => exact leavesAs_letter hc (by simp; decide)
  | case4 t h => exact leavesAs_quote [c, '&'] rfl (hu h) (.inl rfl) _ rfl
  | case5 t => exact leavesAs_letter hc (by simp; decide)
  | case6 t h => exact leavesAs_quote [c, '&'] rfl (hu h) (.inr rfl) _ rfl
  | case7 t => exact leavesAs_letter hc (by simp; decide)
  | case8 s =>
    rintro l hsource hl halike
    obtain ⟨ht, hr⟩ := Prod.mk.inj hl
    refine leaves_of_word (c :: s.takeWhile isIdentifierPart) ?_ ?_ (by simpa using hc) ?_ ht halike
    · rw [hsource, hr, List.cons_append, List.takeWhile_append_dropWhile]
    · simpa using ⟨isIdentifierPart_of_start hc, fun d hd => List.mem_takeWhile_imp hd⟩
    · rw [hr]
      intro d hd
      have hnot := List.head?_dropWhile_not isIdentifierPart s
      rw [hd] at hnot
      exact hnot

theorem dropWhile_dropWhile {p q : Char → Bool} (h : ∀ c, q c = true → p c = true) (s : Text) :
    (s.dropWhile q).dropWhile p = s.dropWhile p := by
  induction s with
  | nil => rfl
  | cons c s ih =>
    by_cases hc : q c
    · simp [hc, h c hc, ih]
    · simp [hc]

theorem take_before_dropWhile (p : Char → Bool) (s : Text) :
    s.take (s.length - (s.dropWhile p).length) = s.takeWhile p := by
  have hlength : s.length = (s.takeWhile p).length + (s.dropWhile p).length := by
    rw [← List.length_append, List.takeWhile_append_dropWhile]
  have htake : (s.takeWhile p ++ s.dropWhile p).take (s.takeWhile p).length = s.takeWhile p := List.take_left
  rw [List.takeWhile_append_dropWhile] at htake
  rw [hlength, Nat.add_sub_cancel, htake]

theorem leavesAs_lineComment (hs : s.head? = some '-') :
    LeavesAs '-' s (.lineComment, s.tail.dropWhile (!isNewline ·)) := by
  rintro l hsource hl halike
  obtain ⟨ht, hr⟩ := Prod.mk.inj hl
  have hrest : skipLineComment s.tail = l.rest.dropWhile (· ≠ '\n') := by
    rw [hr, skipLineComment, dropWhile_dropWhile]
    intro c hc
    simp only [isNewline, Bool.not_or, Bool.and_eq_true] at hc
    simpa using hc.1
  have hspan : maskedSpan ('-' :: s) = some (l.rest.dropWhile (· ≠ '\n')) := by
    rw [← hrest]
    simp [maskedSpan, readDollarQuoteTag, hs]
  refine leaves_of_comment hsource hspan (List.dropWhile_suffix _) ?_ ?_ (by rw [ht]; rfl)
  · rw [hr]
    exact (List.dropWhile_suffix _).trans (List.tail_suffix s)
  · have hspace : ∀ c ∈ l.rest.takeWhile (· ≠ '\n'), isSpace c = true := by
      simpa only [ReadAlike, ht] using halike
    rwa [take_before_dropWhile]

theorem leavesAs_blockComment (hs : s.head? = some '*') :
    LeavesAs '/' s (closed .blockComment (blockComment 0 s.tail)) := by
  refine leavesAs_closed (by decide) fun l hsource ht ho halike => ?_
  obtain ⟨t, rfl⟩ : ∃ t, s = '*' :: t := by
    cases s with
    | nil => simp at hs
    | cons c t => exact ⟨t, by simpa using hs⟩
  have hnests : nests t = false := by
    rw [ReadAlike, ht, hsource] at halike
    exact halike
  have hspan : maskedSpan ('/' :: '*' :: t) = some l.rest := by
    rw [← skipBlockComment_of_blockComment ho hnests]
    simp [maskedSpan, readDollarQuoteTag]
  have hrest := (blockComment_suffix ho).trans (List.suffix_cons '*' t)
  exact leaves_of_comment hsource hspan List.suffix_rfl hrest (by simp) (by rw [ht]; rfl)

theorem leavesAs_space (h : isSpace c = true) : LeavesAs c s (.space, s) := by
  rintro l hsource hl -
  obtain ⟨ht, hr⟩ := Prod.mk.inj hl
  have hplain : Plain c := by
    refine ⟨?_, ?_, ?_, ?_, ?_⟩
    all_goals
      rintro rfl
      revert h
      decide
  have hmask : mask 0 (source l) = [c] ++ mask 0 l.rest := by
    rw [hsource, hr, mask_seen (maskedSpan_plain hplain)]
    rfl
  exact ⟨⟨[c], 0, hmask, Nat.zero_le _, by simp, .blank (by rw [ht]; rfl) (by simp) (by simpa using h)⟩,
    by simp [ht], by simp [ht, separates], by simp [ht]⟩

theorem leavesAs_semicolon : LeavesAs ';' s (.semicolon, s) := by
  rintro l hsource hl -
  obtain ⟨ht, hr⟩ := Prod.mk.inj hl
  have htext : l.text = [';'] := List.append_cancel_right (hsource.trans (by rw [hr]; rfl))
  have hseen : Seen (source l) l.rest := by
    rw [hsource, hr]
    exact .plain (by decide) (.refl s)
  have hwritten : Written l := by simpa only [Written, ht] using htext
  exact ⟨left_of_seen hseen hwritten, by simp [ht], by simp [ht, separates], by simp [ht]⟩

theorem leaves_ok : LeavesAs c s (scan continues c s) := by
  have ink (hspace : ¬ isSpace c = true) (hc : c ≠ ';') (hs : isIdentifierStart c = false) : Ink c :=
    ink_of_not_space (by simpa using hspace) hs hc
  refine iteInduction (fun hspace => ?_) fun hspace => iteInduction (fun h => ?_) fun hline =>
    iteInduction (fun h => ?_) fun hblock => iteInduction (fun h => ?_) fun hquote =>
    iteInduction (fun h => ?_) fun hdouble => iteInduction (fun h => ?_) fun hdollar =>
    iteInduction (fun h => ?_) fun hsemicolon => iteInduction (fun h => ?_) fun hdigit =>
    iteInduction (fun h => ?_) fun hpoint => iteInduction (fun h => ?_) fun hpoints =>
    iteInduction (fun h => ?_) fun hword => ?_
  · exact leavesAs_space hspace
  · obtain ⟨rfl, hs⟩ := h
    exact leavesAs_lineComment hs
  · obtain ⟨rfl, hs⟩ := h
    exact leavesAs_blockComment hs
  · subst h
    refine iteInduction (fun _ => ?_) fun _ => leavesAs_quote [] rfl (by simp) (.inl rfl) _ rfl
    refine leavesAs_closed (by decide) fun l hsource ht ho halike => ?_
    have hescapes : escapesQuote s = false := by
      rw [ReadAlike, ht, hsource] at halike
      exact halike
    refine leaves_of_quoted [] hsource (by simp) (by simp) ?_ (escaped_suffix ho) (by rw [ht]; rfl)
    simp [maskedSpan, skipQuoted_of_escaped ho hescapes]
  · subst h
    exact leavesAs_quote [] rfl (by simp) (.inr rfl) _ rfl
  · subst h
    exact leavesAs_dollar
  · subst h
    exact leavesAs_semicolon
  · have hc := ink hspace hsemicolon (not_isIdentifierStart h)
    exact leavesAs_number (plain_of_isTagPart (isTagPart_of_isDigit h)) hc (number_ok c s)
  · obtain ⟨rfl, -⟩ := h
    have hnumber : IsNumber s (exponent (digitsIn Postgres.isDigit s)) :=
      (exponent_ok _).of_numeral fun _ hn => hn.digits _ fun _ => isTagPart_of_isDigit
    exact leavesAs_number (by decide) (by decide) hnumber
  · obtain ⟨rfl, hs⟩ := h
    rintro l hsource hl -
    obtain ⟨ht, hr⟩ := Prod.mk.inj hl
    obtain ⟨t, rfl⟩ : ∃ t, s = '.' :: t := by
      cases s with
      | nil => simp at hs
      | cons d t => exact ⟨t, by simpa using hs⟩
    refine leaves_of_symbol ['.', '.'] (by rw [hsource, hr]; rfl) ?_ (by simp) (by decide) ht
    rw [hsource, hr]
    exact .plain (by decide) (.plain (by decide) (.refl t))
  · exact leavesAs_identifier h
  · rintro l hsource hl -
    obtain ⟨ht, hr⟩ := Prod.mk.inj hl
    have hstart : isIdentifierStart c = false := by simpa using hword
    have hsymbol : maskedSpan (c :: s) = none := by
      have htag : readDollarQuoteTag (c :: s) = none := readDollarQuoteTag_of_ne hdollar
      simp [maskedSpan, hquote, hdouble, htag, hline, hblock]
    refine leaves_of_symbol [c] (by rw [hsource, hr]; rfl) ?_ (by simp) ?_ ht
    · rw [hsource, hr]
      exact .cons hsymbol (.refl s)
    · simpa using ⟨ink hspace hsemicolon hstart, not_isWord hstart (by simpa using hdigit)⟩

end Catalyst.Sql
