import Mathlib.Data.List.Basic
import Mathlib.Data.Char

/-!
# The lexical structure of PostgreSQL

How PostgreSQL 17 cuts a query into tokens, with `standard_conforming_strings` on. A character
beyond ASCII may stand in an identifier. Where no token can be formed, the rest of the query is
one `invalid` lexeme, since nothing behind it is read.

White space is one lexeme a character, and so is an operator: an operator ends before `--` and
before an opening comment, so cutting it further changes nothing for what follows.
-/

namespace Catalyst.Library.Postgres

inductive Token
  | space | lineComment | blockComment
  /-- A string constant that knows no escapes, with the letters before its quote. -/
  | literal
  /-- A string constant with backslash escapes. -/
  | escapeLiteral
  | dollarLiteral
  | quotedIdentifier
  /-- A keyword or an identifier. -/
  | word
  | number | parameter | semicolon | symbol | invalid
  deriving DecidableEq

structure Lexeme where
  token : Token
  text : List Char
  /-- What follows it in the query. -/
  rest : List Char
  deriving DecidableEq

def isSpace (c : Char) : Bool := c ∈ [' ', '\t', '\n', '\r', '\x0b', '\x0c']

def isNewline (c : Char) : Bool := c = '\n' || c = '\r'

def isDigit (c : Char) : Bool := '0' ≤ c && c ≤ '9'

def isLetter (c : Char) : Bool := ('a' ≤ c && c ≤ 'z') || ('A' ≤ c && c ≤ 'Z')

def isIdentifierStart (c : Char) : Bool := isLetter c || c = '_' || 0x80 ≤ c.toNat

def isIdentifierPart (c : Char) : Bool := isIdentifierStart c || isDigit c || c = '$'

def isTagPart (c : Char) : Bool := isIdentifierStart c || isDigit c

def quoted (quote : Char) : List Char → Option (List Char)
  | [] => none
  | [c] => if c = quote then some [] else none
  | c :: d :: s => if c ≠ quote then quoted quote (d :: s) else if d = quote then quoted quote s else some (d :: s)

def escaped : List Char → Option (List Char)
  | [] | ['\\'] => none
  | ['\''] => some []
  | '\\' :: _ :: s => escaped s
  | '\'' :: c :: s => if c = '\'' then escaped s else some (c :: s)
  | _ :: s => escaped s

def escapesQuote : List Char → Bool
  | [] | ['\\'] | ['\''] => false
  | '\\' :: c :: s => c = '\'' || escapesQuote s
  | '\'' :: c :: s => c = '\'' && escapesQuote s
  | _ :: s => escapesQuote s

/-- What follows the end of a block comment that is open `depth + 1` times. -/
def blockComment : Nat → List Char → Option (List Char)
  | depth, '/' :: '*' :: s => blockComment (depth + 1) s
  | 0, '*' :: '/' :: s => some s
  | depth + 1, '*' :: '/' :: s => blockComment depth s
  | depth, _ :: s => blockComment depth s
  | _, [] => none

def nests : List Char → Bool
  | '/' :: '*' :: _ => true
  | '*' :: '/' :: _ => false
  | _ :: s => nests s
  | [] => false

def behind (pattern : List Char) : List Char → Option (List Char)
  | [] => none
  | c :: s => if pattern <+: c :: s then some ((c :: s).drop pattern.length) else behind pattern s

def dollarTag (s : List Char) : Option (List Char) :=
  let name := if s.head?.any isIdentifierStart then s.takeWhile isTagPart else []
  if (s.drop name.length).head? = some '$' then some ('$' :: name ++ ['$']) else none

def digitsIn (isDigit : Char → Bool) : List Char → List Char
  | '_' :: c :: s => if isDigit c then digitsIn isDigit s else '_' :: c :: s
  | c :: s => if isDigit c then digitsIn isDigit s else c :: s
  | [] => []

def endsNumber (bad : Char → Bool) (rest : List Char) : Token × List Char :=
  if rest.head?.any bad then (.invalid, []) else (.number, rest)

def exponentDigits (bad : Char → Bool) : List Char → Token × List Char
  | c :: s => if isDigit c then endsNumber bad (digitsIn isDigit s) else (.invalid, [])
  | [] => (.invalid, [])

/-- From behind the digits and the point: an exponent, or the end. Without a sign the exponent
might be the start of an identifier. -/
def exponent : List Char → Token × List Char
  | c :: s =>
    if c ≠ 'e' ∧ c ≠ 'E' then endsNumber isIdentifierStart (c :: s)
    else if s.head? = some '+' ∨ s.head? = some '-' then exponentDigits isIdentifierStart s.tail
    else exponentDigits isIdentifierPart s
  | [] => (.number, [])

def fraction : List Char → List Char
  | '.' :: '.' :: s => '.' :: '.' :: s
  | '.' :: c :: s => if isDigit c then digitsIn isDigit s else c :: s
  | '.' :: [] => []
  | s => s

def isHexDigit (c : Char) : Bool := isDigit c || ('a' ≤ c && c ≤ 'f') || ('A' ≤ c && c ≤ 'F')

def isOctalDigit (c : Char) : Bool := '0' ≤ c && c ≤ '7'

def isBinaryDigit (c : Char) : Bool := c = '0' || c = '1'

def radix? (c : Char) : Option (Char → Bool) :=
  if c = 'x' ∨ c = 'X' then some isHexDigit
  else if c = 'o' ∨ c = 'O' then some isOctalDigit
  else if c = 'b' ∨ c = 'B' then some isBinaryDigit
  else none

def number (c : Char) (s : List Char) : Token × List Char :=
  match c, s with
  | '0', letter :: digits =>
    match radix? letter with
    | some isDigit =>
      if (digitsIn isDigit digits).length < digits.length then endsNumber isIdentifierPart (digitsIn isDigit digits)
      else (.invalid, [])
    | none => exponent (fraction (digitsIn isDigit s))
  | _, _ => exponent (fraction (digitsIn isDigit s))

def closed (token : Token) : Option (List Char) → Token × List Char
  | some rest => (token, rest)
  | none => (.invalid, [])

def dollar (s : List Char) : Token × List Char :=
  if s.head?.any isDigit then
    let rest := s.dropWhile isDigit
    if rest.head?.any isIdentifierStart then (.invalid, []) else (.parameter, rest)
  else match dollarTag s with
    | some tag => closed .dollarLiteral (behind tag (s.drop (tag.length - 1)))
    | none => (.symbol, s)

/-- A word, or the letters that announce what the quote behind them starts. -/
def identifier (c : Char) (s : List Char) : Token × List Char :=
  match s with
  | '\'' :: t =>
    if c = 'e' ∨ c = 'E' then closed .escapeLiteral (escaped t)
    else if c ∈ ['b', 'B', 'x', 'X', 'n', 'N'] then closed .literal (quoted '\'' t)
    else (.word, s)
  | '&' :: '\'' :: t => if c = 'u' ∨ c = 'U' then closed .literal (quoted '\'' t) else (.word, s)
  | '&' :: '"' :: t => if c = 'u' ∨ c = 'U' then closed .quotedIdentifier (quoted '"' t) else (.word, s)
  | _ => (.word, s.dropWhile isIdentifierPart)

/-- The token that starts with `c`, and what follows it. A string that goes on behind a newline
keeps the escapes it started with. -/
def scan (continues : Bool) (c : Char) (s : List Char) : Token × List Char :=
  if isSpace c then (.space, s)
  else if c = '-' ∧ s.head? = some '-' then (.lineComment, s.tail.dropWhile (!isNewline ·))
  else if c = '/' ∧ s.head? = some '*' then closed .blockComment (blockComment 0 s.tail)
  else if c = '\'' then
    if continues then closed .escapeLiteral (escaped s) else closed .literal (quoted '\'' s)
  else if c = '"' then closed .quotedIdentifier (quoted '"' s)
  else if c = '$' then dollar s
  else if c = ';' then (.semicolon, s)
  else if isDigit c then number c s
  else if c = '.' ∧ s.head?.any isDigit then exponent (digitsIn isDigit s)
  else if c = '.' ∧ s.head? = some '.' then (.symbol, s.tail)
  else if isIdentifierStart c then identifier c s
  else (.symbol, s)

/-- Whether a string with escapes may go on: since it ended there was only white space, or there
was a newline too. -/
inductive Continuation
  | none | ended | newline
  deriving DecidableEq

def Continuation.after (continuation : Continuation) (c : Char) : Token → Continuation
  | .escapeLiteral => ended
  | .space => if continuation ≠ none ∧ isNewline c then newline else continuation
  | .lineComment => continuation
  | _ => none

def lexemeAt (continues : Bool) (c : Char) (s : List Char) : Lexeme :=
  let (token, rest) := scan continues c s
  ⟨token, (c :: s).take ((c :: s).length - rest.length), rest⟩

def lexFrom : Nat → Continuation → List Char → List Lexeme
  | n + 1, continuation, c :: s =>
    let l := lexemeAt (continuation = .newline) c s
    l :: lexFrom n (continuation.after c l.token) l.rest
  | _, _, _ => []

def lex (sql : List Char) : List Lexeme := lexFrom sql.length .none sql

inductive Numeral (rest : List Char) : List Char → Prop
  | done : Numeral rest rest
  | part (h : isTagPart c ∨ c = '.' ∨ c = '+') (hs : Numeral rest s) : Numeral rest (c :: s)
  | minus (h : s.head?.any isDigit) (hs : Numeral rest s) : Numeral rest ('-' :: s)

variable {s t rest pattern : List Char} {c d quote : Char} {token : Token}

theorem quoted_suffix (h : quoted quote s = some rest) : rest <:+ s := by
  fun_induction quoted quote s with
  | case1 => cases h
  | case2 => cases h; exact List.nil_suffix
  | case3 => cases h
  | case4 c d s _ ih => exact (ih h).trans (List.suffix_cons ..)
  | case5 c s _ ih => exact (ih h).trans ((List.suffix_cons ..).trans (List.suffix_cons ..))
  | case6 c d s =>
    cases h
    exact List.suffix_cons ..

theorem escaped_suffix (h : escaped s = some rest) : rest <:+ s := by
  fun_induction escaped s with
  | case1 => cases h
  | case2 => cases h
  | case3 => cases h; exact List.nil_suffix
  | case4 c s ih => exact (ih h).trans ((List.suffix_cons ..).trans (List.suffix_cons ..))
  | case5 s ih => exact (ih h).trans ((List.suffix_cons ..).trans (List.suffix_cons ..))
  | case6 c s =>
    cases h
    exact List.suffix_cons ..
  | case7 c s _ _ _ _ ih => exact (ih h).trans (List.suffix_cons ..)

theorem blockComment_suffix (h : blockComment depth s = some rest) : rest <:+ s := by
  fun_induction blockComment depth s with
  | case1 depth s ih => exact (ih h).trans ((List.suffix_cons ..).trans (List.suffix_cons ..))
  | case2 s =>
    cases h
    exact (List.suffix_cons ..).trans (List.suffix_cons ..)
  | case3 depth s ih => exact (ih h).trans ((List.suffix_cons ..).trans (List.suffix_cons ..))
  | case4 depth c s _ _ _ ih => exact (ih h).trans (List.suffix_cons ..)
  | case5 => cases h

theorem behind_suffix (h : behind pattern s = some rest) : rest <:+ s := by
  fun_induction behind pattern s with
  | case1 => cases h
  | case2 c s =>
    cases h
    exact List.drop_suffix ..
  | case3 c s _ ih => exact (ih h).trans (List.suffix_cons ..)

theorem closed_ok (h : closed token o = (token', rest)) :
    (token' = .invalid ∧ rest = []) ∨ (token' = token ∧ o = some rest) := by
  cases o with
  | none => cases h; exact .inl ⟨rfl, rfl⟩
  | some t => cases h; exact .inr ⟨rfl, rfl⟩

theorem Numeral.suffix (h : Numeral rest s) : rest <:+ s := by
  induction h with
  | done => exact List.suffix_rfl
  | part _ _ ih => exact ih.trans (List.suffix_cons ..)
  | minus _ _ ih => exact ih.trans (List.suffix_cons ..)

theorem isTagPart_of_isDigit (h : isDigit c = true) : isTagPart c = true := by
  simp [isTagPart, h]

theorem Numeral.digits (p : Char → Bool) (hp : ∀ c, p c = true → isTagPart c = true)
    (h : Numeral rest (digitsIn p s)) : Numeral rest s := by
  fun_induction digitsIn p s with
  | case1 c s hc ih => exact .part (.inl rfl) (.part (.inl (hp c hc)) (ih h))
  | case3 c s _ hc ih => exact .part (.inl (hp c hc)) (ih h)
  | case2 | case4 | case5 => exact h

def IsNumber (s : List Char) (lexed : Token × List Char) : Prop :=
  lexed = (.invalid, []) ∨ (lexed.1 = .number ∧ Numeral lexed.2 s ∧ lexed.2.head?.any isIdentifierStart = false)

theorem IsNumber.of_numeral (h : IsNumber t lexed) (hs : ∀ rest, Numeral rest t → Numeral rest s) :
    IsNumber s lexed := by
  obtain h | ⟨h, hn, hr⟩ := h
  · exact .inl h
  · exact .inr ⟨h, hs _ hn, hr⟩

theorem endsNumber_ok (hbad : ∀ c, isIdentifierStart c = true → bad c = true) :
    IsNumber s (endsNumber bad s) := by
  unfold endsNumber
  split
  · exact .inl rfl
  · rename_i h
    refine .inr ⟨rfl, .done, ?_⟩
    cases s with
    | nil => rfl
    | cons c s =>
      have hc := mt (hbad c) (by simpa using h)
      simpa using hc

theorem isIdentifierPart_of_start (h : isIdentifierStart c = true) : isIdentifierPart c = true := by
  simp [isIdentifierPart, h]

theorem exponentDigits_ok (hbad : ∀ c, isIdentifierStart c = true → bad c = true) :
    IsNumber s (exponentDigits bad s) := by
  unfold exponentDigits
  split
  · split
    · rename_i c s hc
      have hdigit := isTagPart_of_isDigit hc
      exact (endsNumber_ok hbad).of_numeral fun _ h =>
        .part (.inl hdigit) (h.digits _ fun _ => isTagPart_of_isDigit)
    · exact .inl rfl
  · exact .inl rfl

theorem exponentDigits_invalid (h : ¬ s.head?.any isDigit) : exponentDigits bad s = (.invalid, []) := by
  cases s with
  | nil => rfl
  | cons c s =>
    have hc : isDigit c = false := by simpa using h
    simp [exponentDigits, hc]

theorem isTagPart_exponent (h : ¬ (c ≠ 'e' ∧ c ≠ 'E')) : isTagPart c = true := by
  obtain rfl | rfl : c = 'e' ∨ c = 'E' := by simpa [imp_iff_or_not, or_comm] using h
  all_goals decide

theorem exponent_ok (s : List Char) : IsNumber s (exponent s) := by
  fun_cases exponent s with
  | case1 c s => exact endsNumber_ok fun _ => id
  | case2 c s hc hs =>
    have hpart := isTagPart_exponent hc
    by_cases hd : s.tail.head?.any isDigit
    · refine (exponentDigits_ok fun _ => id).of_numeral fun rest h => .part (.inl hpart) ?_
      cases s with
      | nil => simp at hs
      | cons sign s =>
        obtain rfl | rfl : sign = '+' ∨ sign = '-' := by simpa using hs
        · exact .part (.inr (.inr rfl)) h
        · exact .minus hd h
    · exact .inl (exponentDigits_invalid hd)
  | case3 c s hc hs =>
    have hpart := isTagPart_exponent hc
    exact (exponentDigits_ok fun _ => isIdentifierPart_of_start).of_numeral fun rest => .part (.inl hpart)
  | case4 => exact .inr ⟨rfl, .done, rfl⟩

theorem Numeral.fraction : Numeral rest (fraction s) → Numeral rest s := by
  fun_cases Postgres.fraction s with
  | case1 s => exact id
  | case2 c s _ hc =>
    have hpart := isTagPart_of_isDigit hc
    exact fun h => .part (.inr (.inl rfl)) (.part (.inl hpart) (h.digits _ fun _ => isTagPart_of_isDigit))
  | case3 c s => exact .part (.inr (.inl rfl))
  | case4 => exact .part (.inr (.inl rfl))
  | case5 => exact id

theorem isTagPart_of_radix (h : radix? c = some p) :
    isTagPart c = true ∧ ∀ d, p d = true → isTagPart d = true := by
  unfold radix? at h
  split_ifs at h with hx ho hb
  · cases h
    obtain rfl | rfl := hx
    all_goals
      refine ⟨by decide, fun d hd => ?_⟩
      obtain hd | ⟨hlow, hhigh⟩ | ⟨hlow, hhigh⟩ :
          isDigit d = true ∨ ('a' ≤ d ∧ d ≤ 'f') ∨ ('A' ≤ d ∧ d ≤ 'F') := by
        simpa [isHexDigit, or_assoc] using hd
      · exact isTagPart_of_isDigit hd
      · simp [isTagPart, isIdentifierStart, isLetter, hlow, le_trans hhigh (show 'f' ≤ 'z' by decide)]
      · simp [isTagPart, isIdentifierStart, isLetter, hlow, le_trans hhigh (show 'F' ≤ 'Z' by decide)]
  · cases h
    obtain rfl | rfl := ho
    all_goals
      refine ⟨by decide, fun d hd => isTagPart_of_isDigit ?_⟩
      have hd : '0' ≤ d ∧ d ≤ '7' := by simpa [isOctalDigit] using hd
      simp [isDigit, hd.1, le_trans hd.2 (show '7' ≤ '9' by decide)]
  · cases h
    obtain rfl | rfl := hb
    all_goals
      refine ⟨by decide, fun d hd => ?_⟩
      obtain rfl | rfl : d = '0' ∨ d = '1' := by simpa [isBinaryDigit] using hd
      all_goals rfl

theorem number_ok (c : Char) (s : List Char) : IsNumber s (number c s) := by
  have hdecimal : IsNumber s (exponent (Postgres.fraction (digitsIn isDigit s))) :=
    (exponent_ok _).of_numeral fun _ h => (Numeral.fraction h).digits _ fun _ => isTagPart_of_isDigit
  fun_cases number c s with
  | case1 letter digits p hp _ =>
    obtain ⟨hletter, hdigits⟩ := isTagPart_of_radix hp
    exact (endsNumber_ok fun _ => isIdentifierPart_of_start).of_numeral fun _ h =>
      .part (.inl hletter) (h.digits _ hdigits)
  | case2 => exact .inl rfl
  | case3 => exact hdecimal
  | case4 => exact hdecimal

theorem IsNumber.suffix (h : IsNumber s lexed) : lexed.2 <:+ s := by
  obtain rfl | ⟨-, h, -⟩ := h
  · exact List.nil_suffix
  · exact h.suffix

theorem closed_suffix (h : ∀ rest, o = some rest → rest <:+ s) : (closed token o).2 <:+ s := by
  cases o with
  | none => exact List.nil_suffix
  | some rest => exact h rest rfl

theorem dollar_suffix (s : List Char) : (dollar s).2 <:+ s := by
  unfold dollar
  split
  · dsimp only
    split
    · exact List.nil_suffix
    · exact List.dropWhile_suffix _
  · split
    · exact closed_suffix fun _ h => (behind_suffix h).trans (List.drop_suffix ..)
    · exact List.suffix_rfl

theorem identifier_suffix (c : Char) (s : List Char) : (identifier c s).2 <:+ s := by
  have hquoted (q : Char) (t : List Char) (token : Token) (h : t <:+ s) : (closed token (quoted q t)).2 <:+ s :=
    closed_suffix fun _ hr => (quoted_suffix hr).trans h
  have hescaped (t : List Char) (h : t <:+ s) : (closed .escapeLiteral (escaped t)).2 <:+ s :=
    closed_suffix fun _ hr => (escaped_suffix hr).trans h
  fun_cases identifier c s with
  | case1 => exact hescaped _ (List.suffix_cons ..)
  | case2 => exact hquoted _ _ _ (List.suffix_cons ..)
  | case4 | case6 => exact hquoted _ _ _ ((List.suffix_cons ..).trans (List.suffix_cons ..))
  | case3 | case5 | case7 => exact List.suffix_rfl
  | case8 => exact List.dropWhile_suffix _

theorem ite_suffix [Decidable p] {a b : Token × List Char} (ha : a.2 <:+ s) (hb : b.2 <:+ s) :
    (if p then a else b).2 <:+ s := by
  split
  · exact ha
  · exact hb

theorem scan_suffix (continues : Bool) (c : Char) (s : List Char) : (scan continues c s).2 <:+ s := by
  have hself : s <:+ s := List.suffix_rfl
  have htail : s.tail <:+ s := List.tail_suffix s
  refine ite_suffix hself (ite_suffix ?_ (ite_suffix ?_ (ite_suffix ?_ (ite_suffix ?_ (ite_suffix (dollar_suffix s)
    (ite_suffix hself (ite_suffix (number_ok c s).suffix (ite_suffix ?_ (ite_suffix htail
      (ite_suffix (identifier_suffix c s) hself))))))))))
  · exact (List.dropWhile_suffix _).trans htail
  · exact closed_suffix fun _ h => (blockComment_suffix h).trans htail
  · exact ite_suffix (closed_suffix fun _ => escaped_suffix) (closed_suffix fun _ => quoted_suffix)
  · exact closed_suffix fun _ => quoted_suffix
  · exact ((exponent_ok _).of_numeral fun _ h => h.digits _ fun _ => isTagPart_of_isDigit).suffix

theorem text_append_rest (continues : Bool) (c : Char) (s : List Char) :
    (lexemeAt continues c s).text ++ (lexemeAt continues c s).rest = c :: s := by
  obtain ⟨p, hp⟩ := (scan_suffix continues c s).trans (List.suffix_cons c s)
  simp only [lexemeAt, ← hp]
  simp

theorem lexemeAt_rest (continues : Bool) (c : Char) (s : List Char) : (lexemeAt continues c s).rest <:+ s :=
  scan_suffix continues c s

end Catalyst.Library.Postgres
