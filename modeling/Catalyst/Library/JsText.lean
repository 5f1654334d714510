import Catalyst.Library.IpText

/-!
# String literals of JavaScript

A text is written as a double-quoted literal and read back as its UTF-16 code
units. The reader takes the escapes of a literal but for octal ones, braced ones
and continued lines, where it has no value.
-/

namespace Catalyst.Library

instance lawfulText : LawfulBEq (List Char) := inferInstance

/-- `s.replaceAll(c, t)` -/
def replaceAll (c : Char) (t s : List Char) : List Char := s.flatMap fun d => if d = c then t else [d]

@[simp] theorem replaceAll_nil : replaceAll c t [] = [] := rfl

@[simp] theorem replaceAll_cons : replaceAll c t (d :: s) = (if d = c then t else [d]) ++ replaceAll c t s := by
  simp [replaceAll]

@[simp] theorem replaceAll_append : replaceAll c t (r ++ s) = replaceAll c t r ++ replaceAll c t s := by
  simp [replaceAll]

theorem replaceAll_flatMap (f : α → List Char) (as : List α) :
    replaceAll c t (as.flatMap f) = as.flatMap fun a => replaceAll c t (f a) := by
  simp [replaceAll, List.flatMap_assoc]

theorem mem_replaceAll (h : d ∈ replaceAll c t s) : d ∈ t ∨ d ≠ c ∧ d ∈ s := by
  obtain ⟨e, he, hd⟩ := List.mem_flatMap.mp h
  by_cases hec : e = c
  · exact .inl (by simpa [hec] using hd)
  · obtain rfl : d = e := by simpa [hec] using hd
    exact .inr ⟨hec, he⟩

theorem not_mem_replaceAll (h : c ∉ t) : c ∉ replaceAll c t s := fun hc =>
  (mem_replaceAll hc).elim h fun hs => hs.1 rfl

theorem replaceAll_eq_self (h : c ∉ s) : replaceAll c t s = s := by
  induction s with
  | nil => rfl
  | cons d s ih =>
    obtain ⟨hd, hs⟩ := not_or.mp (List.mem_cons.not.mp h)
    simp [Ne.symm hd, ih hs]

namespace Js

def codeUnits (c : Char) : List Nat :=
  if c.toNat ≤ 0xffff then [c.toNat]
  else [0xd800 + (c.toNat - 0x10000) / 0x400, 0xdc00 + (c.toNat - 0x10000) % 0x400]

def utf16 (s : List Char) : List Nat := s.flatMap codeUnits

/-- A backslash, `u` and four hex digits. -/
def unicodeEscape (n : Nat) : List Char :=
  ['\\', 'u', (n / 4096 % 16).digitChar, (n / 256 % 16).digitChar, (n / 16 % 16).digitChar,
    (n % 16).digitChar]

def quoteChar (c : Char) : List Char :=
  if c = '"' ∨ c = '\\' then ['\\', c]
  else if c = '\x08' then ['\\', 'b']
  else if c = '\x0c' then ['\\', 'f']
  else if c = '\n' then ['\\', 'n']
  else if c = '\r' then ['\\', 'r']
  else if c = '\t' then ['\\', 't']
  else if c.toNat < 0x20 then unicodeEscape c.toNat
  else [c]

/-- `JSON.stringify` of a text. -/
def stringify (s : List Char) : List Char := '"' :: s.flatMap quoteChar ++ ['"']

/-- What `trim` takes off the ends of a text. -/
def isWhitespace (c : Char) : Bool :=
  c ∈ ['\t', '\n', '\x0b', '\x0c', '\r', ' ', '\u00a0', '\u1680', '\u2028', '\u2029', '\u202f', '\u205f',
    '\u3000', '\ufeff'] || 0x2000 ≤ c.toNat && c.toNat ≤ 0x200a

def trim (s : List Char) : List Char := ((s.dropWhile isWhitespace).reverse.dropWhile isWhitespace).reverse

inductive Escape where
  | units (us : List Nat)
  | hex (digits : Nat)

def escape? (c : Char) : Option Escape :=
  if c = 'b' then some (.units [8])
  else if c = 't' then some (.units [9])
  else if c = 'n' then some (.units [10])
  else if c = 'v' then some (.units [11])
  else if c = 'f' then some (.units [12])
  else if c = 'r' then some (.units [13])
  else if c = 'x' then some (.hex 2)
  else if c = 'u' then some (.hex 4)
  else if c.isDigit ∨ c ∈ ['\n', '\r', '\u2028', '\u2029'] then none
  else some (.units (codeUnits c))

inductive Reading where
  | text
  | escape
  | hex (left value : Nat)

def push (us : List α) : Option (List α × β) → Option (List α × β) := Option.map fun p => (us ++ p.1, p.2)

/-- The value of a double-quoted literal whose opening quote has been read, and what follows it. -/
def readString : Reading → List Char → Option (List Nat × List Char)
  | _, [] => none
  | .text, c :: rest =>
    if c = '"' then some ([], rest)
    else if c = '\\' then readString .escape rest
    else if c = '\n' ∨ c = '\r' then none
    else push (codeUnits c) (readString .text rest)
  | .escape, c :: rest =>
    match escape? c with
    | none => none
    | some (.units us) => push us (readString .text rest)
    | some (.hex digits) => readString (.hex digits 0) rest
  | .hex left value, c :: rest =>
    match hexDigit? c with
    | none => none
    | some d =>
      if left ≤ 1 then push [16 * value + d] (readString .text rest)
      else readString (.hex (left - 1) (16 * value + d)) rest

attribute [local simp] readString

def Spells (t : List Char) (us : List Nat) : Prop :=
  ∀ rest, readString .text (t ++ rest) = push us (readString .text rest)

@[simp] theorem push_nil (r : Option (List α × β)) : push [] r = r := by
  cases r <;> rfl

@[simp] theorem push_push (us vs : List α) (r : Option (List α × β)) :
    push us (push vs r) = push (us ++ vs) r := by
  cases r <;> simp [push]

theorem Spells.nil : Spells [] [] := fun rest => by simp

theorem Spells.append (h : Spells t us) (h' : Spells t' us') : Spells (t ++ t') (us ++ us') := fun rest => by
  rw [List.append_assoc, h, h', push_push]

theorem Spells.flatMap {f : Char → List Char} (h : ∀ c ∈ s, Spells (f c) (codeUnits c)) :
    Spells (s.flatMap f) (utf16 s) := by
  induction s with
  | nil => exact .nil
  | cons c s ih =>
    obtain ⟨hc, hs⟩ := List.forall_mem_cons.mp h
    simpa [utf16] using hc.append (ih hs)

theorem Spells.read (h : Spells t us) (rest : List Char) :
    readString .text (t ++ '"' :: rest) = some (us, rest) := by
  rw [h]
  simp [push]

theorem spells_self (hq : c ≠ '"') (hb : c ≠ '\\') (hl : c ≠ '\n' ∧ c ≠ '\r') :
    Spells [c] (codeUnits c) := fun rest => by
  simp [hq, hb, hl.1, hl.2]

theorem spells_escape (h : escape? c = some (.units us)) : Spells ['\\', c] us := fun rest => by
  simp [h]

theorem spells_unicodeEscape (h : n < 0x10000) : Spells (unicodeEscape n) [n] := fun rest => by
  have hd (m : Nat) : hexDigit? (m % 16).digitChar = some (m % 16) :=
    hexDigit?_digitChar _ (Nat.mod_lt m (by decide))
  have hn : 16 * (16 * (16 * (n / 4096 % 16) + n / 256 % 16) + n / 16 % 16) + n % 16 = n := by omega
  have hu : escape? 'u' = some (.hex 4) := rfl
  simp [unicodeEscape, hu, hd, hn]

theorem spells_quoteChar (c : Char) : Spells (quoteChar c) (codeUnits c) := by
  unfold quoteChar
  split_ifs with hq hb hf hn hr ht hlow
  · rcases hq with rfl | rfl <;> exact spells_escape rfl
  · subst hb; exact spells_escape rfl
  · subst hf; exact spells_escape rfl
  · subst hn; exact spells_escape rfl
  · subst hr; exact spells_escape rfl
  · subst ht; exact spells_escape rfl
  · have hu : codeUnits c = [c.toNat] := if_pos (by omega)
    exact hu ▸ spells_unicodeEscape (by omega)
  · exact spells_self (fun h => hq (.inl h)) (fun h => hq (.inr h)) ⟨hn, hr⟩

def escapeChars : List Char := '\\' :: "bfnrtu0123456789abcdef".toList

theorem mem_unicodeEscape (h : d ∈ unicodeEscape n) : d ∈ escapeChars := by
  have hd (m : Nat) : (m % 16).digitChar ∈ escapeChars :=
    (by decide : ∀ n < 16, n.digitChar ∈ escapeChars) _ (Nat.mod_lt m (by decide))
  simp only [unicodeEscape, List.mem_cons, List.not_mem_nil, or_false] at h
  rcases h with rfl | rfl | rfl | rfl | rfl | rfl
  · decide
  · decide
  all_goals exact hd _

/-- A quoted character is the character itself, when it is no control
character, or part of an escape. -/
theorem mem_quoteChar (h : d ∈ quoteChar c) : d = c ∧ 0x20 ≤ c.toNat ∨ d ∈ escapeChars := by
  have named (e : Char) (he : e ∈ escapeChars) (h : d ∈ ['\\', e]) : d ∈ escapeChars := by
    simp only [List.mem_cons, List.not_mem_nil, or_false] at h
    obtain rfl | rfl := h
    · decide
    · exact he
  unfold quoteChar at h
  split_ifs at h with hq hb hf hn hr ht hlow
  · simp only [List.mem_cons, List.not_mem_nil, or_false] at h
    obtain rfl | rfl := h
    · exact .inr (by decide)
    · exact .inl ⟨rfl, by rcases hq with rfl | rfl <;> decide⟩
  · exact .inr (named _ (by decide) h)
  · exact .inr (named _ (by decide) h)
  · exact .inr (named _ (by decide) h)
  · exact .inr (named _ (by decide) h)
  · exact .inr (named _ (by decide) h)
  · exact .inr (mem_unicodeEscape h)
  · exact .inl ⟨List.mem_singleton.mp h, by omega⟩

theorem le_of_mem_quoteChar (h : d ∈ quoteChar c) : 0x20 ≤ d.toNat := by
  obtain ⟨rfl, hc⟩ | hd := mem_quoteChar h
  · exact hc
  · exact (by decide : ∀ d ∈ escapeChars, 0x20 ≤ d.toNat) d hd

end Js

end Catalyst.Library
