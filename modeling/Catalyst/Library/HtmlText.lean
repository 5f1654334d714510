import Mathlib.Data.List.Chain
import Mathlib.Data.List.MinMax
import Mathlib.Data.List.Nodup
import Catalyst.Library.JsText

/-!
# Texts inside an HTML document

The value of a double-quoted attribute with its character references, and the
text of a script element up to its end tag. The table of named references is a
parameter: its names are distinct, and a semicolon only ends one.
-/

namespace Catalyst.Library.Html

open Js (push)

def normalizeNewlines : List Char → List Char
  | [] => []
  | '\r' :: '\n' :: rest => '\n' :: normalizeNewlines rest
  | c :: rest => (if c = '\r' then '\n' else c) :: normalizeNewlines rest

theorem normalizeNewlines_eq_self (h : '\r' ∉ s) : normalizeNewlines s = s := by
  fun_induction normalizeNewlines s with
  | case1 => rfl
  | case2 rest ih => simp at h
  | case3 c rest hc ih =>
    obtain ⟨hne, hrest⟩ := (List.mem_cons (a := '\r')).not.mp h |> not_or.mp
    rw [if_neg (Ne.symm hne), ih hrest]

/-- What an ampersand can start: a named reference, or a numeric one, which is
read from behind its number sign with the length it takes. -/
structure References where
  named : List (List Char × List Char)
  numeric : List Char → Option (List Char × Nat)
  nodup : (named.map Prod.fst).Nodup
  terminated : ∀ e ∈ named, ';' ∉ e.1.dropLast
  amp : ("amp;".toList, ['&']) ∈ named
  quot : ("quot;".toList, ['"']) ∈ named

/-- The references to the characters of markup, those without a semicolon too. -/
def References.markup : References where
  named := [("amp;".toList, ['&']), ("amp".toList, ['&']), ("quot;".toList, ['"']), ("quot".toList, ['"']),
    ("lt;".toList, ['<']), ("lt".toList, ['<']), ("gt;".toList, ['>']), ("gt".toList, ['>'])]
  numeric _ := none
  nodup := by decide
  terminated := by decide
  amp := by decide
  quot := by decide

def References.longest (refs : References) (s : List Char) : Option (List Char × List Char) :=
  (refs.named.filter fun e => e.1.isPrefixOf s).argmax fun e => e.1.length

/-- The text of the reference behind an ampersand in an attribute, and its
length. A name without a semicolon is none before a word or an equals sign. -/
def References.read (refs : References) (s : List Char) : Option (List Char × Nat) :=
  if s.head? = some '#' then (refs.numeric s.tail).map fun r => (r.1, r.2 + 1)
  else match refs.longest s with
    | none => none
    | some (name, text) =>
      if name.getLast? ≠ some ';' ∧
          ((s.drop name.length).head?.any fun c => c = '=' || c.isAlphanum) then none
      else some (text, name.length)

theorem prefix_eq_of_terminated (hn : n <+: m ++ ';' :: rest) (hsemi : ';' ∉ n.dropLast)
    (hlen : m.length + 1 ≤ n.length) : n = m ++ [';'] := by
  have hm : m ++ [';'] <+: n := by
    refine List.prefix_of_prefix_length_le ⟨rest, by simp⟩ hn (by simpa using hlen)
  obtain ⟨t, rfl⟩ := hm
  cases t with
  | nil => simp
  | cons c t =>
    refine absurd ?_ hsemi
    rw [List.dropLast_append_of_ne_nil (List.cons_ne_nil c t)]
    simp

theorem References.read_terminated {refs : References} (h : (m ++ [';'], text) ∈ refs.named)
    (hm : (m ++ [';']).head? ≠ some '#') (rest : List Char) :
    refs.read (m ++ ';' :: rest) = some (text, m.length + 1) := by
  have hhead : (m ++ ';' :: rest).head? ≠ some '#' := by
    cases m with
    | nil => simp
    | cons c m => simpa using hm
  have hmem : (m ++ [';'], text) ∈ refs.named.filter fun e => e.1.isPrefixOf (m ++ ';' :: rest) :=
    List.mem_filter.mpr ⟨h, by simp⟩
  have hlongest : refs.longest (m ++ ';' :: rest) = some (m ++ [';'], text) := by
    cases hmax : refs.longest (m ++ ';' :: rest) with
    | none => exact absurd (List.argmax_eq_none.mp hmax) (List.ne_nil_of_mem hmem)
    | some e =>
      obtain ⟨he, hprefix⟩ := List.mem_filter.mp (List.argmax_mem hmax)
      have hle := List.le_of_mem_argmax hmem hmax
      have hname : e.1 = m ++ [';'] := prefix_eq_of_terminated (List.isPrefixOf_iff_prefix.mp hprefix)
        (refs.terminated e he) (by simpa using hle)
      exact congrArg some (List.inj_on_of_nodup_map refs.nodup he h hname)
  rw [References.read, if_neg hhead, hlongest]
  simp

/-- The value of a double-quoted attribute whose opening quote has been read,
and what follows it. The number is what is left of a reference. -/
def readValue (refs : References) : Nat → List Char → Option (List Char × List Char)
  | _, [] => none
  | skip + 1, _ :: rest => readValue refs skip rest
  | 0, c :: rest =>
    if c = '"' then some ([], rest)
    else if c = '&' then
      match refs.read rest with
      | none => push ['&'] (readValue refs 0 rest)
      | some (text, length) => push text (readValue refs length rest)
    else push [if c = '\x00' then '\ufffd' else c] (readValue refs 0 rest)

theorem readValue_skip (s rest : List Char) :
    readValue refs s.length (s ++ rest) = readValue refs 0 rest := by
  induction s with
  | nil => rfl
  | cons c s ih => simpa [readValue] using ih

def Shows (refs : References) (t text : List Char) : Prop :=
  ∀ rest, readValue refs 0 (t ++ rest) = push text (readValue refs 0 rest)

theorem Shows.nil : Shows refs [] [] := fun rest => by simp

theorem Shows.append (h : Shows refs t text) (h' : Shows refs t' text') :
    Shows refs (t ++ t') (text ++ text') := fun rest => by
  rw [List.append_assoc, h, h', Js.push_push]

theorem Shows.flatMap {f : Char → List Char} (h : ∀ c ∈ s, Shows refs (f c) [c]) :
    Shows refs (s.flatMap f) s := by
  induction s with
  | nil => exact .nil
  | cons c s ih =>
    obtain ⟨hc, hs⟩ := List.forall_mem_cons.mp h
    exact hc.append (ih hs)

theorem Shows.read (h : Shows refs t text) (rest : List Char) :
    readValue refs 0 (t ++ '"' :: rest) = some (text, rest) := by
  rw [h]
  simp [readValue, push]

theorem shows_self (hq : c ≠ '"') (ha : c ≠ '&') (h0 : c ≠ '\x00') : Shows refs [c] [c] := fun rest => by
  simp [readValue, hq, ha, h0]

theorem shows_reference (h : (m ++ [';'], text) ∈ refs.named) (hm : (m ++ [';']).head? ≠ some '#') :
    Shows refs ('&' :: m ++ [';']) text := fun rest => by
  have hskip : readValue refs (m.length + 1) (m ++ ';' :: rest) = readValue refs 0 rest := by
    simpa using readValue_skip (m ++ [';']) rest
  simp [readValue, refs.read_terminated h hm, hskip]

def endsScript : List Char → Bool
  | '<' :: '/' :: s => (s.take 6).map Char.toLower == "script".toList &&
    (s.drop 6).head?.any fun c => c ∈ ['\t', '\n', '\x0c', ' ', '/', '>']
  | _ => false

def startsComment : List Char → Bool
  | '<' :: '!' :: '-' :: '-' :: _ => true
  | _ => false

/-- The text of a script element up to its end tag. A text with the start of a
comment, where other rules hold, is not read. -/
def readScript : List Char → Option (List Char × List Char)
  | [] => none
  | c :: rest =>
    if startsComment (c :: rest) then none
    else if endsScript (c :: rest) then some ([], c :: rest)
    else push [if c = '\x00' then '\ufffd' else c] (readScript rest)

abbrev Tagless (s : List Char) : Prop := s.IsChain fun c d => c = '<' → d ≠ '/' ∧ d ≠ '!'

theorem Tagless.of_not_mem (h : '<' ∉ s) : Tagless s := by
  induction s with
  | nil => exact .nil
  | cons c s ih =>
    obtain ⟨hc, hs⟩ := not_or.mp ((List.mem_cons (a := '<')).not.mp h)
    exact (ih hs).cons fun d hd he => absurd he.symm hc

theorem Tagless.append (h : Tagless s) (h' : Tagless t) (hne : t.head? ≠ some '/' ∧ t.head? ≠ some '!') :
    Tagless (s ++ t) :=
  List.IsChain.append h h' fun _ _ _ hd _ =>
    ⟨fun he => hne.1 (he ▸ hd), fun he => hne.2 (he ▸ hd)⟩

theorem tagless_joinWith (hsep : sep ≠ '<' ∧ sep ≠ '/' ∧ sep ≠ '!') (h : ∀ t ∈ ts, Tagless t) :
    Tagless (joinWith sep ts) := by
  induction ts with
  | nil => exact .nil
  | cons t ts ih =>
    obtain ⟨ht, hts⟩ := List.forall_mem_cons.mp h
    by_cases hne : ts = []
    · subst hne
      simpa using ht
    · rw [joinWith_cons hne]
      exact ht.append ((ih hts).cons fun d _ he => absurd he hsep.1) (by simpa using hsep.2)

theorem not_endsScript_cons (h : c = '<' → d ≠ '/') : endsScript (c :: d :: s) = false := by
  unfold endsScript
  split
  · simp_all
  · rfl

theorem not_startsComment_cons (h : c = '<' → d ≠ '!') : startsComment (c :: d :: s) = false := by
  unfold startsComment
  split
  · simp_all
  · rfl

theorem readScript_tagless (ht : Tagless t) (h0 : '\x00' ∉ t)
    (hs : endsScript ('<' :: s) = true) (hc : startsComment ('<' :: s) = false) :
    readScript (t ++ '<' :: s) = some (t, '<' :: s) := by
  induction t with
  | nil => simp [readScript, hs, hc]
  | cons c t ih =>
    obtain ⟨hne, h0⟩ := not_or.mp ((List.mem_cons (a := '\x00')).not.mp h0)
    -- What follows the character is the next one of the text, or the end tag.
    obtain ⟨d, rest, hrest, hd⟩ : ∃ d rest, t ++ '<' :: s = d :: rest ∧ (c = '<' → d ≠ '/' ∧ d ≠ '!') := by
      cases t with
      | nil => exact ⟨'<', s, rfl, fun _ => by decide⟩
      | cons d t => exact ⟨d, t ++ '<' :: s, rfl, ht.rel⟩
    have hread := ih ht.tail h0
    rw [List.cons_append, readScript, hread, hrest, not_endsScript_cons fun h => (hd h).1,
      not_startsComment_cons fun h => (hd h).2]
    simp [push, Ne.symm hne]

end Catalyst.Library.Html
