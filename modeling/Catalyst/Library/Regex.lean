import Mathlib.Data.List.Basic

/-!
# Regular expressions as JavaScript matches them

Patterns are read with the flags `i` and `u`, so that a letter also stands for the characters
that fold to it. A match is looked for from every place of a text; `places` answers where a
match may end, in the order in which it is tried.
-/

namespace Catalyst.Library

inductive Regex
  | empty
  | one (p : Char → Bool)
  /-- A greedy `*` over one class of characters. -/
  | many (p : Char → Bool)
  | seq (r s : Regex)
  | optional (r : Regex)
  /-- `\b` -/
  | boundary

namespace Regex

structure Place where
  before : Option Char
  rest : List Char
  deriving DecidableEq

/-- `\w`: beyond ASCII the long s and the Kelvin sign, which fold to letters. -/
def isWord (c : Char) : Bool :=
  ('a' ≤ c && c ≤ 'z') || ('A' ≤ c && c ≤ 'Z') || ('0' ≤ c && c ≤ '9') || c = '_' || c = '\u017f' || c = '\u212a'

/-- Whether `c` is the lower-case letter, but for its case. -/
def folds (letter c : Char) : Bool :=
  c = letter || c = letter.toUpper || (letter = 's' && c = '\u017f') || (letter = 'k' && c = '\u212a')

def manyPlaces (p : Char → Bool) (before : Option Char) : List Char → List Place
  | [] => [⟨before, []⟩]
  | c :: s => if p c then manyPlaces p (some c) s ++ [⟨before, c :: s⟩] else [⟨before, c :: s⟩]

def places : Regex → Place → List Place
  | empty, l => [l]
  | one p, l =>
    match l.rest with
    | c :: s => if p c then [⟨some c, s⟩] else []
    | [] => []
  | many p, l => manyPlaces p l.before l.rest
  | seq r s, l => (r.places l).flatMap s.places
  | optional r, l => r.places l ++ [l]
  | boundary, l => if l.before.any isWord ≠ l.rest.head?.any isWord then [l] else []

/-- A pattern that starts with `^`. -/
def testStart (r : Regex) (s : List Char) : Bool := !(r.places ⟨none, s⟩).isEmpty

def testFrom (r : Regex) (before : Option Char) : List Char → Bool
  | [] => !(r.places ⟨before, []⟩).isEmpty
  | c :: s => !(r.places ⟨before, c :: s⟩).isEmpty || testFrom r (some c) s

def test (r : Regex) (s : List Char) : Bool := r.testFrom none s

def sequence (rs : List Regex) : Regex := rs.foldr seq empty

def text (letters : List Char) : Regex := sequence (letters.map fun letter => one (folds letter))

theorem testFrom_of_places (h : r.places ⟨(b.getLast?).or before, s⟩ ≠ []) : testFrom r before (b ++ s) = true := by
  induction b generalizing before with
  | nil =>
    have h : (r.places ⟨before, s⟩).isEmpty = false := by
      simpa using h
    cases s <;> simp [testFrom, h]
  | cons c b ih =>
    rw [List.cons_append, testFrom, ih, Bool.or_true]
    have hlast : (c :: b).getLast?.or before = b.getLast?.or (some c) := by
      rw [List.getLast?_cons]
      cases b.getLast? <;> rfl
    exact hlast ▸ h

theorem mem_manyPlaces_dropWhile (p : Char → Bool) (s : List Char) :
    ∃ l ∈ manyPlaces p before s, l.rest = s.dropWhile p := by
  induction s generalizing before with
  | nil => exact ⟨_, List.mem_singleton_self _, rfl⟩
  | cons c s ih =>
    by_cases hc : p c
    · obtain ⟨l, hl, hr⟩ : ∃ l ∈ manyPlaces p (some c) s, _ := ih
      exact ⟨l, by simp [manyPlaces, hc, hl], by simp [hr, hc]⟩
    · exact ⟨⟨before, c :: s⟩, by simp [manyPlaces, hc], by simp [hc]⟩

end Regex

end Catalyst.Library
