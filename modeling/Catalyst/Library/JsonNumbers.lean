import Mathlib
import Catalyst.Library.JsonText

/-!
# The value of a number's text

A number is known by the text that is written for it; here is the value of that text, and what
`Math.trunc` and a lower bound make of it. A text of digits alone has a whole value.
-/

namespace Catalyst.Library

def isDigit (u : Nat) : Bool := 0x30 ≤ u && u ≤ 0x39

def digitsValue (us : Units) : Nat := us.foldl (fun n u => 10 * n + (u - 0x30)) 0

def wholePart (us : Units) : Units := (us.dropWhile (· = 0x2d)).takeWhile isDigit

def behindWhole (us : Units) : Units := (us.dropWhile (· = 0x2d)).dropWhile isDigit

def fractionPart (us : Units) : Units :=
  if (behindWhole us).head? = some 0x2e then (behindWhole us).tail.takeWhile isDigit else []

/-- `e+21`, `e-7` -/
def exponent (us : Units) : ℤ :=
  let power := ((behindWhole us).dropWhile (· ≠ 0x65)).tail
  if power.head? = some 0x2d then -(digitsValue power.tail) else digitsValue (power.filter isDigit)

namespace JsonNumber

def value (n : JsonNumber) : ℚ :=
  (if n.text.head? = some 0x2d then -1 else 1) * digitsValue (wholePart n.text ++ fractionPart n.text) *
    (10 : ℚ) ^ (exponent n.text - (fractionPart n.text).length)

/-- `Number.isInteger` -/
def IsInteger (n : JsonNumber) : Prop := n.value.den = 1
  deriving Decidable

def digitsOf (k : Nat) : Units := (Nat.toDigits 10 k).map Char.toNat

theorem isDigit_of_mem_digitsOf (h : u ∈ digitsOf k) : isDigit u := by
  obtain ⟨c, hc, rfl⟩ := List.mem_map.mp h
  have hd : c.isDigit = true := Nat.isDigit_of_mem_toDigits (by decide) (by decide) hc
  simp only [Char.isDigit, Bool.and_eq_true, decide_eq_true_eq] at hd
  simp only [isDigit, Bool.and_eq_true, decide_eq_true_eq]
  exact ⟨hd.1, hd.2⟩

theorem digitsOf_ne_nil (k : Nat) : digitsOf k ≠ [] := by
  intro h
  have hlen := congrArg List.length h
  simp [digitsOf, Nat.toDigits_ne_nil] at hlen

def ofInt (i : ℤ) : JsonNumber where
  text := (if i < 0 then [0x2d] else []) ++ digitsOf i.natAbs
  ne_nil h := digitsOf_ne_nil _ (List.append_eq_nil_iff.mp h).2
  numeral u hu := by
    rcases List.mem_append.mp hu with hu | hu
    · split at hu
      · obtain rfl : u = 0x2d := List.mem_singleton.mp hu
        decide
      · cases hu
    · have hd := isDigit_of_mem_digitsOf hu
      simp only [isDigit, Bool.and_eq_true, decide_eq_true_eq] at hd
      simp [isNumeral, hd]

/-- `Math.trunc` -/
def trunc (n : JsonNumber) : JsonNumber := if n.IsInteger then n else ofInt (n.value.num.tdiv n.value.den)

/-- `Math.max(least, n)` -/
def atLeast (least : ℤ) (n : JsonNumber) : JsonNumber := if (least : ℚ) ≤ n.value then n else ofInt least

theorem behindWhole_ofInt (i : ℤ) : behindWhole (ofInt i).text = [] := by
  have hdigits : ∀ u ∈ digitsOf i.natAbs, isDigit u := fun u hu => isDigit_of_mem_digitsOf hu
  have hsign : ∀ u ∈ (digitsOf i.natAbs).head?, ¬ u = 0x2d := by
    intro u hu he
    have hd := hdigits u (List.mem_of_mem_head? hu)
    rw [he] at hd
    exact absurd hd (by decide)
  have hdrop : (digitsOf i.natAbs).dropWhile (· = 0x2d) = digitsOf i.natAbs := by
    cases h : digitsOf i.natAbs with
    | nil => rfl
    | cons u us =>
      rw [h] at hsign
      rw [List.dropWhile_cons_of_neg (by simpa using hsign u rfl)]
  have hunsigned : (ofInt i).text.dropWhile (· = 0x2d) = digitsOf i.natAbs := by
    unfold ofInt
    split
    · simpa using hdrop
    · exact hdrop
  rw [behindWhole, hunsigned, List.dropWhile_eq_nil_iff]
  exact hdigits

theorem ofInt_isInteger (i : ℤ) : (ofInt i).IsInteger := by
  have hfraction : fractionPart (ofInt i).text = [] := by simp [fractionPart, behindWhole_ofInt]
  have hexponent : exponent (ofInt i).text = 0 := by simp [exponent, behindWhole_ofInt, digitsValue]
  unfold IsInteger value
  rw [hfraction, hexponent]
  split
  · simp
  · simp

theorem trunc_isInteger (n : JsonNumber) : n.trunc.IsInteger := by
  unfold trunc
  split
  · assumption
  · exact ofInt_isInteger _

theorem atLeast_isInteger (h : n.IsInteger) : (atLeast least n).IsInteger := by
  unfold atLeast
  split
  · exact h
  · exact ofInt_isInteger _

theorem atLeast_trunc_eq_iff (hleast : (ofInt least).value = least) :
    atLeast least n.trunc = n ↔ n.IsInteger ∧ (least : ℚ) ≤ n.value := by
  constructor
  · intro h
    have hint : n.IsInteger := h ▸ atLeast_isInteger n.trunc_isInteger
    refine ⟨hint, ?_⟩
    rw [trunc, if_pos hint] at h
    by_contra hlt
    rw [atLeast, if_neg hlt] at h
    exact hlt (h ▸ hleast.ge)
  · rintro ⟨hint, hle⟩
    rw [trunc, if_pos hint, atLeast, if_pos hle]

end JsonNumber

end Catalyst.Library
