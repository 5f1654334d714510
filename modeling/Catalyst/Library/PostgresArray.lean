import Catalyst.Library.JsonText
import Mathlib

/-!
# The text of an array in PostgreSQL

The server writes an array between braces, with a delimiter between the elements. An element
stands in quotes when it is empty, spells NULL or holds a mark of the format. Lower bounds other
than 1 are written before the array.
-/

namespace Catalyst.Library.PostgresArray

structure Delimiter where
  unit : Nat
  apart : unit ∉ ascii "\x7b\x7d\"NUL"

theorem Delimiter.ne (delimiter : Delimiter) (h : u ∈ ascii "\x7b\x7d\"NUL") : u ≠ delimiter.unit := by
  rintro rfl
  exact delimiter.apart h

inductive Value where
  | element (text : Option Units)
  | array (items : List Value)

@[elab_as_elim, induction_eliminator]
theorem Value.induct {P : Value → Prop} (element : ∀ text, P (.element text))
    (array : ∀ items, (∀ v ∈ items, P v) → P (.array items)) (v : Value) : P v :=
  @Value.rec P (fun items => ∀ v ∈ items, P v) element array
    (fun _ h => absurd h List.not_mem_nil) (fun _ _ hv hs => List.forall_mem_cons.mpr ⟨hv, hs⟩) v

def isSpace (u : Nat) : Bool := u = 0x20 || 0x09 ≤ u && u ≤ 0x0d

def lower (u : Nat) : Nat := if 0x41 ≤ u && u ≤ 0x5a then u + 0x20 else u

def isMark (delimiter : Delimiter) (u : Nat) : Bool :=
  u ∈ ascii "\"\\" || u = 0x7b || u = 0x7d || u = delimiter.unit || isSpace u

def needsQuotes (delimiter : Delimiter) (text : Units) : Bool :=
  text = [] || text.map lower = ascii "null" || text.any (isMark delimiter)

def escape (u : Nat) : Units := if u ∈ ascii "\"\\" then [0x5c, u] else [u]

def quoteElement (text : Units) : Units := 0x22 :: text.flatMap escape ++ [0x22]

def elementOut (delimiter : Delimiter) : Option Units → Units
  | none => ascii "NULL"
  | some text => if needsQuotes delimiter text then quoteElement text else text

mutual
def valueOut (delimiter : Delimiter) : Value → Units
  | .element text => elementOut delimiter text
  | .array items => 0x7b :: separated delimiter.unit (itemsOut delimiter items) ++ [0x7d]

def itemsOut (delimiter : Delimiter) : List Value → List Units
  | [] => []
  | item :: items => valueOut delimiter item :: itemsOut delimiter items
end

def decimal (n : Nat) : Units := (Nat.toDigits 10 n).map Char.toNat

def integer (i : Int) : Units := if i < 0 then 0x2d :: decimal i.natAbs else decimal i.natAbs

def boundsOut (bounds : List (Int × Int)) : Units :=
  if bounds = [] then []
  else bounds.flatMap (fun b => 0x5b :: integer b.1 ++ 0x3a :: integer b.2 ++ [0x5d]) ++ [0x3d]

def arrayOut (delimiter : Delimiter) (bounds : List (Int × Int)) (items : List Value) : Units :=
  boundsOut bounds ++ valueOut delimiter (.array items)

theorem itemsOut_eq (delimiter : Delimiter) (items : List Value) : itemsOut delimiter items = items.map (valueOut delimiter) := by
  induction items with
  | nil => rfl
  | cons item items ih => rw [itemsOut, ih, List.map_cons]

theorem not_mem_decimal (h : ¬ (0x30 ≤ u ∧ u ≤ 0x39)) (n : Nat) : u ∉ decimal n := by
  intro hmem
  obtain ⟨c, hc, rfl⟩ := List.mem_map.mp hmem
  have hdigit := Nat.isDigit_of_mem_toDigits (by decide) (by decide) hc
  exact h (Char.isDigit_iff_toNat.mp hdigit)

theorem brace_not_mem_boundsOut (bounds : List (Int × Int)) : 0x7b ∉ boundsOut bounds := by
  have hinteger (i : Int) : 0x7b ∉ integer i := by
    unfold integer
    split_ifs <;> simp [not_mem_decimal]
  unfold boundsOut
  split_ifs
  · exact List.not_mem_nil
  · simp [hinteger]

end Catalyst.Library.PostgresArray
