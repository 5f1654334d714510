import Catalyst.Library.JsText
import Mathlib.Algebra.Order.Ring.Nat

/-!
# Texts as UTF-16 code units

A text of JavaScript is a list of code units, and its length is their number. Written in UTF-8
it takes one to three bytes a unit, and four for a surrogate pair; a surrogate on its own is
written as U+FFFD.
-/

namespace Catalyst.Library

structure JsString where
  units : List Nat
  length_lt : units.length < 2 ^ 53

def isHighSurrogate (u : Nat) : Bool := 0xd800 ≤ u && u < 0xdc00

def isLowSurrogate (u : Nat) : Bool := 0xdc00 ≤ u && u < 0xe000

def unitBytes (u : Nat) : Nat := if u < 0x80 then 1 else if u < 0x800 then 2 else 3

/-- `new TextEncoder().encode(s).byteLength` -/
def byteLength : List Nat → Nat
  | [] => 0
  | [u] => unitBytes u
  | u :: v :: us =>
    if isHighSurrogate u && isLowSurrogate v then 4 + byteLength us else unitBytes u + byteLength (v :: us)

def surplus (us : List Nat) : Nat := byteLength us - us.length

def IsAscii (us : List Nat) : Prop := ∀ u ∈ us, u < 0x80

variable {u v : Nat} {us vs : List Nat}

theorem one_le_unitBytes : 1 ≤ unitBytes u := by
  unfold unitBytes
  split_ifs <;> omega

theorem unitBytes_le : unitBytes u ≤ 3 := by
  unfold unitBytes
  split_ifs <;> omega

theorem length_le_byteLength : us.length ≤ byteLength us := by
  induction us using byteLength.induct with
  | case1 => exact Nat.le_refl _
  | case2 u => exact one_le_unitBytes
  | case3 u v us hpair ih =>
    rw [byteLength, if_pos hpair]
    simp only [List.length_cons]
    omega
  | case4 u v us hpair ih =>
    rw [byteLength, if_neg hpair]
    have : 1 ≤ unitBytes u := one_le_unitBytes
    simp only [List.length_cons] at ih ⊢
    omega

theorem byteLength_le : byteLength us ≤ 3 * us.length := by
  induction us using byteLength.induct with
  | case1 => exact Nat.le_refl _
  | case2 u => exact unitBytes_le
  | case3 u v us hpair ih =>
    rw [byteLength, if_pos hpair]
    simp only [List.length_cons]
    omega
  | case4 u v us hpair ih =>
    rw [byteLength, if_neg hpair]
    have : unitBytes u ≤ 3 := unitBytes_le
    simp only [List.length_cons] at ih ⊢
    omega

theorem byteLength_eq : byteLength us = us.length + surplus us := by
  rw [surplus, Nat.add_sub_cancel' length_le_byteLength]

theorem byteLength_append_cons (hv : isLowSurrogate v = false) :
    byteLength (us ++ v :: vs) = byteLength us + byteLength (v :: vs) := by
  induction us using byteLength.induct with
  | case1 => simp [byteLength]
  | case2 u => simp [byteLength, hv]
  | case3 u w us hpair ih =>
    simp only [List.cons_append, byteLength, hpair, if_true, ih]
    omega
  | case4 u w us hpair ih =>
    simp only [List.cons_append, byteLength, hpair] at ih ⊢
    simp only [Bool.false_eq_true, if_false, ih]
    omega

theorem IsAscii.not_low (h : IsAscii (v :: vs)) : isLowSurrogate v = false := by
  have := h v List.mem_cons_self
  simp only [isLowSurrogate, Bool.and_eq_false_imp, decide_eq_true_eq]
  omega

theorem IsAscii.not_high (h : u < 0x80) : isHighSurrogate u = false := by
  simp only [isHighSurrogate, Bool.and_eq_false_imp, decide_eq_true_eq]
  omega

theorem byteLength_cons_ascii (h : u < 0x80) : byteLength (u :: us) = 1 + byteLength us := by
  cases us with
  | nil => simp [byteLength, unitBytes, h]
  | cons v us => simp [byteLength, IsAscii.not_high h, unitBytes, h]

theorem IsAscii.byteLength_append (h : IsAscii us) : byteLength (us ++ vs) = us.length + byteLength vs := by
  induction us with
  | nil => simp
  | cons u us ih =>
    have hu : u < 0x80 := h u List.mem_cons_self
    rw [List.cons_append, byteLength_cons_ascii hu, ih fun v hv => h v (List.mem_cons_of_mem _ hv), List.length_cons]
    omega

theorem IsAscii.byteLength_between (h : IsAscii vs) (hne : vs ≠ []) :
    byteLength (us ++ vs ++ ws) = byteLength us + vs.length + byteLength ws := by
  cases vs with
  | nil => exact absurd rfl hne
  | cons v vs =>
    have hrest : byteLength (v :: vs ++ ws) = (v :: vs).length + byteLength ws := h.byteLength_append
    rw [List.append_assoc, List.cons_append, byteLength_append_cons h.not_low, ← List.cons_append, hrest]
    omega

theorem IsAscii.surplus_eq (h : IsAscii us) : surplus us = 0 := by
  have hbytes : byteLength (us ++ []) = us.length + byteLength [] := h.byteLength_append
  rw [List.append_nil] at hbytes
  rw [surplus, hbytes]
  simp [byteLength]

theorem IsAscii.append (h : IsAscii us) (h' : IsAscii vs) : IsAscii (us ++ vs) := by
  intro u hu
  rcases List.mem_append.mp hu with hu | hu
  · exact h u hu
  · exact h' u hu

theorem utf16_ascii {s : List Char} (h : ∀ c ∈ s, c.toNat < 0x80) : IsAscii (Js.utf16 s) ∧ (Js.utf16 s).length = s.length := by
  induction s with
  | nil => exact ⟨by simp [IsAscii, Js.utf16], rfl⟩
  | cons c s ih =>
    obtain ⟨hascii, hlength⟩ := ih fun d hd => h d (List.mem_cons_of_mem _ hd)
    have hc : c.toNat < 0x80 := h c List.mem_cons_self
    have hunits : Js.utf16 (c :: s) = c.toNat :: Js.utf16 s := by
      simp [Js.utf16, Js.codeUnits, show c.toNat ≤ 0xffff by omega]
    rw [hunits]
    refine ⟨?_, by simp [hlength]⟩
    intro u hu
    rcases List.mem_cons.mp hu with rfl | hu
    · exact hc
    · exact hascii u hu

end Catalyst.Library
