import Mathlib.Data.List.Forall2

/-!
# Checks that may throw

A check answers a value or the error it throws. The `_ok` lemmas say what an
answer of each combinator means.
-/

namespace Catalyst.Library.Check

variable {ε α β : Type}

def require (c : Prop) [Decidable c] (e : ε) : Except ε Unit := if c then .ok () else .error e

def need (o : Option α) (e : ε) : Except ε α :=
  match o with
  | some a => .ok a
  | none => .error e

theorem bind_ok {x : Except ε α} {f : α → Except ε β} :
    (x >>= f) = .ok b ↔ ∃ a, x = .ok a ∧ f a = .ok b := by
  cases x with
  | error e => simp [bind, Except.bind]
  | ok a => simp [bind, Except.bind]

theorem pure_ok : (pure a : Except ε α) = .ok b ↔ a = b := by
  simp [pure, Except.pure]

theorem require_ok {c : Prop} [Decidable c] : (require c e : Except ε Unit) = .ok u ↔ c := by
  by_cases h : c <;> simp [require, h]

theorem need_ok {o : Option α} : (need o e : Except ε α) = .ok a ↔ o = some a := by
  cases o <;> simp [need]

theorem mapM_ok {f : α → Except ε β} : as.mapM f = .ok bs ↔ List.Forall₂ (fun a b => f a = .ok b) as bs := by
  induction as generalizing bs with
  | nil => cases bs <;> simp [pure, Except.pure]
  | cons a as ih =>
    rw [List.mapM_cons, List.forall₂_cons_left_iff]
    constructor
    · intro h
      obtain ⟨b, hb, h⟩ := bind_ok.mp h
      obtain ⟨rest, hrest, h⟩ := bind_ok.mp h
      exact ⟨b, rest, hb, ih.mp hrest, (pure_ok.mp h).symm⟩
    · rintro ⟨b, rest, hb, hrest, rfl⟩
      exact bind_ok.mpr ⟨b, hb, bind_ok.mpr ⟨rest, ih.mpr hrest, rfl⟩⟩

theorem mapM_total {as : List α} {f : α → Except ε β} (h : ∀ a ∈ as, ∃ b, f a = .ok b) : ∃ bs, as.mapM f = .ok bs := by
  induction as with
  | nil => exact ⟨[], rfl⟩
  | cons a as ih =>
    obtain ⟨⟨b, hb⟩, hrest⟩ := List.forall_mem_cons.mp h
    obtain ⟨bs, hbs⟩ := ih hrest
    exact ⟨b :: bs, mapM_ok.mpr (.cons hb (mapM_ok.mp hbs))⟩

end Catalyst.Library.Check
