import Mathlib.Logic.Relation

/-!
# Machines and their runs

A machine takes one atomic step after another. A step is a function of the
state and the action, so it can be evaluated; `enabled` says which actions the
environment may choose. Everything proved of a run is proved of every
interleaving, because the action of each step is chosen freely.
-/

namespace Catalyst.Library

structure Machine (σ α β : Type) where
  init : σ → Prop
  enabled : σ → α → Prop
  step : σ → α → β × σ

namespace Machine

variable {σ α β : Type} {M : Machine σ α β}

def next (M : Machine σ α β) (s : σ) (a : α) : σ := (M.step s a).2

def answer (M : Machine σ α β) (s : σ) (a : α) : β := (M.step s a).1

inductive Run (M : Machine σ α β) : σ → List (α × β) → σ → Prop
  | nil : Run M s [] s
  | cons : M.enabled s a → Run M (M.next s a) h t → Run M s ((a, M.answer s a) :: h) t

def Reachable (M : Machine σ α β) (s : σ) : Prop := ∃ s₀ h, M.init s₀ ∧ M.Run s₀ h s

theorem Run.single (he : M.enabled s a) : M.Run s [(a, M.answer s a)] (M.next s a) :=
  .cons he .nil

theorem Run.trans (h₁ : M.Run s h t) (h₂ : M.Run t h' u) : M.Run s (h ++ h') u := by
  induction h₁ with
  | nil => exact h₂
  | cons he _ ih => exact .cons he (ih h₂)

theorem Reachable.run (hs : M.Reachable s) (hr : M.Run s h t) : M.Reachable t := by
  obtain ⟨s₀, h₀, hi, h₁⟩ := hs
  exact ⟨s₀, _, hi, h₁.trans hr⟩

theorem Reachable.next (hs : M.Reachable s) (he : M.enabled s a) : M.Reachable (M.next s a) :=
  hs.run (.single he)

/-- Every enabled step keeps `I`. -/
def Preserves (M : Machine σ α β) (I : σ → Prop) : Prop :=
  ∀ s a, I s → M.enabled s a → I (M.next s a)

theorem Run.preserves (hp : M.Preserves I) (hr : M.Run s h t) (hs : I s) : I t := by
  induction hr with
  | nil => exact hs
  | cons he _ ih => exact ih (hp _ _ hs he)

theorem Run.history {P : List (α × β) → σ → Prop}
    (hp : ∀ h s a, P h s → M.enabled s a → P (h ++ [(a, M.answer s a)]) (M.next s a))
    (hr : M.Run s h t) (hs : P h₀ s) : P (h₀ ++ h) t := by
  induction hr generalizing h₀ with
  | nil => simpa using hs
  | cons he _ ih => simpa using ih (hp _ _ _ hs he)

theorem Reachable.invariant (hi : ∀ s, M.init s → I s) (hp : M.Preserves I)
    (hs : M.Reachable s) : I s := by
  obtain ⟨s₀, h, h₀, hr⟩ := hs
  exact hr.preserves hp (hi s₀ h₀)

theorem Run.relates {R : σ → σ → Prop} (hrefl : ∀ s, R s s)
    (htrans : ∀ s t u, R s t → R t u → R s u) (hp : M.Preserves I)
    (hstep : ∀ s a, I s → M.enabled s a → R s (M.next s a))
    (hr : M.Run s h t) (hs : I s) : R s t := by
  induction hr with
  | nil => exact hrefl _
  | cons he _ ih => exact htrans _ _ _ (hstep _ _ hs he) (ih (hp _ _ hs he))

def history (M : Machine σ α β) (s : σ) : List α → List (α × β)
  | [] => []
  | a :: as => (a, M.answer s a) :: M.history (M.next s a) as

def after (M : Machine σ α β) (s : σ) (as : List α) : σ := as.foldl M.next s

def Allows (M : Machine σ α β) (s : σ) : List α → Prop
  | [] => True
  | a :: as => M.enabled s a ∧ M.Allows (M.next s a) as

instance decidableAllows [∀ s a, Decidable (M.enabled s a)] :
    ∀ (s : σ) (as : List α), Decidable (M.Allows s as)
  | _, [] => .isTrue trivial
  | s, a :: as =>
    have := decidableAllows (M.next s a) as
    inferInstanceAs (Decidable (M.enabled s a ∧ M.Allows (M.next s a) as))

theorem Allows.run (h : M.Allows s as) : M.Run s (M.history s as) (M.after s as) := by
  induction as generalizing s with
  | nil => exact .nil
  | cons a as ih => exact .cons h.1 (ih h.2)

theorem after_append (M : Machine σ α β) (s : σ) (as bs : List α) : M.after s (as ++ bs) = M.after (M.after s as) bs :=
  List.foldl_append

theorem Allows.append (h : M.Allows s as) (h' : M.Allows (M.after s as) bs) : M.Allows s (as ++ bs) := by
  induction as generalizing s with
  | nil => exact h'
  | cons a as ih => exact ⟨h.1, ih h.2 h'⟩

/-- The machine whose environment takes only the steps that meet `C`. -/
def when (M : Machine σ α β) (C : σ → α → Prop) : Machine σ α β :=
  { M with enabled := fun s a => M.enabled s a ∧ C s a }

@[simp] theorem when_init (C : σ → α → Prop) : (M.when C).init = M.init := rfl
@[simp] theorem when_next (C : σ → α → Prop) : (M.when C).next = M.next := rfl
@[simp] theorem when_enabled (C : σ → α → Prop) :
    (M.when C).enabled s a ↔ M.enabled s a ∧ C s a := Iff.rfl

theorem Run.of_when {C : σ → α → Prop} (hr : (M.when C).Run s h t) : M.Run s h t := by
  induction hr with
  | nil => exact .nil
  | cons he _ ih => exact .cons he.1 ih

theorem Run.when_preserved (hp : M.Preserves I) (hr : M.Run s h t) (hs : I s) :
    (M.when fun s _ => I s).Run s h t := by
  induction hr with
  | nil => exact .nil
  | cons he _ ih => exact .cons ⟨he, hs⟩ (ih (hp _ _ hs he))

theorem Reachable.of_when {C : σ → α → Prop} (hs : (M.when C).Reachable s) : M.Reachable s := by
  obtain ⟨s₀, h, hi, hr⟩ := hs
  exact ⟨s₀, h, hi, hr.of_when⟩

end Machine

end Catalyst.Library
