import Mathlib

/-!
# Machines that write as they read

A machine reads one item after another and writes a list at each. Fed in chunks, it writes what it
writes for the chunks put together; a machine within a machine reads the items of its items.
-/

namespace Catalyst.Library

abbrev Transducer (σ α β : Type) := σ → α → List β × σ

namespace Transducer

variable {σ α β γ : Type} {t : Transducer σ α β} {s : σ}

def run (t : Transducer σ α β) (s : σ) : List α → List β × σ
  | [] => ([], s)
  | a :: as => ((t s a).1 ++ (run t (t s a).2 as).1, (run t (t s a).2 as).2)

def trace (t : Transducer σ α β) (s : σ) : List α → List (α × List β)
  | [] => []
  | a :: as => (a, (t s a).1) :: trace t (t s a).2 as

@[simp] theorem run_nil : run t s [] = ([], s) := rfl

theorem run_cons (a : α) (as : List α) :
    run t s (a :: as) = ((t s a).1 ++ (run t (t s a).2 as).1, (run t (t s a).2 as).2) := rfl

theorem run_append (as bs : List α) :
    run t s (as ++ bs) = ((run t s as).1 ++ (run t (run t s as).2 bs).1, (run t (run t s as).2 bs).2) := by
  induction as generalizing s with
  | nil => simp
  | cons a as ih => rw [List.cons_append, run_cons, ih, run_cons, List.append_assoc]

theorem run_induction {motive : σ → List β → σ → Prop} (nil : ∀ s, motive s [] s)
    (append : ∀ {s es s' es' s''}, motive s es s' → motive s' es' s'' → motive s (es ++ es') s'')
    (as : List α) (step : ∀ s, ∀ a ∈ as, motive s (t s a).1 (t s a).2) :
    motive s (run t s as).1 (run t s as).2 := by
  induction as generalizing s with
  | nil => exact nil s
  | cons a as ih =>
    exact append (step s a List.mem_cons_self) (ih fun s b hb => step s b (List.mem_cons_of_mem _ hb))

theorem run_flatMap {τ δ ε : Type} {u : Transducer τ γ δ} {f : α → List γ} {view : σ → τ} {p : β → Option ε}
    {q : δ → Option ε} (step : ∀ s a, (t s a).1.filterMap p = (run u (view s) (f a)).1.filterMap q ∧
      view (t s a).2 = (run u (view s) (f a)).2) (s : σ) (as : List α) :
    (run t s as).1.filterMap p = (run u (view s) (as.flatMap f)).1.filterMap q ∧
      view (run t s as).2 = (run u (view s) (as.flatMap f)).2 := by
  induction as generalizing s with
  | nil => exact ⟨rfl, rfl⟩
  | cons a as ih =>
    obtain ⟨hout, hview⟩ := step s a
    obtain ⟨ihout, ihview⟩ := ih (t s a).2
    rw [hview] at ihout ihview
    simp only [run_cons, List.flatMap_cons, run_append, List.filterMap_append, hout, ihout, ihview, and_self]

theorem trace_outputs (as : List α) : (trace t s as).flatMap Prod.snd = (run t s as).1 := by
  induction as generalizing s with
  | nil => rfl
  | cons a as ih => rw [trace, List.flatMap_cons, ih, run_cons]

end Transducer

end Catalyst.Library
