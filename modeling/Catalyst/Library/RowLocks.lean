import Catalyst.Library.Processes
import Mathlib.Logic.Relation
import Mathlib.Order.Defs.PartialOrder

/-!
# Row locks

A transaction holds the row locks it has taken until it ends, and waits for a row while another
one holds a lock on it that conflicts. Where every transaction takes its rows in one order, no
cycle of them waits.
-/

namespace Catalyst.Library

inductive LockMode
  | keyShare | share | noKeyUpdate | update
  deriving DecidableEq

def LockMode.Conflicts : LockMode → LockMode → Prop
  | update, _ | _, update => True
  | noKeyUpdate, noKeyUpdate | noKeyUpdate, share | share, noKeyUpdate => True
  | share, share | keyShare, _ | _, keyShare => False

instance : ∀ a b : LockMode, Decidable (a.Conflicts b) := fun a b => by
  cases a <;> cases b <;> unfold LockMode.Conflicts <;> infer_instance

theorem LockMode.Conflicts.symm {a b : LockMode} (h : a.Conflicts b) : b.Conflicts a := by
  cases a <;> cases b <;> trivial

structure RowLock (ρ : Type) where
  row : ρ
  mode : LockMode
  deriving DecidableEq

def RowLock.Conflicts {ρ : Type} (a b : RowLock ρ) : Prop := a.row = b.row ∧ a.mode.Conflicts b.mode

instance {ρ : Type} [DecidableEq ρ] (a b : RowLock ρ) : Decidable (a.Conflicts b) :=
  inferInstanceAs (Decidable (_ ∧ _))

structure Locking (τ ρ : Type) where
  holds : τ → List (RowLock ρ)
  wants : τ → Option (RowLock ρ)

namespace Locking

variable {σ τ ρ : Type} (L : Locking τ ρ)

def Blocks (p q : τ) : Prop := ∃ w ∈ L.wants q, ∃ l ∈ L.holds p, l.Conflicts w

def Apart (p q : τ) : Prop := ∀ a ∈ L.holds p, ∀ b ∈ L.holds q, ¬ a.Conflicts b

instance [DecidableEq ρ] (p q : τ) : Decidable (L.Blocks p q) :=
  inferInstanceAs (Decidable (∃ w ∈ L.wants q, ∃ l ∈ L.holds p, l.Conflicts w))

def Ordered [LT ρ] (p : τ) : Prop := ∀ w ∈ L.wants p, ∀ l ∈ L.holds p, l.row < w.row

def WaitsFor (s : Pool σ τ) (pid pid' : Nat) : Prop :=
  ∃ p q, (pid, p) ∈ s.running ∧ (pid', q) ∈ s.running ∧ L.Blocks q p

def Free (s : Pool σ τ) : Prop := ∀ pid, ¬ Relation.TransGen (L.WaitsFor s) pid pid

variable {L}

theorem Apart.symm {p q : τ} (h : L.Apart p q) : L.Apart q p := fun b hb a ha hc =>
  h a ha b hb ⟨hc.1.symm, hc.2.symm⟩

theorem Apart.step {t t' q : τ} (h : L.Apart t q) (hb : ¬ L.Blocks q t)
    (ht : ∀ l ∈ L.holds t', l ∈ L.holds t ∨ l ∈ L.wants t) : L.Apart t' q := by
  intro l hl k hk hc
  rcases ht l hl with hold | hwant
  · exact h l hold k hk hc
  · exact hb ⟨l, hwant, k, hk, ⟨hc.1.symm, hc.2.symm⟩⟩

theorem exists_of_waits [Preorder ρ] {s : Pool σ τ} (hpids : (s.running.map Prod.fst).Nodup)
    (hs : ∀ p ∈ s.running, L.Ordered p.2) (h : Relation.TransGen (L.WaitsFor s) pid pid') :
    ∃ p q, (pid, p) ∈ s.running ∧ (pid', q) ∈ s.running ∧ ∃ w ∈ L.wants p, ∃ l ∈ L.holds q, w.row ≤ l.row := by
  induction h with
  | single h =>
    obtain ⟨p, q, hp, hq, w, hw, l, hl, hc⟩ := h
    exact ⟨p, q, hp, hq, w, hw, l, hl, le_of_eq hc.1.symm⟩
  | tail _ h ih =>
    obtain ⟨p, q, hp, hq, w, hw, l, hl, hle⟩ := ih
    obtain ⟨q', r, hq', hr, w', hw', l', hl', hc⟩ := h
    obtain rfl : q = q' := congrArg Prod.snd (List.inj_on_of_nodup_map hpids hq hq' rfl)
    have hlt : l.row < w'.row := hs _ hq w' hw' l hl
    exact ⟨p, r, hp, hr, w, hw, l', hl', le_trans hle (le_trans (le_of_lt hlt) (le_of_eq hc.1.symm))⟩

theorem free_of_ordered [Preorder ρ] {s : Pool σ τ} (hpids : (s.running.map Prod.fst).Nodup)
    (hs : ∀ p ∈ s.running, L.Ordered p.2) : L.Free s := by
  intro pid h
  obtain ⟨p, q, hp, hq, w, hw, l, hl, hle⟩ := exists_of_waits hpids hs h
  obtain rfl : p = q := congrArg Prod.snd (List.inj_on_of_nodup_map hpids hp hq rfl)
  exact absurd (hs _ hp w hw l hl) (not_lt_of_ge hle)

end Locking

end Catalyst.Library
