import Catalyst.Library.Transition
import Mathlib.Data.List.Basic
import Mathlib.Data.List.Pairwise
import Mathlib.Data.List.Nodup

/-!
# Processes over a shared store

Each process goes step by step and keeps a local state; between any two steps
the others and the environment may go. A process waits while another one blocks
it, which is how locks are held. A process that aborts leaves the store alone.

An invariant of such a system has three parts: what holds of the store, what
each process may rely on where it stands, and where two processes never stand
at once.
-/

namespace Catalyst.Library

structure Processes (σ ι τ ε β : Type) where
  start : ι → τ
  /-- Where the first process stands it blocks the next step of the second. -/
  blocks : τ → τ → Prop
  step : σ → τ → Option β × Option τ × σ
  env : σ → ε → Option β × σ

structure Pool (σ τ : Type) where
  store : σ
  running : List (Nat × τ)
  started : Nat
  deriving DecidableEq

inductive Move (ι ε : Type)
  | start (input : ι)
  | advance (pid : Nat)
  | abort (pid : Nat)
  | env (e : ε)
  deriving DecidableEq

namespace Pool

variable {σ τ : Type}

def at? (s : Pool σ τ) (pid : Nat) : Option τ :=
  (s.running.find? (·.1 = pid)).map Prod.snd

def leave (s : Pool σ τ) (pid : Nat) : List (Nat × τ) := s.running.filter (·.1 ≠ pid)

end Pool

namespace Processes

variable {σ ι τ ε β : Type} (P : Processes σ ι τ ε β)

def advance (s : Pool σ τ) (pid : Nat) : Option β × Pool σ τ :=
  match s.at? pid with
  | none => (none, s)
  | some t =>
    let (answer, t', store) := P.step s.store t
    (answer, { s with store := store, running := t'.toList.map (pid, ·) ++ s.leave pid })

def move (s : Pool σ τ) : Move ι ε → Option β × Pool σ τ
  | .start input =>
    (none, { s with running := (s.started, P.start input) :: s.running, started := s.started + 1 })
  | .advance pid => P.advance s pid
  | .abort pid => (none, { s with running := s.leave pid })
  | .env e =>
    let (answer, store) := P.env s.store e
    (answer, { s with store := store })

def Unblocked (s : Pool σ τ) : Move ι ε → Prop
  | .advance pid => ∀ t ∈ s.at? pid, ∀ q ∈ s.leave pid, ¬ P.blocks q.2 t
  | _ => True

instance [∀ q t, Decidable (P.blocks q t)] : DecidablePred (P.Unblocked s)
  | .advance pid =>
    inferInstanceAs (Decidable (∀ t ∈ s.at? pid, ∀ q ∈ s.leave pid, ¬ P.blocks q.2 t))
  | .start _ | .abort _ | .env _ => .isTrue trivial

/-- The processes as a machine; `allowed` says which moves the environment may choose. -/
def machine (init : σ → Prop) (allowed : Pool σ τ → Move ι ε → Prop) :
    Machine (Pool σ τ) (Move ι ε) (Option β) where
  init s := init s.store ∧ s.running = [] ∧ s.started = 0
  enabled s a := P.Unblocked s a ∧ allowed s a
  step s a := P.move s a

instance [∀ q t, Decidable (P.blocks q t)] [∀ s a, Decidable (allowed s a)] :
    Decidable ((P.machine init allowed).enabled s a) :=
  inferInstanceAs (Decidable (P.Unblocked s a ∧ allowed s a))

def answers (h : List (Move ι ε × Option β)) : List β := h.filterMap Prod.snd

@[simp] theorem answers_append (h h' : List (Move ι ε × Option β)) :
    answers (h ++ h') = answers h ++ answers h' := List.filterMap_append

/-- A run of the steps that meet `C`, as the environment's choice. -/
theorem run_of_when {C : Pool σ τ → Move ι ε → Prop}
    (hr : ((P.machine init fun _ _ => True).when C).Run s h t) : (P.machine init C).Run s h t := by
  induction hr with
  | nil => exact .nil
  | cons he _ ih => exact .cons ⟨he.1.1, he.2⟩ ih

theorem run_of_allowed_when {A C : Pool σ τ → Move ι ε → Prop} (hr : ((P.machine init A).when C).Run s h t) :
    (P.machine init fun s a => A s a ∧ C s a).Run s h t := by
  induction hr with
  | nil => exact .nil
  | cons he _ ih => exact .cons ⟨he.1.1, he.1.2, he.2⟩ ih

def serialised (clashes : τ → τ → Prop) : Processes σ ι τ ε β :=
  { P with blocks := fun p q => P.blocks p q ∨ clashes p q }

def Clear (clashes : τ → τ → Prop) (s : Pool σ τ) : Move ι ε → Prop
  | .advance pid => ∀ t ∈ s.at? pid, ∀ q ∈ s.leave pid, ¬ clashes q.2 t
  | _ => True

instance [∀ q t, Decidable (clashes q t)] : DecidablePred (Clear clashes s : Move ι ε → Prop)
  | .advance pid => inferInstanceAs (Decidable (∀ t ∈ s.at? pid, ∀ q ∈ s.leave pid, ¬ clashes q.2 t))
  | .start _ | .abort _ | .env _ => .isTrue trivial

theorem serialised_run {clashes : τ → τ → Prop} {A : Pool σ τ → Move ι ε → Prop}
    (hr : (P.machine init fun s a => Clear clashes s a ∧ A s a).Run s h t) :
    ((P.serialised clashes).machine init A).Run s h t := by
  induction hr with
  | nil => exact .nil
  | @cons s a h t he _ ih =>
    refine .cons ⟨?_, he.2.2⟩ ih
    cases a with
    | advance pid => exact fun t ht q hq hb => hb.elim (he.1 t ht q hq) (he.2.1 t ht q hq)
    | start | abort | env => trivial

/-- The parts of an invariant: `log` is what was answered so far. -/
structure Assertions (σ τ β : Type) where
  holds : List β → σ → Prop
  relies : List β → σ → τ → Prop
  apart : τ → τ → Prop

structure Assertions.Ok (A : Assertions σ τ β) (log : List β) (s : Pool σ τ) : Prop where
  holds : A.holds log s.store
  relies : ∀ p ∈ s.running, A.relies log s.store p.2
  apart : s.running.Pairwise fun p q => A.apart p.2 q.2
  pids : (s.running.map Prod.fst).Nodup
  started : ∀ p ∈ s.running, p.1 < s.started

/-- A step from `s` with an answer to `s'` keeps what the store and another process rely on. -/
structure Assertions.Keeps (A : Assertions σ τ β) (log : List β) (s : σ) (other : τ → Prop)
    (answer : Option β) (s' : σ) : Prop where
  holds : A.holds (log ++ answer.toList) s'
  others : ∀ q, other q → A.relies log s q → A.relies (log ++ answer.toList) s' q

theorem Assertions.Keeps.mono {A : Assertions σ τ β} (h : A.Keeps log s other answer s')
    (hother : ∀ q, other' q → other q) : A.Keeps log s other' answer s' :=
  ⟨h.holds, fun q hq => h.others q (hother q hq)⟩

/-- The assertions hold on, whoever goes next. -/
structure Inductive (A : Assertions σ τ β) (allowed : Pool σ τ → Move ι ε → Prop) : Prop where
  symm : ∀ p q, A.apart p q → A.apart q p
  start : ∀ log s input, A.Ok log s → allowed s (.start input) →
    A.relies log s.store (P.start input) ∧ ∀ q, A.apart (P.start input) q
  step : ∀ log s pid t, A.Ok log s → allowed s (.advance pid) → s.at? pid = some t →
    A.relies log s.store t → (∀ q ∈ s.leave pid, A.apart t q.2 ∧ ¬ P.blocks q.2 t) →
    A.Keeps log s.store (fun q => A.apart t q ∧ ∃ p ∈ s.leave pid, p.2 = q) (P.step s.store t).1
      (P.step s.store t).2.2 ∧
    ∀ t' ∈ (P.step s.store t).2.1,
      A.relies (log ++ (P.step s.store t).1.toList) (P.step s.store t).2.2 t' ∧
      ∀ q, A.relies log s.store q → A.apart t q → ¬ P.blocks q t → A.apart t' q
  env : ∀ log s e, A.Ok log s → allowed s (.env e) →
    A.Keeps log s.store (fun _ => True) (P.env s.store e).1 (P.env s.store e).2

variable {P}

theorem at?_mem {s : Pool σ τ} (h : s.at? pid = some t) : (pid, t) ∈ s.running := by
  simp only [Pool.at?, Option.map_eq_some_iff] at h
  obtain ⟨⟨pid', t'⟩, hf, rfl⟩ := h
  have hp : pid' = pid := by simpa using List.find?_some hf
  exact hp ▸ List.mem_of_find?_eq_some hf

theorem at?_leave_ne {s : Pool σ τ} (h : pid ≠ pid') (store : σ) (started : Nat) :
    (⟨store, s.leave pid', started⟩ : Pool σ τ).at? pid = s.at? pid := by
  have hsame : (fun p : Nat × τ => decide (decide (p.1 ≠ pid') = true ∧ decide (p.1 = pid) = true)) =
      fun p => decide (p.1 = pid) := by
    funext p
    by_cases hp : p.1 = pid
    · simp [hp, h]
    · simp [hp]
  simp only [Pool.at?, Pool.leave, List.find?_filter, hsame]

theorem at?_cons_ne (h : pid' ≠ pid) (store : σ) (t : τ) (l : List (Nat × τ)) (started : Nat) :
    (⟨store, (pid', t) :: l, started⟩ : Pool σ τ).at? pid = (⟨store, l, started⟩ : Pool σ τ).at? pid := by
  simp [Pool.at?, h]

theorem advance_at?_ne {s : Pool σ τ} (h : pid ≠ pid') : (P.advance s pid').2.at? pid = s.at? pid := by
  unfold advance
  split
  · rfl
  · rename_i t _
    simp only
    cases (P.step s.store t).2.1 with
    | none => exact at?_leave_ne h _ _
    | some t' => exact (at?_cons_ne h.symm _ _ _ _).trans (at?_leave_ne h _ _)

theorem advance_at?_self {s : Pool σ τ} (hat : s.at? pid = some t) (h : (P.step s.store t).2.1 = some t') :
    (P.advance s pid).2.at? pid = some t' := by
  simp only [advance, hat, h, Option.toList_some, List.map_cons, List.map_nil, List.singleton_append]
  simp [Pool.at?]

theorem mem_leave {s : Pool σ τ} : p ∈ s.leave pid ↔ p ∈ s.running ∧ p.1 ≠ pid := by
  simp [Pool.leave]

theorem Assertions.Ok.leave {A : Assertions σ τ β} (hs : A.Ok log s) (pid : Nat) :
    A.Ok log { s with running := s.leave pid } where
  holds := hs.holds
  relies p hp := hs.relies p (mem_leave.mp hp).1
  apart := hs.apart.filter _
  pids := hs.pids.sublist (List.filter_sublist.map _)
  started p hp := hs.started p (mem_leave.mp hp).1

theorem Assertions.Ok.apart_of_ne {A : Assertions σ τ β} (hs : A.Ok log s)
    (hsymm : ∀ p q, A.apart p q → A.apart q p) (hp : p ∈ s.running) (hq : q ∈ s.running)
    (hne : p.1 ≠ q.1) : A.apart p.2 q.2 := by
  have hsym : Std.Symm fun p q : Nat × τ => A.apart p.2 q.2 := ⟨fun p q h => hsymm _ _ h⟩
  exact hs.apart.forall hp hq fun h => hne (congrArg Prod.fst h)

theorem Inductive.advance_ok {A : Assertions σ τ β} (hP : P.Inductive A allowed) (hs : A.Ok log s)
    (ha : allowed s (.advance pid)) (hu : P.Unblocked s (.advance pid)) :
    A.Ok (log ++ (P.advance s pid).1.toList) (P.advance s pid).2 := by
  unfold advance
  cases ht : s.at? pid with
  | none => simpa using hs
  | some t =>
    have hmem := at?_mem ht
    have hothers : ∀ q ∈ s.leave pid, A.apart t q.2 ∧ ¬ P.blocks q.2 t := fun q hq =>
      ⟨hs.apart_of_ne hP.symm hmem (mem_leave.mp hq).1 fun h => (mem_leave.mp hq).2 h.symm,
        hu t ht q hq⟩
    obtain ⟨hkeeps, hnext⟩ := hP.step log s pid t hs ha ht (hs.relies _ hmem) hothers
    have hleft := hs.leave pid
    have hrelies : ∀ q ∈ s.leave pid,
        A.relies (log ++ (P.step s.store t).1.toList) (P.step s.store t).2.2 q.2 := fun q hq =>
      hkeeps.others _ ⟨(hothers q hq).1, q, hq, rfl⟩ (hleft.relies q hq)
    simp only
    cases ht' : (P.step s.store t).2.1 with
    | none =>
      simp only [Option.toList_none, List.map_nil, List.nil_append]
      exact ⟨hkeeps.holds, hrelies, hleft.apart, hleft.pids, hleft.started⟩
    | some t' =>
      obtain ⟨hr, hap⟩ := hnext t' ht'
      simp only [Option.toList_some, List.map_cons, List.map_nil, List.singleton_append]
      refine ⟨hkeeps.holds, ?_, ?_, ?_, ?_⟩
      · intro q hq
        rcases List.mem_cons.mp hq with rfl | hq
        · exact hr
        · exact hrelies q hq
      · exact List.pairwise_cons.mpr
          ⟨fun q hq => hap q.2 (hleft.relies q hq) (hothers q hq).1 (hothers q hq).2, hleft.apart⟩
      · refine List.nodup_cons.mpr ⟨fun hq => ?_, hleft.pids⟩
        obtain ⟨q, hq, he⟩ := List.mem_map.mp hq
        exact (mem_leave.mp hq).2 he
      · intro q hq
        rcases List.mem_cons.mp hq with rfl | hq
        · exact hs.started (pid, t) hmem
        · exact hleft.started q hq

theorem Inductive.move_ok {A : Assertions σ τ β} (hP : P.Inductive A allowed) (hs : A.Ok log s)
    (hu : P.Unblocked s a) (ha : allowed s a) :
    A.Ok (log ++ (P.move s a).1.toList) (P.move s a).2 := by
  cases a with
  | advance pid => exact hP.advance_ok hs ha hu
  | abort pid =>
    simp only [move, Option.toList_none, List.append_nil]
    exact hs.leave pid
  | start input =>
    obtain ⟨hr, hap⟩ := hP.start log s input hs ha
    simp only [move, Option.toList_none, List.append_nil]
    refine ⟨hs.holds, ?_, ?_, ?_, ?_⟩
    · intro q hq
      rcases List.mem_cons.mp hq with rfl | hq
      · exact hr
      · exact hs.relies q hq
    · exact List.pairwise_cons.mpr ⟨fun q _ => hap q.2, hs.apart⟩
    · refine List.nodup_cons.mpr ⟨fun hq => ?_, hs.pids⟩
      obtain ⟨q, hq, he⟩ := List.mem_map.mp hq
      exact absurd (hs.started q hq) (by simp [he])
    · intro q hq
      rcases List.mem_cons.mp hq with rfl | hq
      · exact Nat.lt_succ_self _
      · exact Nat.lt_succ_of_lt (hs.started q hq)
  | env e =>
    have hk := hP.env log s e hs ha
    exact ⟨hk.holds, fun q hq => hk.others _ trivial (hs.relies q hq), hs.apart, hs.pids, hs.started⟩

theorem Inductive.run_ok {A : Assertions σ τ β} (hP : P.Inductive A allowed)
    (hr : (P.machine init allowed).Run s h t) (hs : A.Ok log s) : A.Ok (log ++ answers h) t := by
  have hstep : ∀ h' s a, A.Ok (log ++ answers h') s → (P.machine init allowed).enabled s a →
      A.Ok (log ++ answers (h' ++ [(a, (P.machine init allowed).answer s a)]))
        ((P.machine init allowed).next s a) := by
    intro h' s a hs he
    have hm := hP.move_ok hs he.1 he.2
    have hl : answers [(a, (P.machine init allowed).answer s a)] = (P.move s a).1.toList := by
      cases hx : (P.move s a).1 <;> simp [answers, Machine.answer, machine, hx]
    rw [answers_append, hl, ← List.append_assoc]
    exact hm
  have h₀ : A.Ok (log ++ answers ([] : List (Move ι ε × Option β))) s := by
    rw [show answers ([] : List (Move ι ε × Option β)) = [] from rfl, List.append_nil]
    exact hs
  simpa using hr.history (P := fun h s => A.Ok (log ++ answers h) s) hstep h₀

theorem Inductive.run_of_ok {A : Assertions σ τ β} (hP : P.Inductive A allowed)
    (hr : (P.machine init allowed).Run s h t) (hs : A.Ok log s) :
    (P.machine init fun s a => allowed s a ∧ ∃ log, A.Ok log s).Run s h t := by
  induction hr generalizing log with
  | nil => exact .nil
  | cons he _ ih => exact .cons ⟨he.1, he.2, log, hs⟩ (ih (hP.move_ok hs he.1 he.2))

/-- What the assertions say of each step, of the steps that meet `B`, holds of each step of a run of these. -/
theorem Inductive.run_when_of {A : Assertions σ τ β} {B C : Pool σ τ → Move ι ε → Prop} (hP : P.Inductive A allowed)
    (hC : ∀ log s a, A.Ok log s → (P.machine init allowed).enabled s a → B s a → C s a)
    (hr : ((P.machine init allowed).when B).Run s h t) (hs : A.Ok log s) :
    ((P.machine init allowed).when C).Run s h t := by
  induction hr generalizing log with
  | nil => exact .nil
  | cons he _ ih => exact .cons ⟨he.1, hC _ _ _ hs he.1 he.2⟩ (ih (hP.move_ok hs he.1.1 he.1.2))

theorem Inductive.run_when {A : Assertions σ τ β} {C : Pool σ τ → Move ι ε → Prop} (hP : P.Inductive A allowed)
    (hC : ∀ log s a, A.Ok log s → (P.machine init allowed).enabled s a → C s a)
    (hr : (P.machine init allowed).Run s h t) (hs : A.Ok log s) : ((P.machine init allowed).when C).Run s h t :=
  hP.run_when_of (fun log s a hs he _ => hC log s a hs he)
    (hr.when_preserved (I := fun _ => True) (fun _ _ _ _ => trivial) trivial) hs

theorem Assertions.Ok.of_idle {A : Assertions σ τ β} (hi : s.running = []) (h : A.holds log s.store) :
    A.Ok log s := by
  refine ⟨h, ?_, ?_, ?_, ?_⟩ <;> simp [hi]

end Processes

end Catalyst.Library
