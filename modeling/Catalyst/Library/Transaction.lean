/-!
# Transactions

A transaction reads and writes a state and may throw. What it wrote counts only
when it ends without throwing: `commit` keeps the state of a transaction that
threw. A `Triple` says what holds after a transaction that did not.
-/

namespace Catalyst.Library

abbrev Tx (σ ε : Type) := StateT σ (Except ε)

variable {σ ε α β γ : Type}

def commit (t : Tx σ ε α) (s : σ) : Except ε α × σ :=
  match t s with
  | .ok (a, s') => (.ok a, s')
  | .error e => (.error e, s)

namespace Tx

def require (c : Prop) [Decidable c] (e : ε) : Tx σ ε Unit := if c then pure () else throw e

def need (o : Option α) (e : ε) : Tx σ ε α :=
  match o with
  | some a => pure a
  | none => throw e

def each (f : α → Tx σ ε Unit) : List α → Tx σ ε Unit
  | [] => pure ()
  | a :: as => do
    f a
    each f as

theorem bind_ok {t : Tx σ ε α} {f : α → Tx σ ε β} :
    (t >>= f) s = .ok (b, s'') ↔ ∃ a s', t s = .ok (a, s') ∧ f a s' = .ok (b, s'') := by
  simp only [bind, StateT.bind, Except.bind]
  constructor
  · intro h
    split at h
    · cases h
    · rename_i p hp
      exact ⟨p.1, p.2, hp, h⟩
  · rintro ⟨a, s', ht, hf⟩
    rw [ht]
    exact hf

theorem bind_of_ok {t : Tx σ ε α} {f : α → Tx σ ε β} (h : t s = .ok (a, s')) :
    (t >>= f) s = f a s' := by
  simp [bind, StateT.bind, Except.bind, h]

theorem pure_ok : (pure a : Tx σ ε α) s = .ok (b, s') ↔ a = b ∧ s = s' := by
  change Except.ok (a, s) = Except.ok (b, s') ↔ _
  simp

theorem get_ok : (get : Tx σ ε σ) s = .ok (a, s') ↔ s = a ∧ s = s' := by
  simp [get, getThe, MonadStateOf.get, StateT.get, pure, Except.pure]

theorem modify_ok {f : σ → σ} : (modify f : Tx σ ε Unit) s = .ok (u, s') ↔ f s = s' := by
  change Except.ok ((), f s) = Except.ok (u, s') ↔ _
  simp

theorem throw_ok : (throw e : Tx σ ε α) s = .ok r ↔ False := by
  simp [throw, throwThe, MonadExceptOf.throw, StateT.lift, bind, Except.bind]

theorem require_ok {c : Prop} [Decidable c] :
    require c e s = (.ok (u, s') : Except ε (Unit × σ)) ↔ c ∧ s = s' := by
  unfold require
  split
  · simp_all [pure_ok]
  · simp_all [throw_ok]

theorem need_ok {o : Option α} :
    need o e s = (.ok (a, s') : Except ε (α × σ)) ↔ o = some a ∧ s = s' := by
  cases o
  · simp [need, throw_ok]
  · simp [need, pure_ok]

theorem commit_ok {t : Tx σ ε α} (h : t s = .ok (a, s')) : commit t s = (.ok a, s') := by
  simp [commit, h]

theorem commit_error {t : Tx σ ε α} (h : t s = .error e) : commit t s = (.error e, s) := by
  simp [commit, h]

theorem bind_error {t : Tx σ ε α} {f : α → Tx σ ε β} (h : t s = .error e) :
    (t >>= f) s = .error e := by
  simp [bind, StateT.bind, Except.bind, h]

theorem commit_bind_pure (t : Tx σ ε α) (f : α → β) (s : σ) :
    (commit (do return f (← t)) s).2 = (commit t s).2 := by
  cases h : t s with
  | error e => rw [commit_error h, commit_error (bind_error h)]
  | ok p =>
    have hf : (do return f (← t) : Tx σ ε β) s = .ok (f p.1, p.2) :=
      bind_ok.mpr ⟨_, _, h, pure_ok.mpr ⟨rfl, rfl⟩⟩
    rw [commit_ok hf, commit_ok h]

theorem require_error {c : Prop} [Decidable c] (h : ¬ c) :
    require c e s = (.error e : Except ε (Unit × σ)) := by
  simp [require, h, throw, throwThe, MonadExceptOf.throw, StateT.lift, bind, Except.bind]

/-- From a state with `P`, a transaction that does not throw answers `a` in a state
with `Q a`. -/
def Triple (P : σ → Prop) (t : Tx σ ε α) (Q : α → σ → Prop) : Prop :=
  ∀ s a s', P s → t s = .ok (a, s') → Q a s'

/-- The transaction keeps `P`. -/
abbrev Keeps (P : σ → Prop) (t : Tx σ ε α) : Prop := Triple P t fun _ => P

theorem Triple.bind {t : Tx σ ε α} {f : α → Tx σ ε β} (ht : Triple P t Q)
    (hf : ∀ a, Triple (Q a) (f a) R) : Triple P (t >>= f) R := by
  intro s b s'' hp h
  obtain ⟨a, s', h₁, h₂⟩ := bind_ok.mp h
  exact hf a s' b s'' (ht s a s' hp h₁) h₂

theorem Triple.post {t : Tx σ ε α} (ht : Triple P t Q) (h : ∀ a s, Q a s → R a s) :
    Triple P t R := fun s a s' hp hs => h a s' (ht s a s' hp hs)

theorem Triple.pre {t : Tx σ ε α} (ht : Triple P t Q) (h : ∀ s, P' s → P s) : Triple P' t Q :=
  fun s a s' hp hs => ht s a s' (h s hp) hs

theorem Triple.pure (h : ∀ s, P s → Q a s) : Triple P (pure a : Tx σ ε α) Q := by
  intro s b s' hp hs
  obtain ⟨rfl, rfl⟩ := pure_ok.mp hs
  exact h s hp

theorem Triple.get : Triple P (get : Tx σ ε σ) fun a s => a = s ∧ P s := by
  intro s a s' hp hs
  obtain ⟨rfl, rfl⟩ := get_ok.mp hs
  exact ⟨rfl, hp⟩

theorem Triple.modify {f : σ → σ} (h : ∀ s, P s → Q () (f s)) :
    Triple P (modify f : Tx σ ε Unit) Q := by
  intro s a s' hp hs
  obtain rfl := modify_ok.mp hs
  exact h s hp

theorem Triple.require {c : Prop} [Decidable c] {e : ε} :
    Triple P (require c e) fun _ s => c ∧ P s := by
  intro s a s' hp hs
  obtain ⟨hc, rfl⟩ := require_ok.mp hs
  exact ⟨hc, hp⟩

theorem Triple.need {o : Option α} {e : ε} : Triple P (need o e) fun a s => o = some a ∧ P s := by
  intro s a s' hp hs
  obtain ⟨ho, rfl⟩ := need_ok.mp hs
  exact ⟨ho, hp⟩

theorem Keeps.each_mem {f : α → Tx σ ε Unit} (hf : ∀ a ∈ l, Keeps P (f a)) : Keeps P (each f l) := by
  induction l with
  | nil => exact Triple.pure fun _ h => h
  | cons a as ih =>
    obtain ⟨ha, has⟩ := List.forall_mem_cons.mp hf
    exact ha.bind fun _ => ih has

theorem Keeps.each {f : α → Tx σ ε Unit} (hf : ∀ a, Keeps P (f a)) (l : List α) :
    Keeps P (each f l) := Keeps.each_mem fun a _ => hf a

theorem Keeps.commit {t : Tx σ ε α} (ht : Keeps P t) (hp : P s) : P (commit t s).2 := by
  unfold Library.commit
  split
  · exact ht _ _ _ hp ‹_›
  · exact hp

end Tx

end Catalyst.Library
