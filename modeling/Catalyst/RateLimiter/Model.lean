import Mathlib
import Catalyst.Library.Ordered
import Catalyst.Library.Transition

/-!
# The rate limiter of a process

A check is counted in the fixed window of its key, or, where too many keys are counted, in the one
its rule shares with all keys that have none. Counters that have run out are removed by a timer and
before a key is refused a counter of its own.
-/

namespace Catalyst.RateLimiter

open Library

abbrev Time := Nat

@[ext]
structure RateLimitRule where
  limit : Nat
  windowMs : Nat
  limit_pos : 0 < limit

instance : DecidableEq RateLimitRule := fun _ _ => decidable_of_iff _ RateLimitRule.ext_iff.symm

structure RateLimitDecision where
  allowed : Bool
  retryAfterMs : Nat
  deriving DecidableEq

structure Window where
  count : Nat
  endsAt : Time
  deriving DecidableEq

variable {κ : Type} [DecidableEq κ]

abbrev Counters (κ : Type) := OrderedMap κ Window

def live (counters : Counters κ) (time : Time) : Counters κ := counters.filter fun e => time < e.2.endsAt

def current (counters : Counters κ) (key : κ) (time : Time) : Option Window :=
  (counters.get? key).filter fun w => time < w.endsAt

/-- The decision, and the counters after it, by the counter there is. -/
def countIn (counters : Counters κ) (key : κ) (rule : RateLimitRule) (time : Time) :
    Option Window → RateLimitDecision × Counters κ
  | none => (⟨true, 0⟩, counters.set key ⟨1, time + rule.windowMs⟩)
  | some w =>
    if rule.limit ≤ w.count then (⟨false, w.endsAt - time⟩, counters)
    else (⟨true, 0⟩, counters.set key { w with count := w.count + 1 })

def count (counters : Counters κ) (key : κ) (rule : RateLimitRule) (time : Time) : RateLimitDecision × Counters κ :=
  countIn counters key rule time (current counters key time)

abbrev RuleKey := Nat × Nat

def RateLimitRule.key (rule : RateLimitRule) : RuleKey := (rule.limit, rule.windowMs)

structure Limiter (κ : Type) where
  windows : Counters κ := []
  overflow : Counters RuleKey := []
  deriving DecidableEq

def sweep (s : Limiter κ) (time : Time) : Limiter κ := ⟨live s.windows time, live s.overflow time⟩

def countWindow (s : Limiter κ) (key : κ) (rule : RateLimitRule) (time : Time) : RateLimitDecision × Limiter κ :=
  let (decision, windows) := count s.windows key rule time
  (decision, { s with windows := windows })

def countOverflow (s : Limiter κ) (rule : RateLimitRule) (time : Time) : RateLimitDecision × Limiter κ :=
  let (decision, overflow) := count s.overflow rule.key rule time
  (decision, { s with overflow := overflow })

/-- One check; `later` is what the clock reads where it is read again. -/
def consume (maxKeys : Nat) (s : Limiter κ) (time later : Time) (key : κ) (rule : RateLimitRule) :
    RateLimitDecision × Limiter κ :=
  if s.windows.has key = false ∧ maxKeys ≤ s.windows.length then
    let s := sweep s later
    if maxKeys ≤ s.windows.length then countOverflow s rule time else countWindow s key rule time
  else countWindow s key rule time

inductive Action (κ : Type)
  /-- A check begins and ends at these readings of the clock. -/
  | check (time later : Time) (key : κ) (rule : RateLimitRule)
  /-- The timer goes off. -/
  | sweeps (time : Time)
  deriving DecidableEq

structure State (κ : Type) where
  limiter : Limiter κ := {}
  clock : Time := 0
  deriving DecidableEq

/-- The limiter under any checks and any going off of its timer; the clock never goes back. -/
def machine (maxKeys : Nat) : Machine (State κ) (Action κ) (Option RateLimitDecision) where
  init s := s.limiter = {}
  enabled s
    | .check time later _ _ => s.clock ≤ time ∧ time ≤ later
    | .sweeps time => s.clock ≤ time
  step s
    | .check time later key rule =>
      let (decision, limiter) := consume maxKeys s.limiter time later key rule
      (some decision, ⟨limiter, later⟩)
    | .sweeps time => (none, ⟨sweep s.limiter time, time⟩)

theorem get?_live (h : (OrderedMap.keys counters).Nodup) (time : Time) (key : κ) :
    (live counters time).get? key = current counters key time := by
  unfold current
  induction counters with
  | nil => rfl
  | cons e counters ih =>
    obtain ⟨k, w⟩ := e
    obtain ⟨hk, hs⟩ := List.nodup_cons.mp h
    have ih := ih hs
    by_cases hkey : k = key
    · subst hkey
      have habsent : OrderedMap.get? counters k = none := by
        rw [← Option.not_isSome_iff_eq_none]
        exact fun hsome => hk (OrderedMap.mem_keys_iff.mpr hsome)
      by_cases hlive : time < w.endsAt
      · simp [live, hlive, OrderedMap.get?, Option.filter]
      · rw [habsent] at ih
        simpa [live, hlive, OrderedMap.get?, Option.filter] using ih
    · by_cases hlive : time < w.endsAt
      · simpa [live, hlive, OrderedMap.get?, hkey] using ih
      · simpa [live, hlive, OrderedMap.get?, hkey] using ih

omit [DecidableEq κ] in
omit [DecidableEq κ] in
theorem nodup_live (h : (OrderedMap.keys counters).Nodup) (time : Time) :
    (OrderedMap.keys (live counters time) : List κ).Nodup :=
  h.sublist (List.filter_sublist.map _)

/-- What `count` does: it opens a window, refuses, or counts on. -/
theorem count_cases (counters : Counters κ) (key : κ) (rule : RateLimitRule) (time : Time) :
    ((∀ w, counters.get? key = some w → w.endsAt ≤ time) ∧
        count counters key rule time = (⟨true, 0⟩, counters.set key ⟨1, time + rule.windowMs⟩)) ∨
      ∃ w, counters.get? key = some w ∧ time < w.endsAt ∧
        (rule.limit ≤ w.count ∧ count counters key rule time = (⟨false, w.endsAt - time⟩, counters) ∨
          w.count < rule.limit ∧
            count counters key rule time = (⟨true, 0⟩, counters.set key ⟨w.count + 1, w.endsAt⟩)) := by
  unfold count countIn current
  cases hw : counters.get? key with
  | none =>
    refine .inl ⟨fun w h => ?_, rfl⟩
    cases h
  | some w =>
    by_cases hlive : time < w.endsAt
    · refine .inr ⟨w, rfl, hlive, ?_⟩
      by_cases hlimit : rule.limit ≤ w.count
      · exact .inl ⟨hlimit, by simp [Option.filter, hlive, hlimit]⟩
      · exact .inr ⟨not_le.mp hlimit, by simp [Option.filter, hlive, hlimit]⟩
    · refine .inl ⟨fun v hv => ?_, by simp [Option.filter, hlive]⟩
      obtain rfl := Option.some.inj hv
      exact not_lt.mp hlive

theorem consume_cases (maxKeys : Nat) (s : Limiter κ) (time later : Time) (key : κ) (rule : RateLimitRule) :
    (consume maxKeys s time later key rule = countWindow s key rule time ∧
        (s.windows.has key ∨ s.windows.length < maxKeys)) ∨
      s.windows.has key = false ∧ maxKeys ≤ s.windows.length ∧
        ((live s.windows later).length < maxKeys ∧
            consume maxKeys s time later key rule = countWindow (sweep s later) key rule time ∨
          maxKeys ≤ (live s.windows later).length ∧
            consume maxKeys s time later key rule = countOverflow (sweep s later) rule time) := by
  unfold consume
  by_cases hfull : s.windows.has key = false ∧ maxKeys ≤ s.windows.length
  · refine .inr ⟨hfull.1, hfull.2, ?_⟩
    by_cases hlive : maxKeys ≤ (live s.windows later).length
    · refine .inr ⟨hlive, ?_⟩
      simp only [if_pos hfull]
      exact if_pos hlive
    · refine .inl ⟨not_le.mp hlive, ?_⟩
      simp only [if_pos hfull]
      exact if_neg hlive
  · refine .inl ⟨if_neg hfull, ?_⟩
    rw [not_and_or, Bool.not_eq_false, not_le] at hfull
    exact hfull

/-- No key has two counters, and there are at most `maxKeys` of the keys' own. -/
structure Kept (maxKeys : Nat) (s : Limiter κ) : Prop where
  windows : (OrderedMap.keys s.windows).Nodup
  overflow : (OrderedMap.keys s.overflow).Nodup
  length_le : s.windows.length ≤ maxKeys

theorem length_set (m : Counters κ) (key : κ) (w : Window) :
    (m.set key w).length = if m.has key then m.length else m.length + 1 := by
  induction m with
  | nil => rfl
  | cons e m ih =>
    obtain ⟨k, v⟩ := e
    by_cases hk : k = key
    · simp [OrderedMap.set, OrderedMap.has, OrderedMap.get?, hk]
    · have hhas : OrderedMap.has ((k, v) :: m) key = OrderedMap.has m key := by
        simp [OrderedMap.has, OrderedMap.get?, hk]
      rw [OrderedMap.set, if_neg hk, List.length_cons, List.length_cons, ih, hhas]
      split_ifs <;> rfl

theorem count_nodup (h : (OrderedMap.keys counters).Nodup) (key : κ) (rule : RateLimitRule) (time : Time) :
    (OrderedMap.keys (count counters key rule time).2).Nodup := by
  obtain ⟨-, he⟩ | ⟨w, -, -, ⟨-, he⟩ | ⟨-, he⟩⟩ := count_cases counters key rule time
  · rw [he]
    exact OrderedMap.nodup_keys_set h
  · rw [he]
    exact h
  · rw [he]
    exact OrderedMap.nodup_keys_set h

theorem count_length_le (counters : Counters κ) (key : κ) (rule : RateLimitRule) (time : Time)
    (h : if counters.has key then counters.length ≤ n else counters.length < n) :
    (count counters key rule time).2.length ≤ n := by
  have hle : counters.length ≤ n := by
    split at h
    · exact h
    · exact h.le
  have hset : ∀ w, (counters.set key w).length ≤ n := by
    intro w
    rw [length_set]
    split at h
    case isTrue hhas => rwa [if_pos hhas]
    case isFalse hhas => rwa [if_neg hhas]
  obtain ⟨-, he⟩ | ⟨w, -, -, ⟨-, he⟩ | ⟨-, he⟩⟩ := count_cases counters key rule time
  · exact he ▸ hset _
  · exact he ▸ hle
  · exact he ▸ hset _

omit [DecidableEq κ] in
theorem length_live_le (counters : Counters κ) (time : Time) : (live counters time).length ≤ counters.length :=
  List.length_filter_le _ _

omit [DecidableEq κ] in
theorem Kept.sweep (h : Kept maxKeys s) (time : Time) : Kept maxKeys (sweep s time : Limiter κ) where
  windows := nodup_live h.windows time
  overflow := nodup_live h.overflow time
  length_le := (length_live_le _ _).trans h.length_le

theorem Kept.countWindow (h : Kept maxKeys s) (hroom : s.windows.has key ∨ s.windows.length < maxKeys)
    (rule : RateLimitRule) (time : Time) : Kept maxKeys (countWindow s key rule time : _ × Limiter κ).2 where
  windows := count_nodup h.windows key rule time
  overflow := h.overflow
  length_le := by
    refine count_length_le s.windows key rule time ?_
    split
    case isTrue => exact h.length_le
    case isFalse hhas => exact hroom.resolve_left hhas

omit [DecidableEq κ] in
theorem Kept.countOverflow (h : Kept maxKeys s) (rule : RateLimitRule) (time : Time) :
    Kept maxKeys (countOverflow s rule time : _ × Limiter κ).2 :=
  ⟨h.windows, count_nodup h.overflow rule.key rule time, h.length_le⟩

theorem Kept.consume (h : Kept maxKeys s) (time later : Time) (key : κ) (rule : RateLimitRule) :
    Kept maxKeys (consume maxKeys s time later key rule).2 := by
  obtain ⟨he, hroom⟩ | ⟨hhas, -, ⟨hlt, he⟩ | ⟨-, he⟩⟩ := consume_cases maxKeys s time later key rule
  · rw [he]
    exact h.countWindow hroom rule time
  · rw [he]
    exact (h.sweep later).countWindow (.inr hlt) rule time
  · rw [he]
    exact (h.sweep later).countOverflow rule time

theorem kept (h : (machine maxKeys).Reachable (s : State κ)) : Kept maxKeys s.limiter := by
  refine h.invariant (I := fun s => Kept maxKeys s.limiter) (fun s hs => ?_) fun s a hs _ => ?_
  · rw [show s.limiter = {} from hs]
    exact ⟨List.nodup_nil, List.nodup_nil, Nat.zero_le _⟩
  · cases a with
    | check time later key rule => exact hs.consume time later key rule
    | sweeps time => exact hs.sweep time

end Catalyst.RateLimiter
