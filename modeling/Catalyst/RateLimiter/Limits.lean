import Mathlib
import Catalyst.RateLimiter.Model

/-!
# What the limiter answers

The answers depend on the counters that have not run out alone, so it does not matter when the others
are removed. While a window lasts its counter is kept, and it allows no more than its limit.
-/

namespace Catalyst.RateLimiter

open Library

variable {κ : Type} [DecidableEq κ] {counters : Counters κ} {s : Limiter κ} {key : κ} {w : Window}
  {time time' later : Time}

-- -----------------
-- The counters that count
-- -----------------

theorem current_eq_some : current counters key time = some w ↔ OrderedMap.get? counters key = some w ∧ time < w.endsAt := by
  simp [current, Option.filter_eq_some_iff]

theorem current_live (h : (OrderedMap.keys counters).Nodup) (htime : time ≤ time') (key : κ) :
    current (live counters time) key time' = current counters key time' := by
  rw [current, get?_live h, current, current, Option.filter_filter]
  congr 1
  funext w
  simp only [Bool.and_eq_decide, decide_eq_true_eq]
  exact decide_eq_decide.mpr ⟨fun h => h.2, fun he => ⟨htime.trans_lt he, he⟩⟩

def SameLive (time : Time) (a b : Counters κ) : Prop := ∀ key, current a key time = current b key time

theorem current_mono (htime : time ≤ time') (counters : Counters κ) (key : κ) :
    current counters key time' = (current counters key time).filter fun w => time' < w.endsAt := by
  rw [current, current, Option.filter_filter]
  congr 1
  funext w
  simp only [Bool.and_eq_decide, decide_eq_true_eq]
  exact decide_eq_decide.mpr ⟨fun he => ⟨htime.trans_lt he, he⟩, fun h => h.2⟩

namespace SameLive

variable {a b : Counters κ}

theorem mono (h : SameLive time a b) (htime : time ≤ time') : SameLive time' a b := fun key => by
  rw [current_mono htime, h key, ← current_mono htime]

theorem symm (h : SameLive time a b) : SameLive time b a := fun key => (h key).symm

theorem trans (h : SameLive time a b) (h' : SameLive time b c) : SameLive time a c := fun key => (h key).trans (h' key)

theorem live (h : (OrderedMap.keys a).Nodup) (htime : time ≤ time') : SameLive time' (live a time) a :=
  fun key => current_live h htime key

theorem set (h : SameLive time a b) (key : κ) (w : Window) : SameLive time (a.set key w) (b.set key w) := fun k => by
  by_cases hk : key = k
  · subst hk
    rw [current, current, OrderedMap.get?_set_self, OrderedMap.get?_set_self]
  · have hkept := h k
    rwa [current, current, OrderedMap.get?_set_of_ne hk, OrderedMap.get?_set_of_ne hk]

theorem length_eq (h : SameLive time a b) (ha : (OrderedMap.keys a).Nodup) (hb : (OrderedMap.keys b).Nodup) :
    (RateLimiter.live a time).length = (RateLimiter.live b time).length := by
  have hkeys : ∀ {m : Counters κ}, (OrderedMap.keys m).Nodup → ∀ key,
      key ∈ OrderedMap.keys (RateLimiter.live m time) ↔ (current m key time).isSome := by
    intro m hm key
    rw [OrderedMap.mem_keys_iff, OrderedMap.has, get?_live hm]
  have hperm : (OrderedMap.keys (RateLimiter.live a time)).Perm (OrderedMap.keys (RateLimiter.live b time)) := by
    refine (List.perm_ext_iff_of_nodup (nodup_live ha time) (nodup_live hb time)).mpr fun key => ?_
    rw [hkeys ha, hkeys hb, h key]
  simpa [OrderedMap.keys] using hperm.length_eq

end SameLive

/-- `count` decides by the counters that count, and keeps them the same. -/
theorem count_same {a b : Counters κ} (h : SameLive time a b) (key : κ) (rule : RateLimitRule) :
    (count a key rule time).1 = (count b key rule time).1 ∧
      SameLive time (count a key rule time).2 (count b key rule time).2 := by
  rw [count, count, h key]
  cases current b key time with
  | none => exact ⟨rfl, h.set key _⟩
  | some w =>
    by_cases hlimit : rule.limit ≤ w.count
    · rw [countIn, countIn, if_pos hlimit, if_pos hlimit]
      exact ⟨rfl, h⟩
    · rw [countIn, countIn, if_neg hlimit, if_neg hlimit]
      exact ⟨rfl, h.set key _⟩

def Overflows (maxKeys : Nat) (s : Limiter κ) (time later : Time) (key : κ) : Prop :=
  current s.windows key time = none ∧ maxKeys ≤ (live s.windows later).length

theorem has_eq_false_iff {m : Counters κ} : m.has key = false ↔ m.get? key = none := by
  rw [OrderedMap.has, Option.isSome_eq_false_iff, Option.isNone_iff_eq_none]

theorem has_of_overflows (h : Kept maxKeys s) (hover : Overflows maxKeys s time later key) (htime : time ≤ later) :
    s.windows.has key = false ∧ maxKeys ≤ s.windows.length := by
  obtain ⟨hnone, hfull⟩ := hover
  refine ⟨?_, hfull.trans (length_live_le _ _)⟩
  have hall : live s.windows later = s.windows :=
    List.filter_sublist.eq_of_length_le (h.length_le.trans hfull)
  rw [has_eq_false_iff]
  cases hw : s.windows.get? key with
  | none => rfl
  | some w =>
    have hmem : (key, w) ∈ live s.windows later := by
      rw [hall]
      exact OrderedMap.mem_of_get? hw
    have hlive : later < w.endsAt := of_decide_eq_true (List.mem_filter.mp hmem).2
    rw [current_eq_some.mpr ⟨hw, htime.trans_lt hlive⟩] at hnone
    cases hnone

theorem consume_of_overflows (h : Kept maxKeys s) (hover : Overflows maxKeys s time later key) (htime : time ≤ later)
    (rule : RateLimitRule) : consume maxKeys s time later key rule = countOverflow (sweep s later) rule time := by
  unfold consume
  rw [if_pos (has_of_overflows h hover htime)]
  exact if_pos hover.2

theorem consume_of_not_overflows (h : Kept maxKeys s) (hover : ¬Overflows maxKeys s time later key)
    (rule : RateLimitRule) :
    (consume maxKeys s time later key rule).1 = (count s.windows key rule time).1 ∧
      SameLive later (consume maxKeys s time later key rule).2.windows (count s.windows key rule time).2 ∧
      SameLive later (consume maxKeys s time later key rule).2.overflow s.overflow := by
  obtain ⟨he, -⟩ | ⟨hhas, -, ⟨-, he⟩ | ⟨hfull, -⟩⟩ := consume_cases maxKeys s time later key rule
  · rw [he]
    exact ⟨rfl, fun _ => rfl, fun _ => rfl⟩
  · have hget := has_eq_false_iff.mp hhas
    have hnone : current s.windows key time = none := by rw [current, hget, Option.filter_none]
    have hswept : current (live s.windows later) key time = none := by
      rw [current, get?_live h.windows, current, hget, Option.filter_none, Option.filter_none]
    rw [he, count, hnone]
    simp only [countWindow, sweep]
    rw [count, hswept]
    exact ⟨rfl, (SameLive.live h.windows le_rfl).set key _, SameLive.live h.overflow le_rfl⟩
  · refine absurd ⟨?_, hfull⟩ hover
    rw [current, has_eq_false_iff.mp hhas, Option.filter_none]

structure Agrees (time : Time) (a b : Limiter κ) : Prop where
  windows : SameLive time a.windows b.windows
  overflow : SameLive time a.overflow b.overflow

theorem Agrees.consume {a b : Limiter κ} (h : Agrees time a b) (ha : Kept maxKeys a) (hb : Kept maxKeys b)
    (htime : time ≤ later) (key : κ) (rule : RateLimitRule) :
    (consume maxKeys a time later key rule).1 = (consume maxKeys b time later key rule).1 ∧
      Agrees later (consume maxKeys a time later key rule).2 (consume maxKeys b time later key rule).2 := by
  have hsame : Overflows maxKeys a time later key ↔ Overflows maxKeys b time later key := by
    unfold Overflows
    rw [h.windows key, (h.windows.mono htime).length_eq ha.windows hb.windows]
  by_cases hover : Overflows maxKeys a time later key
  · have hwindows : SameLive later (live a.windows later) (live b.windows later) :=
      ((SameLive.live ha.windows le_rfl).trans (h.windows.mono htime)).trans (SameLive.live hb.windows le_rfl).symm
    have hoverflow : SameLive time (live a.overflow later) (live b.overflow later) := fun k => by
      have hlater : ∀ {m : Counters RuleKey}, (OrderedMap.keys m).Nodup →
          current (live m later) k time = current m k later := by
        intro m hm
        rw [current, get?_live hm, current, Option.filter_filter]
        congr 1
        funext w
        simp only [Bool.and_eq_decide, decide_eq_true_eq]
        exact decide_eq_decide.mpr ⟨fun h => h.1, fun he => ⟨he, htime.trans_lt he⟩⟩
      rw [hlater ha.overflow, hlater hb.overflow, (h.overflow.mono htime) k]
    obtain ⟨hdecision, hcounted⟩ := count_same hoverflow rule.key rule
    rw [consume_of_overflows ha hover htime, consume_of_overflows hb (hsame.mp hover) htime]
    exact ⟨hdecision, hwindows, hcounted.mono htime⟩
  · obtain ⟨ha₁, ha₂, ha₃⟩ := consume_of_not_overflows ha hover rule
    obtain ⟨hb₁, hb₂, hb₃⟩ := consume_of_not_overflows hb (fun hb => hover (hsame.mpr hb)) rule
    obtain ⟨hdecision, hcounted⟩ := count_same h.windows key rule
    refine ⟨ha₁.trans (hdecision.trans hb₁.symm), ?_, ?_⟩
    · exact (ha₂.trans (hcounted.mono htime)).trans hb₂.symm
    · exact (ha₃.trans (h.overflow.mono htime)).trans hb₃.symm

def Action.isCheck : Action κ → Bool
  | check .. => true
  | sweeps _ => false

abbrev History (κ : Type) := List (Action κ × Option RateLimitDecision)

def unswept (h : History κ) : History κ := h.filter (·.1.isCheck)

theorem Agrees.mono {a b : Limiter κ} (h : Agrees time a b) (htime : time ≤ time') : Agrees time' a b :=
  ⟨h.windows.mono htime, h.overflow.mono htime⟩

theorem Agrees.sweep {a b : Limiter κ} (h : Agrees time a b) (ha : Kept maxKeys a) (htime : time ≤ time') :
    Agrees time' (sweep a time') b where
  windows := (SameLive.live ha.windows le_rfl).trans (h.windows.mono htime)
  overflow := (SameLive.live ha.overflow le_rfl).trans (h.overflow.mono htime)

theorem unswept_run {s s' t : State κ} (h : (machine maxKeys).Run s hist t) (ha : Kept maxKeys s.limiter)
    (hb : Kept maxKeys s'.limiter) (hagrees : Agrees s.clock s.limiter s'.limiter) (hclock : s'.clock ≤ s.clock) :
    ∃ t', (machine maxKeys).Run s' (unswept hist) t' := by
  induction h generalizing s' with
  | nil => exact ⟨s', .nil⟩
  | @cons s a hist t he hrun ih =>
    cases a with
    | check time later key rule =>
      obtain ⟨htime, hlater⟩ := he
      obtain ⟨hdecision, hnext⟩ := (hagrees.mono htime).consume ha hb hlater key rule
      obtain ⟨t', hrun'⟩ := @ih ((machine maxKeys).next s' (.check time later key rule))
        (ha.consume time later key rule) (hb.consume time later key rule) hnext le_rfl
      have hanswer : (machine maxKeys).answer s (.check time later key rule)
          = (machine maxKeys).answer s' (.check time later key rule) := congrArg some hdecision
      refine ⟨t', ?_⟩
      rw [hanswer]
      exact .cons ⟨hclock.trans htime, hlater⟩ hrun'
    | sweeps time => exact ih (ha.sweep time) hb (hagrees.sweep ha he) (hclock.trans he)

def allowedIn (key : κ) (endsAt : Time) (limit : Nat) : Action κ × Option RateLimitDecision → Bool
  | (.check time _ key' rule, some decision) => key' = key && time < endsAt && rule.limit ≤ limit && decision.allowed
  | _ => false

theorem get?_countWindow_of_ne (s : Limiter κ) (h : key' ≠ key) (rule : RateLimitRule) (time : Time) :
    (countWindow s key' rule time).2.windows.get? key = s.windows.get? key := by
  simp only [countWindow]
  obtain ⟨-, he⟩ | ⟨w, -, -, ⟨-, he⟩ | ⟨-, he⟩⟩ := count_cases s.windows key' rule time
  · rw [he, OrderedMap.get?_set_of_ne h]
  · rw [he]
  · rw [he, OrderedMap.get?_set_of_ne h]

theorem get?_consume_of_ne (h : Kept maxKeys s) (hw : s.windows.get? key = some w) (hlive : later < w.endsAt)
    (hne : key' ≠ key) (rule : RateLimitRule) :
    (consume maxKeys s time later key' rule).2.windows.get? key = some w := by
  have hswept : (live s.windows later).get? key = some w := by
    rw [get?_live h.windows, current_eq_some]
    exact ⟨hw, hlive⟩
  obtain ⟨he, -⟩ | ⟨-, -, ⟨-, he⟩ | ⟨-, he⟩⟩ := consume_cases maxKeys s time later key' rule
  · rw [he, get?_countWindow_of_ne s hne, hw]
  · rw [he, get?_countWindow_of_ne _ hne]
    exact hswept
  · rw [he]
    exact hswept

theorem consume_of_get? (hw : s.windows.get? key = some w) (time later : Time) (rule : RateLimitRule) :
    consume maxKeys s time later key rule = countWindow s key rule time := by
  have hhas : s.windows.has key = true := by rw [OrderedMap.has, hw, Option.isSome_some]
  unfold consume
  rw [if_neg (by simp [hhas])]

theorem clock_le_next {s : State κ} (he : (machine maxKeys).enabled s a) :
    s.clock ≤ ((machine maxKeys).next s a).clock := by
  cases a with
  | check time later key rule => exact he.1.trans he.2
  | sweeps time => exact he

theorem countP_allowedIn_of_le {s t : State κ} (h : (machine maxKeys).Run s hist t) (hend : endsAt ≤ s.clock) :
    hist.countP (allowedIn key endsAt limit) = 0 := by
  induction h with
  | nil => rfl
  | @cons s a hist t he hrun ih =>
    rw [List.countP_cons, ih (hend.trans (clock_le_next he))]
    have hnot : allowedIn key endsAt limit (a, (machine maxKeys).answer s a) = false := by
      cases a with
      | check time later key' rule =>
        have hle : ¬time < endsAt := not_lt.mpr (hend.trans he.1)
        simp [machine, Machine.answer, allowedIn, hle]
      | sweeps time => rfl
    rw [hnot]
    rfl

theorem next_check (s : State κ) : (machine maxKeys).next s (.check time later key rule)
    = ⟨(consume maxKeys s.limiter time later key rule).2, later⟩ := rfl

theorem allowedIn_check (maxKeys endsAt limit time later : Nat) (key key' : κ) (rule : RateLimitRule)
    (s : State κ) : allowedIn key endsAt limit
      (.check time later key' rule, (machine maxKeys).answer s (.check time later key' rule)) = true ↔
    key' = key ∧ time < endsAt ∧ rule.limit ≤ limit ∧
      (consume maxKeys s.limiter time later key' rule).1.allowed = true := by
  simp [machine, Machine.answer, allowedIn, and_assoc]

theorem countP_allowedIn_le (limit : Nat) {s t : State κ} (h : (machine maxKeys).Run s hist t) (hkept : Kept maxKeys s.limiter)
    (hw : s.limiter.windows.get? key = some w) :
    hist.countP (allowedIn key w.endsAt limit) ≤ limit - w.count := by
  induction h generalizing w with
  | nil => exact Nat.zero_le _
  | @cons s a hist t he hrun ih =>
    rw [List.countP_cons]
    cases a with
    | check time later key' rule =>
      have hnext : Kept maxKeys ((machine maxKeys).next s (.check time later key' rule)).limiter :=
        hkept.consume time later key' rule
      rw [next_check] at hrun hnext ih
      by_cases hk : key' = key
      · subst hk
        have hanswer := allowedIn_check maxKeys w.endsAt limit time later key' key' rule s
        rw [consume_of_get? hw] at hanswer hrun hnext ih
        simp only [countWindow] at hanswer hrun hnext ih
        obtain ⟨hdead, -⟩ | ⟨v, hv, hlive, ⟨-, hc⟩ | ⟨hlt, hc⟩⟩ := count_cases s.limiter.windows key' rule time
        · have hend : w.endsAt ≤ time := hdead w hw
          rw [countP_allowedIn_of_le hrun (hend.trans he.2), if_neg]
          · exact Nat.zero_le _
          · exact fun h => absurd (hanswer.mp h).2.1 (not_lt.mpr hend)
        · rw [hc] at hanswer hnext ih
          rw [if_neg]
          · exact ih hnext hw
          · exact fun h => Bool.false_ne_true (hanswer.mp h).2.2.2
        · obtain rfl : w = v := Option.some.inj (hw.symm.trans hv)
          rw [hc] at hanswer hnext ih
          have hrest := ih hnext (w := ⟨w.count + 1, w.endsAt⟩) (OrderedMap.get?_set_self _)
          simp only at hrest
          split
          case isTrue hallowed =>
            have hlimit : rule.limit ≤ limit := (hanswer.mp hallowed).2.2.1
            omega
          case isFalse => omega
      · rw [if_neg fun h => hk ((allowedIn_check _ _ _ _ _ _ key' _ s).mp h).1, Nat.add_zero]
        by_cases hend : w.endsAt ≤ later
        · rw [countP_allowedIn_of_le hrun hend]
          exact Nat.zero_le _
        · exact ih hnext (get?_consume_of_ne hkept hw (not_le.mp hend) hk rule)
    | sweeps time =>
      have hnot : allowedIn key w.endsAt limit (.sweeps time, (machine maxKeys).answer s (.sweeps time)) = false := rfl
      rw [hnot]
      by_cases hend : w.endsAt ≤ time
      · rw [countP_allowedIn_of_le hrun hend]
        exact Nat.zero_le _
      · refine ih (hkept.sweep time) ?_
        have hlive : current s.limiter.windows key time = some w := current_eq_some.mpr ⟨hw, not_le.mp hend⟩
        exact (get?_live hkept.windows time key).trans hlive

/-- From a time on a check of the key under the rule meets no counter that has not run out. -/
structure Cooled (maxKeys : Nat) (s : Limiter κ) (key : κ) (rule : RateLimitRule) (time : Time) : Prop where
  own : ∀ w, s.windows.get? key = some w → w.endsAt ≤ time
  shared : s.windows.get? key = none →
    s.windows.length < maxKeys ∨ ∀ w, s.overflow.get? rule.key = some w → w.endsAt ≤ time

theorem get?_of_get?_live (h : (OrderedMap.keys counters).Nodup) (hw : (live counters time).get? key = some w) :
    counters.get? key = some w ∧ time < w.endsAt := by
  rw [get?_live h] at hw
  exact current_eq_some.mp hw

theorem Cooled.sweep (h : Cooled maxKeys s key rule time) (hkept : Kept maxKeys s) (time' : Time) :
    Cooled maxKeys (sweep s time') key rule time where
  own w hw := h.own w (get?_of_get?_live hkept.windows hw).1
  shared hnone := by
    cases hw : s.windows.get? key with
    | none =>
      refine (h.shared hw).imp (length_live_le _ _).trans_lt fun hover w hs => ?_
      exact hover w (get?_of_get?_live hkept.overflow hs).1
    | some w =>
      -- the key's own counter was removed, which leaves room for it
      left
      refine lt_of_lt_of_le (lt_of_le_of_ne (length_live_le _ _) fun hlen => ?_) hkept.length_le
      have hall : live s.windows time' = s.windows := List.filter_sublist.eq_of_length hlen
      have hgone : (live s.windows time').get? key = none := hnone
      rw [hall, hw] at hgone
      cases hgone

theorem count_allowed {key : κ} (h : ∀ w, counters.get? key = some w → w.endsAt ≤ time) (rule : RateLimitRule) :
    (count counters key rule time).1 = ⟨true, 0⟩ := by
  obtain ⟨-, he⟩ | ⟨w, hw, hlive, -⟩ := count_cases counters key rule time
  · rw [he]
  · exact absurd (h w hw) (not_le.mpr hlive)

theorem Cooled.consume_allowed (h : Cooled maxKeys s key rule time) (hkept : Kept maxKeys s) (htime : time ≤ time')
    (later : Time) : (consume maxKeys s time' later key rule).1 = ⟨true, 0⟩ := by
  obtain ⟨he, -⟩ | ⟨hhas, hfull, ⟨-, he⟩ | ⟨-, he⟩⟩ := consume_cases maxKeys s time' later key rule
  · rw [he]
    exact count_allowed (fun w hw => (h.own w hw).trans htime) rule
  · rw [he]
    refine count_allowed (fun w hw => ?_) rule
    have hgone := (get?_of_get?_live hkept.windows hw).1
    rw [has_eq_false_iff.mp hhas] at hgone
    cases hgone
  · rw [he]
    refine count_allowed (fun w hw => ?_) rule
    have hshared := (h.shared (has_eq_false_iff.mp hhas)).resolve_left (not_lt.mpr hfull)
    exact (hshared w (get?_of_get?_live hkept.overflow hw).1).trans htime

theorem count_refused {key : κ} {rule : RateLimitRule} (h : (count counters key rule time).1.allowed = false) :
    ∃ w, counters.get? key = some w ∧ w.endsAt = time + (count counters key rule time).1.retryAfterMs ∧
      (count counters key rule time).2 = counters := by
  obtain ⟨-, he⟩ | ⟨w, hw, hlive, ⟨-, he⟩ | ⟨-, he⟩⟩ := count_cases counters key rule time
  · rw [he] at h
    cases h
  · rw [he]
    exact ⟨w, hw, (Nat.add_sub_of_le hlive.le).symm, rfl⟩
  · rw [he] at h
    cases h

theorem cooled_of_refused (time later : Nat) (key : κ) (rule : RateLimitRule) (hkept : Kept maxKeys s)
    (h : (consume maxKeys s time later key rule).1.allowed = false) :
    Cooled maxKeys (consume maxKeys s time later key rule).2 key rule
      (time + (consume maxKeys s time later key rule).1.retryAfterMs) := by
  obtain ⟨he, -⟩ | ⟨hhas, -, ⟨-, he⟩ | ⟨-, he⟩⟩ := consume_cases maxKeys s time later key rule
  · rw [he] at h ⊢
    obtain ⟨w, hw, hend, hsame⟩ := count_refused h
    have hget : (countWindow s key rule time).2.windows.get? key = some w := (congrArg (·.get? key) hsame).trans hw
    refine ⟨fun v hv => ?_, fun hnone => ?_⟩
    · obtain rfl := Option.some.inj (hget.symm.trans hv)
      exact hend.le
    · rw [hget] at hnone
      cases hnone
  · rw [he] at h
    obtain ⟨w, hw, -⟩ := count_refused h
    have hgone := (get?_of_get?_live hkept.windows hw).1
    rw [has_eq_false_iff.mp hhas] at hgone
    cases hgone
  · rw [he] at h ⊢
    obtain ⟨w, hw, hend, hsame⟩ := count_refused h
    have hget : (countOverflow (sweep s later) rule time).2.overflow.get? rule.key = some w :=
      (congrArg (·.get? rule.key) hsame).trans hw
    refine ⟨fun v hv => ?_, fun _ => .inr fun v hv => ?_⟩
    · have hgone := (get?_of_get?_live hkept.windows hv).1
      rw [has_eq_false_iff.mp hhas] at hgone
      cases hgone
    · obtain rfl := Option.some.inj (hget.symm.trans hv)
      exact hend.le

theorem Cooled.run {s t : State κ} (h : (machine maxKeys).Run s hist t) (hsweeps : ∀ x ∈ hist, x.1.isCheck = false)
    (hkept : Kept maxKeys s.limiter) (hcooled : Cooled maxKeys s.limiter key rule time) :
    Kept maxKeys t.limiter ∧ Cooled maxKeys t.limiter key rule time := by
  induction h with
  | nil => exact ⟨hkept, hcooled⟩
  | @cons s a hist t he hrun ih =>
    obtain ⟨ha, hhist⟩ := List.forall_mem_cons.mp hsweeps
    cases a with
    | check time' later' key' rule' => cases ha
    | sweeps time' => exact ih hhist (hkept.sweep time') (hcooled.sweep hkept time')

end Catalyst.RateLimiter
