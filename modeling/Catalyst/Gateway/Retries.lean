import Catalyst.Gateway.Resend
import Mathlib.Tactic.Positivity
import Mathlib.Tactic.Ring

/-!
# A call is sent a bounded number of times

The policy of a call counts its transient failures and keeps what is left of the minute for
its waits on rate limits. Each wait it grants takes from one of the two, and an attempt is
sent only at the start and after a wait, so whatever the provider answers the attempts end.
-/

namespace Catalyst.Gateway

open Catalyst.Library

-- -----------------
-- The waits of a policy
-- -----------------

structure Failure where
  error : Thrown
  retrySafe : Bool
  aborted : Bool
  now : Nat
  random : Nat
  deriving DecidableEq

structure Wait where
  failure : Failure
  waitMs : Nat
  deriving DecidableEq

/-- The waits for one failure after another, up to the one the call fails with. -/
def waitsOf (deadline : Option Nat) : ModelRetryPolicy → List Failure → List Wait
  | _, [] => []
  | policy, f :: fs =>
    match waitBeforeRetryMs policy deadline f.aborted f.error f.retrySafe f.now f.random with
    | .error _ => []
    | .ok (waitMs, policy) => ⟨f, waitMs⟩ :: waitsOf deadline policy fs

inductive Granted (deadline : Option Nat) : ModelRetryPolicy → List Wait → Prop
  | none : Granted deadline {} []
  | wait {f : Failure} : Granted deadline policy ws →
      waitBeforeRetryMs policy deadline f.aborted f.error f.retrySafe f.now f.random = .ok (waitMs, policy') →
      Granted deadline policy' (ws ++ [⟨f, waitMs⟩])

def Thrown.isRateLimit : Thrown → Bool
  | .provider e => e.kind = .rateLimit
  | _ => false

def Thrown.retryAfterMs : Thrown → Option Nat
  | .provider e => e.retryAfterMs
  | _ => none

def onRateLimits (ws : List Wait) : List Wait := ws.filter (·.failure.error.isRateLimit)

def onTransients (ws : List Wait) : List Wait := ws.filter (! ·.failure.error.isRateLimit)

structure Bounded (deadline : Option Nat) (ws : List Wait) : Prop where
  transients : (onTransients ws).length ≤ 2
  rateLimits : (onRateLimits ws).length ≤ 5
  total : ((onRateLimits ws).map Wait.waitMs).sum ≤ modelProviderRateLimitWaitTotalMs
  /-- Never sooner than the provider asks. -/
  asked : ∀ w ∈ onRateLimits ws, ∀ ms ∈ w.failure.error.retryAfterMs, ms ≤ w.waitMs
  inTime : ∀ w ∈ ws, ∀ d ∈ deadline, w.failure.now + w.waitMs < d

variable {deadline : Option Nat} {policy policy' : ModelRetryPolicy} {ws : List Wait}

theorem le_rateLimitWaitMs (n random : Nat) : 3200 * 2 ^ n ≤ rateLimitWaitMs (n + 1) random := by
  simp only [rateLimitWaitMs, withRetryJitter, modelProviderRateLimitFirstWaitMs, Nat.add_sub_cancel]
  rw [Nat.le_div_iff_mul_le (by positivity)]
  calc 3200 * 2 ^ n * (10 * 2 ^ 53) = 4000 * 2 ^ n * (8 * 2 ^ 53) := by ring
    _ ≤ 4000 * 2 ^ n * (8 * 2 ^ 53 + 4 * random) := Nat.mul_le_mul_left _ (Nat.le_add_right _ _)
    _ ≤ _ := Nat.le_add_right _ _

theorem rateLimitWait_cases {retryAfterMs : Option Nat}
    (h : policy.rateLimitWait retryAfterMs random = some (waitMs, policy')) :
    0 < waitMs ∧ waitMs ≤ policy.rateLimitWaitLeftMs ∧ (∀ ms ∈ retryAfterMs, ms ≤ waitMs) ∧
      (waitMs = policy.rateLimitWaitLeftMs ∨ 3200 * 2 ^ policy.rateLimitFailures ≤ waitMs) ∧
      policy' = { policy with
        rateLimitFailures := policy.rateLimitFailures + 1
        rateLimitWaitLeftMs := policy.rateLimitWaitLeftMs - waitMs } := by
  have hback := le_rateLimitWaitMs policy.rateLimitFailures random
  simp only [ModelRetryPolicy.rateLimitWait] at h
  split at h
  · cases h
  · rename_i hgiven
    simp only [Bool.or_eq_true, decide_eq_true_eq, not_or, not_lt] at hgiven
    obtain ⟨hpos, hleft⟩ := hgiven
    obtain ⟨rfl, rfl⟩ := Prod.mk.inj (Option.some.inj h)
    refine ⟨Nat.pos_of_ne_zero hpos, min_le_right _ _, ?_, ?_, rfl⟩
    · rintro ms rfl
      exact le_min (le_max_left _ _) hleft
    · omega

theorem transientWait_cases {retryAfterMs : Option Nat}
    (h : policy.transientWait retryAfterMs random = some (waitMs, policy')) :
    policy.transientFailures < 2 ∧ policy' = { policy with transientFailures := policy.transientFailures + 1 } := by
  simp only [ModelRetryPolicy.transientWait] at h
  split at h
  · cases h
  · rename_i hgiven
    simp only [Bool.or_eq_true, decide_eq_true_eq, not_or, not_lt] at hgiven
    obtain ⟨rfl, rfl⟩ := Prod.mk.inj (Option.some.inj h)
    exact ⟨hgiven.1, rfl⟩

/-- A granted wait is on a rate limit or on a transient failure, and ends before the deadline. -/
theorem waitBeforeRetryMs_cases {error : Thrown}
    (h : waitBeforeRetryMs policy deadline aborted error retrySafe now random = .ok (waitMs, policy')) :
    (∀ d ∈ deadline, now + waitMs < d) ∧
      (error.isRateLimit = true ∧ policy.rateLimitWait error.retryAfterMs random = some (waitMs, policy') ∨
        error.isRateLimit = false ∧ policy.transientWait error.retryAfterMs random = some (waitMs, policy')) := by
  cases error with
  | provider e =>
    simp only [waitBeforeRetryMs] at h
    split at h
    · cases h
    · split at h
      · cases h
      · rename_i granted hgranted
        split at h
        · cases h
        · rename_i hdeadline
          obtain ⟨rfl, rfl⟩ := Prod.mk.inj (Except.ok.inj h)
          refine ⟨?_, ?_⟩
          · rintro d rfl
            simpa using hdeadline
          · by_cases hkind : e.kind = .rateLimit
            · exact .inl ⟨by simp [Thrown.isRateLimit, hkind], by simpa [hkind, Thrown.retryAfterMs] using hgranted⟩
            · exact .inr ⟨by simp [Thrown.isRateLimit, hkind], by simpa [hkind, Thrown.retryAfterMs] using hgranted⟩
  | _ => cases h

/-- What a policy knows of the waits it has granted. -/
structure Spent (deadline : Option Nat) (policy : ModelRetryPolicy) (ws : List Wait) : Prop where
  transients : (onTransients ws).length = policy.transientFailures
  atMostTwo : policy.transientFailures ≤ 2
  rateLimits : (onRateLimits ws).length = policy.rateLimitFailures
  total : ((onRateLimits ws).map Wait.waitMs).sum + policy.rateLimitWaitLeftMs = modelProviderRateLimitWaitTotalMs
  /-- Nothing is left, or the waits have doubled each time. -/
  doubled : policy.rateLimitWaitLeftMs = 0 ∧ policy.rateLimitFailures ≤ 5 ∨
    policy.rateLimitWaitLeftMs + 3200 * 2 ^ policy.rateLimitFailures ≤ modelProviderRateLimitWaitTotalMs + 3200
  asked : ∀ w ∈ onRateLimits ws, ∀ ms ∈ w.failure.error.retryAfterMs, ms ≤ w.waitMs
  inTime : ∀ w ∈ ws, ∀ d ∈ deadline, w.failure.now + w.waitMs < d

theorem onRateLimits_concat {w : Wait} : onRateLimits (ws ++ [w]) =
    if w.failure.error.isRateLimit then onRateLimits ws ++ [w] else onRateLimits ws := by
  cases h : w.failure.error.isRateLimit <;> simp [onRateLimits, h]

theorem onTransients_concat {w : Wait} : onTransients (ws ++ [w]) =
    if w.failure.error.isRateLimit then onTransients ws else onTransients ws ++ [w] := by
  cases h : w.failure.error.isRateLimit <;> simp [onTransients, h]

theorem lt_five_of_doubled {n left : Nat} (h : left + 3200 * 2 ^ n ≤ 63200) : n < 5 := by
  by_contra hn
  have : 2 ^ 5 ≤ 2 ^ n := Nat.pow_le_pow_right (by decide) (not_lt.mp hn)
  omega

theorem Spent.wait {f : Failure} (hs : Spent deadline policy ws)
    (h : waitBeforeRetryMs policy deadline f.aborted f.error f.retrySafe f.now f.random = .ok (waitMs, policy')) :
    Spent deadline policy' (ws ++ [⟨f, waitMs⟩]) := by
  obtain ⟨hdeadline, hkind⟩ := waitBeforeRetryMs_cases h
  have hinTime : ∀ w ∈ ws ++ [⟨f, waitMs⟩], ∀ d ∈ deadline, w.failure.now + w.waitMs < d := by
    intro w hw
    obtain hw | rfl := by simpa using hw
    · exact hs.inTime w hw
    · exact hdeadline
  obtain ⟨hlimit, hgranted⟩ | ⟨hlimit, hgranted⟩ := hkind
  · obtain ⟨hpos, hleft, hasked, hsize, rfl⟩ := rateLimitWait_cases hgranted
    have hrate : onRateLimits (ws ++ [⟨f, waitMs⟩]) = onRateLimits ws ++ [⟨f, waitMs⟩] := by
      simp [onRateLimits_concat, hlimit]
    have htransient : onTransients (ws ++ [⟨f, waitMs⟩]) = onTransients ws := by
      simp [onTransients_concat, hlimit]
    have htotal := hs.total
    refine ⟨by rw [htransient]; exact hs.transients, hs.atMostTwo, ?_, ?_, ?_, ?_, hinTime⟩
    · simp [hrate, hs.rateLimits]
    · simp only [hrate, List.map_append, List.sum_append, List.map_cons, List.map_nil, List.sum_singleton]
      omega
    · -- the wait takes all that is left, or as much as its place in the doubling
      simp only
      obtain ⟨hzero, _⟩ | hdoubled := hs.doubled
      · omega
      · have hfew := lt_five_of_doubled hdoubled
        obtain rfl | hback := hsize
        · exact .inl ⟨Nat.sub_self _, hfew⟩
        · right
          rw [pow_succ]
          omega
    · rw [hrate]
      intro w hw
      obtain hw | rfl := by simpa using hw
      · exact hs.asked w hw
      · exact hasked
  · obtain ⟨hfew, rfl⟩ := transientWait_cases hgranted
    have hrate : onRateLimits (ws ++ [⟨f, waitMs⟩]) = onRateLimits ws := by
      simp [onRateLimits_concat, hlimit]
    have htransient : onTransients (ws ++ [⟨f, waitMs⟩]) = onTransients ws ++ [⟨f, waitMs⟩] := by
      simp [onTransients_concat, hlimit]
    refine ⟨?_, hfew, by rw [hrate]; exact hs.rateLimits, by rw [hrate]; exact hs.total, hs.doubled,
      by rw [hrate]; exact hs.asked, hinTime⟩
    simp [htransient, hs.transients]

theorem Granted.spent (h : Granted deadline policy ws) : Spent deadline policy ws := by
  induction h with
  | none => exact ⟨rfl, Nat.zero_le _, rfl, rfl, .inr (by decide), by simp [onRateLimits], by simp⟩
  | wait _ h ih => exact ih.wait h

theorem Spent.bounded (hs : Spent deadline policy ws) : Bounded deadline ws where
  transients := hs.transients.trans_le hs.atMostTwo
  rateLimits := by
    rw [hs.rateLimits]
    obtain ⟨_, hfew⟩ | hdoubled := hs.doubled
    · exact hfew
    · exact (lt_five_of_doubled hdoubled).le
  total := hs.total ▸ Nat.le_add_right _ _
  asked := hs.asked
  inTime := hs.inTime

theorem waitsOf_granted (h : Granted deadline policy ws) (fs : List Failure) :
    ∃ policy', Granted deadline policy' (ws ++ waitsOf deadline policy fs) := by
  induction fs generalizing policy ws with
  | nil => exact ⟨policy, by simpa [waitsOf] using h⟩
  | cons f fs ih =>
    rw [waitsOf]
    split
    · exact ⟨policy, by simpa using h⟩
    · rename_i waitMs policy' hw
      rw [List.append_cons]
      exact ih (h.wait hw)

theorem waitsOf_bounded (deadline : Option Nat) (fs : List Failure) : Bounded deadline (waitsOf deadline {} fs) := by
  have hnone : Granted deadline {} [] := .none
  obtain ⟨_, h⟩ := waitsOf_granted hnone fs
  exact h.spent.bounded

theorem Bounded.length_le (h : Bounded deadline ws) : ws.length ≤ 7 := by
  have hlength : ws.length = (onRateLimits ws).length + (onTransients ws).length := by
    rw [onRateLimits, onTransients]
    exact List.length_eq_length_filter_add _
  have := h.transients
  have := h.rateLimits
  omega

def sends (effects : List Effect) : Nat := effects.count .send

def Phase.begun : Phase → Nat
  | .opened | .admitting _ | .cancelling .. | .waiting _ => 0
  | .calling _ | .handing _ | .answered | .settling _ | .done _ => 1

inductive Moved (call : ModelCall) (s : CallState) (effects : List Effect) (s' : CallState) : Prop
  | stays (quiet : sends effects = 0) (policy : s'.policy = s.policy) (begun : s.phase.begun ≤ s'.phase.begun)
  | begins (sent : sends effects = 1) (policy : s'.policy = s.policy) (before : s.phase.begun = 0)
      (after : s'.phase.begun = 1)
  | waits (quiet : sends effects = 0) (before : s.phase.begun = 1)
      (granted : ∃ (f : Failure) (waitMs : Nat),
        waitBeforeRetryMs s.policy call.deadline f.aborted f.error f.retrySafe f.now f.random = .ok (waitMs, s'.policy))

section step

variable {options : ModelGatewayOptions} {call : ModelCall} {streaming : Bool} {s s' : CallState}

theorem Phase.begun_le (p : Phase) : p.begun ≤ 1 := by
  cases p <;> simp [Phase.begun]

theorem moved_finish (hpolicy : s'.policy = s.policy) : Moved call s (s'.finish how).1 (s'.finish how).2 :=
  .stays rfl hpolicy s.phase.begun_le

theorem moved_start (hp : s.phase.begun = 0) : Moved call s (s.start call now).1 (s.start call now).2 := by
  unfold CallState.start
  split
  · exact moved_finish rfl
  · exact .begins rfl rfl hp rfl

theorem sends_cancel (s : CallState) (failure : Thrown) (ids : List String) : sends (s.cancel failure ids).1 = 0 := by
  cases ids <;> rfl

theorem policy_cancel (s : CallState) (failure : Thrown) (ids : List String) :
    (s.cancel failure ids).2.policy = s.policy := by
  cases ids <;> rfl

theorem moved_caught (hpolicy : s'.policy = s.policy) (hp : s.phase.begun = 1) :
    Moved call s (s'.caught call attempt thrown m).1 (s'.caught call attempt thrown m).2 := by
  unfold CallState.caught
  split
  · exact moved_finish hpolicy
  · split
    · exact moved_finish hpolicy
    · simp only
      split
      · exact moved_finish hpolicy
      · rename_i waitMs policy hw
        refine .waits (sends_cancel _ _ _) hp
          ⟨⟨normalizeModelAdapterError thrown, attempt.retrySafe, s'.aborted, m.now, m.random⟩, waitMs, ?_⟩
        rw [policy_cancel, ← hpolicy]
        exact hw

theorem moved_read (hp : s.phase = .calling attempt) :
    Moved call s (s.read options call attempt event m).1 (s.read options call attempt event m).2 := by
  have hone : s.phase.begun = 1 := by rw [hp]; rfl
  cases event with
  | usageReported usage => exact .stays rfl rfl le_rfl
  | toolCallInputDelta delta => exact .stays rfl rfl hone.le
  | answer e =>
    cases e with
    | completed completion =>
      simp only [CallState.read]
      split
      · exact moved_caught rfl hone
      · exact .stays rfl rfl hone.le
    | _ => exact .stays rfl rfl hone.le

theorem moved_open (hp : s.phase = .opened) :
    Moved call s (s.open options call streaming now).1 (s.open options call streaming now).2 := by
  have hzero : s.phase.begun ≤ 0 := by rw [hp]; exact le_rfl
  unfold CallState.open
  split
  · exact .stays rfl rfl (hzero.trans (Nat.zero_le _))
  · split
    · exact .stays rfl rfl (hzero.trans (Nat.zero_le _))
    · split
      · exact .stays rfl rfl (hzero.trans (Nat.zero_le _))
      · exact .stays rfl rfl (hzero.trans (Nat.zero_le _))

theorem moved_ends (hp : s.phase = .calling attempt) :
    Moved call s (callStep options call streaming s (.ends m)).1 (callStep options call streaming s (.ends m)).2 := by
  simp only [callStep, hp]
  split
  · exact moved_caught rfl (by rw [hp]; rfl)
  · exact moved_finish rfl

theorem moved_answers (hp : s.phase = .calling attempt) :
    Moved call s (callStep options call streaming s (.answers completion m)).1
      (callStep options call streaming s (.answers completion m)).2 := by
  simp only [callStep, hp]
  split
  · exact moved_caught rfl (by rw [hp]; rfl)
  · exact .stays rfl rfl (by rw [hp]; exact le_rfl)

theorem moved_takes (he : callEnabled call streaming s .takes) :
    Moved call s (callStep options call streaming s .takes).1 (callStep options call streaming s .takes).2 := by
  cases hp : s.phase with
  | handing attempt =>
    simp only [callStep, hp]
    exact .stays rfl rfl (by rw [hp]; exact le_rfl)
  | answered =>
    simp only [callStep, hp]
    exact moved_finish rfl
  | cancelling left failure =>
    simp only [callStep, hp]
    exact .stays (sends_cancel _ _ _) (policy_cancel _ _ _) (by rw [hp]; exact Nat.zero_le _)
  | _ => simp [callEnabled, hp] at he

theorem moved_leaves (he : callEnabled call streaming s .leaves) :
    Moved call s (callStep options call streaming s .leaves).1 (callStep options call streaming s .leaves).2 := by
  cases hp : s.phase with
  | opened =>
    simp only [callStep, hp]
    exact .stays rfl rfl s.phase.begun_le
  | handing attempt =>
    simp only [callStep, hp]
    exact moved_finish rfl
  | answered =>
    simp only [callStep, hp]
    exact moved_finish rfl
  | cancelling left failure =>
    simp only [callStep, hp]
    exact moved_finish rfl
  | _ => simp [callEnabled, hp] at he

theorem moved_step (he : callEnabled call streaming s a) :
    Moved call s (callStep options call streaming s a).1 (callStep options call streaming s a).2 := by
  cases a with
  | stops => exact .stays rfl rfl le_rfl
  | deadlinePasses => exact .stays rfl rfl le_rfl
  | takes => exact moved_takes he
  | leaves => exact moved_leaves he
  | opens now =>
    cases hp : s.phase with
    | opened => simpa only [callStep, hp] using moved_open hp
    | _ => simp [callEnabled, hp] at he
  | refused error =>
    cases hp : s.phase with
    | admitting admission =>
      simp only [callStep, hp]
      exact .stays rfl rfl s.phase.begun_le
    | _ => simp [callEnabled, hp] at he
  | admitted now =>
    cases hp : s.phase with
    | admitting admission =>
      have hmoved : Moved call s (s.start call now).1 (s.start call now).2 := moved_start (by rw [hp]; rfl)
      simp only [callStep, hp]
      cases hmoved with
      | stays quiet policy begun => exact .stays (by simpa [sends] using quiet) policy begun
      | begins sent policy before after => exact .begins (by simpa [sends] using sent) policy before after
      | waits quiet before granted => simp [hp, Phase.begun] at before
    | _ => simp [callEnabled, hp] at he
  | gives event m =>
    cases hp : s.phase with
    | calling attempt => simpa only [callStep, hp] using moved_read hp
    | _ => simp [callEnabled, hp] at he
  | ends m =>
    cases hp : s.phase with
    | calling attempt => exact moved_ends hp
    | _ => simp [callEnabled, hp] at he
  | answers completion m =>
    cases hp : s.phase with
    | calling attempt => exact moved_answers hp
    | _ => simp [callEnabled, hp] at he
  | fails error m =>
    cases hp : s.phase with
    | calling attempt =>
      simp only [callStep, hp]
      exact moved_caught rfl (by rw [hp]; rfl)
    | _ => simp [callEnabled, hp] at he
  | wakes now =>
    cases hp : s.phase with
    | waiting failure =>
      simp only [callStep, hp]
      exact moved_start (by rw [hp]; rfl)
    | _ => simp [callEnabled, hp] at he
  | interrupted =>
    cases hp : s.phase with
    | waiting failure =>
      simp only [callStep, hp]
      exact moved_finish rfl
    | _ => simp [callEnabled, hp] at he
  | settled recorded =>
    cases hp : s.phase with
    | settling how =>
      simp only [callStep, hp]
      exact .stays rfl rfl s.phase.begun_le
    | _ => simp [callEnabled, hp] at he

def Counted (call : ModelCall) (E : List Effect) (s : CallState) : Prop :=
  ∃ ws, Granted call.deadline s.policy ws ∧ sends E ≤ ws.length + s.phase.begun

theorem Counted.step (hc : Counted call E s) (he : callEnabled call streaming s a) :
    Counted call (E ++ (callStep options call streaming s a).1) (callStep options call streaming s a).2 := by
  obtain ⟨ws, hg, hsends⟩ := hc
  have happend : ∀ effects, sends (E ++ effects) = sends E + sends effects := fun _ => List.count_append
  have hmoved : Moved call s (callStep options call streaming s a).1 (callStep options call streaming s a).2 :=
    moved_step he
  cases hmoved with
  | stays quiet policy begun =>
    exact ⟨ws, by rw [policy]; exact hg, by rw [happend]; omega⟩
  | begins sent policy before after =>
    exact ⟨ws, by rw [policy]; exact hg, by rw [happend]; omega⟩
  | waits quiet before granted =>
    obtain ⟨_, _, granted⟩ := granted
    refine ⟨_, hg.wait granted, ?_⟩
    rw [happend, List.length_append, List.length_singleton]
    omega

end step

/-- Whatever fails and whenever, the waits of a policy are bounded, and a call sends its request
once and then once after each of its waits. -/
theorem retries_ok (options : ModelGatewayOptions) (call : ModelCall) (streaming : Bool) :
    (∀ deadline failures, Bounded deadline (waitsOf deadline {} failures)) ∧
      ∀ h s, (callMachine options call streaming).Run {} h s →
        ∃ ws, Granted call.deadline s.policy ws ∧ Bounded call.deadline ws ∧
          sends (h.flatMap Prod.snd) ≤ ws.length + 1 ∧ ws.length ≤ 7 := by
  refine ⟨waitsOf_bounded, fun h s hr => ?_⟩
  have hstep : ∀ h s a, Counted call (h.flatMap Prod.snd) s → (callMachine options call streaming).enabled s a →
      Counted call ((h ++ [(a, (callMachine options call streaming).answer s a)]).flatMap Prod.snd)
        ((callMachine options call streaming).next s a) := by
    intro h s a hc he
    rw [List.flatMap_append, List.flatMap_singleton]
    exact hc.step he
  have hinit : Counted call (([] : List (CallMove × List Effect)).flatMap Prod.snd) {} := ⟨[], .none, le_rfl⟩
  obtain ⟨ws, hg, hsends⟩ := hr.history hstep hinit
  have hbounded := hg.spent.bounded
  exact ⟨ws, hg, hbounded, by simpa using hsends.trans (Nat.add_le_add_left s.phase.begun_le _), hbounded.length_le⟩

theorem retries_ok_resent :
    ∃ ws, Granted Example.question.deadline
        ((callMachine Example.vertex Example.question true).after {} Example.resent).policy ws ∧
      Bounded Example.question.deadline ws ∧
      sends (((callMachine Example.vertex Example.question true).history {} Example.resent).flatMap Prod.snd) ≤
        ws.length + 1 ∧ ws.length ≤ 7 := by
  have hrun : (callMachine Example.vertex Example.question true).Allows {} Example.resent := by
    decide
  have hruns := (retries_ok Example.vertex Example.question true).2
  exact hruns _ _ hrun.run

end Catalyst.Gateway
