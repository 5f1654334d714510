import Catalyst.Usage.Model
import Mathlib.Data.Nat.Find
import Mathlib.Order.Monotone.Basic
import Mathlib.Order.WellFounded

/-!
# Counters against their ledger

Every transaction moves what the ledger holds on a counter and the counter by the same
amount, or starts the counter at what the ledger holds. Admission compares a counter with
its limits, so it compares the ledger with them.
-/

namespace Catalyst.Usage

open Library

theorem monthLength_pos : 0 < monthLength n := by
  unfold monthLength
  split
  · split <;> simp
  all_goals simp

theorem monthStart_strictMono : StrictMono monthStart :=
  strictMono_nat_of_lt_succ fun _ => Nat.lt_add_of_pos_right monthLength_pos

theorem monthAt_spec (day : Nat) : monthStart (monthAt day) ≤ day ∧ day < monthStart (monthAt day + 1) := by
  constructor
  · exact Nat.findGreatest_spec (m := 0) (P := fun n => monthStart n ≤ day) (Nat.zero_le _) (Nat.zero_le _)
  · by_contra h
    have hle : monthStart (monthAt day + 1) ≤ day := Nat.not_lt.mp h
    have hk : monthAt day + 1 ≤ day := Nat.le_trans (monthStart_strictMono.le_apply) hle
    exact Nat.findGreatest_is_greatest (Nat.lt_succ_self _) hk hle

theorem monthAt_eq_iff : monthAt day = n ↔ monthStart n ≤ day ∧ day < monthStart (n + 1) := by
  constructor
  · rintro rfl
    exact monthAt_spec day
  · rintro ⟨hn, hday⟩
    obtain ⟨hm, hlt⟩ := monthAt_spec day
    have h₁ := monthStart_strictMono.lt_iff_lt.mp (Nat.lt_of_le_of_lt hn hlt)
    have h₂ := monthStart_strictMono.lt_iff_lt.mp (Nat.lt_of_le_of_lt hm hday)
    omega

@[simp] theorem monthAt_monthStart : monthAt (monthStart n) = n :=
  monthAt_eq_iff.mpr ⟨Nat.le_refl _, monthStart_strictMono (Nat.lt_succ_self n)⟩

theorem msPerDay_pos : 0 < msPerDay := by decide

theorem startOf_eq_iff {kind : PeriodKind} {t u : Time} : kind.startOf t = kind.startOf u ↔
    kind.startOf u * msPerDay ≤ t ∧ t < kind.next (kind.startOf u) * msPerDay := by
  rw [← Nat.le_div_iff_mul_le msPerDay_pos, ← Nat.div_lt_iff_lt_mul msPerDay_pos]
  cases kind with
  | day =>
    simp only [PeriodKind.startOf, PeriodKind.next]
    omega
  | month =>
    simp only [PeriodKind.startOf, PeriodKind.next, monthAt_monthStart]
    rw [monthStart_strictMono.injective.eq_iff, monthAt_eq_iff]

def Event.countsOn (key : CounterKey) (e : Event) : Prop := counterAt e.clientInstanceId e.createdAt key.kind = key

instance (key : CounterKey) : DecidablePred (Event.countsOn key) := fun _ => inferInstanceAs (Decidable (_ = _))

def heldBy (key : CounterKey) (events : List Event) : Amounts := total (Event.countsOn key) Event.held events

theorem eventsBetween_period (clientInstanceId : ClientInstanceId) (t : Time) (kind : PeriodKind) :
    eventsBetween clientInstanceId (kind.startOf t) (kind.next (kind.startOf t)) events
      = heldBy (counterAt clientInstanceId t kind) events := by
  refine total_congr fun e _ => ?_
  simp only [Event.countsOn, counterAt, CounterKey.mk.injEq, true_and, startOf_eq_iff]

theorem addToCounter_apply {counters : CounterKey → Option Amounts} :
    addToCounter a k counters key = (counters key).map (· + if k = key then a else 0) := by
  unfold addToCounter
  by_cases h : k = key
  · subst h
    simp
  · simp [h, Function.update_of_ne (Ne.symm h)]

theorem addToCounters_apply {counters : CounterKey → Option Amounts} :
    addToCounter a (counterAt i t .day) (addToCounter a (counterAt i t .month) counters) key
      = (counters key).map (· + if counterAt i t key.kind = key then a else 0) := by
  rw [addToCounter_apply, addToCounter_apply, Option.map_map]
  cases hk : key.kind with
  | day =>
    have hne : counterAt i t .month ≠ key := fun h => by simp [← h, counterAt] at hk
    simp [hne, Function.comp_def]
  | month =>
    have hne : counterAt i t .day ≠ key := fun h => by simp [← h, counterAt] at hk
    simp [hne, Function.comp_def]

structure CountersOk (s : Ledger) : Prop where
  ids : (s.events.map Event.id).Nodup
  rows : ∀ key row, s.counters key = some row → row = heldBy key s.events

structure Moves (change : CounterKey → Amounts) (s s' : Ledger) : Prop where
  ids : (s'.events.map Event.id).Nodup
  events : ∀ key, heldBy key s'.events = heldBy key s.events + change key
  counters : ∀ key, s'.counters key = (s.counters key).map (· + change key) ∨
    s'.counters key = some (heldBy key s'.events)
  calls : ∀ key, 0 ≤ change key .modelCallCount

theorem Moves.ok (h : Moves change s s') (hs : CountersOk s) : CountersOk s' := by
  refine ⟨h.ids, fun key row hrow => ?_⟩
  rcases h.counters key with hc | hc
  · rw [hc, Option.map_eq_some_iff] at hrow
    obtain ⟨old, hold, rfl⟩ := hrow
    rw [hs.rows key old hold, h.events]
  · rw [hc] at hrow
    exact (Option.some.inj hrow).symm

theorem CountersOk.stays (hs : CountersOk s) : Moves (fun _ => 0) s s :=
  ⟨hs.ids, fun _ => (add_zero _).symm, fun _ => .inl (by simp), fun _ => Int.le_refl _⟩

/-- Of an admission: the two counters it found, the event it wrote, and how far the counters went. -/
structure Accepted (s s' : Ledger) (now : Time) (event : RecordInput) (counted : Counted) (limits : Limits) : Prop where
  within : ∀ kind, ∃ held, s.counters (counterAt event.clientInstanceId now kind) = some held ∧
    Usage.within (limits kind) counted.added held
  moves : Moves (fun key => if counterAt event.clientInstanceId now key.kind = key then counted.added else 0) s s'

theorem insertEvent_held {id : String} : (insertEvent id event status counted now).held = counted.added := rfl

theorem not_admitted (h : row.admitted = false) (row' : AdmissionRow) (he : InsertAnswer.answered row = .answered row') :
    row'.admitted = false :=
  InsertAnswer.answered.inj he ▸ h

theorem countAndInsert_cases (hs : CountersOk s) (now : Time) (id : String) (event : RecordInput) (status : EventStatus)
    (counted : Counted) (limits : Limits) :
    (∃ row, (countAndInsert s now id event status counted limits).1 = .answered row ∧ row.admitted ∧
      Accepted s (countAndInsert s now id event status counted limits).2 now event counted limits) ∨
    ((∀ row, (countAndInsert s now id event status counted limits).1 = .answered row → row.admitted = false) ∧
      (countAndInsert s now id event status counted limits).2 = s) := by
  unfold countAndInsert
  cases hd : s.counters (counterAt event.clientInstanceId now .day) with
  | none =>
    simp only [hd]
    exact .inr ⟨not_admitted rfl, trivial⟩
  | some d =>
    cases hm : s.counters (counterAt event.clientInstanceId now .month) with
    | none =>
      simp only [hd, hm]
      exact .inr ⟨not_admitted rfl, trivial⟩
    | some m =>
      by_cases hwithin : within (limits .day) counted.added d ∧ within (limits .month) counted.added m
      · by_cases htaken : ∃ e ∈ s.events, e.id = id
        · simp only [hd, hm, if_pos hwithin, if_pos htaken]
          exact .inr ⟨nofun, trivial⟩
        · simp only [hd, hm, if_pos hwithin, if_neg htaken]
          refine .inl ⟨_, rfl, rfl, ?_, ?_, ?_, ?_, ?_⟩
          · rintro (_ | _)
            · exact ⟨d, hd, hwithin.1⟩
            · exact ⟨m, hm, hwithin.2⟩
          · refine List.nodup_cons.mpr ⟨fun h => ?_, hs.ids⟩
            obtain ⟨e, he, hid⟩ := List.mem_map.mp h
            exact htaken ⟨e, he, hid⟩
          · intro key
            simp only [heldBy, total_cons, insertEvent_held]
            exact add_comm _ _
          · exact fun key => .inl addToCounters_apply
          · intro key
            split <;> simp [Counted.added, amounts]
      · simp only [hd, hm, if_neg hwithin]
        exact .inr ⟨not_admitted rfl, trivial⟩

theorem countAndInsert_moves {id : String} (hs : CountersOk s) :
    ∃ change, Moves change s (countAndInsert s now id event status counted limits).2 := by
  rcases countAndInsert_cases hs now id event status counted limits with ⟨_, _, _, h⟩ | ⟨_, h⟩
  · exact ⟨_, h.moves⟩
  · rw [h]
    exact ⟨_, hs.stays⟩

theorem settle_moves (hs : CountersOk s) : ∃ change, Moves change s (settleModelUsageEvent s input).2 := by
  unfold settleModelUsageEvent
  cases hf : s.events.find? (fun e => input.matches e) with
  | none => exact ⟨_, hs.stays⟩
  | some old =>
    have hmem := List.mem_of_find?_eq_some hf
    obtain ⟨hinstance, hid, hfrom⟩ : input.matches old := by simpa using List.find?_some hf
    have hone : ∀ r ∈ s.events, input.matches r ↔ r = old := by
      intro r hr
      constructor
      · rintro ⟨_, hrid, _⟩
        exact eq_of_key hs.ids hr hmem (hrid.trans hid.symm)
      · rintro rfl
        exact ⟨hinstance, hid, hfrom⟩
    have hids : (updateWhere input.matches input.settled s.events).map Event.id = s.events.map Event.id :=
      map_updateWhere Event.id fun _ _ => rfl
    refine ⟨_, hids ▸ hs.ids, ?_, fun key => .inl addToCounters_apply, ?_⟩
    · intro key
      rw [heldBy, total_updateWhere hs.ids hmem hone, heldBy]
      congr 1
      have hcounts : (input.settled old).countsOn key ↔ counterAt input.clientInstanceId old.createdAt key.kind = key := by
        simp [Event.countsOn, SettleInput.settled, hinstance]
      have hold : old.countsOn key ↔ counterAt input.clientInstanceId old.createdAt key.kind = key := by
        simp [Event.countsOn, hinstance]
      simp only [hcounts, hold]
      split
      · funext metric
        cases metric <;> simp [Event.held, SettleInput.settled, amounts]
      · simp
    · intro key
      split <;> simp [amounts]

theorem startCounter_moves (hs : CountersOk s) : Moves (fun _ => 0) s (startCounter i now s kind) := by
  unfold startCounter
  cases hc : s.counters (counterAt i now kind) with
  | some row =>
    simp only [hc]
    exact hs.stays
  | none =>
    simp only [hc]
    refine ⟨hs.ids, fun _ => (add_zero _).symm, fun key => ?_, fun _ => Int.le_refl _⟩
    by_cases hk : key = counterAt i now kind
    · subst hk
      refine .inr ?_
      simp only [Function.update_self]
      exact congrArg some (eventsBetween_period i now kind)
    · exact .inl (by simp [Function.update_of_ne hk])

theorem Moves.trans (h₁ : Moves c₁ s s') (h₂ : Moves c₂ s' s'') : Moves (c₁ + c₂) s s'' := by
  refine ⟨h₂.ids, fun key => ?_, fun key => ?_, fun key => Int.add_nonneg (h₁.calls key) (h₂.calls key)⟩
  · rw [h₂.events, h₁.events, add_assoc]
    rfl
  · rcases h₂.counters key with hc | hc
    · rcases h₁.counters key with hc₁ | hc₁
      · refine .inl ?_
        rw [hc, hc₁, Option.map_map]
        congr 1
        funext row
        exact add_assoc _ _ _
      · refine .inr ?_
        rw [hc, hc₁, h₂.events]
        rfl
    · exact .inr hc

theorem startCounters_moves (hs : CountersOk s) : ∃ change, Moves change s (startCounters s now i) :=
  have h₁ := startCounter_moves hs
  ⟨_, h₁.trans (startCounter_moves (h₁.ok hs))⟩

theorem drift_eq_zero (hs : CountersOk s) (h : (s.counters (counterAt i now kind)).isSome) :
    drift s (counterAt i now kind) = 0 := by
  obtain ⟨row, hrow⟩ := Option.isSome_iff_exists.mp h
  rw [drift, hrow, hs.rows _ row hrow]
  exact sub_eq_zero.mpr (eventsBetween_period i now kind).symm

theorem reconcileLocked_ok (hs : CountersOk s) : reconcileLocked s now i = (0, s) := by
  have hnone : (([PeriodKind.day, .month].map (counterAt i now)).filter fun key => (s.counters key).isSome ∧
      ¬ (drift s key .modelCallCount = 0 ∧ drift s key .tokens = 0 ∧ drift s key .costMicros = 0)) = [] := by
    rw [List.filter_eq_nil_iff]
    intro key hkey h
    obtain ⟨kind, _, rfl⟩ := List.mem_map.mp hkey
    obtain ⟨hrow, hdrift⟩ := of_decide_eq_true h
    exact hdrift (by simp [drift_eq_zero hs hrow])
  simp only [reconcileLocked, hnone]
  rfl

theorem perform_moves (hs : CountersOk s) : ∃ change, Moves change s (perform s t).2 := by
  obtain ⟨now, statement⟩ := t
  cases statement with
  | admission id event reservation limits => exact countAndInsert_moves hs
  | append id event counted => exact countAndInsert_moves hs
  | settle input => exact settle_moves hs
  | start i => exact startCounters_moves hs
  | reconcile i =>
    simp only [perform, reconcileLocked_ok hs]
    exact ⟨_, hs.stays⟩

theorem ledger_step_moves (hs : CountersOk s) : ∃ change, Moves change s (ledger.next s t) := by
  obtain ⟨change, h⟩ := perform_moves (t := t) hs
  exact ⟨change, h.ids, h.events, h.counters, h.calls⟩

theorem ledger_step_ok (hs : CountersOk s) : CountersOk (ledger.next s t) :=
  have ⟨_, h⟩ := ledger_step_moves hs
  h.ok hs

theorem init_ok (h : ledger.init s) : CountersOk s :=
  ⟨h.1, fun key row hrow => by simp [h.2 key] at hrow⟩

def Answer.admits : Answer → Bool
  | .inserted (.answered row) => row.admitted
  | _ => false

theorem within_le (h : within limits added held) (hl : limits metric = some limit) :
    held metric + added metric ≤ limit := by
  obtain ⟨hcalls, htokens, hcost⟩ := h
  cases metric with
  | modelCallCount => exact hcalls limit hl
  | tokens => exact htokens limit hl
  | costMicros => exact hcost limit hl

theorem admission_accepted {id : String} (hs : CountersOk s)
    (h : (ledger.answer s ⟨now, .admission id event reservation limits⟩).admits) :
    Accepted s (ledger.next s ⟨now, .admission id event reservation limits⟩) now event reservation limits := by
  rcases countAndInsert_cases hs now id event .pending reservation limits with ⟨_, _, _, hacc⟩ | ⟨hno, _⟩
  · exact ⟨hacc.within, hacc.moves.ids, hacc.moves.events, hacc.moves.counters, hacc.moves.calls⟩
  · change (Answer.inserted (countAndInsert s now id event .pending reservation limits).1).admits at h
    cases ha : (countAndInsert s now id event .pending reservation limits).1 with
    | answered row => simp [ha, Answer.admits, hno row ha] at h
    | uniqueViolation => simp [ha, Answer.admits] at h

theorem Accepted.le_limit (h : Accepted s s' now event counted limits) (hs : CountersOk s)
    (hl : limits kind metric = some limit) :
    ∃ row, s'.counters (counterAt event.clientInstanceId now kind) = some row ∧ row metric ≤ limit := by
  obtain ⟨held, hheld, hwithin⟩ := h.within kind
  have hmoved : heldBy (counterAt event.clientInstanceId now kind) s'.events = held + counted.added := by
    rw [h.moves.events, hs.rows _ held hheld]
    simp [counterAt]
  refine ⟨held + counted.added, ?_, within_le hwithin hl⟩
  rcases h.moves.counters (counterAt event.clientInstanceId now kind) with hc | hc
  · rw [hc, hheld]
    simp [counterAt]
  · rw [hc, hmoved]

def admittedOn (clientInstanceId : ClientInstanceId) (day : Nat) : Transaction × Answer → Option Limits
  | (⟨now, .admission _ event _ limits⟩, answer) =>
    if event.clientInstanceId = clientInstanceId ∧ PeriodKind.day.startOf now = day ∧ answer.admits then some limits
    else none
  | _ => none

structure DayOk (i : ClientInstanceId) (day limit : Nat) (h : List (Transaction × Answer)) (s : Ledger) : Prop where
  counters : CountersOk s
  counted : (h.filterMap (admittedOn i day)).length ≤ heldBy ⟨i, .day, day⟩ s.events .modelCallCount
  limited : (∀ limits ∈ h.filterMap (admittedOn i day), ∃ l ∈ limits .day .modelCallCount, l ≤ limit) →
    (h.filterMap (admittedOn i day)).length ≤ limit

theorem heldBy_calls_nonneg : 0 ≤ heldBy key events .modelCallCount := by
  unfold heldBy
  induction events with
  | nil => exact Int.le_refl _
  | cons e es ih =>
    rw [total_cons]
    split
    · exact Int.add_nonneg (show (0 : Int) ≤ 1 by decide) ih
    · exact Int.add_nonneg (Int.le_refl 0) ih

theorem DayOk.step (h : DayOk i day limit h₀ s) :
    DayOk i day limit (h₀ ++ [(t, ledger.answer s t)]) (ledger.next s t) := by
  obtain ⟨change, hmoves⟩ := ledger_step_moves (t := t) h.counters
  have hok := hmoves.ok h.counters
  have hcalls : heldBy ⟨i, .day, day⟩ s.events .modelCallCount
      ≤ heldBy ⟨i, .day, day⟩ (ledger.next s t).events .modelCallCount := by
    rw [hmoves.events]
    exact Int.le_add_of_nonneg_right (hmoves.calls _)
  cases ha : admittedOn i day (t, ledger.answer s t) with
  | none =>
    have hsame : (h₀ ++ [(t, ledger.answer s t)]).filterMap (admittedOn i day) = h₀.filterMap (admittedOn i day) := by
      simp [ha]
    refine ⟨hok, ?_, ?_⟩ <;> rw [hsame]
    · exact Int.le_trans h.counted hcalls
    · exact h.limited
  | some limits =>
    have hlength : (h₀ ++ [(t, ledger.answer s t)]).filterMap (admittedOn i day)
        = h₀.filterMap (admittedOn i day) ++ [limits] := by
      simp [ha]
    obtain ⟨now, statement⟩ := t
    cases statement with
    | append | settle | start | reconcile => simp [admittedOn] at ha
    | admission id event reservation limits' =>
      simp only [admittedOn, Option.ite_none_right_eq_some, Option.some.injEq] at ha
      obtain ⟨⟨rfl, rfl, hadmits⟩, rfl⟩ := ha
      have hacc := admission_accepted h.counters hadmits
      have hone : heldBy ⟨event.clientInstanceId, .day, PeriodKind.day.startOf now⟩
          (ledger.next s ⟨now, .admission id event reservation limits'⟩).events .modelCallCount
            = heldBy ⟨event.clientInstanceId, .day, PeriodKind.day.startOf now⟩ s.events .modelCallCount + 1 := by
        rw [hacc.moves.events]
        simp [counterAt, Counted.added, amounts]
      have hcounted := h.counted
      rw [← Int.add_le_add_iff_right 1, ← hone] at hcounted
      refine ⟨hok, ?_, fun hlimits => ?_⟩
      · rw [hlength]
        simpa using hcounted
      · rw [hlength] at hlimits ⊢
        obtain ⟨l, hl, hle⟩ := hlimits limits' (by simp)
        obtain ⟨row, hrow, hrowle⟩ := hacc.le_limit h.counters hl
        rw [hok.rows _ row hrow] at hrowle
        have hall := Int.le_trans hcounted (Int.le_trans hrowle hle)
        rw [List.length_append, List.length_singleton]
        exact_mod_cast hall

/-- The counters are the ledger's sums; an accepted admission leaves every limited counter within
its limit; and no more calls are admitted in a day than its limit allows. -/
theorem counters_ok {s₀ s : Ledger} {h : List (Transaction × Answer)} (hi : ledger.init s₀) (hr : ledger.Run s₀ h s) :
    (∀ key row, s.counters key = some row → row = heldBy key s.events) ∧
    (∀ now id event reservation limits, ledger.enabled s ⟨now, .admission id event reservation limits⟩ →
      (ledger.answer s ⟨now, .admission id event reservation limits⟩).admits →
      ∀ kind metric limit, limits kind metric = some limit →
        ∃ row, (ledger.next s ⟨now, .admission id event reservation limits⟩).counters
            (counterAt event.clientInstanceId now kind) = some row ∧ row metric ≤ limit ∧
          row = heldBy (counterAt event.clientInstanceId now kind)
            (ledger.next s ⟨now, .admission id event reservation limits⟩).events) ∧
    ∀ i day (limit : Nat),
      (∀ limits ∈ h.filterMap (admittedOn i day), ∃ l ∈ limits .day .modelCallCount, l ≤ limit) →
      (h.filterMap (admittedOn i day)).length ≤ limit := by
  have hok : CountersOk s := hr.preserves (fun _ _ h _ => ledger_step_ok h) (init_ok hi)
  refine ⟨hok.rows, ?_, fun i day limit => ?_⟩
  · intro now id event reservation limits _ hadmits kind metric limit hl
    obtain ⟨row, hrow, hle⟩ := (admission_accepted hok hadmits).le_limit hok hl
    exact ⟨row, hrow, hle, (ledger_step_ok hok).rows _ row hrow⟩
  · have hstart : DayOk i day limit [] s₀ := ⟨init_ok hi, heldBy_calls_nonneg, fun _ => Nat.zero_le _⟩
    have hday := hr.history (fun _ _ _ h _ => h.step) hstart
    exact hday.limited

namespace Example

def event : RecordInput := ⟨"instance", 700, some 3⟩

def limits : Limits
  | .day, .modelCallCount => some 1
  | .month, .tokens => some 2000
  | _, _ => none

def earlier : Event := ⟨"old", "instance", 100, none, .settled, none, none, 31 * msPerDay⟩

def empty : Ledger := ⟨0, [earlier], fun _ => none⟩

def started : List Transaction :=
  [⟨32 * msPerDay, .admission "a" event ⟨1000, 5⟩ limits⟩, ⟨32 * msPerDay, .start "instance"⟩]

def ready : Ledger := ledger.after empty started

theorem empty_init : ledger.init empty := ⟨by decide, fun _ => rfl⟩

theorem started_allowed : ledger.Allows empty started := by decide

end Example

theorem counters_ok_started :
    ∃ row, (ledger.next Example.ready ⟨32 * msPerDay + 5, .admission "b" Example.event ⟨1000, 5⟩ Example.limits⟩).counters
      (counterAt "instance" (32 * msPerDay + 5) .month) = some row ∧ row .tokens ≤ 2000 := by
  obtain ⟨row, hrow, hle, _⟩ := (counters_ok Example.empty_init Example.started_allowed.run).2.1 (32 * msPerDay + 5) "b" Example.event ⟨1000, 5⟩ Example.limits
      (by decide) (by decide) .month .tokens 2000 rfl
  exact ⟨row, hrow, hle⟩

end Catalyst.Usage
