import Catalyst.Library.Doubles
import Catalyst.Usage.Counters

/-!
# A refusal names the limit that refused

Admission compares the counters with the limits in SQL, with integers. Only a refused
admission is compared again, by the program: it reads the counters as doubles, adds what was
asked for and looks for the first limit that is exceeded. While all the numbers are safe
integers, both comparisons agree.
-/

namespace Catalyst.Usage

open Library.Doubles

/-- What a limit is compared with: the column cast to `float8`, and the sum in doubles. -/
def AdmissionRow.asked (row : AdmissionRow) (reservation : Counted) (r : Refusal) : ℚ :=
  ofRat (ofRat ((((row.held r.period).map (· r.metric)).getD 0 : Int) : ℚ) + (reservation.added r.metric : ℚ))

/-- `over` of `refusalOf` -/
def isOver (row : AdmissionRow) (reservation : Counted) (limits : Limits) (r : Refusal) : Bool :=
  (limits r.period r.metric).any fun limit : Int => (limit : ℚ) < row.asked reservation r

/-- `refusalOf` on the numbers the program reads. -/
def refusalOfNumbers (row : AdmissionRow) (reservation : Counted) (limits : Limits) : Except AppError Refusal :=
  match refusals.find? (isOver row reservation limits) with
  | some r => .ok r
  | none => .error ⟨.internal, "Admission refused a call within every limit"⟩

def Exceeds (limits : Limits) (reservation : Counted) (held : PeriodKind → Amounts) (r : Refusal) : Prop :=
  ∃ limit ∈ limits r.period r.metric, limit < held r.period r.metric + reservation.added r.metric

structure SafeNumbers (limits : Limits) (reservation : Counted) (held : PeriodKind → Amounts) : Prop where
  limits : ∀ period metric, ∀ limit ∈ limits period metric, IsSafe limit
  reservation : ∀ metric, IsSafe (reservation.added metric)
  held : ∀ period metric, IsSafe (held period metric)

variable {row : AdmissionRow} {limits : Limits} {reservation : Counted} {held : PeriodKind → Amounts}

theorem mem_refusals (r : Refusal) : r ∈ refusals := by
  obtain ⟨period, metric⟩ := r
  cases period <;> cases metric <;> decide

theorem within_iff (limits : CounterLimits) (added held : Amounts) :
    within limits added held ↔ ∀ metric, ∀ limit ∈ limits metric, held metric + added metric ≤ limit := by
  constructor
  · rintro ⟨hcalls, htokens, hcost⟩ metric
    cases metric with
    | modelCallCount => exact hcalls
    | tokens => exact htokens
    | costMicros => exact hcost
  · intro h
    exact ⟨h .modelCallCount, h .tokens, h .costMicros⟩

theorem within_both_iff :
    (within (limits .day) reservation.added (held .day) ∧ within (limits .month) reservation.added (held .month)) ↔
      ∀ r, ¬ Exceeds limits reservation held r := by
  rw [within_iff, within_iff]
  constructor
  · rintro ⟨hday, hmonth⟩ ⟨period, metric⟩ ⟨limit, hlimit, hlt⟩
    cases period with
    | day => exact absurd (hday metric limit hlimit) (not_le.mpr hlt)
    | month => exact absurd (hmonth metric limit hlimit) (not_le.mpr hlt)
  · intro h
    constructor
    · intro metric limit hlimit
      exact not_lt.mp fun hlt => h ⟨.day, metric⟩ ⟨limit, hlimit, hlt⟩
    · intro metric limit hlimit
      exact not_lt.mp fun hlt => h ⟨.month, metric⟩ ⟨limit, hlimit, hlt⟩

theorem isOver_iff (hs : SafeNumbers limits reservation held) (hrow : ∀ period, row.held period = some (held period))
    (r : Refusal) : isOver row reservation limits r = true ↔ Exceeds limits reservation held r := by
  have hasked : row.asked reservation r = ofRat ((held r.period r.metric + reservation.added r.metric : Int) : ℚ) := by
    rw [AdmissionRow.asked, hrow, Option.map_some, Option.getD_some, (hs.held r.period r.metric).kept]
    push_cast
    rfl
  rw [isOver, Option.any_eq_true]
  constructor
  · rintro ⟨limit, hlimit, hlt⟩
    rw [hasked] at hlt
    exact ⟨limit, hlimit, (lt_ofRat_iff (hs.limits _ _ limit hlimit)).mp (of_decide_eq_true hlt)⟩
  · rintro ⟨limit, hlimit, hlt⟩
    rw [hasked]
    exact ⟨limit, hlimit, decide_eq_true ((lt_ofRat_iff (hs.limits _ _ limit hlimit)).mpr hlt)⟩

def heldOf (d m : Amounts) : PeriodKind → Amounts
  | .day => d
  | .month => m

/-- Where admission accepts, no limit is found exceeded; where it refuses, the first exceeded
limit is named. -/
theorem refusal_ok (hs : SafeNumbers limits reservation held)
    (hrow : ∀ period, row.held period = some (held period)) :
    ((within (limits .day) reservation.added (held .day) ∧ within (limits .month) reservation.added (held .month)) ↔
      refusals.find? (isOver row reservation limits) = none) ∧
    (¬ (within (limits .day) reservation.added (held .day) ∧
        within (limits .month) reservation.added (held .month)) →
      ∃ before r after, refusals = before ++ r :: after ∧ refusalOfNumbers row reservation limits = .ok r ∧
        Exceeds limits reservation held r ∧ ∀ r' ∈ before, ¬ Exceeds limits reservation held r') := by
  have hnone : (within (limits .day) reservation.added (held .day) ∧
      within (limits .month) reservation.added (held .month)) ↔
      refusals.find? (isOver row reservation limits) = none := by
    rw [within_both_iff, List.find?_eq_none]
    constructor
    · intro h r _ hover
      exact h r ((isOver_iff hs hrow r).mp hover)
    · intro h r hr
      exact h r (mem_refusals r) ((isOver_iff hs hrow r).mpr hr)
  refine ⟨hnone, fun hrefused => ?_⟩
  rw [hnone] at hrefused
  obtain ⟨r, hr⟩ := Option.ne_none_iff_exists'.mp hrefused
  obtain ⟨hover, before, after, hsplit, hbefore⟩ := List.find?_eq_some_iff_append.mp hr
  refine ⟨before, r, after, hsplit, ?_, (isOver_iff hs hrow r).mp hover, ?_⟩
  · rw [refusalOfNumbers, hr]
  · intro r' hr' hex
    have := hbefore r' hr'
    rw [(isOver_iff hs hrow r').mpr hex] at this
    cases this

namespace Example

def dayAndSpend : Limits
  | .day, .tokens => some 100
  | .month, .costMicros => some 9007199254740991
  | _, _ => none

def almostUsed : PeriodKind → Amounts
  | .day => amounts 1 90 0
  | .month => amounts 1 90 9007199254740990

end Example

theorem refusal_ok_month :
    ∃ before r after, refusals = before ++ r :: after ∧
      refusalOfNumbers ⟨true, false, some (Example.almostUsed .day), some (Example.almostUsed .month)⟩ ⟨10, 2⟩
        Example.dayAndSpend = .ok r ∧
      Exceeds Example.dayAndSpend ⟨10, 2⟩ Example.almostUsed r ∧
      ∀ r' ∈ before, ¬ Exceeds Example.dayAndSpend ⟨10, 2⟩ Example.almostUsed r' := by
  have hsafe : SafeNumbers Example.dayAndSpend ⟨10, 2⟩ Example.almostUsed := by
    refine ⟨fun period metric => ?_, fun metric => ?_, fun period metric => ?_⟩
    · cases period <;> cases metric <;> simp [Example.dayAndSpend, IsSafe]
    · cases metric <;> decide
    · cases period <;> cases metric <;> decide
  refine (refusal_ok hsafe fun period => ?_).2 (by decide)
  cases period <;> rfl

end Catalyst.Usage
