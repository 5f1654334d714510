import Catalyst.Core
import Catalyst.Library.Table
import Catalyst.Library.Transition
import Mathlib.Algebra.Group.Int.Defs
import Mathlib.Algebra.Group.Pi.Basic
import Mathlib.Data.Nat.Find
import Mathlib.Logic.Function.Basic

/-!
# The usage ledger and its counters

An event of the ledger is one model call. A counter holds, for a period of a client
instance, what its calls used and what the calls in flight have reserved: one column a
metric. Admission reads the counters only; settlement moves them by a difference; a
period whose counters are missing gets them from its events.

The days of a period are counted from the first of January 1970. Amounts are integers
without a bound: a statement whose `bigint` overflows fails as a whole and leaves no trace.
-/

namespace Catalyst.Usage

open Library

def msPerDay : Nat := 86400000

def isLeapYear (year : Nat) : Bool := (year % 4 = 0 ∧ year % 100 ≠ 0) ∨ year % 400 = 0

/-- The days of the `n`-th month since January 1970. -/
def monthLength (n : Nat) : Nat :=
  match n % 12 with
  | 1 => if isLeapYear (1970 + n / 12) then 29 else 28
  | 3 | 5 | 8 | 10 => 30
  | _ => 31

/-- The first day of the `n`-th month. -/
def monthStart : Nat → Nat
  | 0 => 0
  | n + 1 => monthStart n + monthLength n

def monthAt (day : Nat) : Nat := Nat.findGreatest (fun n => monthStart n ≤ day) day

inductive PeriodKind
  | day | month
  deriving DecidableEq

/-- The first day of the period a time is in: `TODAY` and `THIS_MONTH` at the current time,
`dayOf` and `monthOf` at the time of an event. -/
def PeriodKind.startOf : PeriodKind → Time → Nat
  | day, t => t / msPerDay
  | month, t => monthStart (monthAt (t / msPerDay))

/-- The first day of the period after the one that starts on `start`. -/
def PeriodKind.next : PeriodKind → Nat → Nat
  | day, start => start + 1
  | month, start => monthStart (monthAt start + 1)

inductive Metric
  | modelCallCount | tokens | costMicros
  deriving DecidableEq

abbrev Amounts := Metric → Int

def amounts (calls tokens costMicros : Int) : Amounts
  | .modelCallCount => calls
  | .tokens => tokens
  | .costMicros => costMicros

/-- `ModelUsageCounted` -/
structure Counted where
  tokens : Int
  costMicros : Int
  deriving DecidableEq

inductive EventStatus
  | pending | settled | failed | abandoned
  deriving DecidableEq

/-- What a call used, as its event records it; a cost that is not settled counts as none. -/
structure Settlement where
  totalTokens : Int
  settledCostMicros : Option Int
  deriving DecidableEq

/-- A row of `model_usage_events`. The last two amounts are null on rows of an earlier release. -/
structure Event where
  id : String
  clientInstanceId : ClientInstanceId
  totalTokens : Int
  settledCostMicros : Option Int
  status : EventStatus
  countedTokens : Option Int
  countedCostMicros : Option Int
  createdAt : Time
  deriving DecidableEq

/-- What an event holds on its counters: itself, `countedTokens` and `countedCost`. -/
def Event.held (e : Event) : Amounts :=
  amounts 1 (e.countedTokens.getD e.totalTokens) (e.countedCostMicros.getD (e.settledCostMicros.getD 0))

structure CounterKey where
  clientInstanceId : ClientInstanceId
  kind : PeriodKind
  start : Nat
  deriving DecidableEq

def counterAt (clientInstanceId : ClientInstanceId) (t : Time) (kind : PeriodKind) : CounterKey :=
  ⟨clientInstanceId, kind, kind.startOf t⟩

structure Ledger where
  clock : Time
  events : List Event
  counters : CounterKey → Option Amounts

def eventsBetween (clientInstanceId : ClientInstanceId) (first next : Nat) (events : List Event) : Amounts :=
  total (fun e => e.clientInstanceId = clientInstanceId ∧
    first * msPerDay ≤ e.createdAt ∧ e.createdAt < next * msPerDay) Event.held events

/-- `ModelUsageCounterLimits` -/
abbrev CounterLimits := Metric → Option Int

abbrev Limits := PeriodKind → CounterLimits

def noLimits : Limits := fun _ _ => none

def Counted.added (c : Counted) : Amounts := amounts 1 c.tokens c.costMicros

def within (limits : CounterLimits) (added held : Amounts) : Prop :=
  (∀ l ∈ limits .modelCallCount, held .modelCallCount + added .modelCallCount ≤ l) ∧
  (∀ l ∈ limits .tokens, held .tokens + added .tokens ≤ l) ∧
  ∀ l ∈ limits .costMicros, held .costMicros + added .costMicros ≤ l

instance : Decidable (within limits added held) := inferInstanceAs (Decidable (_ ∧ _ ∧ _))

structure RecordInput where
  clientInstanceId : ClientInstanceId
  totalTokens : Int
  settledCostMicros : Option Int
  deriving DecidableEq

structure AdmissionRow where
  present : Bool
  admitted : Bool
  day : Option Amounts
  month : Option Amounts

def AdmissionRow.held (row : AdmissionRow) : PeriodKind → Option Amounts
  | .day => row.day
  | .month => row.month

inductive InsertAnswer
  | answered (row : AdmissionRow)
  /-- The id is taken: the statement fails as a whole. -/
  | uniqueViolation

def insertEvent (id : String) (event : RecordInput) (status : EventStatus) (counted : Counted) (now : Time) : Event :=
  ⟨id, event.clientInstanceId, event.totalTokens, event.settledCostMicros, status, some counted.tokens,
    some counted.costMicros, now⟩

def addToCounter (added : Amounts) (key : CounterKey) (counters : CounterKey → Option Amounts) :
    CounterKey → Option Amounts :=
  Function.update counters key ((counters key).map (· + added))

def countAndInsert (s : Ledger) (now : Time) (id : String) (event : RecordInput) (status : EventStatus)
    (counted : Counted) (limits : Limits) : InsertAnswer × Ledger :=
  let day := counterAt event.clientInstanceId now .day
  let month := counterAt event.clientInstanceId now .month
  match s.counters day, s.counters month with
  | some d, some m =>
    if within (limits .day) counted.added d ∧ within (limits .month) counted.added m then
      if ∃ e ∈ s.events, e.id = id then (.uniqueViolation, s)
      else
        (.answered ⟨true, true, some d, some m⟩,
          { s with
            events := insertEvent id event status counted now :: s.events
            counters := addToCounter counted.added day (addToCounter counted.added month s.counters) })
    else (.answered ⟨true, false, some d, some m⟩, s)
  | d, m => (.answered ⟨false, false, d, m⟩, s)

/-- `ModelUsageRefusal` -/
structure Refusal where
  period : PeriodKind
  metric : Metric
  deriving DecidableEq

def refusals : List Refusal :=
  [⟨.day, .modelCallCount⟩, ⟨.day, .tokens⟩, ⟨.day, .costMicros⟩,
    ⟨.month, .modelCallCount⟩, ⟨.month, .tokens⟩, ⟨.month, .costMicros⟩]

def refusalOf (row : AdmissionRow) (reservation : Counted) (limits : Limits) : Except AppError Refusal :=
  let isOver (r : Refusal) : Bool :=
    (limits r.period r.metric).any fun limit =>
      limit < ((row.held r.period).map (· r.metric)).getD 0 + reservation.added r.metric
  match refusals.find? isOver with
  | some r => .ok r
  | none => .error ⟨.internal, "Admission refused a call within every limit"⟩

def countedOf (event : RecordInput) (counted : Option Counted) : Counted :=
  counted.getD ⟨event.totalTokens, event.settledCostMicros.getD 0⟩

def startCounter (clientInstanceId : ClientInstanceId) (now : Time) (s : Ledger) (kind : PeriodKind) : Ledger :=
  let key := counterAt clientInstanceId now kind
  match s.counters key with
  | some _ => s
  | none =>
    let held := eventsBetween clientInstanceId key.start (kind.next key.start) s.events
    { s with counters := Function.update s.counters key (some held) }

def startCounters (s : Ledger) (now : Time) (clientInstanceId : ClientInstanceId) : Ledger :=
  [PeriodKind.day, .month].foldl (startCounter clientInstanceId now) s

structure SettleInput where
  clientInstanceId : ClientInstanceId
  id : String
  fromStatuses : List EventStatus
  status : EventStatus
  settlement : Settlement
  counted : Counted
  deriving DecidableEq

def SettleInput.matches (input : SettleInput) (e : Event) : Prop :=
  e.clientInstanceId = input.clientInstanceId ∧ e.id = input.id ∧ e.status ∈ input.fromStatuses

instance (input : SettleInput) : DecidablePred input.matches :=
  fun _ => inferInstanceAs (Decidable (_ ∧ _ ∧ _))

def SettleInput.settled (input : SettleInput) (old : Event) : Event :=
  { old with
    totalTokens := input.settlement.totalTokens
    settledCostMicros := input.settlement.settledCostMicros
    status := input.status
    countedTokens := some input.counted.tokens
    countedCostMicros := some input.counted.costMicros }

/-- The counters of the event's own day and month move by the difference; no call is counted again. -/
def settleModelUsageEvent (s : Ledger) (input : SettleInput) : Bool × Ledger :=
  match s.events.find? (fun e => input.matches e) with
  | none => (false, s)
  | some old =>
    let difference := amounts 0 (input.counted.tokens - old.held .tokens)
      (input.counted.costMicros - old.held .costMicros)
    let counter := counterAt input.clientInstanceId old.createdAt
    (true,
      { s with
        events := updateWhere input.matches input.settled s.events
        counters := addToCounter difference (counter .day) (addToCounter difference (counter .month) s.counters) })

def drift (s : Ledger) (key : CounterKey) : Amounts :=
  ((s.counters key).getD 0) - eventsBetween key.clientInstanceId key.start (key.kind.next key.start) s.events

/-- The drifts of both counters are read first, and then subtracted. -/
def reconcileLocked (s : Ledger) (now : Time) (clientInstanceId : ClientInstanceId) : Nat × Ledger :=
  let keys := [PeriodKind.day, .month].map (counterAt clientInstanceId now)
  let drifting := keys.filter fun key => (s.counters key).isSome ∧
    ¬ (drift s key .modelCallCount = 0 ∧ drift s key .tokens = 0 ∧ drift s key .costMicros = 0)
  let corrected := drifting.foldl (fun counters key => addToCounter (-drift s key) key counters) s.counters
  (drifting.length, { s with counters := corrected })

inductive Statement
  | admission (id : String) (event : RecordInput) (reservation : Counted) (limits : Limits)
  | append (id : String) (event : RecordInput) (counted : Option Counted)
  | settle (input : SettleInput)
  | start (clientInstanceId : ClientInstanceId)
  | reconcile (clientInstanceId : ClientInstanceId)

inductive Answer
  | inserted (answer : InsertAnswer)
  | changed (changed : Bool)
  | started
  | corrected (counters : Nat)

structure Transaction where
  now : Time
  statement : Statement

def perform (s : Ledger) (t : Transaction) : Answer × Ledger :=
  match t.statement with
  | .admission id event reservation limits =>
    let r := countAndInsert s t.now id event .pending reservation limits
    (.inserted r.1, r.2)
  | .append id event counted =>
    let r := countAndInsert s t.now id event .settled (countedOf event counted) noLimits
    (.inserted r.1, r.2)
  | .settle input =>
    let r := settleModelUsageEvent s input
    (.changed r.1, r.2)
  | .start clientInstanceId => (.started, startCounters s t.now clientInstanceId)
  | .reconcile clientInstanceId =>
    let r := reconcileLocked s t.now clientInstanceId
    (.corrected r.1, r.2)

/-- The ledger may begin with events of an earlier release and has no counters. Each transaction
sees a clock that has not gone back. -/
def ledger : Machine Ledger Transaction Answer where
  init s := (s.events.map Event.id).Nodup ∧ ∀ key, s.counters key = none
  enabled s t := s.clock ≤ t.now
  step s t :=
    let r := perform s t
    (r.1, { r.2 with clock := t.now })

instance : Decidable (ledger.enabled s t) := inferInstanceAs (Decidable (s.clock ≤ t.now))

end Catalyst.Usage
