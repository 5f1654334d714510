import Catalyst.Library.Processes
import Catalyst.Library.Sums
import Catalyst.Usage.Model

/-!
# The daily sums of the ledger

A call that is over is in the sums of its day: one row for each day, provider, model, region,
purpose or agent, and currency. Whoever ends a call adds to these rows in the statement that
writes its event. Reconciliation compares them with the events on one snapshot and adds what
they lack.
-/

namespace Catalyst.Usage.Rollups

open Library

inductive RollupSum
  | modelCallCount | inputTokens | cachedInputTokens | outputTokens | totalTokens | webSearchCallCount
  | settledModelCallCount | uncachedInputCostMicros | cachedInputCostMicros | outputCostMicros | webSearchCostMicros
  | settledWebSearchCallCount
  deriving DecidableEq

/-- `ROLLUP_SUMS` -/
def rollupSums : List RollupSum :=
  [.modelCallCount, .inputTokens, .cachedInputTokens, .outputTokens, .totalTokens, .webSearchCallCount,
    .settledModelCallCount, .uncachedInputCostMicros, .cachedInputCostMicros, .outputCostMicros, .webSearchCostMicros,
    .settledWebSearchCallCount]

abbrev RollupSums := RollupSum → Int

theorem mem_rollupSums (column : RollupSum) : column ∈ rollupSums := by cases column <;> simp [rollupSums]

instance : DecidableEq RollupSums := fun a b =>
  decidable_of_iff (∀ column ∈ rollupSums, a column = b column)
    ⟨fun h => funext fun column => h column (mem_rollupSums column), fun h _ _ => h ▸ rfl⟩

structure RollupKey where
  clientInstanceId : ClientInstanceId
  day : Nat
  providerId : String
  model : String
  region : String
  purpose : String
  agentName : String
  currency : String
  deriving DecidableEq

/-- A cost record whose status is `settled`. -/
structure SettledCost where
  currency : Option String
  uncachedInputCostMicros : Option Int
  cachedInputCostMicros : Option Int
  outputCostMicros : Option Int
  webSearchCostMicros : Option Int
  totalCostMicros : Option Int
  deriving DecidableEq

structure ModelUsageAttribution where
  agentName : Option String
  purpose : Option String
  providerId : String
  model : String
  region : Option String
  deriving DecidableEq

structure ModelUsageSettlement where
  inputTokens : Int
  cachedInputTokens : Option Int
  outputTokens : Int
  totalTokens : Int
  webSearchCallCount : Int
  settledCost : Option SettledCost
  deriving DecidableEq

def ModelUsageSettlement.settledCostMicros (used : ModelUsageSettlement) : Option Int :=
  used.settledCost.bind (·.totalCostMicros)

structure ModelUsageEventRecordInput extends ModelUsageAttribution, ModelUsageSettlement where
  clientInstanceId : ClientInstanceId
  deriving DecidableEq

def ModelUsageEventRecordInput.counted (event : ModelUsageEventRecordInput) : RecordInput :=
  ⟨event.clientInstanceId, event.totalTokens, event.settledCostMicros⟩

structure ModelUsageEvent extends ModelUsageAttribution, ModelUsageSettlement where
  id : String
  clientInstanceId : ClientInstanceId
  status : EventStatus
  countedTokens : Option Int
  countedCostMicros : Option Int
  createdAt : Time
  deriving DecidableEq

def ModelUsageEvent.counted (e : ModelUsageEvent) : Event :=
  ⟨e.id, e.clientInstanceId, e.totalTokens, e.settledCostMicros, e.status, e.countedTokens, e.countedCostMicros,
    e.createdAt⟩

structure Db where
  events : List ModelUsageEvent
  counters : CounterKey → Option Amounts
  rollups : List (RollupKey × RollupSums)

def Db.ledger (db : Db) (now : Time) : Ledger := ⟨now, db.events.map (·.counted), db.counters⟩

/-- What one event adds to the sums of its day. -/
def rollupContribution (e : ModelUsageEvent) : RollupKey × RollupSums :=
  let component (amount : SettledCost → Option Int) : Int := (e.settledCost.bind amount).getD 0
  (⟨e.clientInstanceId, PeriodKind.day.startOf e.createdAt, e.providerId, e.model, e.region.getD "", e.purpose.getD "",
      if e.purpose.isNone then e.agentName.getD "" else "", (e.settledCost.bind (·.currency)).getD ""⟩,
    fun
    | .modelCallCount => 1
    | .inputTokens => e.inputTokens
    | .cachedInputTokens => e.cachedInputTokens.getD 0
    | .outputTokens => e.outputTokens
    | .totalTokens => e.totalTokens
    | .webSearchCallCount => e.webSearchCallCount
    | .settledModelCallCount => if e.settledCost.isSome then 1 else 0
    | .uncachedInputCostMicros => component (·.uncachedInputCostMicros)
    | .cachedInputCostMicros => component (·.cachedInputCostMicros)
    | .outputCostMicros => component (·.outputCostMicros)
    | .webSearchCostMicros => component (·.webSearchCostMicros)
    | .settledWebSearchCallCount => if e.settledCost.isSome then e.webSearchCallCount else 0)

def addToRollups (changes : List (Int × RollupKey × RollupSums)) (rollups : List (RollupKey × RollupSums)) :
    List (RollupKey × RollupSums) :=
  addGrouped (changes.map fun c => (c.2.1, c.1 • c.2.2)) rollups

def insertEvent (id : String) (event : ModelUsageEventRecordInput) (status : EventStatus) (counted : Counted)
    (now : Time) : ModelUsageEvent :=
  { event with
    id, status
    countedTokens := some counted.tokens
    countedCostMicros := some counted.costMicros
    createdAt := now }

/-- An event that is over when it is written is in the sums at once. -/
def countAndInsert (db : Db) (now : Time) (id : String) (event : ModelUsageEventRecordInput) (status : EventStatus)
    (counted : Counted) (limits : Limits) : InsertAnswer × Db :=
  let (answer, s) := Usage.countAndInsert (db.ledger now) now id event.counted status counted limits
  match answer with
  | .uniqueViolation => (answer, db)
  | .answered row =>
    if row.admitted then
      let inserted := insertEvent id event status counted now
      let rolled := if status ≠ .pending then addToRollups [(1, rollupContribution inserted)] db.rollups else db.rollups
      (answer, ⟨inserted :: db.events, s.counters, rolled⟩)
    else (answer, db)

/-- The status it writes is never `pending`. -/
structure SettleInput where
  clientInstanceId : ClientInstanceId
  id : String
  fromStatuses : List EventStatus
  status : EventStatus
  settlement : ModelUsageSettlement
  counted : Counted
  ended : status ≠ .pending
  deriving DecidableEq

def SettleInput.matches (input : SettleInput) (e : ModelUsageEvent) : Prop :=
  e.clientInstanceId = input.clientInstanceId ∧ e.id = input.id ∧ e.status ∈ input.fromStatuses

instance (input : SettleInput) : DecidablePred input.matches := fun _ => inferInstanceAs (Decidable (_ ∧ _ ∧ _))

def SettleInput.settled (input : SettleInput) (old : ModelUsageEvent) : ModelUsageEvent :=
  { old with
    toModelUsageSettlement := input.settlement
    status := input.status
    countedTokens := some input.counted.tokens
    countedCostMicros := some input.counted.costMicros }

def SettleInput.changes (input : SettleInput) (old : ModelUsageEvent) : List (Int × RollupKey × RollupSums) :=
  (if old.status ≠ .pending then [(-1, rollupContribution old)] else []) ++ [(1, rollupContribution (input.settled old))]

def SettleInput.write (input : SettleInput) (db : Db) (old : ModelUsageEvent) : Db :=
  let difference := amounts 0 (input.counted.tokens - old.counted.held .tokens)
    (input.counted.costMicros - old.counted.held .costMicros)
  let counter := counterAt input.clientInstanceId old.createdAt
  { events := updateWhere (·.id = old.id) input.settled db.events
    counters := addToCounter difference (counter .day) (addToCounter difference (counter .month) db.counters)
    rollups := addToRollups (input.changes old) db.rollups }

inductive Scope
  | recent | all
  deriving DecidableEq

structure ReconcileInput where
  clientInstanceId : ClientInstanceId
  scope : Scope
  since : Option Time
  now : Time
  deriving DecidableEq

def ReconcileInput.first (input : ReconcileInput) : Option Nat :=
  match input.scope with
  | .all => none
  | .recent => some (PeriodKind.month.startOf (min input.now (input.since.getD input.now) - msPerDay))

def ReconcileInput.drifts (input : ReconcileInput) (db : Db) : List (CounterKey × Amounts) :=
  let s := db.ledger input.now
  let drifting := ([PeriodKind.day, .month].map (counterAt input.clientInstanceId input.now)).filter fun key =>
    (s.counters key).isSome ∧ ¬ (drift s key .modelCallCount = 0 ∧ drift s key .tokens = 0 ∧ drift s key .costMicros = 0)
  drifting.map fun key => (key, drift s key)

def ReconcileInput.differences (input : ReconcileInput) (db : Db) : List (RollupKey × RollupSums) :=
  let ledger := (db.events.filter fun e => e.clientInstanceId = input.clientInstanceId ∧ e.status ≠ .pending ∧
    ∀ day ∈ input.first, day * msPerDay ≤ e.createdAt).map rollupContribution
  let kept := db.rollups.filter fun r => r.1.clientInstanceId = input.clientInstanceId ∧ ∀ day ∈ input.first, day ≤ r.1.day
  corrections ledger kept

inductive SettlePhase
  | finding
  /-- It has found the event, and reads it again once nobody else has locked it. -/
  | locking
  | writing (old : ModelUsageEvent)
  deriving DecidableEq

/-- One reconciliation at a time from `counting` on; what it corrects is committed with its last statement. -/
inductive ReconcilePhase
  | acquiring
  | counting
  | comparing (drifts : List (CounterKey × Amounts))
  | adding (drifts : List (CounterKey × Amounts)) (differences : List (RollupKey × RollupSums))

inductive Process
  | inserting (now : Time) (id : String) (event : ModelUsageEventRecordInput) (status : EventStatus) (counted : Counted)
      (limits : Limits)
  | starting (now : Time) (clientInstanceId : ClientInstanceId)
  | settling (input : SettleInput) (phase : SettlePhase)
  | reconciling (input : ReconcileInput) (phase : ReconcilePhase)

inductive Answer
  | inserted (answer : InsertAnswer)
  | started
  | changed (changed : Bool)
  | corrected (correctedCounters correctedSums : Nat)

inductive Request
  | admission (now : Time) (id : String) (event : ModelUsageEventRecordInput) (reservation : Counted) (limits : Limits)
  | append (now : Time) (id : String) (event : ModelUsageEventRecordInput) (counted : Option Counted)
  | start (now : Time) (clientInstanceId : ClientInstanceId)
  | settle (input : SettleInput)
  | reconcile (input : ReconcileInput)

def settle (db : Db) (input : SettleInput) : SettlePhase → Option Answer × Option Process × Db
  | .finding =>
    if ∃ e ∈ db.events, input.matches e then (none, some (.settling input .locking), db) else (some (.changed false), none, db)
  | .locking =>
    match db.events.find? fun e => input.matches e with
    | none => (some (.changed false), none, db)
    | some old => (none, some (.settling input (.writing old)), db)
  | .writing old => (some (.changed true), none, input.write db old)

def reconcile (db : Db) (input : ReconcileInput) : ReconcilePhase → Option Answer × Option Process × Db
  | .acquiring => (none, some (.reconciling input .counting), db)
  | .counting => (none, some (.reconciling input (.comparing (input.drifts db))), db)
  | .comparing drifts => (none, some (.reconciling input (.adding drifts (input.differences db))), db)
  | .adding drifts differences =>
    let counters := drifts.foldl (fun counters d => addToCounter (-d.2) d.1 counters) db.counters
    let rollups := addToRollups (differences.map ((1, ·))) db.rollups
    (some (.corrected drifts.length differences.length), none, { db with counters, rollups })

def Process.locks : Process → Option String
  | settling _ (.writing old) => some old.id
  | inserting .. | starting .. | settling _ .finding | settling _ .locking | reconciling .. => none

def Process.reconciles : Process → Option ClientInstanceId
  | reconciling _ .acquiring => none
  | reconciling input _ => some input.clientInstanceId
  | inserting .. | starting .. | settling .. => none

def waitsFor (q : Process) : Process → Prop
  | .settling input .locking => q.locks = some input.id
  | .reconciling input .acquiring => q.reconciles = some input.clientInstanceId
  | _ => False

def usage : Processes Db Request Process Empty Answer where
  start
    | .admission now id event reservation limits => .inserting now id event .pending reservation limits
    | .append now id event counted => .inserting now id event .settled (countedOf event.counted counted) noLimits
    | .start now clientInstanceId => .starting now clientInstanceId
    | .settle input => .settling input .finding
    | .reconcile input => .reconciling input .acquiring
  blocks q t := waitsFor q t
  step db
    | .inserting now id event status counted limits =>
      let r := countAndInsert db now id event status counted limits
      (some (.inserted r.1), none, r.2)
    | .starting now clientInstanceId =>
      (some .started, none, { db with counters := (startCounters (db.ledger now) now clientInstanceId).counters })
    | .settling input phase => settle db input phase
    | .reconciling input phase => reconcile db input phase
  env _ e := e.elim

end Catalyst.Usage.Rollups
