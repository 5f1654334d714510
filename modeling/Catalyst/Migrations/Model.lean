import Catalyst.Library.Processes

/-!
# The migration step

Any number of processes migrate one database. A run holds a lock of its session from before it
reads what was applied until it ends, and asks for the lock again until it gets it. It executes
each statement on its own. A statement that fails, a lost connection and a crash of the process
all end a run where it stands: its open transaction is rolled back and its lock is given back.

A concurrent index build puts an invalid index into the catalog first and makes it valid when it
is done; a concurrent drop takes the opposite way. What a statement does beyond that is not
looked into: an effect is a query text that was executed for a migration.
-/

namespace Catalyst.Migrations

open Library

inductive Statement
  | ordinary
  | createIndexConcurrently (index : String)
  | dropIndexConcurrently (index : String)
  deriving DecidableEq

structure Chunk where
  text : String
  statements : List Statement
  deriving DecidableEq

structure Migration where
  name : String
  when : Nat
  hash : String
  chunks : List Chunk
  deriving DecidableEq

def Statement.runsOutsideTransaction : Statement → Prop
  | ordinary => False
  | createIndexConcurrently _ | dropIndexConcurrently _ => True

instance : DecidablePred Statement.runsOutsideTransaction := fun s => by
  unfold Statement.runsOutsideTransaction
  split <;> infer_instance

def Statement.concurrentIndexName : Statement → Option String
  | createIndexConcurrently index => some index
  | ordinary | dropIndexConcurrently _ => none

def Migration.Concurrent (m : Migration) : Prop := ∃ c ∈ m.chunks, ∃ s ∈ c.statements, s.runsOutsideTransaction
  deriving Decidable

structure Effect where
  when : Nat
  text : String
  deriving DecidableEq

def Migration.effects (m : Migration) : List Effect := m.chunks.map fun c => ⟨m.when, c.text⟩

structure MigrationRecord where
  hash : String
  createdAt : Nat
  deriving DecidableEq

def Migration.record (m : Migration) : MigrationRecord := ⟨m.hash, m.when⟩

/-- The committed state: the table of the migrations, the effects so far in their order, and the
indexes of the product's schema. -/
structure Db where
  schema : Bool
  table : Bool
  records : List MigrationRecord
  effects : List Effect
  validIndexes : List String
  invalidIndexes : List String
  deriving DecidableEq

def Db.times (db : Db) : List Nat := db.records.map (·.createdAt)

def readLastAppliedMigration (db : Db) : Option Nat := db.times.max?

def Db.executed (db : Db) (m : Migration) (c : Chunk) : Db := { db with effects := db.effects ++ [⟨m.when, c.text⟩] }

def Db.recorded (db : Db) (m : Migration) : Db := { db with records := db.records ++ [m.record] }

def Db.committed (db : Db) (m : Migration) : Db :=
  { db with effects := db.effects ++ m.effects, records := db.records ++ [m.record] }

def Db.HasIndex (db : Db) (index : String) : Prop := index ∈ db.validIndexes ∨ index ∈ db.invalidIndexes
  deriving Decidable

def Db.invalidated (db : Db) (index : String) : Db :=
  { db with
    validIndexes := db.validIndexes.filter (· ≠ index)
    invalidIndexes := index :: db.invalidIndexes.filter (· ≠ index) }

def Db.built (db : Db) (index : String) : Db :=
  { db with
    validIndexes := index :: db.validIndexes
    invalidIndexes := db.invalidIndexes.filter (· ≠ index) }

def Db.dropped (db : Db) (index : String) : Db := { db with invalidIndexes := db.invalidIndexes.filter (· ≠ index) }

/-- The loop over the journal: what was read, what is to come, and what this run applied. -/
structure Loop where
  lastApplied : Option Nat
  rest : List Migration
  applied : List String
  deriving DecidableEq

def Loop.Skips (l : Loop) (m : Migration) : Prop := ∃ last ∈ l.lastApplied, m.when ≤ last
  deriving Decidable

/-- Where a run stands: what it does next. -/
inductive Going
  | takingLock
  | creatingSchema
  | creatingTable
  | readingTable
  | readingLast
  | looping (l : Loop)
  -- in a transaction
  | executing (l : Loop) (m : Migration) (chunks : List Chunk)
  | inserting (l : Loop) (m : Migration)
  | committing (l : Loop) (m : Migration)
  -- outside a transaction
  | nextChunk (l : Loop) (m : Migration) (chunks : List Chunk)
  | looking (l : Loop) (m : Migration) (statements : List Statement) (c : Chunk) (chunks : List Chunk)
  | repairing (l : Loop) (m : Migration) (index : String) (statements : List Statement) (c : Chunk) (chunks : List Chunk)
  | running (l : Loop) (m : Migration) (c : Chunk) (chunks : List Chunk)
  | building (l : Loop) (m : Migration) (index : String) (c : Chunk) (chunks : List Chunk)
  | dropping (l : Loop) (m : Migration) (index : String) (c : Chunk) (chunks : List Chunk)
  | checking (l : Loop) (m : Migration)
  | recording (l : Loop) (m : Migration)
  | unlocking (applied : List String)
  deriving DecidableEq

inductive Answer
  | migrated (applied : List String)
  | failed (message : String)
  deriving DecidableEq

abbrev StepResult := Option Answer × Option Going × Db

def goesTo (db : Db) (g : Going) : StepResult := (none, some g, db)

def migrationFailed (m : Migration) (cause : String) : Answer := .failed s!"Migration {m.name} failed: {cause}"

def leftInvalidIndex (invalid : List String) : String :=
  let names := ", ".intercalate invalid
  s!"it left an invalid index ({names}). Repair what stopped the build and run the migration step again."

def Loop.done (l : Loop) (m : Migration) : Going := .looping { l with applied := l.applied ++ [m.name] }

variable (journal : List Migration)

def loops (db : Db) (l : Loop) : StepResult :=
  match l.rest with
  | [] => goesTo db (.unlocking l.applied)
  | m :: rest =>
    let l' := { l with rest := rest }
    if l.Skips m then goesTo db (.looping l')
    else if m.Concurrent then goesTo db (.nextChunk l' m m.chunks)
    else goesTo db (.executing l' m m.chunks)

/-- A query of several statements is a transaction, which no statement may leave. -/
def runs (db : Db) (l : Loop) (m : Migration) (c : Chunk) (chunks : List Chunk) : StepResult :=
  match c.statements with
  | [.createIndexConcurrently index] =>
    if db.HasIndex index then goesTo (db.executed m c) (.nextChunk l m chunks)
    else goesTo (db.invalidated index) (.building l m index c chunks)
  | [.dropIndexConcurrently index] =>
    if db.HasIndex index then goesTo (db.invalidated index) (.dropping l m index c chunks)
    else goesTo (db.executed m c) (.nextChunk l m chunks)
  | statements =>
    if ∃ s ∈ statements, s.runsOutsideTransaction then
      (some (migrationFailed m "PostgresError: a concurrent statement cannot run inside a transaction block"), none, db)
    else goesTo (db.executed m c) (.nextChunk l m chunks)

def step (db : Db) : Going → StepResult
  | .takingLock => goesTo db .creatingSchema
  | .creatingSchema => goesTo { db with schema := true } .creatingTable
  | .creatingTable => goesTo { db with table := true } .readingTable
  | .readingTable => if db.table then goesTo db .readingLast else goesTo db (.looping ⟨none, journal, []⟩)
  | .readingLast => goesTo db (.looping ⟨readLastAppliedMigration db, journal, []⟩)
  | .looping l => loops db l
  | .executing l m [] => goesTo db (.inserting l m)
  | .executing l m (_ :: chunks) => goesTo db (.executing l m chunks)
  | .inserting l m => goesTo db (.committing l m)
  | .committing l m => goesTo (db.committed m) (l.done m)
  | .nextChunk l m [] => goesTo db (.checking l m)
  | .nextChunk l m (c :: chunks) => goesTo db (.looking l m c.statements c chunks)
  | .looking l m [] c chunks => goesTo db (.running l m c chunks)
  | .looking l m (s :: statements) c chunks =>
    match s.concurrentIndexName with
    | none => goesTo db (.looking l m statements c chunks)
    | some index =>
      if index ∈ db.invalidIndexes then goesTo db (.repairing l m index statements c chunks)
      else goesTo db (.looking l m statements c chunks)
  | .repairing l m index statements c chunks => goesTo (db.dropped index) (.looking l m statements c chunks)
  | .running l m c chunks => runs db l m c chunks
  | .building l m index c chunks => goesTo ((db.built index).executed m c) (.nextChunk l m chunks)
  | .dropping l m index c chunks => goesTo ((db.dropped index).executed m c) (.nextChunk l m chunks)
  | .checking l m =>
    if db.invalidIndexes = [] then goesTo db (.recording l m)
    else (some (migrationFailed m (leftInvalidIndex db.invalidIndexes)), none, db)
  | .recording l m => goesTo (db.recorded m) (l.done m)
  | .unlocking applied => (some (.migrated applied), none, db)

def Going.Holds (g : Going) : Prop := g ≠ .takingLock
  deriving Decidable

def migrationRuns : Processes Db Unit Going Empty Answer where
  start _ := .takingLock
  blocks p q := p.Holds ∧ q = .takingLock
  step := step journal
  env _ e := e.elim

abbrev MigrationPool := Pool Db Going

abbrev MigrationMove := Move Unit Empty

def migrationSystem : Machine MigrationPool MigrationMove (Option Answer) :=
  (migrationRuns journal).machine (fun db => db.records = [] ∧ db.effects = []) fun _ _ => True

end Catalyst.Migrations
