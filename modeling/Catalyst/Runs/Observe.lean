import Catalyst.Runs.Append
import Catalyst.Library.Cursor
import Mathlib.Data.List.Sort

/-!
# Observing a run

An observer reads the stored observations of a run in batches, hands them to its
caller one by one, and looks at the row of the run only when nothing came. The
workflow of the chat server reads once by itself and then goes on with the
runtime. Between any two of their steps the run system may take any of its own.
-/

namespace Catalyst.Runs

open Library Library.Tx Jobs

-- -----------------
-- The observer
-- -----------------

def getAgentRun (db : Db) (instanceId : ClientInstanceId) (runId : RunId) : Option AgentRun :=
  db.runs.find? fun r => r.ofRow instanceId runId

def listRunObservations (db : Db) (instanceId : ClientInstanceId) (runId : RunId) (afterSequence : Nat)
    (limit : Option Nat) : List RunObservation :=
  let rows := (db.observations.filter fun o =>
    o.clientInstanceId = instanceId ∧ o.runId = runId ∧ afterSequence < o.sequence).insertionSort
      (·.sequence ≤ ·.sequence)
  match limit with
  | none => rows
  | some n => rows.take n

/-- `OBSERVATION_BATCH_SIZE` -/
def observationBatchSize : Nat := 100

/-- Where `observe` of the runtime or `observeRun` of the workflow stands. -/
inductive ObserverPhase
  /-- `observeRun` looks for the row. -/
  | looking (after : Nat)
  | access (persisted : AgentRun) (after : Nat)
  | readingStored (persisted : AgentRun) (last : Nat)
  /-- At the `yield` of an observation of the first read. -/
  | handingStored (persisted : AgentRun) (last : Nat) (rest : List RunObservation)
  | lookingAgain (persisted : AgentRun) (last : Nat)
  | readingRest (last : Nat)
  | handingRest (rest : List RunObservation)
  /-- `observe` requires the row. -/
  | opening (after : Nat)
  | reading (sequence : Nat)
  /-- At the `yield` of an observation of a batch. -/
  | handing (sequence : Nat) (rest : List RunObservation) (terminal : Bool)
  | checking (sequence : Nat)
  | waiting (sequence : Nat)
  | ended
  | failed
  deriving DecidableEq

structure Watched where
  system : State
  phase : ObserverPhase
  deriving DecidableEq

inductive WatchMove
  | system (st : Step)
  /-- What the observer awaits is there: a read, the wait's end by a notice or at the next poll. -/
  | goes
  /-- The caller asks for the next event. -/
  | takes
  /-- The access to the conversation is refused. -/
  | refused
  | leaves
  deriving DecidableEq

def handOn (rest : List RunObservation) (next : RunObservation → List RunObservation → ObserverPhase)
    (done : ObserverPhase) : Option RunObservation × ObserverPhase :=
  match rest with
  | o :: rest => (some o, next o rest)
  | [] => (none, done)

def handStored (persisted : AgentRun) (last : Nat) (rest : List RunObservation) :
    Option RunObservation × ObserverPhase :=
  handOn rest (fun o rest => .handingStored persisted (max last o.sequence) rest) (.lookingAgain persisted last)

def handRest (rest : List RunObservation) : Option RunObservation × ObserverPhase :=
  handOn rest (fun _ rest => .handingRest rest) .ended

def handBatch (sequence : Nat) (terminal : Bool) (rest : List RunObservation) :
    Option RunObservation × ObserverPhase :=
  handOn rest (fun o rest => .handing o.sequence rest terminal) (if terminal then .ended else .reading sequence)

/-- One step of the observer over the tables as they are. -/
def observerStep (instanceId : ClientInstanceId) (runId : RunId) (db : Db) :
    ObserverPhase → Option RunObservation × ObserverPhase
  | .looking after =>
    match getAgentRun db instanceId runId with
    | none => (none, .opening after)
    | some persisted => (none, .access persisted after)
  | .access persisted after => (none, .readingStored persisted after)
  | .readingStored persisted last =>
    handStored persisted last (listRunObservations db instanceId runId last none)
  | .lookingAgain persisted last =>
    let latest := (getAgentRun db instanceId runId).getD persisted
    if latest.InProgress then (none, .opening last)
    else if last < latest.lastSequence then (none, .readingRest last)
    else (none, .ended)
  | .readingRest last => handRest (listRunObservations db instanceId runId last none)
  | .opening after =>
    match getAgentRun db instanceId runId with
    | none => (none, .failed)
    | some _ => (none, .reading after)
  | .reading sequence =>
    let observations := listRunObservations db instanceId runId sequence (some observationBatchSize)
    match observations with
    | [] => (none, .checking sequence)
    | _ => handBatch sequence (observations.any (·.type.ends.isSome)) observations
  | .checking sequence =>
    match getAgentRun db instanceId runId with
    | none => (none, .failed)
    | some run =>
      if run.Ended ∧ run.lastSequence ≤ sequence then (none, .ended) else (none, .waiting sequence)
  | .waiting sequence => (none, .reading sequence)
  | phase => (none, phase)

def observerTake : ObserverPhase → Option RunObservation × ObserverPhase
  | .handingStored persisted last rest => handStored persisted last rest
  | .handingRest rest => handRest rest
  | .handing sequence rest terminal => handBatch sequence terminal rest
  | phase => (none, phase)

def ObserverPhase.isHanding : ObserverPhase → Bool
  | handingStored .. | handingRest _ | handing .. => true
  | _ => false

def ObserverPhase.isAccess : ObserverPhase → Bool
  | access .. => true
  | _ => false

def ObserverPhase.isOver : ObserverPhase → Bool
  | ended | failed => true
  | _ => false

def watchEnabled (catalog : Catalog) (s : Watched) : WatchMove → Prop
  | .system st => (runSystem catalog).enabled s.system st
  | .goes => ¬ s.phase.isHanding ∧ ¬ s.phase.isOver
  | .takes => s.phase.isHanding
  | .refused => s.phase.isAccess
  | .leaves => ¬ s.phase.isOver

instance (catalog : Catalog) (s : Watched) : DecidablePred (watchEnabled catalog s)
  | .system st => inferInstanceAs (Decidable ((runSystem catalog).enabled s.system st))
  | .goes => inferInstanceAs (Decidable (¬ s.phase.isHanding ∧ ¬ s.phase.isOver))
  | .takes => inferInstanceAs (Decidable (s.phase.isHanding = true))
  | .refused => inferInstanceAs (Decidable (s.phase.isAccess = true))
  | .leaves => inferInstanceAs (Decidable (¬ s.phase.isOver))

/-- The run system with one observer of a run. An answer is the observation whose payload is
yielded. -/
def watch (catalog : Catalog) (instanceId : ClientInstanceId) (runId : RunId) :
    Machine Watched WatchMove (Option RunObservation) where
  init s := (runSystem catalog).Reachable s.system ∧ ∃ after, s.phase = .opening after ∨ s.phase = .looking after
  enabled s a := watchEnabled catalog s a
  step s
    | .system st => (none, { s with system := (runSystem catalog).next s.system st })
    | .goes =>
      let (answer, phase) := observerStep instanceId runId s.system.db s.phase
      (answer, { s with phase })
    | .takes =>
      let (answer, phase) := observerTake s.phase
      (answer, { s with phase })
    | .refused | .leaves => (none, { s with phase := .failed })

def delivered (h : List (WatchMove × Option RunObservation)) : List RunObservation := h.filterMap Prod.snd

def storedAfter (db : Db) (instanceId : ClientInstanceId) (runId : RunId) (after : Nat) : List RunObservation :=
  db.observations.filter fun o => o.key = (instanceId, runId) ∧ after < o.sequence

/-- What an observer behind `after` has delivered: nothing out of order, doubled or left out. -/
structure Observed (catalog : Catalog) (instanceId : ClientInstanceId) (runId : RunId) (after : Nat)
    (h : List (WatchMove × Option RunObservation)) (t : Watched) : Prop where
  ordered : (storedAfter t.system.db instanceId runId after).Pairwise (·.sequence < ·.sequence)
  delivered : delivered h <+: storedAfter t.system.db instanceId runId after
  /-- It ends behind the terminal observation, or where the run had ended with nothing left. -/
  ended : t.phase = .ended → Runs.delivered h = storedAfter t.system.db instanceId runId after ∧
    ∃ r ∈ t.system.db.runs, r.key = (instanceId, runId) ∧ r.Ended ∧
      ((∃ earlier last, Runs.delivered h = earlier ++ [last] ∧ last.type.ends = some r.status) ∨
        (Runs.delivered h = [] ∧ r.lastSequence ≤ after))
  /-- Nothing stored is out of its reach. -/
  catchesUp : t.phase ≠ .failed → ∃ h' t', (watch catalog instanceId runId).Run t h' t' ∧ t'.system = t.system ∧
    Runs.delivered h ++ Runs.delivered h' = storedAfter t.system.db instanceId runId after

variable {db : Db} {key : ClientInstanceId × RunId} {instanceId : ClientInstanceId} {runId : RunId}

theorem logOf_numbered (hg : LogsOk db) : Numbered (·.sequence) (db.logOf key) := by
  by_cases hrun : ∃ r ∈ db.runs, r.key = key
  · obtain ⟨r, hr, rfl⟩ := hrun
    have hseq : (db.logOf r.key).map (·.sequence) = List.range' 1 r.lastSequence := (hg.runs r hr).sequences
    have hlen : (db.logOf r.key).length = r.lastSequence := by simpa using congrArg List.length hseq
    rw [Numbered, hlen, hseq]
  · have hnil : db.logOf key = [] := by
      refine List.filter_eq_nil_iff.mpr fun o ho hkey => hrun ?_
      obtain ⟨r, hr, hor⟩ := hg.owned o ho
      exact ⟨r, hr, hor.symm.trans (by simpa using hkey)⟩
    rw [hnil]
    rfl

theorem logOf_length (hg : LogsOk db) (hr : r ∈ db.runs) : (db.logOf r.key).length = r.lastSequence := by
  have hseq : (db.logOf r.key).map (·.sequence) = List.range' 1 r.lastSequence := (hg.runs r hr).sequences
  simpa using congrArg List.length hseq

theorem storedAfter_eq (hg : LogsOk db) :
    storedAfter db instanceId runId after = (db.logOf (instanceId, runId)).drop after := by
  rw [← (logOf_numbered hg).filter, Db.logOf, List.filter_filter]
  refine List.filter_congr fun o _ => ?_
  simp [Bool.and_comm]

theorem listRunObservations_eq (hg : LogsOk db) (limit : Option Nat) :
    listRunObservations db instanceId runId last limit =
      match limit with
      | none => (db.logOf (instanceId, runId)).drop last
      | some n => ((db.logOf (instanceId, runId)).drop last).take n := by
  have hrows : (db.observations.filter fun o =>
      o.clientInstanceId = instanceId ∧ o.runId = runId ∧ last < o.sequence) =
        (db.logOf (instanceId, runId)).drop last := by
    rw [← storedAfter_eq hg]
    refine List.filter_congr fun o _ => ?_
    simp [RunObservation.key, and_assoc]
  have hsorted : ((db.logOf (instanceId, runId)).drop last).Pairwise (·.sequence ≤ ·.sequence) :=
    ((logOf_numbered hg).pairwise.imp Nat.le_of_lt).drop
  unfold listRunObservations
  rw [hrows, hsorted.insertionSort_eq]

theorem getAgentRun_some (h : getAgentRun db instanceId runId = some r) :
    r ∈ db.runs ∧ r.key = (instanceId, runId) :=
  ⟨List.mem_of_find?_eq_some h, ofRow_key (by simpa using List.find?_some h)⟩

theorem getAgentRun_isSome (hr : r ∈ db.runs) (hk : r.key = (instanceId, runId)) :
    (getAgentRun db instanceId runId).isSome := by
  rw [getAgentRun, List.find?_isSome]
  refine ⟨r, hr, ?_⟩
  have hof : r.ofRow instanceId runId := ⟨congrArg Prod.fst hk, congrArg Prod.snd hk⟩
  simpa using hof

def Over (db : Db) (key : ClientInstanceId × RunId) : Prop := ∃ r ∈ db.runs, r.key = key ∧ r.Ended

def Exists (db : Db) (key : ClientInstanceId × RunId) : Prop := ∃ r ∈ db.runs, r.key = key

/-- What was delivered is what the log holds behind `after` up to where the observer reads on. -/
def Stands (db : Db) (key : ClientInstanceId × RunId) (after : Nat) (out : List RunObservation) :
    ObserverPhase → Prop
  | .looking c | .opening c | .reading c | .checking c | .waiting c => TakenTo (db.logOf key) after c out
  | .access _ c | .readingStored _ c | .lookingAgain _ c => TakenTo (db.logOf key) after c out ∧ Exists db key
  | .handingStored _ c rest =>
    TakenTo (db.logOf key) after c out ∧ Exists db key ∧ rest <+: (db.logOf key).drop c
  | .readingRest c => TakenTo (db.logOf key) after c out ∧ Over db key
  | .handingRest rest => out ++ rest = (db.logOf key).drop after ∧ Over db key
  | .handing c rest terminal => TakenTo (db.logOf key) after c out ∧ rest <+: (db.logOf key).drop c ∧
      (terminal → rest = (db.logOf key).drop c ∧ Over db key)
  | .ended => out = (db.logOf key).drop after ∧ Over db key
  | .failed => out <+: (db.logOf key).drop after

theorem Stands.part (h : Stands db key after out phase) : out <+: (db.logOf key).drop after := by
  cases phase with
  | looking c | opening c | reading c | checking c | waiting c => exact TakenTo.part h
  | access _ c | readingStored _ c | lookingAgain _ c | handingStored _ c rest | readingRest c
    | handing c rest terminal => exact h.1.part
  | handingRest rest => exact ⟨rest, h.1⟩
  | ended => exact h.1 ▸ List.prefix_rfl
  | failed => exact h

structure Moved (db db' : Db) (key : ClientInstanceId × RunId) : Prop where
  grows : db.logOf key <+: db'.logOf key
  stays : Exists db key → Exists db' key
  kept : Over db key → Over db' key ∧ db'.logOf key = db.logOf key

theorem moved (catalog : Catalog) (hg : LogsOk s.db) (st : Step) :
    Moved s.db ((runSystem catalog).next s st).db key := by
  obtain ⟨_, he, _⟩ := runSystem_step catalog s st hg
  refine ⟨logOf_grows catalog s st key, ?_, ?_⟩
  · rintro ⟨r, hr, rfl⟩
    obtain ⟨r', hr', hl⟩ := he r hr
    exact ⟨r', hr', hl.key⟩
  · rintro ⟨r, hr, rfl, hend⟩
    obtain ⟨r', hr', hl⟩ := he r hr
    obtain ⟨rfl, hlog⟩ := hl.ended hend
    exact ⟨⟨r', hr', rfl, hend⟩, hlog⟩

theorem Stands.moved (h : Stands db key after out phase) (hm : Moved db db' key) :
    Stands db' key after out phase := by
  have hdrop : ∀ {c rest}, rest <+: (db.logOf key).drop c → rest <+: (db'.logOf key).drop c :=
    fun hr => hr.trans (hm.grows.drop _)
  cases phase with
  | looking c | opening c | reading c | checking c | waiting c => exact TakenTo.grows h hm.grows
  | access _ c | readingStored _ c | lookingAgain _ c => exact ⟨h.1.grows hm.grows, hm.stays h.2⟩
  | handingStored _ c rest => exact ⟨h.1.grows hm.grows, hm.stays h.2.1, hdrop h.2.2⟩
  | readingRest c => exact ⟨h.1.grows hm.grows, (hm.kept h.2).1⟩
  | handingRest rest => exact ⟨(hm.kept h.2).2 ▸ h.1, (hm.kept h.2).1⟩
  | handing c rest terminal =>
    refine ⟨h.1.grows hm.grows, hdrop h.2.1, fun ht => ?_⟩
    obtain ⟨hrest, hover⟩ := h.2.2 ht
    exact ⟨(hm.kept hover).2 ▸ hrest, (hm.kept hover).1⟩
  | ended => exact ⟨(hm.kept h.2).2 ▸ h.1, (hm.kept h.2).1⟩
  | failed => exact hdrop h

-- -----------------
-- What one step hands on
-- -----------------

section Step

variable {after c : Nat} {out rest : List RunObservation} {terminal : Bool}

def Hands (db : Db) (key : ClientInstanceId × RunId) (after : Nat) (out : List RunObservation)
    (step : Option RunObservation × ObserverPhase) : Prop :=
  Stands db key after (out ++ step.1.toList) step.2

theorem Hands.silent (h : Stands db key after out phase) : Hands db key after out (none, phase) := by
  rwa [Hands, Option.toList_none, List.append_nil]

theorem handStored_ok (hg : LogsOk db) (ht : TakenTo (db.logOf key) after c out) (he : Exists db key)
    (hr : rest <+: (db.logOf key).drop c) : Hands db key after out (handStored persisted c rest) := by
  cases rest with
  | nil => exact .silent ⟨ht, he⟩
  | cons o rest =>
    obtain ⟨hseq, htaken, _, hrest⟩ := ht.handed (logOf_numbered hg) hr
    have hmax : max c o.sequence = c + 1 := by rw [hseq, Nat.max_eq_right (Nat.le_succ c)]
    rw [handStored, handOn, hmax]
    exact ⟨htaken, he, hrest⟩

theorem handRest_ok (hr : out ++ rest = (db.logOf key).drop after) (ho : Over db key) :
    Hands db key after out (handRest rest) := by
  cases rest with
  | nil => exact .silent ⟨by simpa using hr, ho⟩
  | cons o rest =>
    have hnext : (out ++ [o]) ++ rest = (db.logOf key).drop after := by simpa using hr
    exact ⟨hnext, ho⟩

theorem handBatch_ok (hg : LogsOk db) (ht : TakenTo (db.logOf key) after c out)
    (hr : rest <+: (db.logOf key).drop c)
    (hlast : terminal → rest = (db.logOf key).drop c ∧ Over db key) :
    Hands db key after out (handBatch c terminal rest) := by
  cases rest with
  | nil =>
    cases terminal with
    | false => exact .silent ht
    | true =>
      obtain ⟨hnil, hover⟩ := hlast rfl
      exact .silent ⟨ht.all hnil.symm, hover⟩
  | cons o rest =>
    obtain ⟨hseq, htaken, hdrop, hrest⟩ := ht.handed (logOf_numbered hg) hr
    rw [handBatch, handOn, hseq]
    refine ⟨htaken, hrest, fun hterm => ?_⟩
    obtain ⟨hall, hover⟩ := hlast hterm
    rw [hdrop, List.cons.injEq] at hall
    exact ⟨hall.2, hover⟩

theorem over_of_terminal (hg : LogsOk db) (ho : o ∈ db.logOf key) (hends : o.type.ends.isSome) : Over db key := by
  obtain ⟨hobserved, hkey⟩ := List.mem_filter.mp ho
  obtain ⟨r, hr, howner⟩ := hg.owned o hobserved
  obtain rfl : r.key = key := howner.symm.trans (by simpa using hkey)
  refine ⟨r, hr, rfl, Classical.byContradiction fun hn => ?_⟩
  rw [(hg.runs r hr).going hn o ho] at hends
  cases hends

theorem batch_terminal (hg : LogsOk db) (hobs : ((db.logOf key).drop c).take n = batch)
    (hterm : batch.any (·.type.ends.isSome)) : batch = (db.logOf key).drop c ∧ Over db key := by
  obtain ⟨o, hmem, hends⟩ := List.any_eq_true.mp hterm
  obtain ⟨first, later, hsplit⟩ := List.append_of_mem hmem
  have hlog : db.logOf key = ((db.logOf key).take c ++ first) ++ o :: (later ++ ((db.logOf key).drop c).drop n) := by
    calc db.logOf key = (db.logOf key).take c ++ (db.logOf key).drop c := (List.take_append_drop _ _).symm
      _ = (db.logOf key).take c ++ (batch ++ ((db.logOf key).drop c).drop n) := by
        rw [← hobs, List.take_append_drop n]
      _ = _ := by rw [hsplit]; simp
  have hover : Over db key := over_of_terminal hg (by rw [hlog]; simp) hends
  refine ⟨?_, hover⟩
  obtain ⟨r, hr, rfl, _⟩ := hover
  obtain ⟨hnil, _⟩ := (hg.runs r hr).terminal hlog hends
  have hrest := (List.append_eq_nil_iff.mp hnil).2
  rw [← hobs, ← List.take_append_drop n ((db.logOf r.key).drop c), hrest]
  simp

theorem ended_of_not_inProgress {r : AgentRun} (h : ¬ r.InProgress) : r.Ended := by
  unfold AgentRun.InProgress AgentRun.Started at h
  unfold AgentRun.Ended
  cases hs : r.status <;> simp [hs] at h ⊢

theorem taken_whole (hg : LogsOk db) (hr : r ∈ db.runs) (ht : TakenTo (db.logOf r.key) after c out)
    (hend : r.Ended) (hc : r.lastSequence ≤ c) : Stands db r.key after out .ended := by
  refine ⟨ht.all (List.drop_eq_nil_iff.mpr ?_), r, hr, rfl, hend⟩
  rwa [logOf_length hg hr]

theorem observerStep_ok (hg : LogsOk db) (h : Stands db (instanceId, runId) after out phase)
    (hp : ¬ phase.isHanding) :
    Hands db (instanceId, runId) after out (observerStep instanceId runId db phase) := by
  cases phase with
  | looking c =>
    cases hrun : getAgentRun db instanceId runId with
    | none =>
      simp only [observerStep, hrun]
      exact .silent h
    | some r =>
      simp only [observerStep, hrun]
      exact .silent ⟨h, r, getAgentRun_some hrun⟩
  | access persisted c => exact .silent h
  | readingStored persisted c =>
    simp only [observerStep, listRunObservations_eq hg]
    exact handStored_ok hg h.1 h.2 List.prefix_rfl
  | lookingAgain persisted c =>
    obtain ⟨ht, _, hr, hkey⟩ := h
    obtain ⟨latest, hlatest⟩ := Option.isSome_iff_exists.mp (getAgentRun_isSome hr hkey)
    obtain ⟨hmem, hk⟩ := getAgentRun_some hlatest
    simp only [observerStep, hlatest, Option.getD_some]
    rw [← hk] at ht ⊢
    split
    · exact .silent ht
    · have hend := ended_of_not_inProgress ‹¬ latest.InProgress›
      split
      · exact .silent ⟨ht, latest, hmem, rfl, hend⟩
      · exact .silent (taken_whole hg hmem ht hend (Nat.le_of_not_lt ‹_›))
  | readingRest c =>
    simp only [observerStep, listRunObservations_eq hg]
    exact handRest_ok h.1.out_rest h.2
  | opening c =>
    cases hrun : getAgentRun db instanceId runId with
    | none =>
      simp only [observerStep, hrun]
      exact .silent (TakenTo.part h)
    | some r =>
      simp only [observerStep, hrun]
      exact .silent h
  | reading c =>
    simp only [observerStep, listRunObservations_eq hg]
    split
    · exact .silent h
    · exact handBatch_ok hg h (List.take_prefix _ _) (batch_terminal hg rfl)
  | checking c =>
    cases hrun : getAgentRun db instanceId runId with
    | none =>
      simp only [observerStep, hrun]
      exact .silent (TakenTo.part h)
    | some r =>
      obtain ⟨hr, hkey⟩ := getAgentRun_some hrun
      simp only [observerStep, hrun]
      split
      · rw [← hkey] at h ⊢
        exact .silent (taken_whole hg hr h ‹_ ∧ _›.1 ‹_ ∧ _›.2)
      · exact .silent h
  | waiting c => exact .silent h
  | handingStored _ _ _ | handingRest _ | handing _ _ _ => exact absurd rfl hp
  | ended | failed => exact .silent h

theorem observerTake_ok (hg : LogsOk db) (h : Stands db key after out phase) :
    Hands db key after out (observerTake phase) := by
  cases phase with
  | handingStored persisted c rest => exact handStored_ok hg h.1 h.2.1 h.2.2
  | handingRest rest => exact handRest_ok h.1 h.2
  | handing c rest terminal => exact handBatch_ok hg h.1 h.2.1 h.2.2
  | _ => exact .silent h

def ObserverPhase.rank : ObserverPhase → Nat
  | .looking _ => 6
  | .access .. => 5
  | .handingStored .. => 4
  | .lookingAgain .. => 3
  | .opening _ | .checking _ => 2
  | .handing .. | .waiting _ => 1
  | _ => 0

def GetsOn (phase : ObserverPhase) (step : Option RunObservation × ObserverPhase) : Prop :=
  step.2 ≠ .failed ∧ (step.1.isSome ∨ step.2.rank < phase.rank)

theorem GetsOn.near (hf : phase' ≠ .failed) (hr : phase'.rank < phase.rank) :
    GetsOn phase (none, phase') := ⟨hf, .inr hr⟩

theorem handOn_getsOn (hr : rest ≠ []) (hn : ∀ o rest, next o rest ≠ .failed) :
    GetsOn phase (handOn rest next done) := by
  cases rest with
  | nil => exact absurd rfl hr
  | cons o rest => exact ⟨hn o rest, .inl rfl⟩

theorem getAgentRun_left (hg : LogsOk db) (hl : (db.logOf (instanceId, runId)).drop c ≠ []) :
    ∃ r, getAgentRun db instanceId runId = some r ∧ c < r.lastSequence ∧ r.key = (instanceId, runId) := by
  obtain ⟨o, hmem⟩ := List.exists_mem_of_ne_nil _ hl
  obtain ⟨hobserved, hkey⟩ := List.mem_filter.mp (List.mem_of_mem_drop hmem)
  obtain ⟨r, hr, howner⟩ := hg.owned o hobserved
  have hrk : r.key = (instanceId, runId) := howner.symm.trans (by simpa using hkey)
  obtain ⟨run, hrun⟩ := Option.isSome_iff_exists.mp (getAgentRun_isSome hr hrk)
  obtain ⟨hmem, hk⟩ := getAgentRun_some hrun
  refine ⟨run, hrun, ?_, hk⟩
  rw [← logOf_length hg hmem, hk]
  simpa using hl

theorem observerStep_getsOn (hg : LogsOk db) (h : Stands db (instanceId, runId) after out phase)
    (hl : out ≠ (db.logOf (instanceId, runId)).drop after) (hp : ¬ phase.isHanding) (hf : phase ≠ .failed) :
    GetsOn phase (observerStep instanceId runId db phase) := by
  have hleft : ∀ {c}, TakenTo (db.logOf (instanceId, runId)) after c out →
      (db.logOf (instanceId, runId)).drop c ≠ [] := fun ht hnil => hl (ht.all hnil)
  cases phase with
  | looking c =>
    simp only [observerStep]
    split
    · exact .near nofun (by simp [ObserverPhase.rank])
    · exact .near nofun (by simp [ObserverPhase.rank])
  | access persisted c => exact .near nofun (by simp [ObserverPhase.rank])
  | readingStored persisted c =>
    simp only [observerStep, listRunObservations_eq hg]
    exact handOn_getsOn (hleft h.1) (by rintro _ _ ⟨⟩)
  | lookingAgain persisted c =>
    obtain ⟨run, hrun, hlt, _⟩ := getAgentRun_left hg (hleft h.1)
    simp only [observerStep, hrun, Option.getD_some, hlt, if_true]
    split
    · exact .near nofun (by simp [ObserverPhase.rank])
    · exact .near nofun (by simp [ObserverPhase.rank])
  | readingRest c =>
    simp only [observerStep, listRunObservations_eq hg]
    exact handOn_getsOn (hleft h.1) (by rintro _ _ ⟨⟩)
  | opening c =>
    obtain ⟨run, hrun, _⟩ := getAgentRun_left hg (hleft h)
    simp only [observerStep, hrun]
    exact .near nofun (by simp [ObserverPhase.rank])
  | reading c =>
    have hbatch : ((db.logOf (instanceId, runId)).drop c).take observationBatchSize ≠ [] := by
      simpa [observationBatchSize] using hleft h
    simp only [observerStep, listRunObservations_eq hg]
    exact handOn_getsOn hbatch (by rintro _ _ ⟨⟩)
  | checking c =>
    obtain ⟨run, hrun, hlt, _⟩ := getAgentRun_left hg (hleft h)
    have hnot : ¬ (run.Ended ∧ run.lastSequence ≤ c) := fun hend => Nat.not_le_of_lt hlt hend.2
    simp only [observerStep, hrun, hnot, if_false]
    exact .near nofun (by simp [ObserverPhase.rank])
  | waiting c => exact .near nofun (by simp [ObserverPhase.rank])
  | handingStored _ _ _ | handingRest _ | handing _ _ _ => exact absurd rfl hp
  | ended => exact absurd h.1 hl
  | failed => exact absurd rfl hf

theorem observerTake_getsOn (h : Stands db key after out phase) (hl : out ≠ (db.logOf key).drop after)
    (hp : phase.isHanding) : GetsOn phase (observerTake phase) := by
  cases phase with
  | handingStored persisted c rest =>
    cases rest with
    | nil => exact .near nofun (by simp [ObserverPhase.rank])
    | cons o rest => exact ⟨nofun, .inl rfl⟩
  | handingRest rest =>
    cases rest with
    | nil => exact absurd (by simpa using h.1) hl
    | cons o rest => exact ⟨nofun, .inl rfl⟩
  | handing c rest terminal =>
    cases rest with
    | cons o rest => exact ⟨nofun, .inl rfl⟩
    | nil =>
      cases terminal with
      | false => exact .near nofun (by simp [ObserverPhase.rank])
      | true => exact absurd (h.1.all (h.2.2 rfl).1.symm) hl
  | _ => simp [ObserverPhase.isHanding] at hp

end Step

section Runs

variable {catalog : Catalog} {after : Nat} {s t : Watched} {h : List (WatchMove × Option RunObservation)}

def WatchOk (catalog : Catalog) (instanceId : ClientInstanceId) (runId : RunId) (after : Nat)
    (out : List RunObservation) (s : Watched) : Prop :=
  (runSystem catalog).Reachable s.system ∧ Stands s.system.db (instanceId, runId) after out s.phase

theorem watch_step_ok (h : WatchOk catalog instanceId runId after out s)
    (he : (watch catalog instanceId runId).enabled s a) :
    WatchOk catalog instanceId runId after (out ++ ((watch catalog instanceId runId).answer s a).toList)
      ((watch catalog instanceId runId).next s a) := by
  obtain ⟨hs, hp⟩ := h
  have hg := runSystem_logsOk hs
  cases a with
  | system st =>
    exact ⟨hs.next he, Hands.silent (hp.moved (moved catalog hg st))⟩
  | goes => exact ⟨hs, observerStep_ok hg hp he.1⟩
  | takes => exact ⟨hs, observerTake_ok hg hp⟩
  | refused | leaves =>
    have hfailed : Stands s.system.db (instanceId, runId) after out .failed := hp.part
    exact ⟨hs, Hands.silent hfailed⟩

theorem delivered_append (h : List (WatchMove × Option RunObservation)) :
    delivered (h ++ h') = delivered h ++ delivered h' := List.filterMap_append ..

theorem delivered_cons : delivered ((a, answer) :: h) = answer.toList ++ delivered h := by
  cases answer <;> simp [delivered]

theorem watch_ok (hs : WatchOk catalog instanceId runId after [] s)
    (hr : (watch catalog instanceId runId).Run s h t) :
    WatchOk catalog instanceId runId after (delivered h) t := by
  have hstep : ∀ h s a, WatchOk catalog instanceId runId after (delivered h) s →
      (watch catalog instanceId runId).enabled s a →
      WatchOk catalog instanceId runId after (delivered (h ++ [(a, (watch catalog instanceId runId).answer s a)]))
        ((watch catalog instanceId runId).next s a) := by
    intro h s a hs he
    rw [delivered_append, delivered_cons]
    simpa [delivered] using watch_step_ok hs he
  have hnil : WatchOk catalog instanceId runId after (delivered []) s := hs
  exact hr.history hstep hnil

def ownMove (phase : ObserverPhase) : WatchMove := if phase.isHanding then .takes else .goes

theorem ownMove_ok (h : WatchOk catalog instanceId runId after out s)
    (hl : out ≠ storedAfter s.system.db instanceId runId after) (hf : s.phase ≠ .failed) :
    (watch catalog instanceId runId).enabled s (ownMove s.phase) ∧
      ((watch catalog instanceId runId).next s (ownMove s.phase)).system = s.system ∧
      GetsOn s.phase ((watch catalog instanceId runId).answer s (ownMove s.phase),
        ((watch catalog instanceId runId).next s (ownMove s.phase)).phase) := by
  obtain ⟨hs, hp⟩ := h
  have hg := runSystem_logsOk hs
  rw [storedAfter_eq hg] at hl
  unfold ownMove
  split
  · exact ⟨‹_›, rfl, observerTake_getsOn hp hl ‹_›⟩
  · refine ⟨⟨‹_›, fun hover => ?_⟩, rfl, observerStep_getsOn hg hp hl ‹_› hf⟩
    cases hphase : s.phase <;> simp [hphase, ObserverPhase.isOver] at hover hf
    rw [hphase] at hp
    exact hl hp.1

theorem watch_catchesUp (h : WatchOk catalog instanceId runId after out s) (hf : s.phase ≠ .failed)
    (hn : 8 * (storedAfter s.system.db instanceId runId after).length + s.phase.rank ≤ 8 * out.length + n) :
    ∃ h t, (watch catalog instanceId runId).Run s h t ∧ t.system = s.system ∧
      out ++ delivered h = storedAfter s.system.db instanceId runId after := by
  induction n generalizing s out with
  | zero =>
    have hpart : out <+: storedAfter s.system.db instanceId runId after := by
      rw [storedAfter_eq (runSystem_logsOk h.1)]
      exact h.2.part
    refine ⟨[], s, .nil, rfl, ?_⟩
    simpa [delivered] using hpart.eq_of_length_le (by omega)
  | succ n ih =>
    by_cases hl : out = storedAfter s.system.db instanceId runId after
    · exact ⟨[], s, .nil, rfl, by simpa [delivered] using hl⟩
    obtain ⟨he, hsys, hnext, hgets⟩ := ownMove_ok h hl hf
    have hok := watch_step_ok h he
    have hmeasure : 8 * (storedAfter s.system.db instanceId runId after).length +
        ((watch catalog instanceId runId).next s (ownMove s.phase)).phase.rank ≤
          8 * (out ++ ((watch catalog instanceId runId).answer s (ownMove s.phase)).toList).length + n := by
      rcases hgets with hsome | hrank
      · obtain ⟨o, ho⟩ := Option.isSome_iff_exists.mp hsome
        have hle : ((watch catalog instanceId runId).next s (ownMove s.phase)).phase.rank ≤ 6 := by
          cases ((watch catalog instanceId runId).next s (ownMove s.phase)).phase <;>
            simp [ObserverPhase.rank]
        simp only at ho
        rw [ho, List.length_append, Option.toList_some, List.length_singleton]
        omega
      · simp only at hrank
        simp only [List.length_append]
        omega
    obtain ⟨h', t, hr, ht, hout⟩ := ih hok hnext (by rwa [hsys])
    refine ⟨_, t, .cons he hr, ht.trans hsys, ?_⟩
    rw [delivered_cons, ← List.append_assoc, hout, hsys]

/-- The end of a log behind `after` is its terminal observation, if anything is there. -/
theorem RunOk.ended_behind (h : RunOk r log) (hend : r.Ended) :
    (∃ earlier last, log.drop after = earlier ++ [last] ∧ last.type.ends = some r.status) ∨
      (log.drop after = [] ∧ log.length ≤ after) := by
  obtain ⟨first, last, rfl, hlast, _⟩ := h.ended hend
  obtain hle | hlt := Nat.lt_or_ge first.length after |>.symm
  · exact .inl ⟨first.drop after, last, List.drop_append_of_le_length hle, hlast⟩
  · have hlen : (first ++ [last]).length ≤ after := by rwa [List.length_append, List.length_singleton]
    exact .inr ⟨List.drop_eq_nil_iff.mpr hlen, hlen⟩

theorem observed_ok (catalog : Catalog) (instanceId : ClientInstanceId) (runId : RunId) (after : Nat) (s t : Watched)
    (h : List (WatchMove × Option RunObservation)) (hs : (runSystem catalog).Reachable s.system)
    (hp : s.phase = .opening after ∨ s.phase = .looking after)
    (hr : (watch catalog instanceId runId).Run s h t) : Observed catalog instanceId runId after h t := by
  have hstart : Stands s.system.db (instanceId, runId) after [] s.phase := by
    rcases hp with hp | hp <;> rw [hp] <;> exact TakenTo.start
  have hok := watch_ok ⟨hs, hstart⟩ hr
  have hg := runSystem_logsOk hok.1
  have hstored : storedAfter t.system.db instanceId runId after =
      (t.system.db.logOf (instanceId, runId)).drop after := storedAfter_eq hg
  refine ⟨?_, ?_, fun hend => ?_, fun hf => watch_catchesUp hok hf (Nat.le_add_left _ _)⟩
  · rw [hstored]
    exact (logOf_numbered hg).pairwise.drop
  · rw [hstored]
    exact hok.2.part
  · have hstand := hok.2
    rw [hend] at hstand
    obtain ⟨hall, r, hmem, hkey, hended⟩ := hstand
    have hlen : (t.system.db.logOf (instanceId, runId)).length = r.lastSequence := hkey ▸ logOf_length hg hmem
    have hrun : RunOk r (t.system.db.logOf (instanceId, runId)) := hkey ▸ hg.runs r hmem
    refine ⟨hall.trans hstored.symm, r, hmem, hkey, hended, ?_⟩
    rw [hall, ← hlen]
    exact hrun.ended_behind hended

end Runs

namespace Example

def writeDelta : Step := ⟨5, 5, .write row "r" (.observation ⟨"r", 1, 5, .messageDelta [("delta", "hi")]⟩)⟩
def closeDelta : Step := ⟨6, 6, .write row "r" (.runEnd none [⟨"r", 2, 6, .runCancelled none⟩])⟩

def observer : Watched := ⟨after [accept, claimJob, claim, cancel], .looking 0⟩

def observing : List WatchMove :=
  [.goes, .goes, .goes, .goes, .goes, .goes, .system writeDelta, .goes, .system closeDelta, .goes, .goes, .takes,
    .takes]

def observed : Watched := (watch catalog "i" "r").after observer observing

theorem observer_reachable : (runSystem catalog).Reachable observer.system :=
  (((empty_reachable.next (a := accept) (by decide)).next (a := claimJob) (by decide)).next (a := claim)
    (by decide)).next (a := cancel) (by decide)

instance : ∀ s a, Decidable ((watch catalog "i" "r").enabled s a) :=
  fun s a => inferInstanceAs (Decidable (watchEnabled catalog s a))

theorem observing_allowed : (watch catalog "i" "r").Allows observer observing := by decide

end Example

theorem observed_ok_waiting : Observed Example.catalog "i" "r" 0
      ((watch Example.catalog "i" "r").history Example.observer Example.observing) Example.observed ∧
    (delivered ((watch Example.catalog "i" "r").history Example.observer Example.observing)).map (·.sequence) = [1, 2] ∧
      Example.observed.phase = .ended :=
  ⟨observed_ok _ _ _ 0 _ _ _ Example.observer_reachable (.inr rfl) Example.observing_allowed.run, by decide,
    by decide⟩

end Catalyst.Runs
