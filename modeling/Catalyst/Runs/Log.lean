import Catalyst.Runs.System

/-!
# A run and its log

`RunOk` ties a row to the observations stored of it. `RunStep` is what one write
does to the pair; it never starts from a run that ended. Every function of the
store writes by steps, so every transaction keeps `RunOk` and never takes back
what a run has become.
-/

namespace Catalyst.Runs

open Library Library.Tx Jobs

-- -----------------
-- The pair of a row and its log
-- -----------------

def AgentRun.key (r : AgentRun) : ClientInstanceId × RunId := (r.clientInstanceId, r.id)

def RunObservation.key (o : RunObservation) : ClientInstanceId × RunId :=
  (o.clientInstanceId, o.runId)

def Db.log (db : Db) (r : AgentRun) : List RunObservation :=
  db.observations.filter fun o => o.key = r.key

def AgentRun.Ended (r : AgentRun) : Prop :=
  r.status = .completed ∨ r.status = .failed ∨ r.status = .cancelled
  deriving Decidable

def AgentRun.CancellationRequested (r : AgentRun) : Prop := r.cancellationRequestedAt.isSome
  deriving Decidable

def EventType.ends : EventType → Option AgentRunStatus
  | .runCompleted => some .completed
  | .runFailed => some .failed
  | .runCancelled => some .cancelled
  | _ => none

theorem not_ended_of_inProgress {r : AgentRun} (h : r.InProgress) : ¬ r.Ended := by
  intro he
  rcases h with h | h | h | h <;> rcases he with h' | h' | h' <;> rw [h] at h' <;> cases h'

structure RunOk (r : AgentRun) (log : List RunObservation) : Prop where
  sequences : log.map (·.sequence) = List.range' 1 r.lastSequence
  going : ¬ r.Ended → ∀ o ∈ log, o.type.ends = none
  ended : r.Ended → ∃ earlier last, log = earlier ++ [last] ∧ last.type.ends = some r.status ∧
    ∀ o ∈ earlier, o.type.ends = none
  asked : r.CancellationRequested →
    r.status = .cancelling ∨ r.status = .cancelled ∨ r.status = .failed

/-- One write of a run: the row it leaves and the observations it stores. -/
structure RunStep (r r' : AgentRun) (new : List RunObservation) : Prop where
  key : r'.key = r.key
  going : ¬ r.Ended
  queued : r.status ≠ .queued → r'.status ≠ .queued
  asked : r.CancellationRequested → r'.CancellationRequested
  log : (new = [] ∧ r'.lastSequence = r.lastSequence ∧ ¬ r'.Ended) ∨
    ∃ o, new = [o] ∧ o.key = r.key ∧ o.sequence = r.lastSequence + 1 ∧
      r'.lastSequence = r.lastSequence + 1 ∧ (r'.Ended → o.type.ends = some r'.status) ∧
      (¬ r'.Ended → o.type.ends = none)
  answered : (r.CancellationRequested → r.status = .cancelling) → r'.CancellationRequested →
    r'.status = .cancelling ∨ r'.status = .cancelled ∨ r'.status = .failed

theorem RunStep.emits (h : RunStep r r' new) : ∀ o ∈ new, o.key = r.key := by
  rcases h.log with ⟨rfl, _⟩ | ⟨o, rfl, hk, _⟩
  · simp
  · simpa using hk

theorem RunOk.step (h : RunOk r log) (hs : RunStep r r' new) : RunOk r' (log ++ new) := by
  have hlog := h.going hs.going
  have hcancelling : r.CancellationRequested → r.status = .cancelling := fun ha => by
    rcases h.asked ha with h' | h' | h'
    · exact h'
    · exact absurd (.inr (.inr h')) hs.going
    · exact absurd (.inr (.inl h')) hs.going
  rcases hs.log with ⟨rfl, hl, hn⟩ | ⟨o, rfl, _, ho, hl, he, hn⟩
  · rw [List.append_nil]
    exact ⟨hl ▸ h.sequences, fun _ => hlog, fun h => absurd h hn, hs.answered hcancelling⟩
  · refine ⟨?_, fun hr => ?_, fun hr => ⟨log, o, rfl, he hr, hlog⟩, hs.answered hcancelling⟩
    · rw [List.map_append, h.sequences, hl, List.range'_concat]
      simp [ho, Nat.add_comm]
    · intro x hx
      rcases List.mem_append.mp hx with hx | hx
      · exact hlog x hx
      · rw [List.mem_singleton.mp hx]
        exact hn hr

structure LogsOk (db : Db) : Prop where
  keys_nodup : (db.runs.map AgentRun.key).Nodup
  runs : ∀ r ∈ db.runs, RunOk r (db.log r)
  owned : ∀ o ∈ db.observations, ∃ r ∈ db.runs, o.key = r.key

structure Later (db db' : Db) (r r' : AgentRun) : Prop where
  key : r'.key = r.key
  ended : r.Ended → r' = r ∧ db'.log r' = db.log r
  queued : r.status ≠ .queued → r'.status ≠ .queued
  asked : r.CancellationRequested → r'.CancellationRequested

def Evolves (db db' : Db) : Prop := ∀ r ∈ db.runs, ∃ r' ∈ db'.runs, Later db db' r r'

theorem Evolves.refl (db : Db) : Evolves db db :=
  fun r hr => ⟨r, hr, rfl, fun _ => ⟨rfl, rfl⟩, id, id⟩

theorem Evolves.trans (h : Evolves a b) (h' : Evolves b c) : Evolves a c := by
  intro r hr
  obtain ⟨r₁, hr₁, h₁⟩ := h r hr
  obtain ⟨r₂, hr₂, h₂⟩ := h' r₁ hr₁
  refine ⟨r₂, hr₂, h₂.key.trans h₁.key, fun he => ?_, fun hq => h₂.queued (h₁.queued hq),
    fun ha => h₂.asked (h₁.asked ha)⟩
  obtain ⟨rfl, hl₁⟩ := h₁.ended he
  obtain ⟨rfl, hl₂⟩ := h₂.ended he
  exact ⟨rfl, hl₂.trans hl₁⟩

/-- The tables are sound, nothing a run had become since `db₀` was taken back, and the
queue is `q`. -/
def Good (db₀ : Db) (q : Queue) (db : Db) : Prop :=
  LogsOk db ∧ Evolves db₀ db ∧ db.queue = q

theorem Good.of_same (h : Good db₀ q db) (hr : db'.runs = db.runs)
    (ho : db'.observations = db.observations) (hq : db'.queue = q') : Good db₀ q' db' := by
  obtain ⟨⟨hk, hruns, howned⟩, he, _⟩ := h
  have hlog : ∀ r, db'.log r = db.log r := fun r => by rw [Db.log, Db.log, ho]
  refine ⟨⟨hr ▸ hk, fun r h => ?_, ho ▸ hr ▸ howned⟩, fun r h => ?_, hq⟩
  · rw [hlog]; exact hruns r (hr ▸ h)
  · obtain ⟨r', hr', hl⟩ := he r h
    exact ⟨r', hr ▸ hr', hl.key, fun h => hlog r' ▸ hl.ended h, hl.queued, hl.asked⟩

/-- A write moves the rows it names by a step and stores what each step emits. -/
theorem Good.write {p : AgentRun → Prop} [DecidablePred p] {f : AgentRun → AgentRun}
    (h : Good db₀ q db) (emit : AgentRun → List RunObservation)
    (hs : ∀ r ∈ db.runs, p r → RunStep r (f r) (emit (f r)))
    (hr : db'.runs = updateWhere p f db.runs)
    (ho : db'.observations = db.observations ++ ((db.runs.filter p).map f).flatMap emit)
    (hq : db'.queue = db.queue) : Good db₀ q db' := by
  obtain ⟨⟨hk, hruns, howned⟩, he, hqueue⟩ := h
  have hkey : ∀ r ∈ db.runs, (if p r then f r else r).key = r.key := fun r hm => by
    split
    · exact (hs r hm ‹_›).key
    · rfl
  have hmap : db'.runs.map AgentRun.key = db.runs.map AgentRun.key := by
    rw [hr, updateWhere, List.map_map]
    exact List.map_congr_left hkey
  have hemit : ∀ r ∈ db.runs, ∀ o ∈ (if p r then emit (f r) else []), o.key = r.key := by
    intro r hm o ho
    split at ho
    · exact (hs r hm ‹_›).emits o ho
    · cases ho
  have hlog : ∀ r ∈ db.runs, db'.log (if p r then f r else r)
      = db.log r ++ if p r then emit (f r) else [] := by
    intro r hm
    rw [Db.log, hkey r hm, ho, flatMap_returning, List.filter_append]
    exact congrArg _ (filter_flatMap_key hk hemit hm)
  have hstep : ∀ r ∈ db.runs, Later db db' r (if p r then f r else r) := by
    intro r hm
    refine ⟨hkey r hm, fun hend => ?_, fun hq => ?_, fun ha => ?_⟩
    · have hl := hlog r hm
      by_cases hp : p r
      · exact absurd hend (hs r hm hp).going
      · rw [if_neg hp, if_neg hp, List.append_nil] at hl
        rw [if_neg hp]
        exact ⟨rfl, hl⟩
    · split
      · exact (hs r hm ‹_›).queued hq
      · exact hq
    · split
      · exact (hs r hm ‹_›).asked ha
      · exact ha
  refine ⟨⟨hmap ▸ hk, fun r' hr' => ?_, fun o ho' => ?_⟩, Evolves.trans he fun r hm => ?_,
    hq.trans hqueue⟩
  · rw [hr] at hr'
    obtain ⟨r, hm, rfl⟩ := mem_updateWhere.mp hr'
    rw [hlog r hm]
    by_cases hp : p r
    · simpa only [hp, if_true] using (hruns r hm).step (hs r hm hp)
    · simpa only [hp, if_false, List.append_nil] using hruns r hm
  · have hin : ∃ r ∈ db.runs, o.key = r.key := by
      rw [ho, flatMap_returning] at ho'
      rcases List.mem_append.mp ho' with ho' | ho'
      · exact howned o ho'
      · obtain ⟨r, hm, hoe⟩ := List.mem_flatMap.mp ho'
        exact ⟨r, hm, hemit r hm o hoe⟩
    obtain ⟨r, hm, hok⟩ := hin
    exact ⟨_, hr ▸ mem_updateWhere.mpr ⟨r, hm, rfl⟩, hok.trans (hkey r hm).symm⟩
  · exact ⟨_, hr ▸ mem_updateWhere.mpr ⟨r, hm, rfl⟩, hstep r hm⟩

theorem updateRuns_ok {p : AgentRun → Prop} [DecidablePred p] :
    updateRuns p f db = .ok (rows, db') ↔
      rows = (db.runs.filter p).map f ∧ db' = { db with runs := updateWhere p f db.runs } := by
  simp only [updateRuns, bind_ok, get_ok, modify_ok, pure_ok]
  constructor
  · rintro ⟨_, _, ⟨rfl, rfl⟩, _, _, rfl, rfl, rfl⟩
    exact ⟨rfl, rfl⟩
  · rintro ⟨rfl, rfl⟩
    exact ⟨_, _, ⟨rfl, rfl⟩, (), _, rfl, rfl, rfl⟩

theorem updateRuns_good {p : AgentRun → Prop} [DecidablePred p] {f : AgentRun → AgentRun}
    (hs : ∀ r, p r → RunStep r (f r) []) : Keeps (Good db₀ q) (updateRuns p f) := by
  intro db rows db' hg h
  obtain ⟨_, rfl⟩ := updateRuns_ok.mp h
  exact hg.write (fun _ => []) (fun r _ hp => hs r hp) rfl (by simp) rfl

theorem Good.emit {p : AgentRun → Prop} [DecidablePred p] {f : AgentRun → AgentRun}
    (h : Good db₀ q db) (observe : AgentRun → RunObservation)
    (hs : ∀ r, p r → RunStep r (f r) [observe (f r)]) (hr : db'.runs = updateWhere p f db.runs)
    (ho : db'.observations = db.observations ++ ((db.runs.filter p).map f).map observe)
    (hq : db'.queue = db.queue) : Good db₀ q db' := by
  refine h.write (fun r => [observe r]) (fun r _ hp => hs r hp) hr ?_ hq
  rw [ho]
  induction (db.runs.filter p).map f with
  | nil => rfl
  | cons x xs ih => simpa using ih

theorem Good.emitOne {p : AgentRun → Prop} [DecidablePred p] {f : AgentRun → AgentRun}
    (h : Good db₀ q db) (k : ClientInstanceId × RunId)
    (observe : AgentRun → RunObservation) (hk : ∀ r, p r → r.key = k)
    (hs : ∀ r, p r → RunStep r (f r) [observe (f r)])
    (hrow : ((db.runs.filter p).map f).head? = some row)
    (hr : db'.runs = updateWhere p f db.runs)
    (ho : db'.observations = db.observations ++ [observe row]) (hq : db'.queue = db.queue) :
    Good db₀ q db' := by
  refine h.emit observe hs hr (ho.trans ?_) hq
  cases hf : db.runs.filter p with
  | nil => simp [hf] at hrow
  | cons x xs =>
    have hx : x ∈ db.runs.filter p := by simp [hf]
    obtain ⟨hx, hp⟩ := List.mem_filter.mp hx
    rw [← hf, filter_eq_singleton h.1.keys_nodup (fun r _ hp => hk r hp) hx (by simpa using hp)]
    simp [hf] at hrow
    simp [hrow]

theorem cancelling_of_answered {r : AgentRun} (ha : r.CancellationRequested → r.status = .cancelling)
    (hr : r.CancellationRequested) :
    r.status = .cancelling ∨ r.status = .cancelled ∨ r.status = .failed := .inl (ha hr)

theorem claimedRun_step (h : r.status = .queued) :
    RunStep r (claimedRun lease leaseMs now r) [] where
  key := rfl
  going := not_ended_of_inProgress (.inl h)
  queued _ := fun h => nomatch h
  asked := id
  log := .inl ⟨rfl, rfl, fun h => by rcases h with h | h | h <;> cases h⟩
  answered ha hr := by have := ha hr; rw [h] at this; cases this

theorem renewed_step (h : r.Started) :
    RunStep r { r with
      leaseExpiresAt := expiresAt, heartbeatAt := heartbeatAt, updatedAt := updatedAt } [] where
  key := rfl
  going := not_ended_of_inProgress (.inr h)
  queued := id
  asked := id
  log := .inl ⟨rfl, rfl, not_ended_of_inProgress (.inr h)⟩
  answered := cancelling_of_answered

theorem cancelledRun_step (h : r.status = .queued) :
    RunStep r (cancelledRun requestedAt reason r)
      [observationOf (cancelledRun requestedAt reason r)
        ⟨runId, (cancelledRun requestedAt reason r).lastSequence, requestedAt,
          .runCancelled reason⟩] where
  key := rfl
  going := not_ended_of_inProgress (.inl h)
  queued _ := fun h => nomatch h
  asked _ := rfl
  log := .inr ⟨_, rfl, rfl, rfl, rfl, fun _ => rfl, fun hn => absurd (.inr (.inr rfl)) hn⟩
  answered _ _ := .inr (.inl rfl)

theorem cancellingRun_step (h : r.Started) :
    RunStep r (cancellingRun requestedAt reason r) [] where
  key := rfl
  going := not_ended_of_inProgress (.inr h)
  queued _ := fun h => nomatch h
  asked _ := rfl
  log := .inl ⟨rfl, rfl, fun h => by rcases h with h | h | h <;> cases h⟩
  answered _ _ := .inl rfl

theorem failedRun_step (h : r.InProgress) :
    RunStep r (failedRun now error r) [runFailedObservation now error (failedRun now error r)] where
  key := rfl
  going := not_ended_of_inProgress h
  queued _ := fun h => nomatch h
  asked := id
  log := .inr ⟨_, rfl, rfl, rfl, rfl, fun _ => rfl, fun hn => absurd (.inr (.inl rfl)) hn⟩
  answered _ _ := .inr (.inr rfl)

/-- An event moves a started run. One that ends or suspends it finds it not cancelling. -/
theorem observedRun_step (h : r.Started) (hseq : r.lastSequence + 1 = event.sequence)
    (hs : event.endsOrSuspendsRun → r.status = .running ∨ r.status = .waitingForPermission) :
    RunStep r (observedRun event r) [observationOf (observedRun event r) event] := by
  have hgoing := not_ended_of_inProgress (.inr h)
  have hfree : event.endsOrSuspendsRun → (r.CancellationRequested → r.status = .cancelling) →
      ¬ r.CancellationRequested := fun he ha hr => by
    rcases hs he with h' | h' <;> rw [ha hr] at h' <;> cases h'
  obtain ⟨runId, sequence, createdAt, body⟩ := event
  cases body with
  | runCompleted =>
    exact ⟨rfl, hgoing, (fun _ h => nomatch h), id,
      .inr ⟨_, rfl, rfl, hseq.symm, hseq.symm, fun _ => rfl, fun hn => absurd (.inl rfl) hn⟩,
      fun ha hr => absurd hr (hfree (.inl rfl) ha)⟩
  | runFailed error =>
    exact ⟨rfl, hgoing, (fun _ h => nomatch h), id,
      .inr ⟨_, rfl, rfl, hseq.symm, hseq.symm, fun _ => rfl, fun hn => absurd (.inr (.inl rfl)) hn⟩,
      fun _ _ => .inr (.inr rfl)⟩
  | runCancelled reason =>
    exact ⟨rfl, hgoing, (fun _ h => nomatch h), id,
      .inr ⟨_, rfl, rfl, hseq.symm, hseq.symm, fun _ => rfl, fun hn => absurd (.inr (.inr rfl)) hn⟩,
      fun _ _ => .inr (.inl rfl)⟩
  | toolPermissionRequested =>
    exact ⟨rfl, hgoing, (fun _ h => nomatch h), id,
      .inr ⟨_, rfl, rfl, hseq.symm, hseq.symm,
        (fun h => by rcases h with h | h | h <;> cases h), fun _ => rfl⟩,
      fun ha hr => absurd hr (hfree (.inr (.inr rfl)) ha)⟩
  | _ =>
    exact ⟨rfl, hgoing, id, id,
      .inr ⟨_, rfl, rfl, hseq.symm, hseq.symm, fun h => absurd h hgoing, fun _ => rfl⟩,
      cancelling_of_answered⟩

-- -----------------
-- Each function of the store
-- -----------------

theorem requireJobLease_ok : requireJobLease lease clock db = .ok (u, db') ↔
    (∃ r ∈ db.queue.rows, r.heldBy lease clock) ∧ db = db' := by
  simp only [requireJobLease, bind_ok, get_ok, require_ok]
  constructor
  · rintro ⟨_, _, ⟨rfl, rfl⟩, h, rfl⟩; exact ⟨h, rfl⟩
  · rintro ⟨h, rfl⟩; exact ⟨_, _, ⟨rfl, rfl⟩, h, rfl⟩

theorem requireJobLease_good : Keeps (Good db₀ q) (requireJobLease lease clock) := by
  intro db u db' hg h
  obtain ⟨_, rfl⟩ := requireJobLease_ok.mp h
  exact hg

theorem claimAgentRunForJob_good : Keeps (Good db₀ q) (claimAgentRunForJob claim leaseMs now) := by
  refine Triple.bind (updateRuns_good fun r h => claimedRun_step h.2) fun rows => ?_
  refine Triple.bind Triple.get fun db => ?_
  cases rows with
  | cons row rows => exact Triple.pure fun _ h => h.2
  | nil => exact Triple.pure fun _ h => h.2

theorem renewAgentRunJobLease_good : Keeps (Good db₀ q) (renewAgentRunJobLease claim leaseMs now) :=
  Triple.bind (updateRuns_good fun _ h => renewed_step h.2.2) fun _ => Triple.pure fun _ h => h

theorem ofRow_key {r : AgentRun} (h : r.ofRow instanceId runId) : r.key = (instanceId, runId) :=
  Prod.ext h.1 h.2

theorem requestAgentRunCancellation_good :
    Keeps (Good db₀ q) (requestAgentRunCancellation instanceId runId requestedAt reason) := by
  intro db a db' hg h
  simp only [requestAgentRunCancellation, bind_ok, get_ok, need_ok] at h
  obtain ⟨_, _, ⟨rfl, rfl⟩, locked, _, ⟨hl, rfl⟩, h⟩ := h
  split at h
  · simp only [bind_ok, updateRuns_ok, need_ok, insertObservations, modify_ok, pure_ok] at h
    obtain ⟨_, _, ⟨rfl, rfl⟩, row, _, ⟨hrow, rfl⟩, _, _, rfl, rfl, rfl⟩ := h
    refine hg.emitOne (instanceId, runId)
      (fun r => observationOf r ⟨runId, r.lastSequence, requestedAt, .runCancelled reason⟩)
      ?_ ?_ hrow rfl rfl rfl
    · exact fun r hp => ofRow_key hp.1
    · exact fun r hp => cancelledRun_step hp.2
  · split at h
    · rename_i hstarted
      simp only [bind_ok, updateRuns_ok, need_ok] at h
      obtain ⟨_, _, ⟨rfl, rfl⟩, hrow, rfl⟩ := h
      -- the locked row is the one row the statement names
      have hmem := List.mem_of_find?_eq_some hl
      have hof : locked.ofRow instanceId runId := by simpa using List.find?_some hl
      refine hg.write (fun _ => []) (fun r hr hp => ?_) rfl (by simp) rfl
      have he : r = locked := eq_of_key hg.1.keys_nodup hr hmem
        ((ofRow_key hp).trans (ofRow_key hof).symm)
      exact cancellingRun_step (he ▸ hstarted)
    · rw [← (pure_ok.mp h).2]; exact hg

theorem insertClaimedRunObservation_good :
    Keeps (Good db₀ q) (insertClaimedRunObservation claim event) := by
  intro db a db' hg h
  simp only [insertClaimedRunObservation, bind_ok, require_ok, updateRuns_ok, need_ok,
    insertObservations, modify_ok, pure_ok] at h
  obtain ⟨_, _, ⟨_, rfl⟩, _, _, ⟨rfl, rfl⟩, row, _, ⟨hrow, rfl⟩, _, _, rfl, rfl, rfl⟩ := h
  refine hg.emitOne (claim.clientInstanceId, claim.runId) (fun r => observationOf r event) ?_ ?_ hrow rfl rfl rfl
  · exact fun r hp => ofRow_key hp.1.1
  · exact fun r hp => observedRun_step hp.1.2.2 hp.2.1 hp.2.2

theorem failLostAgentRun_good :
    Keeps (Good db₀ q) (failLostAgentRun instanceId runId jobId error now) := by
  intro db a db' hg h
  simp only [failLostAgentRun, bind_ok, updateRuns_ok, insertObservations, modify_ok, pure_ok] at h
  obtain ⟨_, _, ⟨rfl, rfl⟩, _, _, rfl, rfl, rfl⟩ := h
  exact hg.emit (runFailedObservation now error) (fun r hp => failedRun_step (.inr hp.2.1)) rfl rfl rfl

theorem failAgentRunOfLostJob_good :
    Keeps (Good db₀ q) (failAgentRunOfLostJob instanceId runId jobId now) :=
  Triple.bind failLostAgentRun_good fun _ => Triple.modify fun _ h => h.of_same rfl rfl h.2.2

theorem failAgentRunsWhere_good {condition : Db → AgentRun → Prop}
    [∀ db, DecidablePred (condition db)] (hc : ∀ db r, condition db r → r.InProgress) :
    Keeps (Good db₀ q) (failAgentRunsWhere instanceId error limit now condition) := by
  intro db a db' hg h
  simp only [failAgentRunsWhere, bind_ok, get_ok, updateRuns_ok, insertObservations, modify_ok,
    pure_ok] at h
  obtain ⟨_, _, ⟨rfl, rfl⟩, _, _, ⟨rfl, rfl⟩, _, _, rfl, rfl, rfl⟩ := h
  exact hg.emit (runFailedObservation now error) (fun r hp => failedRun_step (hc _ r hp.2.1)) rfl rfl rfl

theorem requireActiveConversationLock_ok
    (h : requireActiveConversationLock instanceId conversationId owner db = .ok (u, db')) :
    db = db' := by
  simp only [requireActiveConversationLock, bind_ok, get_ok, need_ok, require_ok] at h
  obtain ⟨_, _, ⟨rfl, rfl⟩, _, _, ⟨_, rfl⟩, _, _, ⟨_, rfl⟩, _, rfl⟩ := h
  rfl

theorem insertClaimedAgentRunMessage_good :
    Keeps (Good db₀ q) (insertClaimedAgentRunMessage claim message) := by
  intro db a db' hg h
  simp only [insertClaimedAgentRunMessage, bind_ok, get_ok, need_ok, require_ok, modify_ok] at h
  obtain ⟨_, _, ⟨rfl, rfl⟩, run, _, ⟨_, rfl⟩, _, _, ⟨_, rfl⟩, _, _, hl, _, _, ⟨_, rfl⟩, rfl⟩ := h
  obtain rfl := requireActiveConversationLock_ok hl
  exact hg.of_same rfl rfl hg.2.2

theorem requireClaimedAgentRun_good : Keeps (Good db₀ q) (requireClaimedAgentRun claim clock) :=
  Triple.bind requireJobLease_good fun _ => Triple.bind Triple.get fun _ =>
    Triple.require.post fun _ _ h => h.2.2

theorem Write.perform_good (w : Write) : Keeps (Good db₀ q) (w.perform row runId clock) := by
  cases w with
  | observation event =>
    exact (requireJobLease_good.bind fun _ => insertClaimedRunObservation_good).bind
      fun _ => Triple.pure fun _ h => h
  | message m => exact requireJobLease_good.bind fun _ => insertClaimedAgentRunMessage_good
  | runEnd m events =>
    refine requireJobLease_good.bind fun _ => ?_
    refine (Keeps.each (fun m => insertClaimedAgentRunMessage_good) _).bind fun _ => ?_
    exact Keeps.each (fun event => insertClaimedRunObservation_good.bind
      fun _ => Triple.pure fun _ h => h) _
  | approval request =>
    exact requireClaimedAgentRun_good.bind fun _ => Triple.modify fun _ h => h.of_same rfl rfl h.2.2
  | continuation conversationId providerId =>
    exact requireClaimedAgentRun_good.bind fun _ => Triple.modify fun _ h => h.of_same rfl rfl h.2.2

theorem claimRun_good : Triple (Good db₀ q) (claimRun row now checkedAt clock) fun _ =>
    Good db₀ (leasedTransaction q row.lease executeAgentRunJob.leaseMs checkedAt clock).2 := by
  intro db a db' hg h
  simp only [claimRun, bind_ok, get_ok, require_ok, need_ok, modify_ok, pure_ok] at h
  obtain ⟨_, _, ⟨rfl, rfl⟩, _, _, ⟨_, rfl⟩, runId, _, ⟨_, rfl⟩, claim, db₁, hc, _, db₂, hf,
    _, _, rfl, _, rfl⟩ := h
  have hg₁ := claimAgentRunForJob_good _ _ _ hg hc
  have hg₂ := Keeps.each (fun _ => failAgentRunOfLostJob_good) _ _ _ _ hg₁ hf
  exact hg₂.of_same rfl rfl (by rw [hg.2.2])

theorem runHook_good (hook : Hook) : Keeps (Good db₀ q) (runHook now hook) := by
  cases hook with
  | onHeartbeat row =>
    exact Keeps.each (fun _ => renewAgentRunJobLease_good.bind fun _ => Triple.pure fun _ h => h) _
  | onExhausted row => exact Keeps.each (fun _ => failAgentRunOfLostJob_good) _

theorem transactJobs_good : Triple (Good db₀ q) (transactJobs a now clock) fun _ =>
    Good db₀ (transact q now clock a).2 := by
  intro db answer db' hg h
  simp only [transactJobs, bind_ok, get_ok, modify_ok, pure_ok] at h
  obtain ⟨_, _, ⟨rfl, rfl⟩, _, db₁, hh, _, _, rfl, _, rfl⟩ := h
  have hg₁ := Keeps.each runHook_good _ _ _ _ hg hh
  exact hg₁.of_same rfl rfl (by rw [hg.2.2])

theorem Good.accept {input : AcceptedRun} (h : Good db₀ q db) (hid : ∀ r ∈ db.runs, r.id ≠ input.runId)
    (hr : db'.runs = db.runs ++ [input.row]) (ho : db'.observations = db.observations)
    (hq : db'.queue = q') : Good db₀ q' db' := by
  obtain ⟨⟨hk, hruns, howned⟩, he, _⟩ := h
  have hlog : ∀ r, db'.log r = db.log r := fun r => by rw [Db.log, Db.log, ho]
  have hfresh : ∀ r ∈ db.runs, r.key ≠ input.row.key := fun r hm hkey =>
    hid r hm (congrArg Prod.snd hkey)
  -- no observation was stored of a run that was not there
  have hempty : db.log input.row = [] := by
    rw [Db.log, List.filter_eq_nil_iff]
    intro o hm hkey
    obtain ⟨r, hr, hor⟩ := howned o hm
    exact hfresh r hr (hor.symm.trans (by simpa using hkey))
  refine ⟨⟨?_, fun r hm => ?_, fun o hm => ?_⟩, Evolves.trans he fun r hm => ?_, hq⟩
  · rw [hr, List.map_append, List.map_singleton, List.nodup_append]
    refine ⟨hk, List.nodup_singleton _, fun a ha b hb => ?_⟩
    obtain ⟨r, hm, rfl⟩ := List.mem_map.mp ha
    rw [List.mem_singleton.mp hb]
    exact hfresh r hm
  · rw [hlog]
    rw [hr] at hm
    rcases List.mem_append.mp hm with hm | hm
    · exact hruns r hm
    · rw [List.mem_singleton.mp hm, hempty]
      exact ⟨rfl, fun _ => by simp, (fun h => by rcases h with h | h | h <;> cases h),
        (fun h => by cases h)⟩
  · obtain ⟨r, hm, hor⟩ := howned o (ho ▸ hm)
    exact ⟨r, hr ▸ List.mem_append_left _ hm, hor⟩
  · exact ⟨r, hr ▸ List.mem_append_left _ hm, rfl, fun _ => ⟨rfl, hlog r⟩, id, id⟩

def queueAfter (now clock : Time) (q : Queue) : Action → Queue
  | .accept input =>
    (enqueueJob q now executeAgentRunJob [("runId", input.runId)] (agentRunJobOptions input)).2
  | .jobs a => (transact q now clock a).2
  | .claimRun row checkedAt =>
    (leasedTransaction q row.lease executeAgentRunJob.leaseMs checkedAt clock).2
  | _ => q

theorem prepareConversationRunStart_good :
    Triple (Good db₀ q) (prepareConversationRunStart input now) fun _ =>
      Good db₀ (queueAfter now clock q (.accept input)) := by
  intro db a db' hg h
  simp only [prepareConversationRunStart, bind_ok, get_ok, require_ok, modify_ok, pure_ok] at h
  obtain ⟨_, _, ⟨rfl, rfl⟩, _, _, ⟨_, rfl⟩, _, _, ⟨_, rfl⟩, _, _, ⟨⟨_, hid⟩, rfl⟩, _, _, rfl, _,
    rfl⟩ := h
  exact hg.accept hid rfl rfl (by rw [hg.2.2]; rfl)

theorem perform_good (now clock : Time) (a : Action) :
    Triple (Good db₀ q) (perform now clock a) fun _ => Good db₀ (queueAfter now clock q a) := by
  cases a with
  | accept input =>
    exact prepareConversationRunStart_good.bind fun _ => Triple.pure fun _ h => h
  | jobs a => exact transactJobs_good.bind fun _ => Triple.pure fun _ h => h
  | claimRun row checkedAt => exact claimRun_good.bind fun _ => Triple.pure fun _ h => h
  | write row runId w => exact (w.perform_good).bind fun _ => Triple.pure fun _ h => h
  | requestCancellation instanceId runId requestedAt reason =>
    exact requestAgentRunCancellation_good.bind fun _ => Triple.pure fun _ h => h
  | failLost instanceId runId jobId =>
    exact failAgentRunOfLostJob_good.bind fun _ => Triple.pure fun _ h => h
  | failQueuedTooLong instanceId error limit queuedMs =>
    exact (failAgentRunsWhere_good fun _ _ h => .inl h.1).bind fun _ => Triple.pure fun _ h => h
  | failWithoutWorker instanceId error limit =>
    exact (failAgentRunsWhere_good fun _ _ h => .inr h.1).bind fun _ => Triple.pure fun _ h => h
  | elsewhere conversations workspaces users =>
    exact (Triple.modify fun _ h => h.of_same rfl rfl h.2.2).bind
      fun _ => Triple.pure fun _ h => h

theorem runSystem_step (catalog : Catalog) (s : State) (st : Step) (h : LogsOk s.db) :
    LogsOk ((runSystem catalog).next s st).db ∧
      Evolves s.db ((runSystem catalog).next s st).db ∧
      (((runSystem catalog).next s st).db.queue = queueAfter st.now st.clock s.db.queue st.action
        ∨ ((runSystem catalog).next s st).db = s.db) := by
  have hg : Good s.db s.db.queue s.db := ⟨h, .refl s.db, rfl⟩
  cases hp : perform st.now st.clock st.action s.db with
  | error e =>
    have hn : ((runSystem catalog).next s st).db = s.db := congrArg Prod.snd (commit_error hp)
    exact ⟨hn ▸ h, hn ▸ .refl s.db, .inr hn⟩
  | ok p =>
    have hn : ((runSystem catalog).next s st).db = p.2 := congrArg Prod.snd (commit_ok hp)
    obtain ⟨hl, he, hq⟩ := perform_good st.now st.clock st.action s.db p.1 p.2 hg hp
    exact ⟨hn ▸ hl, hn ▸ he, .inl (hn ▸ hq)⟩

theorem runSystem_logsOk (hs : (runSystem catalog).Reachable s) : LogsOk s.db := by
  refine hs.invariant (I := fun s => LogsOk s.db) (fun s hs => ?_) fun s st h _ =>
    (runSystem_step catalog s st h).1
  obtain ⟨_, hr, ho, _⟩ := hs
  exact ⟨by simp [hr], by simp [hr], by simp [ho]⟩

theorem runSystem_evolves (hs : (runSystem catalog).Reachable s)
    (hrun : (runSystem catalog).Run s h t) : Evolves s.db t.db :=
  hrun.relates (I := fun s => LogsOk s.db) (R := fun s t => Evolves s.db t.db)
    (fun s => .refl s.db) (fun _ _ _ => .trans) (fun s st h _ => (runSystem_step catalog s st h).1)
    (fun s st h _ => (runSystem_step catalog s st h).2.1) (runSystem_logsOk hs)

/-- What holds of a run and its log in a state, and of both in every later state. -/
structure RunSound (catalog : Catalog) (s : State) (r : AgentRun) : Prop where
  sequences : (s.db.log r).map (·.sequence) = List.range' 1 r.lastSequence
  /-- A terminal observation has none behind it and none before it. -/
  terminal : ∀ earlier o later, s.db.log r = earlier ++ o :: later → o.type.ends.isSome →
    later = [] ∧ ∀ x ∈ earlier, x.type.ends = none
  status : ∀ status, status = .completed ∨ status = .failed ∨ status = .cancelled →
    (r.status = status ↔ ∃ o ∈ s.db.log r, o.type.ends = some status)
  frozen : r.Ended → ∀ h t, (runSystem catalog).Run s h t →
    r ∈ t.db.runs ∧ t.db.log r = s.db.log r
  started : r.status ≠ .queued → ∀ h t, (runSystem catalog).Run s h t →
    ∃ r' ∈ t.db.runs, r'.key = r.key ∧ r'.status ≠ .queued
  /-- A request to cancel a run that has not ended is kept on the row. -/
  asked : ∀ st requestedAt reason, ¬ r.Ended →
    st.action = .requestCancellation r.clientInstanceId r.id requestedAt reason →
    ∃ r' ∈ ((runSystem catalog).next s st).db.runs, r'.key = r.key ∧ r'.CancellationRequested
  cancelled : r.CancellationRequested → r.status ≠ .completed ∧
    ∀ h t, (runSystem catalog).Run s h t →
      ∃ r' ∈ t.db.runs, r'.key = r.key ∧ r'.status ≠ .completed

theorem RunOk.terminal (h : RunOk r log) (hl : log = earlier ++ o :: later)
    (ho : o.type.ends.isSome) : later = [] ∧ ∀ x ∈ earlier, x.type.ends = none := by
  have hm : o ∈ log := by simp [hl]
  by_cases hr : r.Ended
  · obtain ⟨first, last, hlog, _, hfirst⟩ := h.ended hr
    have hnot : o ∉ first := fun hf => by rw [hfirst o hf] at ho; cases ho
    rcases List.eq_nil_or_concat later with rfl | ⟨rest, x, rfl⟩
    · have heq : earlier ++ [o] = first ++ [last] := hl.symm.trans hlog
      obtain ⟨rfl, _⟩ := List.append_inj' heq rfl
      exact ⟨rfl, hfirst⟩
    · have heq : (earlier ++ o :: rest) ++ [x] = first ++ [last] := by
        rw [← hlog, hl]; simp
      obtain ⟨rfl, _⟩ := List.append_inj' heq rfl
      exact absurd (by simp) hnot
  · rw [h.going hr o hm] at ho; cases ho

theorem RunOk.status {status : AgentRunStatus} (h : RunOk r log)
    (hs : status = .completed ∨ status = .failed ∨ status = .cancelled) :
    r.status = status ↔ ∃ o ∈ log, o.type.ends = some status := by
  constructor
  · intro hr
    have hend : r.Ended := by
      rcases hs with rfl | rfl | rfl
      · exact .inl hr
      · exact .inr (.inl hr)
      · exact .inr (.inr hr)
    obtain ⟨first, last, hlog, hlast, _⟩ := h.ended hend
    exact ⟨last, by simp [hlog], hlast.trans (congrArg some hr)⟩
  · rintro ⟨o, hm, ho⟩
    by_cases hr : r.Ended
    · obtain ⟨first, last, hlog, hlast, hfirst⟩ := h.ended hr
      rw [hlog] at hm
      rcases List.mem_append.mp hm with hm | hm
      · rw [hfirst o hm] at ho; cases ho
      · rw [List.mem_singleton.mp hm, hlast] at ho
        exact Option.some.inj ho
    · rw [h.going hr o hm] at ho; cases ho

theorem requestAgentRunCancellation_marks (hg : LogsOk db) (hr : r ∈ db.runs) (hn : ¬ r.Ended) :
    ∃ r' ∈ (commit (requestAgentRunCancellation r.clientInstanceId r.id requestedAt reason)
      db).2.runs, r'.key = r.key ∧ r'.CancellationRequested := by
  have hof : r.ofRow r.clientInstanceId r.id := ⟨rfl, rfl⟩
  have hfind : db.runs.find? (fun x => x.ofRow r.clientInstanceId r.id) = some r := by
    cases hx : db.runs.find? (fun x => x.ofRow r.clientInstanceId r.id) with
    | none => exact absurd hof (by simpa using List.find?_eq_none.mp hx r hr)
    | some x =>
      have hxo : x.ofRow r.clientInstanceId r.id := by simpa using List.find?_some hx
      rw [eq_of_key hg.keys_nodup (List.mem_of_find?_eq_some hx) hr (ofRow_key hxo)]
  by_cases hq : r.status = .queued
  · have hone : db.runs.filter (fun x => x.ofRow r.clientInstanceId r.id ∧ x.status = .queued)
        = [r] :=
      filter_eq_singleton hg.keys_nodup (fun x _ hx => ofRow_key hx.1) hr ⟨hof, hq⟩
    rw [commit, requestAgentRunCancellation, bind_of_ok (get_ok.mpr ⟨rfl, rfl⟩),
      bind_of_ok (need_ok.mpr ⟨hfind, rfl⟩), if_pos hq, bind_of_ok (updateRuns_ok.mpr ⟨rfl, rfl⟩),
      hone]
    exact ⟨cancelledRun requestedAt reason r, mem_updateWhere_of_mem hr ⟨hof, hq⟩, rfl, rfl⟩
  · have hst : r.Started := by
      unfold AgentRun.Ended at hn
      unfold AgentRun.Started
      cases hs : r.status <;> simp_all
    have hone : db.runs.filter (fun x => x.ofRow r.clientInstanceId r.id) = [r] :=
      filter_eq_singleton hg.keys_nodup (fun x _ hx => ofRow_key hx) hr hof
    rw [commit, requestAgentRunCancellation, bind_of_ok (get_ok.mpr ⟨rfl, rfl⟩),
      bind_of_ok (need_ok.mpr ⟨hfind, rfl⟩), if_neg hq, if_pos hst,
      bind_of_ok (updateRuns_ok.mpr ⟨rfl, rfl⟩), hone]
    exact ⟨cancellingRun requestedAt reason r, mem_updateWhere_of_mem hr hof, rfl, rfl⟩

/-- Every run in every reachable state is sound, whatever the order of the steps. -/
theorem run_sound (catalog : Catalog) (s : State) (hs : (runSystem catalog).Reachable s) :
    (s.db.runs.map AgentRun.key).Nodup ∧ ∀ r ∈ s.db.runs, RunSound catalog s r := by
  have hg := runSystem_logsOk hs
  have hlater {h : List (Step × Except RunError Answer)} {t : State} :
      (runSystem catalog).Run s h t → Evolves s.db t.db := runSystem_evolves hs
  refine ⟨hg.keys_nodup, fun r hr => ?_⟩
  have hok := hg.runs r hr
  constructor
  case sequences => exact hok.sequences
  case terminal => exact fun _ _ _ => hok.terminal
  case status => exact fun _ => hok.status
  case frozen =>
    intro hend h t hrun
    obtain ⟨r', hr', hl⟩ := hlater hrun r hr
    obtain ⟨rfl, hlog⟩ := hl.ended hend
    exact ⟨hr', hlog⟩
  case started =>
    intro hq h t hrun
    obtain ⟨r', hr', hl⟩ := hlater hrun r hr
    exact ⟨r', hr', hl.key, hl.queued hq⟩
  case asked =>
    intro st requestedAt reason hn ha
    have hnext : ((runSystem catalog).next s st).db
        = (commit (requestAgentRunCancellation r.clientInstanceId r.id requestedAt reason) s.db).2 := by
      show (commit (perform st.now st.clock st.action) s.db).2 = _
      rw [ha]
      exact commit_bind_pure _ _ _
    rw [hnext]
    exact requestAgentRunCancellation_marks hg hr hn
  case cancelled =>
    have hnot : ∀ x log, RunOk x log → x.CancellationRequested → x.status ≠ .completed := by
      intro x log hx hxa hc
      rcases hx.asked hxa with h | h | h <;> rw [hc] at h <;> cases h
    intro ha
    refine ⟨hnot r _ hok ha, fun h t hrun => ?_⟩
    obtain ⟨r', hr', hl⟩ := hlater hrun r hr
    have hg' := runSystem_logsOk (hs.run hrun)
    exact ⟨r', hr', hl.key, hnot r' _ (hg'.runs r' hr') (hl.asked ha)⟩

namespace Example

def catalog : Catalog := ⟨[executeAgentRunJob], by decide⟩

def worker : Worker := ⟨"w", "i", []⟩

def conversation : Conversation := ⟨"c", "i", "ws", true, false, "u", 0⟩

def empty : State :=
  ⟨⟨⟨[], 0⟩, [], [], [], [conversation], [⟨"ws", "i", false, none⟩], [⟨"u", "i", none⟩], [], [],
    [], 0⟩, 0, []⟩

def input : AcceptedRun := ⟨"i", "c", "u", "r", "m", "hello", 5⟩

def row : JobRow :=
  (claimJobs (enqueueJob ⟨[], 0⟩ 1 executeAgentRunJob [("runId", "r")]
    (agentRunJobOptions input)).2 "i" executeAgentRunJob "w" 1 2 []).1.headD
    (queuedJob ⟨[], 0⟩ 0 executeAgentRunJob [] ⟨"i", none, none, none, 0⟩)

def accept : Step := ⟨1, 1, .accept input⟩
def claimJob : Step := ⟨2, 2, .jobs (.claim worker executeAgentRunJob 1 [])⟩
def claim : Step := ⟨3, 3, .claimRun row 3⟩
def cancel : Step := ⟨4, 4, .requestCancellation "i" "r" 4 none⟩
def complete : Step := ⟨5, 5, .write row "r" (.runEnd none [⟨"r", 1, 5, .runCompleted⟩])⟩
def closeCancelled : Step :=
  ⟨6, 6, .write row "r" (.runEnd none [⟨"r", 1, 6, .runCancelled none⟩])⟩

def after (steps : List Step) : State := steps.foldl (runSystem catalog).next empty

theorem empty_reachable : (runSystem catalog).Reachable empty :=
  ⟨empty, [], ⟨rfl, rfl, rfl, rfl⟩, .nil⟩

def cancelled : State := after [accept, claimJob, claim, cancel, complete, closeCancelled]

theorem cancelled_reachable : (runSystem catalog).Reachable cancelled :=
  (((((empty_reachable.next (a := accept) (by decide)).next (a := claimJob) (by decide)).next
    (a := claim) (by decide)).next (a := cancel) (by decide)).next (a := complete)
    (by decide)).next (a := closeCancelled) (by decide)

end Example

theorem run_sound_cancelled :
    Example.cancelled.db.runs.map (fun r => (r.status, r.lastSequence)) = [(.cancelled, 1)] ∧
      ∀ r ∈ Example.cancelled.db.runs, RunSound Example.catalog Example.cancelled r :=
  ⟨by decide, (run_sound _ _ Example.cancelled_reachable).2⟩

end Catalyst.Runs
