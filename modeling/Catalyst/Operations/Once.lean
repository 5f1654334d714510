import Catalyst.Operations.Model

/-!
# One execution a key

A call holds a run from the statement that hands it out to the statement that ends it. While
it holds the run, nobody else writes it but the sweeps, and these never make it run again;
once the operation's `execute` was entered for it, it never runs again.
-/

namespace Catalyst.Operations

open Library Library.Check Library.Processes

variable {db : Db}

-- -----------------
-- The table
-- -----------------

structure OperationRun.Same (r r' : OperationRun) : Prop where
  id : r'.id = r.id
  operation : r'.operation = r.operation
  effect : r'.effect = r.effect
  actor : r'.actor = r.actor
  idempotencyKey : r'.idempotencyKey = r.idempotencyKey
  inputHash : r'.inputHash = r.inputHash

structure OperationRun.Of (call : Call) (r : OperationRun) : Prop where
  operation : r.operation = call.operation
  effect : r.effect = call.effect
  actor : r.actor = call.actor
  idempotencyKey : r.idempotencyKey = call.idempotencyKey
  inputHash : r.inputHash = call.inputHash

theorem OperationRun.Of.same (h : r.Of call) (hs : OperationRun.Same r r') : r'.Of call :=
  ⟨hs.operation.trans h.operation, hs.effect.trans h.effect, hs.actor.trans h.actor,
    hs.idempotencyKey.trans h.idempotencyKey, hs.inputHash.trans h.inputHash⟩

theorem OperationRun.Same.holdsKey {actor : Actor} (hs : OperationRun.Same r r') : r'.holdsKey actor key ↔ r.holdsKey actor key := by
  simp [OperationRun.holdsKey, hs.actor, hs.idempotencyKey]

theorem ended_same (r : OperationRun) (e : OperationRunEnd) : r.Same (r.ended e) := by
  cases e <;> exact ⟨rfl, rfl, rfl, rfl, rfl, rfl⟩

theorem reopened_same (r : OperationRun) : r.Same r.reopened := ⟨rfl, rfl, rfl, rfl, rfl, rfl⟩

theorem interrupted_same (r : OperationRun) : r.Same r.interrupted := ⟨rfl, rfl, rfl, rfl, rfl, rfl⟩

theorem expired_same (r : OperationRun) : r.Same { r with status := .expired } := ⟨rfl, rfl, rfl, rfl, rfl, rfl⟩

structure Db.Ok (db : Db) : Prop where
  ids : (db.runs.map (·.id)).Nodup
  fresh : ∀ r ∈ db.runs, r.id < db.fresh
  keys : ∀ r ∈ db.runs, ∀ r' ∈ db.runs, ∀ actor key, r.holdsKey actor key → r'.holdsKey actor key → r = r'
  changing : ∀ r ∈ db.runs, r.idempotencyKey.isSome → r.effect = .changing

def Db.update (db : Db) (p : OperationRun → Prop) [DecidablePred p] (f : OperationRun → OperationRun) : Db :=
  { db with runs := updateWhere p f db.runs }

section update

variable {p : OperationRun → Prop} [DecidablePred p] {f : OperationRun → OperationRun}

theorem Db.Ok.update (hd : db.Ok) (hf : ∀ r : OperationRun, r.Same (f r)) : (db.update p f).Ok := by
  have hsame : ∀ r ∈ (db.update p f).runs, ∃ x ∈ db.runs, x.Same r ∧ r = if p x then f x else x := by
    intro r hr
    obtain ⟨x, hx, rfl⟩ := mem_updateWhere.mp hr
    refine ⟨x, hx, ?_, rfl⟩
    split
    · exact hf x
    · exact ⟨rfl, rfl, rfl, rfl, rfl, rfl⟩
  refine ⟨?_, ?_, ?_, ?_⟩
  · rw [Db.update, map_updateWhere _ fun r _ => (hf r).id]
    exact hd.ids
  · intro r hr
    obtain ⟨x, hx, hs, _⟩ := hsame r hr
    exact hs.id ▸ hd.fresh x hx
  · intro r hr r' hr' actor key hk hk'
    obtain ⟨x, hx, hs, rfl⟩ := hsame r hr
    obtain ⟨x', hx', hs', rfl⟩ := hsame r' hr'
    rw [hd.keys x hx x' hx' actor key (hs.holdsKey.mp hk) (hs'.holdsKey.mp hk')]
  · intro r hr hkey
    obtain ⟨x, hx, hs, _⟩ := hsame r hr
    rw [hs.effect]
    exact hd.changing x hx (hs.idempotencyKey ▸ hkey)

theorem Db.update_exists {Q : OperationRun → Prop} (h : ∃ r ∈ db.runs, Q r) (hq : ∀ r ∈ db.runs, Q r → p r → Q (f r)) :
    ∃ r ∈ (db.update p f).runs, Q r := by
  obtain ⟨r, hr, hQ⟩ := h
  by_cases hp : p r
  · exact ⟨f r, mem_updateWhere_of_mem hr hp, hq r hr hQ hp⟩
  · exact ⟨r, mem_updateWhere_of_not hr hp, hQ⟩

end update

theorem Db.Ok.holder_eq_some (hd : db.Ok) :
    db.runs.find? (·.holdsKey actor key) = some r ↔ r ∈ db.runs ∧ r.holdsKey actor key := by
  constructor
  · intro h
    exact ⟨List.mem_of_find?_eq_some h, by simpa using List.find?_some h⟩
  · rintro ⟨hr, hk⟩
    cases h : db.runs.find? (·.holdsKey actor key) with
    | none => exact absurd hk (by simpa using List.find?_eq_none.mp h r hr)
    | some held =>
      have hheld : held.holdsKey actor key := by simpa using List.find?_some h
      rw [hd.keys held (List.mem_of_find?_eq_some h) r hr actor key hheld hk]

def OperationRun.Unexecuted (r : OperationRun) : Prop := r.status = .failed ∧ ∃ e ∈ r.error, e.unexecuted

theorem Db.Ok.runsAgain_iff (hd : db.Ok) (hr : r ∈ db.runs) (hk : r.holdsKey actor key) :
    r.runsAgain ↔ r.Unexecuted := by
  have hchanging := hd.changing r hr (by rw [hk.2.1]; exact hk.2.2)
  simp [OperationRun.runsAgain, OperationRun.Unexecuted, hchanging]

inductive Created (db : Db) (call : Call) : Option OperationRun × Db → Prop
  | fresh : (∀ r ∈ db.runs, ¬ r.holdsKey call.actor call.idempotencyKey) →
    Created db call (some (newRun db.fresh call), { db with runs := newRun db.fresh call :: db.runs, fresh := db.fresh + 1 })
  | again : held ∈ db.runs → held.holdsKey call.actor call.idempotencyKey → held.Unexecuted → held.sameCall call →
    Created db call (some held.reopened, db.update (·.id = held.id) OperationRun.reopened)
  | taken : held ∈ db.runs → held.holdsKey call.actor call.idempotencyKey → ¬ (held.Unexecuted ∧ held.sameCall call) →
    Created db call (none, db)

theorem createOperationRun_created (hd : db.Ok) (call : Call) : Created db call (createOperationRun db call) := by
  unfold createOperationRun
  cases hf : db.runs.find? (·.holdsKey call.actor call.idempotencyKey) with
  | none => exact .fresh fun r hr => by simpa using List.find?_eq_none.mp hf r hr
  | some held =>
    obtain ⟨hheld, hkey⟩ := hd.holder_eq_some.mp hf
    have hsame : held.sameCall call ↔ held.operation = call.operation ∧ held.inputHash = call.inputHash := by
      simp [OperationRun.sameCall, hkey.1]
    simp only
    split
    · rename_i h
      exact .again hheld hkey ((hd.runsAgain_iff hheld hkey).mp h.1) (hsame.mpr h.2)
    · rename_i h
      refine .taken hheld hkey fun hu => h ⟨(hd.runsAgain_iff hheld hkey).mpr hu.1, hsame.mp hu.2⟩

theorem Created.ok (h : Created db call out) (hd : db.Ok) (hc : call.idempotencyKey.isSome → call.effect = .changing) :
    out.2.Ok := by
  cases h with
  | taken => exact hd
  | again => exact hd.update reopened_same
  | fresh hno =>
    refine ⟨?_, ?_, ?_, ?_⟩
    · refine List.nodup_cons.mpr ⟨fun h => ?_, hd.ids⟩
      obtain ⟨r, hr, hid⟩ := List.mem_map.mp h
      exact absurd (hd.fresh r hr) (by rw [hid]; exact Nat.lt_irrefl _)
    · intro r hr
      rcases List.mem_cons.mp hr with rfl | hr
      · exact Nat.lt_succ_self _
      · exact Nat.lt_succ_of_lt (hd.fresh r hr)
    · intro r hr r' hr' actor key hk hk'
      have hcall : (newRun db.fresh call).holdsKey actor key → actor = call.actor ∧ key = call.idempotencyKey :=
        fun h => ⟨h.1.symm, h.2.1.symm⟩
      rcases List.mem_cons.mp hr with rfl | hr <;> rcases List.mem_cons.mp hr' with rfl | hr'
      · rfl
      · obtain ⟨rfl, rfl⟩ := hcall hk
        exact absurd hk' (hno r' hr')
      · obtain ⟨rfl, rfl⟩ := hcall hk'
        exact absurd hk (hno r hr)
      · exact hd.keys r hr r' hr' actor key hk hk'
    · intro r hr hkey
      rcases List.mem_cons.mp hr with rfl | hr
      · exact hc hkey
      · exact hd.changing r hr hkey

def executedEnd (call : Call) : Except Thrown String → OperationRunEnd
  | .ok output => .done (if call.effect = .changing then retainedOutput output else none)
  | .error (.forbidden action reason) =>
    .denied (operationDenialError (.forbidden action reason)) (.forbidden action reason)
  | .error error => .failed { code := .app (toErrorEnvelope error).code, message := (toErrorEnvelope error).message }

def OperationRun.Active (r : OperationRun) : Prop :=
  r.status = .running ∨ (r.status = .failed ∧ r.error = some interruptedRunError)

def OperationRun.Records (call : Call) (outcome : Except Thrown String) (r : OperationRun) : Prop :=
  r.Active ∨ ∃ old : OperationRun, r = old.ended (executedEnd call outcome)

theorem OperationRun.Active.not_unexecuted {r : OperationRun} (h : r.Active) : ¬ r.Unexecuted := by
  rcases h with h | ⟨_, h⟩
  · simp [OperationRun.Unexecuted, h]
  · simp [OperationRun.Unexecuted, h, interruptedRunError]

theorem OperationRun.Active.not_expired {r : OperationRun} (h : r.Active) : ¬ r.isExpired now := by
  rcases h with h | ⟨h, _⟩ <;> simp [OperationRun.isExpired, h]

theorem interrupted_active (r : OperationRun) : r.interrupted.Active := .inr ⟨rfl, rfl⟩

theorem executedEnd_status (old : OperationRun) (call : Call) (outcome : Except Thrown String) :
    (old.ended (executedEnd call outcome)).status ≠ .running ∧
    (old.ended (executedEnd call outcome)).status ≠ .pendingConfirmation ∧
    (old.ended (executedEnd call outcome)).status ≠ .pendingApproval ∧
    ¬ (old.ended (executedEnd call outcome)).Unexecuted := by
  rcases outcome with (_ | _ | _) | _ <;>
    simp [executedEnd, OperationRun.ended, OperationRun.Unexecuted]

theorem OperationRun.Records.not_unexecuted {r : OperationRun} (h : r.Records call outcome) : ¬ r.Unexecuted := by
  rcases h with h | ⟨old, rfl⟩
  · exact h.not_unexecuted
  · exact (executedEnd_status old call outcome).2.2.2

theorem OperationRun.Records.not_expired {r : OperationRun} (h : r.Records call outcome) : ¬ r.isExpired now := by
  rcases h with h | ⟨old, rfl⟩
  · exact h.not_expired
  · obtain ⟨_, hc, ha, _⟩ := executedEnd_status old call outcome
    exact fun he => he.1.elim hc ha

def enteredRuns (log : List Event) : List OperationRunId :=
  log.filterMap fun
    | .entered run _ _ => some run
    | _ => none

theorem mem_enteredRuns : run ∈ enteredRuns log ↔ ∃ call outcome, Event.entered run call outcome ∈ log := by
  simp only [enteredRuns, List.mem_filterMap]
  constructor
  · rintro ⟨e, he, h⟩
    cases e with
    | entered run' call outcome =>
      obtain rfl := Option.some.inj h
      exact ⟨call, outcome, he⟩
    | _ => cases h
  · rintro ⟨call, outcome, h⟩
    exact ⟨_, h, rfl⟩

theorem eq_of_entered (h : (enteredRuns log).Nodup) (he : Event.entered run call outcome ∈ log)
    (he' : Event.entered run call' outcome' ∈ log) : call = call' ∧ outcome = outcome' := by
  cases eq_of_nodup_filterMap h he he' rfl rfl
  exact ⟨rfl, rfl⟩

structure Once (log : List Event) (db : Db) : Prop where
  ok : db.Ok
  recorded : ∀ run call outcome, .entered run call outcome ∈ log →
    ∃ r ∈ db.runs, r.id = run ∧ r.Of call ∧ r.Records call outcome
  once : (enteredRuns log).Nodup

def OperationRun.Stands (active : Bool) (r : OperationRun) : Prop := if active then r.Active else ¬ r.Unexecuted

theorem OperationRun.Stands.not_unexecuted {r : OperationRun} (h : r.Stands active) : ¬ r.Unexecuted := by
  cases active with
  | true => exact OperationRun.Active.not_unexecuted h
  | false => exact h

def Waits (log : List Event) (db : Db) (call : Call) (run : OperationRunId) (active : Bool) : Prop :=
  run ∉ enteredRuns log ∧ ∃ r ∈ db.runs, (r.id = run ∧ r.Of call) ∧ r.Stands active

theorem Waits.inactive (h : Waits log db call run active) : Waits log db call run false :=
  have ⟨hno, r, hr, hof, hs⟩ := h
  ⟨hno, r, hr, hof, hs.not_unexecuted⟩

def OperationRunEnd.Final : OperationRunEnd → Prop
  | .failed _ => False
  | _ => True

section statements

variable {log : List Event} {call : Call} {run : OperationRunId}

theorem Waits.update {p : OperationRun → Prop} [DecidablePred p] {f : OperationRun → OperationRun}
    (hf : ∀ r : OperationRun, r.Same (f r))
    (hq : ∀ r ∈ db.runs, r.id = run → r.Stands active → p r → (f r).Stands active) (h : Waits log db call run active) :
    Waits log (db.update p f) call run active :=
  ⟨h.1, Db.update_exists h.2 fun r hr hQ hp =>
    ⟨⟨(hf r).id.trans hQ.1.1, hQ.1.2.same (hf r)⟩, hq r hr hQ.1.1 hQ.2 hp⟩⟩

theorem Once.update {p : OperationRun → Prop} [DecidablePred p] {f : OperationRun → OperationRun}
    (hf : ∀ r : OperationRun, r.Same (f r))
    (hq : ∀ r ∈ db.runs, ∀ call outcome, Event.entered r.id call outcome ∈ log → r.Of call → r.Records call outcome → p r →
      (f r).Records call outcome) (h : Once log db) : Once log (db.update p f) := by
  refine ⟨h.ok.update hf, fun run call outcome he => ?_, h.once⟩
  refine Db.update_exists (h.recorded run call outcome he) ?_
  rintro r hr ⟨rfl, hof, hrec⟩ hp
  exact ⟨(hf r).id, hof.same (hf r), hq r hr call outcome he hof hrec hp⟩

theorem Waits.created (h : Waits log db call run active) (hd : db.Ok) (hc : Created db call' out) :
    Waits log out.2 call run active := by
  cases hc with
  | taken => exact h
  | fresh =>
    obtain ⟨hno, r, hr, hQ⟩ := h
    exact ⟨hno, r, List.mem_cons_of_mem _ hr, hQ⟩
  | again hheld hkey hu hsame =>
    refine h.update reopened_same fun r hr hid hs hp => ?_
    rw [eq_of_key hd.ids hr hheld hp] at hs
    exact absurd hu hs.not_unexecuted

theorem Once.created (h : Once log db) (hc : Created db call' out)
    (hchanging : call'.idempotencyKey.isSome → call'.effect = .changing) : Once log out.2 := by
  cases hc with
  | taken => exact h
  | fresh hno =>
    refine ⟨(Created.fresh hno).ok h.ok hchanging, fun run call outcome he => ?_, h.once⟩
    obtain ⟨r, hr, hQ⟩ := h.recorded run call outcome he
    exact ⟨r, List.mem_cons_of_mem _ hr, hQ⟩
  | again hheld hkey hu hsame =>
    refine h.update reopened_same fun r hr call outcome _ _ hrec hp => ?_
    rw [eq_of_key h.ok.ids hr hheld hp] at hrec
    exact absurd hu hrec.not_unexecuted

theorem Waits.finished (h : Waits log db call run active) (e : OperationRunEnd) (hne : run ≠ id') :
    Waits log (finishOperationRun db id' e) call run active :=
  h.update (ended_same · e) fun _ _ hid _ hp => absurd (hid.symm.trans hp.1) hne

theorem Waits.finishes (h : Waits log db call run active) (e : OperationRunEnd) (he : e.Final) :
    Waits log (finishOperationRun db id' e) call run false :=
  h.inactive.update (ended_same · e) fun r _ _ _ _ => by
    cases e <;> first | exact he.elim | simp [OperationRun.ended, OperationRun.Stands, OperationRun.Unexecuted]

theorem Once.finished (h : Once log db) (e : OperationRunEnd)
    (he : run ∉ enteredRuns log ∨ ∃ call outcome, Event.entered run call outcome ∈ log ∧ e = executedEnd call outcome) :
    Once log (finishOperationRun db run e) := by
  refine h.update (ended_same · e) fun r _ call outcome hent _ _ hp => ?_
  obtain ⟨rfl, _⟩ := hp
  rcases he with hno | ⟨call', outcome', he, rfl⟩
  · exact absurd (mem_enteredRuns.mpr ⟨_, _, hent⟩) hno
  · obtain ⟨rfl, rfl⟩ := eq_of_entered h.once hent he
    exact .inr ⟨r, rfl⟩

theorem Waits.swept (h : Waits log db call run active) (sweep : Sweep) : Waits log (sweep.run db) call run active := by
  cases sweep with
  | markExpired now =>
    refine h.update expired_same fun r _ _ hs hp => ?_
    cases active with
    | true => exact absurd hp (OperationRun.Active.not_expired hs)
    | false => simp [OperationRun.Stands, OperationRun.Unexecuted]
  | markInterrupted id' =>
    refine h.update interrupted_same fun r _ _ _ _ => ?_
    cases active with
    | true => exact interrupted_active r
    | false => exact (interrupted_active r).not_unexecuted

theorem Once.swept (h : Once log db) (sweep : Sweep) : Once log (sweep.run db) := by
  cases sweep with
  | markExpired now => exact h.update expired_same fun r _ _ _ _ _ hrec hp => absurd hp hrec.not_expired
  | markInterrupted id' => exact h.update interrupted_same fun r _ _ _ _ _ _ _ => .inl (interrupted_active r)

end statements

-- -----------------
-- Calls that hold a run
-- -----------------

def Phase.live : Phase → Option OperationRunId
  | .deciding run | .executing run | .ending run _ _ _ | .announcing run _ .guarded => some run
  | _ => none

def Going.Executed (log : List Event) (g : Going) (run : OperationRunId) : Prop :=
  .entered run g.call g.script.execute ∈ log

def Going.Relies (log : List Event) (db : Db) (g : Going) : Prop :=
  (g.call.idempotencyKey.isSome → g.call.effect = .changing) ∧
  match g.phase with
  | .deciding run => Waits log db g.call run true
  | .announcing run _ .guarded => Waits log db g.call run false
  | .executing run => g.Executed log run
  | .ending run ended _ .guarded => Waits log db g.call run false ∧ ended.Final
  | .ending run ended _ .caught =>
    Waits log db g.call run false ∨ (g.Executed log run ∧ ended = executedEnd g.call g.script.execute)
  | .ending run ended _ .completed => g.Executed log run ∧ ended = executedEnd g.call g.script.execute
  | _ => True

theorem Going.Relies.mono {q : Going} (h : q.Relies log db) (hlog : log ⊆ log')
    (hw : ∀ run active, q.phase.live = some run → Waits log db q.call run active → Waits log' db' q.call run active) :
    q.Relies log' db' := by
  refine ⟨h.1, ?_⟩
  obtain ⟨_, h⟩ := h
  cases hp : q.phase with
  | creating | finding => trivial
  | deciding run =>
    simp only [hp] at h ⊢
    exact hw run _ (by rw [hp]; rfl) h
  | executing run =>
    simp only [hp] at h ⊢
    exact hlog h
  | ending run ended result stage =>
    have hw := hw run false (by rw [hp]; rfl)
    cases stage <;> simp only [hp] at h ⊢
    · exact ⟨hw h.1, h.2⟩
    · exact h.imp hw fun h => ⟨hlog h.1, h.2⟩
    · exact ⟨hlog h.1, h.2⟩
  | announcing run result stage =>
    cases stage <;> simp only [hp] at h ⊢
    exact hw run _ (by rw [hp]; rfl) h

theorem Going.Relies.live_row {q : Going} (h : q.Relies log db) (ho : Once log db) (hl : q.phase.live = some run) :
    ∃ r ∈ db.runs, r.id = run ∧ ¬ r.Unexecuted := by
  have hwaits : ∀ active, Waits log db q.call run active → ∃ r ∈ db.runs, r.id = run ∧ ¬ r.Unexecuted := by
    rintro active ⟨_, r, hr, ⟨hid, _⟩, hs⟩
    exact ⟨r, hr, hid, hs.not_unexecuted⟩
  have hexecuted : q.Executed log run → ∃ r ∈ db.runs, r.id = run ∧ ¬ r.Unexecuted := fun he => by
    obtain ⟨r, hr, hid, _, hrec⟩ := ho.recorded _ _ _ he
    exact ⟨r, hr, hid, hrec.not_unexecuted⟩
  obtain ⟨_, h⟩ := h
  cases hp : q.phase with
  | creating | finding => simp [hp, Phase.live] at hl
  | deciding run' =>
    simp only [hp, Phase.live, Option.some.injEq] at h hl
    exact hwaits _ (hl ▸ h)
  | executing run' =>
    simp only [hp, Phase.live, Option.some.injEq] at h hl
    exact hexecuted (hl ▸ h)
  | ending run' ended result stage =>
    cases stage <;> simp only [hp, Phase.live, Option.some.injEq] at h hl <;> subst hl
    · exact hwaits _ h.1
    · exact h.elim (hwaits _) fun h => hexecuted h.1
    · exact hexecuted h.1
  | announcing run' result stage =>
    cases stage <;> simp only [hp, Phase.live, Option.some.injEq, reduceCtorEq] at h hl
    exact hwaits _ (hl ▸ h)

structure Frames (log : List Event) (g : Going) (db db' : Db) : Prop where
  once : Once log db'
  waits : ∀ run call active, g.phase.live ≠ some run → Waits log db call run active → Waits log db' call run active

/-- A step of a call keeps what holds of the table and what the others rely on, and what the call relies
on afterwards holds. -/
structure Goes (log : List Event) (db : Db) (g : Going) (out : StepResult) : Prop where
  once : Once (log ++ out.1.toList) out.2.2
  others : ∀ q : Going, (∀ run, g.phase.live = some run → q.phase.live ≠ some run) → q.Relies log db →
    q.Relies (log ++ out.1.toList) out.2.2
  next : ∀ t, out.2.1 = some t → ∃ g', t = .going g' ∧ g'.Relies (log ++ out.1.toList) out.2.2 ∧
    ∀ q : Going, q.Relies log db → (∀ run, g.phase.live = some run → q.phase.live ≠ some run) →
      ∀ run, g'.phase.live = some run → q.phase.live ≠ some run

section steps

variable {log : List Event} {db' : Db} {g : Going}

theorem Frames.refl (h : Once log db) : Frames log g db db := ⟨h, fun _ _ _ _ h => h⟩

def Event.Silent : Event → Prop
  | .entered _ _ _ => False
  | _ => True

theorem enteredRuns_silent {e : Event} (he : e.Silent) : enteredRuns (log ++ [e]) = enteredRuns log := by
  cases e with
  | entered => exact he.elim
  | rejected | answered => simp [enteredRuns]

theorem Waits.silent {e : Event} (he : e.Silent) (h : Waits log db call run active) :
    Waits (log ++ [e]) db call run active :=
  ⟨by rw [enteredRuns_silent he]; exact h.1, h.2⟩

theorem Once.silent {e : Event} (he : e.Silent) (h : Once log db) : Once (log ++ [e]) db := by
  refine ⟨h.ok, fun run call outcome hmem => h.recorded run call outcome ?_, by rw [enteredRuns_silent he]; exact h.once⟩
  rcases List.mem_append.mp hmem with hmem | hmem
  · exact hmem
  · cases List.mem_singleton.mp hmem
    exact he.elim

theorem Going.Relies.silent {e : Event} (he : e.Silent) {q : Going} (h : q.Relies log db) : q.Relies (log ++ [e]) db :=
  h.mono (List.subset_append_left _ _) fun _ _ _ hw => hw.silent he

theorem goes_answers (hf : Frames log g db db') (answer : Answer) : Goes log db g (g.answers db' answer) := by
  refine ⟨hf.once.silent trivial, fun q hq h => ?_, fun t ht => by cases ht⟩
  exact h.mono (List.subset_append_left _ _) fun run _ hl hw =>
    (hf.waits run _ _ (fun hg => hq run hg hl) hw).silent trivial

theorem goes_phase (hf : Frames log g db db') {g' : Going} (hr : g'.Relies log db')
    (hlive : ∀ run, g'.phase.live = some run → g.phase.live = some run ∨ ∀ q : Going, q.Relies log db →
      q.phase.live ≠ some run) : Goes log db g (none, some (.going g'), db') := by
  have hlog : log ++ (none : Option Event).toList = log := List.append_nil _
  refine ⟨?_, fun q hq h => ?_, fun t ht => ?_⟩
  · rw [hlog]
    exact hf.once
  · rw [hlog]
    exact h.mono (List.Subset.refl _) fun run _ hl hw => hf.waits run _ _ (fun hg => hq run hg hl) hw
  · rw [hlog]
    refine ⟨g', (Option.some.inj ht).symm, hr, fun q hq hapart run hl => ?_⟩
    rcases hlive run hl with hg | hno
    · exact hapart run hg
    · exact hno q hq

theorem create_goes (ho : Once log db) (hg : g.Relies log db) :
    Goes log db g (g.create db n) := by
  have hc := createOperationRun_created ho.ok g.call
  have hf : Frames log g db (createOperationRun db g.call).2 :=
    ⟨ho.created hc hg.1, fun run call _ _ h => h.created ho.ok hc⟩
  unfold Going.create
  cases g.script.fault g.sent with
  | beforeCommit => exact goes_answers (.refl ho) _
  | afterCommit => exact goes_answers hf _
  | none =>
    generalize createOperationRun db g.call = out at hc hf
    cases hc with
    | taken =>
      simp only
      split
      · exact goes_answers hf _
      · exact goes_phase hf ⟨hg.1, trivial⟩ (by simp [Phase.live])
    | fresh hno =>
      have hnew : db.fresh ∉ enteredRuns log := fun h => by
        obtain ⟨call, outcome, he⟩ := mem_enteredRuns.mp h
        obtain ⟨r, hr, hid, _⟩ := ho.recorded _ _ _ he
        exact Nat.lt_irrefl _ (hid ▸ ho.ok.fresh r hr)
      have hlive : ∀ q : Going, q.Relies log db → q.phase.live ≠ some db.fresh := fun q hq hl => by
        obtain ⟨r, hr, hid, _⟩ := hq.live_row ho hl
        exact Nat.lt_irrefl _ (hid ▸ ho.ok.fresh r hr)
      refine goes_phase hf ⟨hg.1, hnew, _, List.mem_cons_self, ⟨rfl, rfl, rfl, rfl, rfl, rfl⟩, ?_⟩ ?_
      · exact .inl rfl
      · rintro _ ⟨⟩
        exact .inr hlive
    | @again held hheld hkey hu hsame =>
      have hnot : ∀ r ∈ db.runs, r.id = held.id → r.Unexecuted := fun r hr hid =>
        eq_of_key ho.ok.ids hr hheld hid ▸ hu
      have hnew : held.id ∉ enteredRuns log := fun h => by
        obtain ⟨call, outcome, he⟩ := mem_enteredRuns.mp h
        obtain ⟨r, hr, hid, _, hrec⟩ := ho.recorded _ _ _ he
        exact hrec.not_unexecuted (hnot r hr hid)
      have hlive : ∀ q : Going, q.Relies log db → q.phase.live ≠ some held.id := fun q hq hl => by
        obtain ⟨r, hr, hid, hno⟩ := hq.live_row ho hl
        exact hno (hnot r hr hid)
      have hsome : g.call.idempotencyKey.isSome := hkey.2.2
      have hof : held.Of g.call := by
        refine ⟨hsame.1, ?_, hkey.1, hkey.2.1, hsame.2.1⟩
        rw [hg.1 hsome]
        exact ho.ok.changing held hheld (hkey.2.1 ▸ hsome)
      refine goes_phase hf ⟨hg.1, hnew, held.reopened, mem_updateWhere_of_mem hheld rfl,
        ⟨rfl, hof.same (reopened_same held)⟩, ?_⟩ ?_
      · exact .inl rfl
      · rintro _ ⟨⟩
        exact .inr hlive

theorem again_goes (ho : Once log db) (hg : g.Relies log db) : Goes log db g (g.again db n) := by
  unfold Going.again
  split
  · exact goes_phase (.refl ho) ⟨hg.1, trivial⟩ (by simp [Phase.live])
  · exact goes_answers (.refl ho) _

theorem find_goes (ho : Once log db) (hg : g.Relies log db) : Goes log db g (g.find db n) := by
  unfold Going.find
  split
  · exact goes_answers (.refl ho) _
  · split
    · exact again_goes ho hg
    · split
      · exact goes_answers (.refl ho) _
      · split
        · exact goes_answers (.refl ho) _
        · exact again_goes ho hg

theorem caught_relies {g' : Going} (hg : g.call.idempotencyKey.isSome → g.call.effect = .changing)
    (hw : Waits log db g.call run false) (hc : g'.call = g.call) (hp : g'.phase = Going.caught run true error) :
    g'.Relies log db := by
  refine ⟨hc ▸ hg, ?_⟩
  cases error <;> simp only [hp, Going.caught, Going.deniedPhase, hc] <;> exact .inl hw

theorem caught_live : (Going.caught run unexecuted error).live = some run := by
  cases error <;> rfl

theorem enteredRuns_entered :
    enteredRuns (log ++ [.entered run call outcome]) = enteredRuns log ++ [run] := by
  simp [enteredRuns]

/-- The one step that enters an execution: the call's run is active, and no execution was entered for it. -/
theorem enters_goes (ho : Once log db) (hg : g.call.idempotencyKey.isSome → g.call.effect = .changing)
    (hw : Waits log db g.call run true) (hlive : g.phase.live = some run) :
    Goes log db g (some (.entered run g.call g.script.execute), some (.going { g with phase := .executing run }), db) := by
  obtain ⟨hno, r, hr, ⟨hid, hof⟩, hactive⟩ := hw
  have hwaits : ∀ run' call active, run ≠ run' → Waits log db call run' active →
      Waits (log ++ [.entered run g.call g.script.execute]) db call run' active := by
    rintro run' call active hne ⟨hno', hrow⟩
    refine ⟨fun h => ?_, hrow⟩
    rw [enteredRuns_entered] at h
    rcases List.mem_append.mp h with h | h
    · exact hno' h
    · exact hne (List.mem_singleton.mp h).symm
  refine ⟨⟨ho.ok, fun run' call outcome he => ?_, ?_⟩, fun q hq h => ?_, fun t ht => ?_⟩
  · rcases List.mem_append.mp he with he | he
    · exact ho.recorded run' call outcome he
    · cases List.mem_singleton.mp he
      exact ⟨r, hr, hid, hof, .inl hactive⟩
  · rw [Option.toList_some, enteredRuns_entered]
    exact List.nodup_append.mpr ⟨ho.once, List.nodup_singleton _, fun a ha b hb hab =>
      hno (List.mem_singleton.mp hb ▸ hab ▸ ha)⟩
  · exact h.mono (List.subset_append_left _ _) fun run' active hl hw =>
      hwaits run' _ active (fun he => hq run hlive (he ▸ hl)) hw
  · refine ⟨_, (Option.some.inj ht).symm, ⟨hg, List.mem_append_right _ List.mem_cons_self⟩, fun q _ hapart run' hl => ?_⟩
    obtain rfl : run = run' := Option.some.inj hl
    exact hapart run hlive

theorem decides_goes (ho : Once log db) (hg : g.Relies log db) (hp : g.phase = .deciding run) :
    Goes log db g (g.decides db run) := by
  have hw : Waits log db g.call run true := by
    have h := hg.2
    simpa only [hp] using h
  have hlive : g.phase.live = some run := by rw [hp]; rfl
  unfold Going.decides
  split
  · exact goes_phase (.refl ho) (caught_relies hg.1 hw.inactive rfl rfl)
      fun r h => .inl (by rw [hlive, ← h]; exact caught_live.symm)
  · exact goes_phase (.refl ho) ⟨hg.1, hw.inactive, trivial⟩ fun r h => .inl (hlive.trans h)
  · exact goes_phase (.refl ho) ⟨hg.1, hw.inactive, trivial⟩ fun r h => .inl (hlive.trans h)
  · exact enters_goes ho hg.1 hw hlive

theorem executed_goes (ho : Once log db) (hg : g.Relies log db) (hp : g.phase = .executing run) :
    Goes log db g (g.goesTo db (g.executed run g.script.execute)) := by
  have he : g.Executed log run := by
    have h := hg.2
    simpa only [hp] using h
  have hlive : g.phase.live = some run := by rw [hp]; rfl
  refine goes_phase (.refl ho) ⟨hg.1, ?_⟩ fun r h => .inl ?_
  · cases g.script.execute with
    | ok output => exact ⟨he, rfl⟩
    | error error => cases error <;> exact .inr ⟨he, rfl⟩
  · rw [hlive, ← h]
    cases g.script.execute with
    | ok output => rfl
    | error error => exact caught_live.symm

theorem throws_goes (hf : Frames log g db db') (hg : g.call.idempotencyKey.isSome → g.call.effect = .changing)
    (hlive : stage = .guarded → g.phase.live = some run) (hw : stage = .guarded → Waits log db' g.call run false) :
    Goes log db g (g.throws db' run result stage error) := by
  unfold Going.throws
  cases stage with
  | guarded =>
    exact goes_phase hf (caught_relies hg (hw rfl) rfl rfl) fun r h => .inl (by rw [hlive rfl, ← h]; exact caught_live.symm)
  | caught | completed => exact goes_answers hf _

theorem ends_goes (ho : Once log db) (hg : g.Relies log db) (hp : g.phase = .ending run ended result stage) :
    Goes log db g (g.ends db run ended result stage) := by
  have hlive : g.phase.live = some run := by rw [hp]; rfl
  have h := hg.2
  simp only [hp] at h
  have hended : run ∉ enteredRuns log ∨
      ∃ call outcome, Event.entered run call outcome ∈ log ∧ ended = executedEnd call outcome := by
    cases stage with
    | guarded => exact .inl h.1.1
    | caught => exact h.imp (·.1) fun h => ⟨_, _, h⟩
    | completed => exact .inr ⟨_, _, h⟩
  have hf : Frames log g db (finishOperationRun db run ended) :=
    ⟨ho.finished ended hended, fun run' call _ hne hw => hw.finished ended fun he => hne (he ▸ hlive)⟩
  have hguarded : stage = .guarded → Waits log db g.call run false ∧ ended.Final := by
    rintro rfl
    exact h
  have hsends : Goes log db g (g.sends (finishOperationRun db run ended) (.announcing run result stage)) := by
    refine goes_phase hf ⟨hg.1, ?_⟩ fun r hr => .inl ?_
    · cases stage with
      | guarded => exact (hguarded rfl).1.finishes ended (hguarded rfl).2
      | caught | completed => trivial
    · cases stage with
      | guarded => exact hlive.trans hr
      | caught | completed => cases hr
  unfold Going.ends
  cases g.script.fault g.sent with
  | beforeCommit => exact throws_goes (.refl ho) hg.1 (fun _ => hlive) fun hs => (hguarded hs).1
  | afterCommit =>
    exact throws_goes hf hg.1 (fun _ => hlive) fun hs => (hguarded hs).1.finishes ended (hguarded hs).2
  | none =>
    cases ended with
    | pendingApproval => exact goes_answers hf _
    | done | failed | denied => exact hsends

theorem announces_goes (ho : Once log db) (hg : g.Relies log db) (hp : g.phase = .announcing run result stage) :
    Goes log db g (g.announces db run result stage) := by
  unfold Going.announces
  split
  · exact goes_answers (.refl ho) _
  · refine throws_goes (.refl ho) hg.1 ?_ ?_
    · rintro rfl
      rw [hp]; rfl
    · rintro rfl
      have h := hg.2
      simpa only [hp] using h

theorem step_goes (ho : Once log db) (hg : g.Relies log db) : Goes log db g (g.step db) := by
  unfold Going.step
  split
  · exact create_goes ho hg
  · exact find_goes ho hg
  · rename_i hp
    exact decides_goes ho hg hp
  · rename_i hp
    exact executed_goes ho hg hp
  · rename_i hp
    exact ends_goes ho hg hp
  · rename_i hp
    exact announces_goes ho hg hp

end steps

theorem readIdempotencyKey_changing (h : readIdempotencyKey request definition = .ok key) (hk : key.isSome) :
    definition.effect = .changing := by
  unfold readIdempotencyKey at h
  split at h
  · cases h
    cases hk
  all_goals assumption

theorem callOf_keyed {platform : Platform} (h : platform.callOf request = .ok call) :
    call.idempotencyKey.isSome → call.effect = .changing := by
  simp only [Platform.callOf, bind_ok, pure_ok] at h
  obtain ⟨definition, _, _, _, _, _, _, _, key, hkey, rfl⟩ := h
  exact readIdempotencyKey_changing hkey

def Process.live : Process → Option OperationRunId
  | .refused _ _ => none
  | .going g => g.phase.live

def once : Assertions Db Process Event where
  holds := Once
  relies log db
    | .refused _ _ => True
    | .going g => g.Relies log db
  apart p q := ∀ run, p.live = some run → q.live ≠ some run

theorem relies_silent {e : Event} (he : e.Silent) (q : Process) (h : once.relies log db q) :
    once.relies (log ++ [e]) db q := by
  cases q with
  | refused => trivial
  | going q => exact Going.Relies.silent he h

theorem start_live {platform : Platform} : (platform.startOf input).live = none := by
  unfold Platform.startOf
  split <;> rfl

theorem relies_swept {sweep : Sweep} (q : Process) (h : once.relies log db q) : once.relies log (sweep.run db) q := by
  cases q with
  | refused => trivial
  | going q => exact Going.Relies.mono h (List.Subset.refl _) fun _ _ _ hw => hw.swept sweep

theorem once_inductive (platform : Platform) : (operationCalls platform).Inductive once fun _ _ => True where
  symm p q h run hq hp := h run hp hq
  start log s input _ _ := by
    refine ⟨?_, fun q run hl => by rw [show ((operationCalls platform).start input).live = none from start_live] at hl; cases hl⟩
    change once.relies log s.store (platform.startOf input)
    unfold Platform.startOf
    cases hc : platform.callOf input.1 with
    | error e => trivial
    | ok call => exact ⟨callOf_keyed hc, trivial⟩
  step log s pid t hs _ _ ht _ := by
    cases t with
    | refused request error =>
      exact ⟨⟨hs.holds.silent trivial, fun q _ hq => relies_silent (e := .rejected request error) trivial q hq⟩, fun t' ht' => by cases ht'⟩
    | going g =>
      have hg : Goes log s.store g (g.step s.store) := step_goes hs.holds ht
      refine ⟨⟨hg.once, fun q hap hq => ?_⟩, fun t' ht' => ?_⟩
      · cases q with
        | refused => trivial
        | going q => exact hg.others q hap.1 hq
      · obtain ⟨g', rfl, hr, hlive⟩ := hg.next t' ht'
        refine ⟨hr, fun q hq hap _ => ?_⟩
        cases q with
        | refused => exact fun _ _ h => by cases h
        | going q => exact hlive q hq hap
  env log s sweep hs _ := by
    have hlog : log ++ (none : Option Event).toList = log := List.append_nil _
    refine ⟨?_, fun q _ hq => ?_⟩
    · rw [show ((operationCalls platform).env s.store sweep).1 = none from rfl, hlog]
      exact hs.holds.swept sweep
    · rw [show ((operationCalls platform).env s.store sweep).1 = none from rfl, hlog]
      exact relies_swept q hq

end Catalyst.Operations
