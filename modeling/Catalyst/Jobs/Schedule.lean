import Catalyst.Jobs.Outcome

/-!
# Schedules go on

The tick of a schedule ends in one of two transactions, and both enqueue the next one under the
key that the ended tick gives up. Until then the key keeps a second tick out.
-/

namespace Catalyst.Jobs

open Library

variable {q : Queue} {i : ClientInstanceId} {kind : String}

def JobRow.liveTick (i : ClientInstanceId) (kind : String) (r : JobRow) : Prop :=
  r.liveWithKey i kind (scheduleDedupeKey kind)
  deriving Decidable

def Worker.Carries (w : Worker) (i : ClientInstanceId) (kind : String) : Prop :=
  w.clientInstanceId = i ∧ (w.scheduleOf kind).isSome
  deriving Decidable

def ServedWithSchedule (i : ClientInstanceId) (kind : String) (s : State) (st : Step) : Prop :=
  match st.action with
  | .settle w _ row _ _ => row.ofKind i kind → w.Carries i kind
  | .bury w jobId _ => ∀ r ∈ s.queue.rows, r.id = jobId → r.ofKind i kind → w.Carries i kind
  | _ => True

theorem enqueueJob_live {job : JobKind} {options : EnqueueJobOptions} (hkey : options.dedupeKey = some key) :
    ∃ r ∈ (enqueueJob q now job payload options).2.rows, r.liveWithKey options.clientInstanceId job.kind key := by
  unfold enqueueJob
  cases h : liveHolder q job options with
  | some existing =>
    have hfind : q.rows.find? (fun r => r.liveWithKey options.clientInstanceId job.kind key) = some existing := by
      simpa [liveHolder, hkey] using h
    exact ⟨existing, List.mem_of_find?_eq_some hfind, by simpa using List.find?_some hfind⟩
  | none => exact ⟨queuedJob q now job payload options, by simp, ⟨rfl, rfl⟩, hkey, .inl rfl⟩

theorem enqueueJob_mem {job : JobKind} {options : EnqueueJobOptions} (hr : r ∈ q.rows) :
    r ∈ (enqueueJob q now job payload options).2.rows := by
  unfold enqueueJob
  split
  · exact hr
  · exact List.mem_append_left _ hr

theorem enqueueTickAfter_mem {w : Worker} {ending : JobEnding} (hr : r ∈ q.rows) :
    r ∈ (w.enqueueTickAfter q now row ending).rows := by
  unfold Worker.enqueueTickAfter
  split
  · exact hr
  · exact hr
  · exact hr
  · split
    · exact enqueueJob_mem hr
    · exact hr

theorem enqueueTickAfter_live {w : Worker} {ending : JobEnding} (hw : w.Carries i kind) (hr : r.liveTick i kind)
    (hends : ¬ (endedRow ending now r).Live) : ∃ x ∈ (w.enqueueTickAfter q now r ending).rows, x.liveTick i kind := by
  obtain ⟨rfl, hsome⟩ := hw
  obtain ⟨⟨_, rfl⟩, hkey, _⟩ := hr
  obtain ⟨schedule, hs⟩ := Option.isSome_iff_exists.mp hsome
  have hkind : schedule.kind.kind = r.kind := by simpa using List.find?_some hs
  have htick : w.isTick r := ⟨hsome, hkey⟩
  have hnext : ∃ x ∈ (enqueueNextScheduleTick q now w.clientInstanceId schedule).2.rows,
      x.liveTick w.clientInstanceId r.kind := hkind ▸ enqueueJob_live rfl
  unfold Worker.enqueueTickAfter
  cases ending with
  | succeeded | failed | dead => simpa [hs, htick] using hnext
  | retry => exact absurd (.inl rfl) hends
  | released => exact absurd (.inl rfl) hends

theorem end_live {w : Worker} {ending : JobEnding} (hids : (q.rows.map (·.id)).Nodup) (hr : r ∈ q.rows)
    (htick : r.liveTick i kind) (hrow : row ∈ q.rows) (hw : row.ofKind i kind → w.Carries i kind) :
    ∃ x ∈ (w.enqueueTickAfter (endJobAttempt q row.id ending now) now row ending).rows, x.liveTick i kind := by
  by_cases hid : r.id = row.id
  · obtain rfl : r = row := eq_of_key hids hr hrow hid
    by_cases hlive : (endedRow ending now r).Live
    · have hsame := endedRow_same ending now r
      refine ⟨_, enqueueTickAfter_mem (mem_updateWhere_of_mem hr rfl), ⟨?_, ?_⟩, hsame.dedupeKey ▸ htick.2.1, hlive⟩
      · exact hsame.clientInstanceId ▸ htick.1.1
      · exact hsame.kind ▸ htick.1.2
    · exact enqueueTickAfter_live (hw htick.1) htick hlive
  · exact ⟨r, enqueueTickAfter_mem (mem_updateWhere_of_not hr hid), htick⟩

theorem RowChange.live (h : RowChange fresh now clock a r r') (hl : r.Live) :
    r'.Live ∨ (∃ w kind row attempt hookFails, a = .settle w kind row attempt hookFails) ∨
      ∃ w jobId hookFails, a = .bury w jobId hookFails := by
  cases h with
  | unchanged | dueNow | beat | renewed => exact .inl hl
  | claimed | reclaimed => exact .inl (.inr rfl)
  | recovered | requeued => exact .inl (.inl rfl)
  | ended => exact .inr (.inl ⟨_, _, _, _, _, rfl⟩)
  | buried => exact .inr (.inr ⟨_, _, _, rfl⟩)

theorem transact_live {a : Action} {handed : List JobRow} (hq : QueueOk catalog q) (hh : ∀ row ∈ handed, HandedOk q row)
    (ha : Allowed catalog handed since clock a) (hr : r ∈ q.rows) (htick : r.liveTick i kind)
    (hsettle : ∀ w job row attempt hookFails, a = .settle w job row attempt hookFails → row.ofKind i kind → w.Carries i kind)
    (hbury : ∀ w jobId hookFails, a = .bury w jobId hookFails → ∀ x ∈ q.rows, x.id = jobId → x.ofKind i kind →
      w.Carries i kind) : ∃ x ∈ (transact q now clock a).2.rows, x.liveTick i kind := by
  have hmoves := transact_moves hq.ids_nodup now clock a
  obtain ⟨r', hr', hchange⟩ := hmoves.mem_left hr
  rcases hchange.live htick.2.2 with hlive | ⟨w, job, row, attempt, hookFails, rfl⟩ | ⟨w, jobId, hookFails, rfl⟩
  · have hsame := hchange.same
    refine ⟨r', hr', ⟨?_, ?_⟩, hsame.dedupeKey ▸ htick.2.1, hlive⟩
    · exact hsame.clientInstanceId ▸ htick.1.1
    · exact hsame.kind ▸ htick.1.2
  · simp only [transact, Worker.settle]
    cases hlock : lockLeasedJob q row.lease clock with
    | none => exact ⟨r, hr, htick⟩
    | some x =>
      -- The attempt ends the row that it was handed.
      obtain ⟨hx, hheld⟩ := lockLeasedJob_spec hlock
      obtain ⟨t, ht, _, hall⟩ := hh row ha.2.1
      obtain ⟨hsame, _⟩ := hall x hx (by rw [hheld.2.1, JobRow.lease, ht]; rfl)
      refine end_live hq.ids_nodup hr htick hx fun hof => hsettle w job row attempt hookFails rfl ⟨?_, ?_⟩
      · exact hsame.clientInstanceId ▸ hof.1
      · exact hsame.kind ▸ hof.2
  · simp only [transact, Worker.bury]
    cases hlock : lockExhaustedJob q jobId now with
    | none => exact ⟨r, hr, htick⟩
    | some x =>
      obtain ⟨hx, _, hid⟩ := lockExhaustedJob_spec hlock
      exact end_live hq.ids_nodup hr htick hx (hbury w jobId hookFails rfl x hx hid)

/-- Once ensured, a schedule has exactly one live tick after every transaction. -/
theorem schedule_ticks {catalog : Catalog} {schedule : JobSchedule} {w : Worker} {now clock : Time} {s₁ s : State}
    {h : List (Step × Answer)} (hs : (executor catalog).Reachable s₁)
    (he : (executor catalog).enabled s₁ ⟨now, clock, .ensureTick w schedule⟩)
    (hr : ((executor catalog).when (ServedWithSchedule w.clientInstanceId schedule.kind.kind)).Run
      ((executor catalog).next s₁ ⟨now, clock, .ensureTick w schedule⟩) h s) :
    count (JobRow.liveTick w.clientInstanceId schedule.kind.kind) s.queue.rows = 1 := by
  have hstart : StateOk catalog ((executor catalog).next s₁ ⟨now, clock, .ensureTick w schedule⟩) ∧
      ∃ r ∈ ((executor catalog).next s₁ ⟨now, clock, .ensureTick w schedule⟩).queue.rows,
        r.liveTick w.clientInstanceId schedule.kind.kind :=
    ⟨executor_ok (hs.next he), enqueueJob_live rfl⟩
  have hpreserves : ((executor catalog).when (ServedWithSchedule w.clientInstanceId schedule.kind.kind)).Preserves
      fun s => StateOk catalog s ∧ ∃ r ∈ s.queue.rows, r.liveTick w.clientInstanceId schedule.kind.kind := by
    rintro s ⟨now, clock, a⟩ ⟨hok, r, hr, htick⟩ ⟨he, hserved⟩
    refine ⟨executor_preserves catalog s _ hok he, transact_live hok.queue hok.handed he.2.2 hr htick ?_ ?_⟩
    · rintro w job row attempt hookFails rfl
      exact hserved
    · rintro w jobId hookFails rfl
      exact hserved
  obtain ⟨hok, r, hr, htick⟩ := hr.preserves hpreserves hstart
  exact Nat.le_antisymm (hok.queue.dedupe _ _ _) (count_pos hr htick)

instance : DecidablePred (ServedWithSchedule i kind s) := fun st =>
  match h : st.action with
  | .settle w _ row _ _ => decidable_of_iff (row.ofKind i kind → w.Carries i kind) (by simp [ServedWithSchedule, h])
  | .bury w jobId _ =>
    decidable_of_iff (∀ r ∈ s.queue.rows, r.id = jobId → r.ofKind i kind → w.Carries i kind) (by simp [ServedWithSchedule, h])
  | .enqueue .. | .ensureTick .. | .makeTickDue .. | .claim .. | .heartbeat .. | .transaction .. | .retry .. =>
    .isTrue (by simp [ServedWithSchedule, h])

instance : Decidable (((executor catalog).when (ServedWithSchedule i kind)).enabled s st) :=
  inferInstanceAs (Decidable ((executor catalog).enabled s st ∧ ServedWithSchedule i kind s st))

namespace Example

def sweepKind : JobKind where
  kind := "files.sweep"
  maxAttempts := 1
  backoff := ⟨10, 100⟩
  leaseMs := 30
  heartbeatMs := none
  concurrency := ⟨some 1, none⟩
  maxAttempts_pos := Nat.one_pos
  leaseMs_pos := sendKind.leaseMs_pos
  globally_pos := sendKind.globally_pos
  perKey_pos := sendKind.perKey_pos
  heartbeat_lt := sendKind.heartbeat_lt
  backoff_le := sendKind.backoff_le

def sweep : JobSchedule := ⟨sweepKind, 60, by decide, rfl⟩

def sweeper : Worker := ⟨"w", "i", [sweep]⟩

def sweepCatalog : Catalog := ⟨[sweepKind], by decide⟩

def ensured : Step := ⟨0, 0, .ensureTick sweeper sweep⟩

def expires : List Step :=
  [⟨1, 1, .claim sweeper sweepKind 1 []⟩, ⟨2, 2, .ensureTick sweeper sweep⟩, ⟨40, 40, .claim sweeper sweepKind 1 []⟩,
    ⟨41, 41, .bury sweeper 0 false⟩, ⟨42, 42, .retry "i" 0⟩]

def expired : State := (executor sweepCatalog).after ((executor sweepCatalog).next empty ensured) expires

end Example

theorem schedule_ticks_expired :
    Example.expired.queue.rows.map (·.status) = [.failed, .queued] ∧
      count (JobRow.liveTick "i" "files.sweep") Example.expired.queue.rows = 1 := by
  have hs : (executor Example.sweepCatalog).Reachable Example.empty := ⟨Example.empty, [], ⟨rfl, rfl⟩, .nil⟩
  have he : (executor Example.sweepCatalog).enabled Example.empty Example.ensured := by decide
  have hallows : ((executor Example.sweepCatalog).when (ServedWithSchedule "i" "files.sweep")).Allows
      ((executor Example.sweepCatalog).next Example.empty Example.ensured) Example.expires := by decide
  exact ⟨by decide, schedule_ticks hs he hallows.run⟩

end Catalyst.Jobs
