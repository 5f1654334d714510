import Catalyst.Jobs.Invariant

/-!
# Who changes a job

`RowChange` lists all that one transaction can do to a row, with the guard it
did it under. That a live lease shields the outcome, that an ended job waits
for a manual retry and that a lost lease stays lost are read off the list.
-/

namespace Catalyst.Jobs

open Library

/-- What a transaction that began at `now` and read `clock` can do to a row. -/
inductive RowChange (fresh : Nat) (now clock : Time) : Action → JobRow → JobRow → Prop
  | unchanged : RowChange fresh now clock a r r
  | dueNow : r.status = .queued → RowChange fresh now clock a r { r with runAfter := now }
  | claimed : r.status = .queued → fresh ≤ token →
      RowChange fresh now clock (.claim w kind limit locked) r
        (claimedRow kind w.workerId now token r)
  | recovered : r.Running → r.expiredBefore now → r.attempts < r.maxAttempts →
      RowChange fresh now clock (.claim w kind limit locked) r (recovered kind now r)
  | reclaimed : r.Running → r.expiredBefore now → r.attempts < r.maxAttempts → fresh ≤ token →
      RowChange fresh now clock (.claim w kind limit locked) r
        (claimedRow kind w.workerId now token (recovered kind now r))
  | beat : r.heldBy row.lease clock →
      RowChange fresh now clock (.heartbeat kind row) r
        { r with leaseExpiresAt := clock + kind.leaseMs, heartbeatAt := clock }
  | renewed : r.heldBy row.lease checkedAt →
      RowChange fresh now clock (.transaction kind row checkedAt) r
        { r with leaseExpiresAt := clock + kind.leaseMs, heartbeatAt := clock }
  | ended : r.heldBy row.lease clock →
      RowChange fresh now clock (.settle w kind row attempt hookFails) r
        (endedRow ((w.outcomeOf kind row attempt).stored hookFails) now r)
  | buried : r.exhausted now →
      RowChange fresh now clock (.bury w r.id hookFails) r (endedRow (w.buryEnding r) now r)
  | requeued : r.status = .failed ∨ r.status = .dead →
      RowChange fresh now clock (.retry r.clientInstanceId r.id) r (requeuedRow now r)

/-- The rows of `q` moved by `R`, and behind them rows that were enqueued. -/
def Moves (R : JobRow → JobRow → Prop) (q q' : Queue) : Prop :=
  q.fresh ≤ q'.fresh ∧ ∃ moved added, q'.rows = moved ++ added ∧ List.Forall₂ R q.rows moved ∧
    ∀ r ∈ added, r.status = .queued ∧ r.leaseToken = none

theorem Moves.of_forall₂ (hf : q.fresh ≤ q'.fresh) (h : List.Forall₂ R q.rows q'.rows) :
    Moves R q q' := ⟨hf, q'.rows, [], by simp, h, by simp⟩

theorem Moves.refl {R : JobRow → JobRow → Prop} (h : ∀ r ∈ q.rows, R r r) : Moves R q q :=
  .of_forall₂ (Nat.le_refl _) (List.forall₂_same.mpr h)

theorem Moves.mem_right (h : Moves R q q') (hr : r' ∈ q'.rows) :
    (∃ r ∈ q.rows, R r r') ∨ (r'.status = .queued ∧ r'.leaseToken = none) := by
  obtain ⟨_, moved, added, he, hm, ha⟩ := h
  rw [he] at hr
  rcases List.mem_append.mp hr with hr | hr
  · exact .inl (forall₂_mem_right hm hr)
  · exact .inr (ha r' hr)

theorem Moves.mem_left (h : Moves R q q') (hr : r ∈ q.rows) : ∃ r' ∈ q'.rows, R r r' := by
  obtain ⟨_, moved, added, he, hm, _⟩ := h
  obtain ⟨r', hr', h⟩ := forall₂_mem_left hm hr
  exact ⟨r', he ▸ List.mem_append_left _ hr', h⟩

theorem Moves.enqueueJob (h : Moves R q q') :
    Moves R q (enqueueJob q' now kind payload options).2 := by
  unfold Jobs.enqueueJob
  split
  · exact h
  · obtain ⟨hf, moved, added, he, hm, ha⟩ := h
    refine ⟨Nat.le_succ_of_le hf, moved, added ++ [queuedJob q' now kind payload options],
      by simp [he], hm, fun r hr => ?_⟩
    rcases List.mem_append.mp hr with hr | hr
    · exact ha r hr
    · rw [List.mem_singleton.mp hr]
      exact ⟨rfl, rfl⟩

theorem Moves.enqueueTickAfter (h : Moves R q q') (w : Worker) :
    Moves R q (w.enqueueTickAfter q' now r ending) := by
  unfold Worker.enqueueTickAfter
  split
  · exact h
  · exact h
  · exact h
  · split
    · exact h.enqueueJob
    · exact h

-- -----------------
-- What each transaction does
-- -----------------

def Taken (kind : JobKind) (workerId : WorkerId) (now : Time) (fresh : Nat) (r r' : JobRow) :
    Prop :=
  r' = r ∨ (r.status = .queued ∧ ∃ token, fresh ≤ token ∧
    r' = claimedRow kind workerId now token r)

theorem Taken.trans (h₁ : x' = x ∨ (x = r ∧ x' = claimedRow kind workerId now fresh r))
    (hs : r.status = .queued) (h₂ : Taken kind workerId now (fresh + 1) x' x'') :
    Taken kind workerId now fresh x x'' := by
  rcases h₁ with rfl | ⟨rfl, rfl⟩
  · rcases h₂ with rfl | ⟨hq, t, ht, rfl⟩
    · exact .inl rfl
    · exact .inr ⟨hq, t, by omega, rfl⟩
  · rcases h₂ with rfl | ⟨hq, _⟩
    · exact .inr ⟨hs, fresh, Nat.le_refl _, rfl⟩
    · cases hq

theorem claimLoop_rows (hq : (q.rows.map (·.id)).Nodup) :
    List.Forall₂ (Taken kind workerId now q.fresh) q.rows
      (claimLoop instanceId kind workerId now locked free q).2.rows := by
  induction free generalizing q with
  | zero => exact List.forall₂_same.mpr fun _ _ => .inl rfl
  | succ free ih =>
    rw [claimLoop]
    split
    · exact List.forall₂_same.mpr fun _ _ => .inl rfl
    · rename_i r hc
      obtain ⟨hr, _, hs, _⟩ := candidate_spec hc
      exact forall₂_comp (claimOne_rows hq hr) (ih (claimOne_ids hq hr))
        fun x y z h₁ h₂ => Taken.trans h₁ hs h₂

theorem claimLoop_fresh (q : Queue) :
    q.fresh ≤ (claimLoop instanceId kind workerId now locked free q).2.fresh := by
  induction free generalizing q with
  | zero => exact Nat.le_refl _
  | succ free ih =>
    rw [claimLoop]
    split
    · exact Nat.le_refl _
    · rename_i r _
      exact Nat.le_trans (Nat.le_succ _) (ih (claimOne q kind workerId now r).2)

theorem claimLoop_returned (hq : (q.rows.map (·.id)).Nodup)
    (hr : row ∈ (claimLoop instanceId kind workerId now locked free q).1) :
    row ∈ (claimLoop instanceId kind workerId now locked free q).2.rows ∧
      ∃ token, row.leaseToken = some token := by
  induction free generalizing q with
  | zero => simp [claimLoop] at hr
  | succ free ih =>
    cases hc : candidate q instanceId kind now locked with
    | none => simp [claimLoop, hc] at hr
    | some r =>
      simp only [claimLoop, hc] at hr ⊢
      obtain ⟨hm, _, hs, _⟩ := candidate_spec hc
      have hids : ((claimOne q kind workerId now r).2.rows.map (·.id)).Nodup := claimOne_ids hq hm
      rcases List.mem_cons.mp hr with rfl | hr
      · have hin : claimedRow kind workerId now q.fresh r ∈ (claimOne q kind workerId now r).2.rows :=
          mem_updateWhere_of_mem hm rfl
        obtain ⟨z, hz, rfl | ⟨hq', _⟩⟩ := forall₂_mem_left (claimLoop_rows hids) hin
        · exact ⟨hz, q.fresh, rfl⟩
        · cases hq'
      · exact ih hids hr

theorem claimJobs_moves (hq : (q.rows.map (·.id)).Nodup) :
    Moves (RowChange q.fresh now clock (.claim w kind limit locked)) q
      (claimJobs q w.clientInstanceId kind w.workerId limit now locked).2 := by
  have hrec : List.Forall₂ (fun r r' => r' = r ∨ (r.Running ∧ r.expiredBefore now ∧
      r.attempts < r.maxAttempts ∧ r' = recovered kind now r)) q.rows
      (recoverExpired q w.clientInstanceId kind now).rows :=
    forall₂_updateWhere (fun _ _ => .inl rfl) fun _ _ h => .inr ⟨h.2.1, h.2.2.1, h.2.2.2, rfl⟩
  have hids : ((recoverExpired q w.clientInstanceId kind now).rows.map (·.id)).Nodup := by
    rw [map_eq_of_forall₂ (hrec.imp fun x x' hx => ?_)]
    · exact hq
    · rcases hx with rfl | ⟨_, _, _, rfl⟩ <;> rfl
  refine .of_forall₂ (claimLoop_fresh (recoverExpired q w.clientInstanceId kind now))
    (forall₂_comp hrec (claimLoop_rows hids) ?_)
  rintro x y z (rfl | ⟨hr, he, ha, rfl⟩) (rfl | ⟨hs, t, ht, rfl⟩)
  · exact .unchanged
  · exact .claimed hs ht
  · exact .recovered hr he ha
  · exact .reclaimed hr he ha ht

theorem endJobAttempt_rows (hq : (q.rows.map (·.id)).Nodup) (hr : r ∈ q.rows) :
    List.Forall₂ (fun x x' => x' = x ∨ (x = r ∧ x' = endedRow ending now r)) q.rows
      (endJobAttempt q r.id ending now).rows := by
  refine forall₂_updateWhere (fun _ _ => .inl rfl) fun x hx hid => ?_
  have hxr : x = r := eq_of_key hq hx hr hid
  subst hxr
  exact .inr ⟨rfl, rfl⟩

theorem settle_moves (hq : (q.rows.map (·.id)).Nodup) :
    Moves (RowChange q.fresh now clock (.settle w kind row attempt hookFails)) q
      (w.settle q row.lease ((w.outcomeOf kind row attempt).stored hookFails) now clock).2 := by
  unfold Worker.settle
  split
  · exact .refl fun _ _ => .unchanged
  · rename_i r h
    obtain ⟨hr, hh⟩ := lockLeasedJob_spec h
    refine Moves.enqueueTickAfter ?_ w
    refine .of_forall₂ (Nat.le_refl q.fresh) ?_
    refine (endJobAttempt_rows hq hr).imp fun x x' hx => ?_
    rcases hx with rfl | ⟨rfl, rfl⟩
    · exact .unchanged
    · exact .ended hh

theorem bury_moves (hq : (q.rows.map (·.id)).Nodup) :
    Moves (RowChange q.fresh now clock (.bury w jobId hookFails)) q (w.bury q jobId now) := by
  unfold Worker.bury
  split
  · exact .refl fun _ _ => .unchanged
  · rename_i r h
    obtain ⟨hr, he, hid⟩ := lockExhaustedJob_spec h
    subst hid
    refine Moves.enqueueTickAfter ?_ w
    refine .of_forall₂ (Nat.le_refl q.fresh) ?_
    refine (endJobAttempt_rows hq hr).imp fun x x' hx => ?_
    rcases hx with rfl | ⟨rfl, rfl⟩
    · exact .unchanged
    · exact .buried he

theorem retryJob_moves (hq : (q.rows.map (·.id)).Nodup) :
    Moves (RowChange q.fresh now clock (.retry instanceId jobId)) q
      (retryJob q instanceId jobId now).2 := by
  unfold retryJob
  split
  · rename_i r h
    have hr := List.mem_of_find?_eq_some h
    have hret : r.retryable instanceId jobId := by simpa using List.find?_some h
    obtain ⟨hi, hid, hs⟩ := hret
    split
    · exact .refl fun _ _ => .unchanged
    · refine .of_forall₂ (Nat.le_refl _) (forall₂_updateWhere (fun _ _ => .unchanged) ?_)
      intro x hx hxid
      have hxr : x = r := eq_of_key hq hx hr hxid
      subst hxr hi hid
      exact .requeued hs
  · split <;> exact .refl fun _ _ => .unchanged

theorem leasedTransaction_moves (hq : (q.rows.map (·.id)).Nodup) :
    Moves (RowChange q.fresh now clock (.transaction kind row checkedAt)) q
      (leasedTransaction q row.lease kind.leaseMs checkedAt clock).2 := by
  unfold leasedTransaction
  split
  · exact .refl fun _ _ => .unchanged
  · rename_i r h
    obtain ⟨hr, hh⟩ := lockLeasedJob_spec h
    refine .of_forall₂ (Nat.le_refl _) (forall₂_updateWhere (fun _ _ => .unchanged) ?_)
    intro x hx hxl
    have hxr : x = r := eq_of_key hq hx hr (hxl.1.trans hh.1.symm)
    subst hxr
    exact .renewed hh

theorem transact_moves (hq : (q.rows.map (·.id)).Nodup) (now clock : Time) (a : Action) :
    Moves (RowChange q.fresh now clock a) q (transact q now clock a).2 := by
  cases a with
  | enqueue kind payload options =>
    exact Moves.enqueueJob (.refl fun _ _ => .unchanged)
  | ensureTick w schedule => exact Moves.enqueueJob (.refl fun _ _ => .unchanged)
  | makeTickDue w schedule =>
    exact .of_forall₂ (Nat.le_refl _) <|
      forall₂_updateWhere (fun _ _ => .unchanged) fun _ _ h => .dueNow h.2.2.1
  | claim w kind limit locked => exact claimJobs_moves hq
  | heartbeat kind row =>
    exact .of_forall₂ (Nat.le_refl _) <|
      forall₂_updateWhere (fun _ _ => .unchanged) fun _ _ h => .beat h
  | settle w kind row attempt hookFails => exact settle_moves hq
  | transaction kind row checkedAt => exact leasedTransaction_moves hq
  | bury w jobId hookFails => exact bury_moves hq
  | retry instanceId jobId => exact retryJob_moves hq

def Action.checkedAt (clock : Time) : Action → Time
  | .transaction _ _ checkedAt => checkedAt
  | _ => clock

/-- A row that carries a token drawn before the transaction carried it already, in
the same attempt, under a lease that ran as long or was live. -/
theorem RowChange.token (h : RowChange fresh now clock a r r') (hr : RowOk r)
    (ht : r'.leaseToken = some t) (hf : t < fresh) :
    r.leaseToken = some t ∧ SameJob r r' ∧ r'.attempts = r.attempts ∧ r'.status = r.status ∧
      ∀ e' ∈ r'.leaseExpiresAt, ∃ e ∈ r.leaseExpiresAt, e' = e ∨ a.checkedAt clock < e := by
  have hnone {ending : JobEnding} : (endedRow ending now r).leaseToken ≠ some t := by
    rw [(endedRow_idle ending now r).1]
    exact fun h => nomatch h
  cases h with
  | unchanged => exact ⟨ht, .refl r, rfl, rfl, fun e he => ⟨e, he, .inl rfl⟩⟩
  | dueNow => exact ⟨ht, (dueNow_eases r).same, rfl, rfl, fun e he => ⟨e, he, .inl rfl⟩⟩
  | claimed _ hle => cases ht; exact absurd hf (Nat.not_lt.mpr hle)
  | recovered => exact nomatch ht
  | reclaimed _ _ _ hle => cases ht; exact absurd hf (Nat.not_lt.mpr hle)
  | beat hh =>
    obtain ⟨e, he, hlt⟩ := hh.2.2.2
    exact ⟨ht, (beat_eases hh.2.2.1).same, rfl, rfl, fun _ _ => ⟨e, he, .inr hlt⟩⟩
  | renewed hh =>
    obtain ⟨e, he, hlt⟩ := hh.2.2.2
    exact ⟨ht, (beat_eases hh.2.2.1).same, rfl, rfl, fun _ _ => ⟨e, he, .inr hlt⟩⟩
  | ended => exact absurd ht hnone
  | buried => exact absurd ht hnone
  | requeued hs =>
    have hn : ¬ r.Running := by
      intro h
      rcases hs with h' | h' <;> rw [JobRow.Running, h'] at h <;> cases h
    exact nomatch ht.symm.trans (hr.idle hn).1

def HandedOk (q : Queue) (row : JobRow) : Prop :=
  ∃ t, row.leaseToken = some t ∧ t < q.fresh ∧
    ∀ r ∈ q.rows, r.leaseToken = some t → SameJob row r ∧ r.attempts = row.attempts

theorem SameJob.trans (h : SameJob a b) (h' : SameJob b c) : SameJob a c :=
  ⟨h'.id.trans h.id, h'.clientInstanceId.trans h.clientInstanceId, h'.kind.trans h.kind,
    h'.payload.trans h.payload, h'.maxAttempts.trans h.maxAttempts,
    h'.dedupeKey.trans h.dedupeKey, h'.concurrencyKey.trans h.concurrencyKey,
    h'.createdAt.trans h.createdAt⟩

theorem HandedOk.moves (h : HandedOk q row) (hq : ∀ r ∈ q.rows, RowOk r)
    (hm : Moves (RowChange q.fresh now clock a) q q') : HandedOk q' row := by
  obtain ⟨t, ht, hlt, hall⟩ := h
  refine ⟨t, ht, Nat.lt_of_lt_of_le hlt hm.1, fun r' hr' ht' => ?_⟩
  rcases hm.mem_right hr' with ⟨r, hr, hc⟩ | ⟨_, hn⟩
  · obtain ⟨hrt, hsame, hatt, _⟩ := hc.token (hq r hr) ht' hlt
    obtain ⟨hs, ha⟩ := hall r hr hrt
    exact ⟨hs.trans hsame, hatt.trans ha⟩
  · rw [hn] at ht'; cases ht'

theorem HandedOk.claimed (hq : QueueOk catalog q) (hr : row ∈ q.rows)
    (ht : row.leaseToken = some t) : HandedOk q row := by
  refine ⟨t, ht, hq.tokens_lt row hr t ht, fun r hr' ht' => ?_⟩
  have he : r = row := eq_of_count_le_one (hq.token_once t) hr' hr ht' ht
  subst he
  exact ⟨.refl r, rfl⟩

theorem HandedOk.fits (h : HandedOk q row) (w : Worker) (hr : r ∈ q.rows)
    (hh : r.heldBy row.lease clock) :
    ((w.outcomeOf kind row attempt).stored hookFails).Fits r := by
  obtain ⟨t, ht, _, hall⟩ := h
  have htok : r.leaseToken = some t := by rw [hh.2.1, JobRow.lease, ht]; rfl
  obtain ⟨hs, ha⟩ := hall r hr htok
  intro k code message he
  unfold Outcome.stored at he
  split at he
  · cases he
  · unfold Worker.outcomeOf at he
    split at he
    · cases he
    · cases he
    · split at he
      · cases he
      · split at he
        · rw [ha, hs.maxAttempts]; assumption
        · cases he

def Lost (q : Queue) (lease : JobLease) (clock : Time) : Prop :=
  lease.token < q.fresh ∧ ∀ r ∈ q.rows, ¬ r.heldBy lease clock

theorem Lost.later (h : Lost q lease c) (hc : c ≤ c') : Lost q lease c' :=
  ⟨h.1, fun r hr ⟨hid, ht, hrun, e, he, hlt⟩ =>
    h.2 r hr ⟨hid, ht, hrun, e, he, Nat.lt_of_le_of_lt hc hlt⟩⟩

theorem Lost.moves (h : Lost q lease since) (hq : ∀ r ∈ q.rows, RowOk r)
    (hm : Moves (RowChange q.fresh now clock a) q q') (hc : since ≤ clock')
    (ha : since ≤ a.checkedAt clock) : Lost q' lease clock' := by
  refine ⟨Nat.lt_of_lt_of_le h.1 hm.1, fun r' hr' hheld => ?_⟩
  obtain ⟨hid, htok, hrun, e', he', hlt⟩ := hheld
  rcases hm.mem_right hr' with ⟨r, hr, hchange⟩ | ⟨_, hn⟩
  · obtain ⟨ht, hsame, _, hstatus, hexp⟩ := hchange.token (hq r hr) htok h.1
    obtain ⟨e, he, hee⟩ := hexp e' he'
    refine h.2 r hr ⟨hsame.id ▸ hid, ht, hstatus.symm.trans hrun, e, he, ?_⟩
    rcases hee with rfl | hlt'
    · exact Nat.lt_of_le_of_lt hc hlt
    · exact Nat.lt_of_le_of_lt ha hlt'
  · rw [hn] at htok; cases htok

structure StateOk (catalog : Catalog) (s : State) : Prop where
  queue : QueueOk catalog s.queue
  handed : ∀ row ∈ s.handed, HandedOk s.queue row

theorem QueueOk.transact (hq : QueueOk catalog q) (hh : ∀ row ∈ handed, HandedOk q row)
    (ha : Allowed catalog handed since clock a) :
    QueueOk catalog (transact q now clock a).2 := by
  cases a with
  | enqueue kind payload options => exact hq.enqueueJob
  | ensureTick w schedule => exact hq.enqueueJob
  | makeTickDue w schedule => exact hq.makeScheduleTickDue
  | claim w kind limit locked => exact hq.claimJobs ha
  | heartbeat kind row => exact hq.heartbeatJob
  | settle w kind row attempt hookFails =>
    exact hq.settle w fun r hr hheld => (hh row ha.2.1).fits w hr hheld
  | transaction kind row checkedAt => exact hq.leasedTransaction
  | bury w jobId hookFails => exact hq.bury w
  | retry instanceId jobId => exact hq.retryJob

theorem claimJobs_returned (hq : QueueOk catalog q)
    (hr : row ∈ (claimJobs q i kind workerId limit now locked).1) :
    row ∈ (claimJobs q i kind workerId limit now locked).2.rows ∧
      ∃ t, row.leaseToken = some t :=
  claimLoop_returned hq.recoverExpired.ids_nodup hr

theorem executor_preserves (catalog : Catalog) :
    (executor catalog).Preserves (StateOk catalog) := by
  rintro s ⟨now, clock, a⟩ ⟨hq, hh⟩ ⟨_, _, ha⟩
  have hq' : QueueOk catalog (transact s.queue now clock a).2 := hq.transact hh ha
  refine ⟨hq', fun row hrow => ?_⟩
  rcases List.mem_append.mp hrow with hrow | hrow
  · exact (hh row hrow).moves hq.rows (transact_moves hq.ids_nodup now clock a)
  · cases a with
    | claim w kind limit locked =>
      obtain ⟨hm, t, ht⟩ := claimJobs_returned hq hrow
      exact .claimed hq' hm ht
    | _ => simp [Answer.rows] at hrow

theorem executor_ok (hs : (executor catalog).Reachable s) : StateOk catalog s := by
  refine hs.invariant (fun s hs => ?_) (executor_preserves catalog)
  obtain ⟨hr, hh⟩ := hs
  refine ⟨⟨?_, ?_, ?_, ?_, ?_, ?_, ?_, ?_⟩, ?_⟩ <;> simp [hr, hh]

def JobRow.outcome (r : JobRow) : JobStatus × Nat × Option String × Option String × Option Time :=
  (r.status, r.attempts, r.errorCode, r.errorMessage, r.finishedAt)

/-- The transaction is the end of the attempt that holds the live lease of `r`. -/
def Step.settles (st : Step) (r : JobRow) : Prop :=
  ∃ w kind row attempt hookFails, st.action = .settle w kind row attempt hookFails ∧
    r.heldBy row.lease st.clock

def Step.sweeps (st : Step) (r : JobRow) : Prop :=
  r.expiredBefore st.now ∧
    ((∃ w kind limit locked, st.action = .claim w kind limit locked ∧
        r.attempts < r.maxAttempts) ∨
      ∃ w hookFails, st.action = .bury w r.id hookFails ∧ r.maxAttempts ≤ r.attempts)

theorem RowChange.outcome {st : Step} (h : RowChange fresh st.now st.clock st.action r r') (hr : r.Running)
    (ho : r'.outcome ≠ r.outcome) : st.settles r ∨ st.sweeps r := by
  obtain ⟨now, clock, action⟩ := st
  have hnq : r.status ≠ .queued := by rw [hr]; exact fun h => nomatch h
  cases h with
  | unchanged => exact absurd rfl ho
  | dueNow hs => exact absurd hs hnq
  | claimed hs => exact absurd hs hnq
  | recovered _ he ha => exact .inr ⟨he, .inl ⟨_, _, _, _, rfl, ha⟩⟩
  | reclaimed _ he ha => exact .inr ⟨he, .inl ⟨_, _, _, _, rfl, ha⟩⟩
  | beat => exact absurd rfl ho
  | renewed => exact absurd rfl ho
  | ended hh => exact .inl ⟨_, _, _, _, _, rfl, hh⟩
  | buried he => exact .inr ⟨he.2.1, .inr ⟨_, _, rfl, he.2.2⟩⟩
  | requeued hs => rcases hs with h | h <;> rw [JobRow.Running, h] at hr <;> cases hr

theorem RowChange.final (h : RowChange fresh now clock a r r') (hf : r.Final) :
    r' = r ∨ a = .retry r.clientInstanceId r.id := by
  cases h with
  | unchanged => exact .inl rfl
  | dueNow hs => exact absurd (.inl hs) hf
  | claimed hs => exact absurd (.inl hs) hf
  | recovered hr => exact absurd (.inr hr) hf
  | reclaimed hr => exact absurd (.inr hr) hf
  | beat hh => exact absurd (.inr hh.2.2.1) hf
  | renewed hh => exact absurd (.inr hh.2.2.1) hf
  | ended hh => exact absurd (.inr hh.2.2.1) hf
  | buried he => exact absurd (.inr he.1) hf
  | requeued => exact .inr rfl

theorem RowChange.queued (h : RowChange fresh now clock a r r') (hs : r.status = .queued) :
    r'.Live := by
  have hnr : ¬ r.Running := by rw [JobRow.Running, hs]; exact fun h => nomatch h
  cases h with
  | unchanged => exact .inl hs
  | dueNow => exact .inl hs
  | claimed => exact .inr rfl
  | recovered hr => exact absurd hr hnr
  | reclaimed hr => exact absurd hr hnr
  | beat hh => exact absurd hh.2.2.1 hnr
  | renewed hh => exact absurd hh.2.2.1 hnr
  | ended hh => exact absurd hh.2.2.1 hnr
  | buried he => exact absurd he.1 hnr
  | requeued => exact .inl rfl

theorem RowChange.same (h : RowChange fresh now clock a r r') : SameJob r r' := by
  cases h with
  | ended => exact endedRow_same _ _ _
  | buried => exact endedRow_same _ _ _
  | _ => exact ⟨rfl, rfl, rfl, rfl, rfl, rfl, rfl, rfl⟩

theorem RowChange.id (h : RowChange fresh now clock a r r') : r'.id = r.id := h.same.id

theorem settle_lost (w : Worker) (h : ∀ r ∈ q.rows, ¬ r.heldBy lease clock) :
    w.settle q lease ending now clock = (false, q) := by
  rw [Worker.settle, lockLeasedJob_none.mpr h]

/-- What every transaction leaves in the table, and who may change a row. -/
structure Sound (catalog : Catalog) (s : State) : Prop where
  ids : (s.queue.rows.map (·.id)).Nodup
  queued : ∀ r ∈ s.queue.rows, r.status = .queued → r.attempts < r.maxAttempts
  running : ∀ r ∈ s.queue.rows, r.Running → 1 ≤ r.attempts ∧ r.attempts ≤ r.maxAttempts ∧
    ∃ t, r.leaseToken = some t ∧ ∀ x ∈ s.queue.rows, x.leaseToken = some t → x = r
  idle : ∀ r ∈ s.queue.rows, ¬ r.Running → r.leaseToken = none
  globally : ∀ i, ∀ kind ∈ catalog.kinds, ∀ most ∈ kind.concurrency.globally,
    count (JobRow.runningOf i kind.kind) s.queue.rows ≤ most
  perKey : ∀ i key, ∀ kind ∈ catalog.kinds, ∀ most ∈ kind.concurrency.perKey,
    count (JobRow.runningWithKey i kind.kind key) s.queue.rows ≤ most
  dedupe : ∀ i kind key, count (JobRow.liveWithKey i kind key) s.queue.rows ≤ 1
  /-- While a lease is live, only the attempt that holds its token changes the outcome. -/
  live : ∀ st, (executor catalog).enabled s st → ∀ r ∈ s.queue.rows, r.Running →
    (∃ e ∈ r.leaseExpiresAt, st.clock < e) →
    ∃ r' ∈ ((executor catalog).next s st).queue.rows, r'.id = r.id ∧
      (r'.outcome = r.outcome ∨ st.settles r)
  /-- A lease that ran out leaves the job to recovery or, on the last attempt, to burial. -/
  expired : ∀ st, (executor catalog).enabled s st → ∀ r ∈ s.queue.rows, r.Running →
    ∃ r' ∈ ((executor catalog).next s st).queue.rows, r'.id = r.id ∧
      (r'.outcome = r.outcome ∨ st.settles r ∨ st.sweeps r)
  /-- An attempt without the live lease settles nothing. -/
  lost : ∀ st, (executor catalog).enabled s st → ∀ w kind row attempt hookFails,
    st.action = .settle w kind row attempt hookFails →
    (∀ r ∈ s.queue.rows, ¬ r.heldBy row.lease st.clock) →
    ((executor catalog).next s st).queue = s.queue
  /-- A queued job does not end before it runs. -/
  waiting : ∀ st, (executor catalog).enabled s st → ∀ r ∈ s.queue.rows, r.status = .queued →
    ∃ r' ∈ ((executor catalog).next s st).queue.rows, r'.id = r.id ∧ r'.Live
  final : ∀ st, (executor catalog).enabled s st → ∀ r ∈ s.queue.rows, r.Final →
    r ∈ ((executor catalog).next s st).queue.rows ∨ st.action = .retry r.clientInstanceId r.id

/-- Every interleaving of the executor's transactions, from an empty table, is sound. -/
theorem executor_sound (catalog : Catalog) (s : State) (hs : (executor catalog).Reachable s) :
    Sound catalog s := by
  obtain ⟨hq, _⟩ := executor_ok hs
  have hchange : ∀ st : Step, ∀ r ∈ s.queue.rows,
      ∃ r' ∈ ((executor catalog).next s st).queue.rows,
        RowChange s.queue.fresh st.now st.clock st.action r r' := fun st r hr =>
    (transact_moves hq.ids_nodup st.now st.clock st.action).mem_left hr
  constructor
  case ids => exact hq.ids_nodup
  case queued => exact fun r hr => (hq.rows r hr).queued
  case running =>
    intro r hr hrun
    obtain ⟨t, ht⟩ := Option.isSome_iff_exists.mp ((hq.rows r hr).leased hrun).1
    obtain ⟨h₁, h₂⟩ := (hq.rows r hr).running hrun
    exact ⟨h₁, h₂, t, ht, fun x hx hxt => eq_of_count_le_one (hq.token_once t) hx hr hxt ht⟩
  case idle => exact fun r hr h => ((hq.rows r hr).idle h).1
  case globally => exact hq.globally
  case perKey => exact hq.perKey
  case dedupe => exact hq.dedupe
  case live =>
    intro st he r hr hrun hlive
    obtain ⟨r', hr', hc⟩ := hchange st r hr
    refine ⟨r', hr', hc.id, ?_⟩
    by_cases ho : r'.outcome = r.outcome
    · exact .inl ho
    · rcases hc.outcome hrun ho with h | ⟨⟨e, hle, hlt⟩, _⟩
      · exact .inr h
      · obtain ⟨e', hle', hlt'⟩ := hlive
        cases Option.some.inj (hle.symm.trans hle')
        exact absurd (Nat.lt_of_lt_of_le hlt he.2.1) (Nat.lt_asymm hlt')
  case expired =>
    intro st he r hr hrun
    obtain ⟨r', hr', hc⟩ := hchange st r hr
    refine ⟨r', hr', hc.id, ?_⟩
    by_cases ho : r'.outcome = r.outcome
    · exact .inl ho
    · exact .inr (hc.outcome hrun ho)
  case lost =>
    intro st he w kind row attempt hookFails ha hlost
    simp [executor, Machine.next, ha, transact, settle_lost w hlost]
  case waiting =>
    intro st he r hr hs
    obtain ⟨r', hr', hc⟩ := hchange st r hr
    exact ⟨r', hr', hc.id, hc.queued hs⟩
  case final =>
    intro st he r hr hf
    obtain ⟨r', hr', hc⟩ := hchange st r hr
    rcases hc.final hf with rfl | h
    · exact .inl hr'
    · exact .inr h

namespace Example

def sendKind : JobKind where
  kind := "mail.send"
  maxAttempts := 2
  backoff := ⟨10, 100⟩
  leaseMs := 30
  heartbeatMs := none
  concurrency := ⟨some 1, none⟩
  maxAttempts_pos := by decide
  leaseMs_pos := by decide
  globally_pos := by decide
  perKey_pos := by decide
  heartbeat_lt := by decide
  backoff_le := by decide

def catalog : Catalog := ⟨[sendKind], by decide⟩

def worker : Worker := ⟨"w", "i", []⟩

def empty : State := ⟨⟨[], 0⟩, 0, []⟩

def claimed : State :=
  let run := (executor catalog).next
  run (run (run empty ⟨0, 0, .enqueue sendKind [] ⟨"i", none, some "a", none, 0⟩⟩)
    ⟨1, 1, .enqueue sendKind [] ⟨"i", none, none, none, 0⟩⟩)
    ⟨2, 3, .claim worker sendKind 2 []⟩

theorem claimed_reachable : (executor catalog).Reachable claimed :=
  have h₀ : (executor catalog).Reachable empty := ⟨empty, [], ⟨rfl, rfl⟩, .nil⟩
  ((h₀.next (by decide)).next (by decide)).next (by decide)

end Example

theorem executor_sound_claimed :
    Example.claimed.queue.rows.map (·.status) = [.running, .queued] ∧
      Sound Example.catalog Example.claimed :=
  ⟨by decide, executor_sound _ _ Example.claimed_reachable⟩

end Catalyst.Jobs
