import Catalyst.Jobs.Executor

/-!
# The executor's invariant

`QueueOk` is what holds of the table after every transaction. A row moves by
`Eases` when it neither starts to run nor becomes live; such moves keep every
limit. Claims, enqueues and retries are the three that do not ease a row, and
each looks at the counts it adds to.
-/

namespace Catalyst.Jobs

open Library

structure RowOk (r : JobRow) : Prop where
  maxAttempts_pos : 0 < r.maxAttempts
  queued : r.status = .queued → r.attempts < r.maxAttempts
  running : r.Running → 1 ≤ r.attempts ∧ r.attempts ≤ r.maxAttempts
  leased : r.Running → r.leaseToken.isSome ∧ r.leaseExpiresAt.isSome
  idle : ¬ r.Running → r.leaseToken = none ∧ r.leaseExpiresAt = none

structure QueueOk (catalog : Catalog) (q : Queue) : Prop where
  rows : ∀ r ∈ q.rows, RowOk r
  ids_nodup : (q.rows.map (·.id)).Nodup
  ids_lt : ∀ r ∈ q.rows, r.id < q.fresh
  tokens_lt : ∀ r ∈ q.rows, ∀ t ∈ r.leaseToken, t < q.fresh
  token_once : ∀ t, count (fun r => r.leaseToken = some t) q.rows ≤ 1
  globally : ∀ i, ∀ kind ∈ catalog.kinds, ∀ most ∈ kind.concurrency.globally,
    count (JobRow.runningOf i kind.kind) q.rows ≤ most
  perKey : ∀ i key, ∀ kind ∈ catalog.kinds, ∀ most ∈ kind.concurrency.perKey,
    count (JobRow.runningWithKey i kind.kind key) q.rows ≤ most
  dedupe : ∀ i kind key, count (JobRow.liveWithKey i kind key) q.rows ≤ 1

/-- What no statement of the executor changes in a row. -/
structure SameJob (r r' : JobRow) : Prop where
  id : r'.id = r.id
  clientInstanceId : r'.clientInstanceId = r.clientInstanceId
  kind : r'.kind = r.kind
  payload : r'.payload = r.payload
  maxAttempts : r'.maxAttempts = r.maxAttempts
  dedupeKey : r'.dedupeKey = r.dedupeKey
  concurrencyKey : r'.concurrencyKey = r.concurrencyKey
  createdAt : r'.createdAt = r.createdAt

theorem SameJob.refl (r : JobRow) : SameJob r r := ⟨rfl, rfl, rfl, rfl, rfl, rfl, rfl, rfl⟩

structure Eases (r r' : JobRow) : Prop where
  same : SameJob r r'
  running : r'.Running → r.Running
  live : r'.Live → r.Live
  token : ∀ t, r'.leaseToken = some t → r.leaseToken = some t
  ok : RowOk r → RowOk r'

theorem Eases.refl (r : JobRow) : Eases r r := ⟨.refl r, id, id, fun _ => id, id⟩

theorem Eases.runningOf (h : Eases r r') (hr : r'.runningOf i kind) : r.runningOf i kind := by
  obtain ⟨⟨hi, hk⟩, hr⟩ := hr
  exact ⟨⟨h.same.clientInstanceId ▸ hi, h.same.kind ▸ hk⟩, h.running hr⟩

theorem Eases.runningWithKey (h : Eases r r') (hr : r'.runningWithKey i kind key) :
    r.runningWithKey i kind key := by
  obtain ⟨⟨hi, hk⟩, hr, hc⟩ := hr
  exact ⟨⟨h.same.clientInstanceId ▸ hi, h.same.kind ▸ hk⟩, h.running hr, h.same.concurrencyKey ▸ hc⟩

theorem Eases.liveWithKey (h : Eases r r') (hr : r'.liveWithKey i kind key) :
    r.liveWithKey i kind key := by
  obtain ⟨⟨hi, hk⟩, hd, hl⟩ := hr
  exact ⟨⟨h.same.clientInstanceId ▸ hi, h.same.kind ▸ hk⟩, h.same.dedupeKey ▸ hd, h.live hl⟩

theorem QueueOk.eases (hq : QueueOk catalog q) (h : List.Forall₂ Eases q.rows rows') :
    QueueOk catalog { q with rows := rows' } := by
  have hmem : ∀ r' ∈ rows', ∃ r ∈ q.rows, Eases r r' := fun r' hr => forall₂_mem_right h hr
  refine ⟨fun r' hr => ?_, ?_, fun r' hr => ?_, fun r' hr t ht => ?_, fun t => ?_,
    fun i kind hk most hm => ?_, fun i key kind hk most hm => ?_, fun i kind key => ?_⟩
  · obtain ⟨r, hr, he⟩ := hmem r' hr
    exact he.ok (hq.rows r hr)
  · rw [map_eq_of_forall₂ (h.imp fun _ _ he => he.same.id)]
    exact hq.ids_nodup
  · obtain ⟨r, hr, he⟩ := hmem r' hr
    exact he.same.id ▸ hq.ids_lt r hr
  · obtain ⟨r, hr, he⟩ := hmem r' hr
    exact hq.tokens_lt r hr t (he.token t ht)
  · exact (count_le_of_forall₂ (h.imp fun _ _ he => he.token t)).trans (hq.token_once t)
  · exact (count_le_of_forall₂ (h.imp fun _ _ he => he.runningOf)).trans
      (hq.globally i kind hk most hm)
  · exact (count_le_of_forall₂ (h.imp fun _ _ he => he.runningWithKey)).trans
      (hq.perKey i key kind hk most hm)
  · exact (count_le_of_forall₂ (h.imp fun _ _ he => he.liveWithKey)).trans (hq.dedupe i kind key)

theorem recovered_eases (hr : r.Running) (ha : r.attempts < r.maxAttempts) :
    Eases r (recovered kind now r) where
  same := ⟨rfl, rfl, rfl, rfl, rfl, rfl, rfl, rfl⟩
  running h := nomatch h
  live _ := .inr hr
  token t h := by simp [recovered, JobRow.noLease] at h
  ok h := ⟨h.maxAttempts_pos, fun _ => ha, fun h => (nomatch h), fun h => (nomatch h),
    fun _ => ⟨rfl, rfl⟩⟩

def JobEnding.Fits (ending : JobEnding) (r : JobRow) : Prop :=
  ∀ kind code message, ending = .retry kind code message → r.attempts < r.maxAttempts

theorem endedRow_same (ending : JobEnding) (now : Time) (r : JobRow) :
    SameJob r (endedRow ending now r) := by
  cases ending <;> exact ⟨rfl, rfl, rfl, rfl, rfl, rfl, rfl, rfl⟩

theorem endedRow_idle (ending : JobEnding) (now : Time) (r : JobRow) :
    (endedRow ending now r).leaseToken = none ∧ (endedRow ending now r).leaseExpiresAt = none := by
  cases ending <;> exact ⟨rfl, rfl⟩

theorem endedRow_not_running (ending : JobEnding) (now : Time) (r : JobRow) :
    ¬ (endedRow ending now r).Running := by
  cases ending <;> exact fun h => nomatch h

theorem endedRow_eases (hr : r.Running) (hf : ending.Fits r) :
    Eases r (endedRow ending now r) where
  same := endedRow_same ending now r
  running h := absurd h (endedRow_not_running ending now r)
  live _ := .inr hr
  token t h := by rw [(endedRow_idle ending now r).1] at h; cases h
  ok h := by
    refine ⟨(endedRow_same ending now r).maxAttempts ▸ h.maxAttempts_pos, fun hq => ?_,
      fun h => absurd h (endedRow_not_running ending now r),
      fun h => absurd h (endedRow_not_running ending now r), fun _ => endedRow_idle ending now r⟩
    cases ending with
    | retry kind code message => exact hf kind code message rfl
    | released =>
      have ha := h.running hr
      show r.attempts - 1 < r.maxAttempts
      omega
    | succeeded => cases hq
    | failed => cases hq
    | dead => cases hq

theorem beat_eases (hr : r.Running) :
    Eases r { r with leaseExpiresAt := some expiresAt, heartbeatAt := heartbeatAt } where
  same := ⟨rfl, rfl, rfl, rfl, rfl, rfl, rfl, rfl⟩
  running := id
  live := id
  token _ := id
  ok h := ⟨h.maxAttempts_pos, h.queued, h.running, fun hr => ⟨(h.leased hr).1, rfl⟩,
    fun hn => absurd hr hn⟩

theorem dueNow_eases (r : JobRow) : Eases r { r with runAfter := now } where
  same := ⟨rfl, rfl, rfl, rfl, rfl, rfl, rfl, rfl⟩
  running := id
  live := id
  token _ := id
  ok h := ⟨h.maxAttempts_pos, h.queued, h.running, h.leased, h.idle⟩

theorem queuedJob_rowOk : RowOk (queuedJob s now kind payload options) :=
  ⟨kind.maxAttempts_pos, fun _ => kind.maxAttempts_pos, fun h => (nomatch h),
    fun h => (nomatch h), fun _ => ⟨rfl, rfl⟩⟩

theorem liveHolder_none (h : liveHolder s kind options = none)
    (hk : options.dedupeKey = some key) (hr : r ∈ s.rows) :
    ¬ r.liveWithKey options.clientInstanceId kind.kind key := by
  simp only [liveHolder, hk, Option.bind_some, List.find?_eq_none, decide_eq_true_eq] at h
  exact h r hr

theorem QueueOk.insert (hq : QueueOk catalog q) (hn : liveHolder q kind options = none) :
    QueueOk catalog ⟨q.rows ++ [queuedJob q now kind payload options], q.fresh + 1⟩ := by
  have hmem : ∀ r ∈ q.rows ++ [queuedJob q now kind payload options],
      r ∈ q.rows ∨ r = queuedJob q now kind payload options := by simp
  have hnew {p : JobRow → Prop} [DecidablePred p]
      (h : ¬ p (queuedJob q now kind payload options)) :
      count p (q.rows ++ [queuedJob q now kind payload options]) = count p q.rows := by
    simp [count_append, count_cons, h]
  refine ⟨fun r hr => ?_, ?_, fun r hr => ?_, fun r hr t ht => ?_, fun t => ?_,
    fun i k hk most hm => ?_, fun i key k hk most hm => ?_, fun i k key => ?_⟩
  · rcases hmem r hr with hr | rfl
    · exact hq.rows r hr
    · exact queuedJob_rowOk
  · rw [List.map_append, List.map_singleton, List.nodup_append]
    refine ⟨hq.ids_nodup, List.nodup_singleton _, fun a ha b hb => ?_⟩
    obtain ⟨r, hr, rfl⟩ := List.mem_map.mp ha
    rw [List.mem_singleton.mp hb]
    exact Nat.ne_of_lt (hq.ids_lt r hr)
  · rcases hmem r hr with hr | rfl
    · exact Nat.lt_succ_of_lt (hq.ids_lt r hr)
    · exact Nat.lt_succ_self _
  · rcases hmem r hr with hr | rfl
    · exact Nat.lt_succ_of_lt (hq.tokens_lt r hr t ht)
    · cases ht
  · rw [hnew (by rintro ⟨⟩)]; exact hq.token_once t
  · rw [hnew (by rintro ⟨_, ⟨⟩⟩)]; exact hq.globally i k hk most hm
  · rw [hnew (by rintro ⟨_, ⟨⟩, _⟩)]; exact hq.perKey i key k hk most hm
  · rw [count_append, count_cons, count_nil]
    split
    · rename_i h
      obtain ⟨⟨rfl, rfl⟩, hd, _⟩ := h
      have hz : count (JobRow.liveWithKey options.clientInstanceId kind.kind key) q.rows = 0 :=
        count_eq_zero.mpr fun r hr => liveHolder_none hn hd hr
      exact (Nat.add_le_add_right hz.le _)
    · simpa using hq.dedupe i k key

theorem QueueOk.enqueueJob (hq : QueueOk catalog q) :
    QueueOk catalog (enqueueJob q now kind payload options).2 := by
  unfold Jobs.enqueueJob
  split
  · exact hq
  · exact hq.insert ‹_›

theorem QueueOk.recoverExpired (hq : QueueOk catalog q) :
    QueueOk catalog (recoverExpired q instanceId kind now) :=
  hq.eases <| forall₂_updateWhere (fun r _ => .refl r)
    fun _ _ ⟨_, hr, _, ha⟩ => recovered_eases hr ha

theorem candidate_spec (h : candidate q instanceId kind now locked = some r) :
    r ∈ q.rows ∧ r.ofKind instanceId kind.kind ∧ r.status = .queued ∧ r.runAfter ≤ now ∧
      keyHasRoom q instanceId kind r := by
  have hr := (List.mem_insertionSort _).mp (List.mem_of_head? h)
  simp only [List.mem_filter, decide_eq_true_eq] at hr
  exact ⟨hr.1, hr.2.1, hr.2.2.1, hr.2.2.2.1, hr.2.2.2.2.1⟩

theorem claimedRow_ok (h : RowOk r) (hq : r.status = .queued) :
    RowOk (claimedRow kind workerId now token r) := by
  have ha := h.queued hq
  refine ⟨h.maxAttempts_pos, fun h => (nomatch h), fun _ => ?_, fun _ => ⟨rfl, rfl⟩,
    fun h => absurd rfl h⟩
  exact ⟨Nat.succ_pos _, ha⟩

theorem claimOne_rows (hn : (q.rows.map (·.id)).Nodup) (hr : r ∈ q.rows) :
    List.Forall₂ (fun x x' => x' = x ∨ (x = r ∧ x' = claimedRow kind workerId now q.fresh r))
      q.rows (claimOne q kind workerId now r).2.rows := by
  refine forall₂_updateWhere (fun _ _ => .inl rfl) fun x hx hid => ?_
  have hxr : x = r := eq_of_key hn hx hr hid
  subst hxr
  exact .inr ⟨rfl, rfl⟩

theorem claimOne_ids (hn : (q.rows.map (·.id)).Nodup) (hr : r ∈ q.rows) :
    ((claimOne q kind workerId now r).2.rows.map (·.id)).Nodup := by
  rw [map_eq_of_forall₂ ((claimOne_rows hn hr).imp fun x x' hx => ?_)]
  · exact hn
  · rcases hx with rfl | ⟨rfl, rfl⟩ <;> rfl

theorem claimOne_count {p : JobRow → Prop} [DecidablePred p] (hq : QueueOk catalog q)
    (hr : r ∈ q.rows) (h : p (claimedRow kind workerId now q.fresh r) → p r) :
    count p (claimOne q kind workerId now r).2.rows ≤ count p q.rows := by
  refine count_le_of_forall₂ ((claimOne_rows hq.ids_nodup hr).imp fun x x' hx hp => ?_)
  rcases hx with rfl | ⟨rfl, rfl⟩
  · exact hp
  · exact h hp

theorem QueueOk.claimOne (hq : QueueOk catalog q) (hk : kind ∈ catalog.kinds)
    (hc : candidate q instanceId kind now locked = some r)
    (hg : ∀ most ∈ kind.concurrency.globally,
      count (JobRow.runningOf instanceId kind.kind) q.rows < most) :
    QueueOk catalog (claimOne q kind workerId now r).2 := by
  obtain ⟨hr, ⟨hi, hn⟩, hs, _, hroom⟩ := candidate_spec hc
  have hmem : ∀ x' ∈ (Jobs.claimOne q kind workerId now r).2.rows,
      x' ∈ q.rows ∨ x' = claimedRow kind workerId now q.fresh r := by
    intro x' hx'
    obtain ⟨x, hx, rfl | ⟨_, rfl⟩⟩ := forall₂_mem_right (claimOne_rows hq.ids_nodup hr) hx'
    · exact .inl hx
    · exact .inr rfl
  refine ⟨fun x hx => ?_, ?_, fun x hx => ?_, fun x hx t ht => ?_, fun t => ?_,
    fun i k hk' most hm => ?_, fun i key k hk' most hm => ?_, fun i k key => ?_⟩
  · rcases hmem x hx with hx | rfl
    · exact hq.rows x hx
    · exact claimedRow_ok (hq.rows r hr) hs
  · exact claimOne_ids hq.ids_nodup hr
  · rcases hmem x hx with hx | rfl
    · exact Nat.lt_succ_of_lt (hq.ids_lt x hx)
    · exact Nat.lt_succ_of_lt (hq.ids_lt r hr)
  · rcases hmem x hx with hx | rfl
    · exact Nat.lt_succ_of_lt (hq.tokens_lt x hx t ht)
    · cases ht; exact Nat.lt_succ_self _
  · -- the token of a claim is new: no row of the table carries it yet
    by_cases ht : q.fresh = t
    · subst ht
      have hz : count (fun x => x.leaseToken = some q.fresh) q.rows = 0 :=
        count_eq_zero.mpr fun x hx h => absurd (hq.tokens_lt x hx _ h) (Nat.lt_irrefl _)
      exact (count_updateWhere_key_le hq.ids_nodup).trans (Nat.add_le_add_right hz.le 1)
    · refine (claimOne_count hq hr fun h => ?_).trans (hq.token_once t)
      exact absurd (Option.some.inj h) ht
  · by_cases h : i = instanceId ∧ k.kind = kind.kind
    · obtain ⟨rfl, hkk⟩ := h
      have hke : k = kind := List.inj_on_of_nodup_map catalog.names_nodup hk' hk hkk
      subst hke
      exact (count_updateWhere_key_le hq.ids_nodup).trans (hg most hm)
    · refine (claimOne_count hq hr fun h' => ?_).trans (hq.globally i k hk' most hm)
      exact absurd ⟨h'.1.1.symm.trans hi, h'.1.2.symm.trans hn⟩ h
  · by_cases h : (i = instanceId ∧ k.kind = kind.kind) ∧ r.concurrencyKey = some key
    · obtain ⟨⟨rfl, hkk⟩, hck⟩ := h
      have hke : k = kind := List.inj_on_of_nodup_map catalog.names_nodup hk' hk hkk
      subst hke
      exact (count_updateWhere_key_le hq.ids_nodup).trans (hroom most hm key hck)
    · refine (claimOne_count hq hr fun h' => ?_).trans (hq.perKey i key k hk' most hm)
      exact absurd ⟨⟨h'.1.1.symm.trans hi, h'.1.2.symm.trans hn⟩, h'.2.2⟩ h
  · exact (claimOne_count hq hr fun h => ⟨h.1, h.2.1, .inl hs⟩).trans (hq.dedupe i k key)

theorem claimOne_running_le (hq : QueueOk catalog q) :
    count (JobRow.runningOf i k) (claimOne q kind workerId now r).2.rows
      ≤ count (JobRow.runningOf i k) q.rows + 1 :=
  count_updateWhere_key_le hq.ids_nodup

/-- The loop keeps the invariant while the global limit has room for what is left to claim. -/
theorem QueueOk.claimLoop (hq : QueueOk catalog q) (hk : kind ∈ catalog.kinds)
    (hg : ∀ most ∈ kind.concurrency.globally,
      free = 0 ∨ count (JobRow.runningOf instanceId kind.kind) q.rows + free ≤ most) :
    QueueOk catalog (claimLoop instanceId kind workerId now locked free q).2 := by
  induction free generalizing q with
  | zero => exact hq
  | succ free ih =>
    rw [Jobs.claimLoop]
    split
    · exact hq
    · rename_i r hc
      have hlt : ∀ most ∈ kind.concurrency.globally,
          count (JobRow.runningOf instanceId kind.kind) q.rows < most := fun most hm => by
        have := hg most hm
        omega
      refine ih (hq.claimOne hk hc hlt) fun most hm => ?_
      have h₁ := hg most hm
      have h₂ : count (JobRow.runningOf instanceId kind.kind)
          (Jobs.claimOne q kind workerId now r).2.rows ≤ _ := claimOne_running_le hq
      omega

theorem QueueOk.claimJobs (hq : QueueOk catalog q) (hk : kind ∈ catalog.kinds) :
    QueueOk catalog (claimJobs q instanceId kind workerId limit now locked).2 := by
  refine hq.recoverExpired.claimLoop hk fun most hm => ?_
  have hm : kind.concurrency.globally = some most := hm
  simp only [freeSlots, hm]
  omega

theorem lockLeasedJob_spec (h : lockLeasedJob q lease clock = some r) :
    r ∈ q.rows ∧ r.heldBy lease clock :=
  ⟨List.mem_of_find?_eq_some h, by simpa using List.find?_some h⟩

theorem lockLeasedJob_none :
    lockLeasedJob q lease clock = none ↔ ∀ r ∈ q.rows, ¬ r.heldBy lease clock := by
  simp [lockLeasedJob]

theorem lockExhaustedJob_spec (h : lockExhaustedJob q jobId now = some r) :
    r ∈ q.rows ∧ r.exhausted now ∧ r.id = jobId :=
  ⟨List.mem_of_find?_eq_some h, by simpa using List.find?_some h⟩

theorem QueueOk.endJobAttempt (hq : QueueOk catalog q) (hr : r ∈ q.rows) (hrun : r.Running)
    (hf : ending.Fits r) : QueueOk catalog (endJobAttempt q r.id ending now) :=
  hq.eases <| forall₂_updateWhere (fun x _ => .refl x) fun x hx hid => by
    have hxr : x = r := eq_of_key hq.ids_nodup hx hr hid
    subst hxr
    exact endedRow_eases hrun hf

theorem QueueOk.enqueueTickAfter (hq : QueueOk catalog q) (w : Worker) :
    QueueOk catalog (w.enqueueTickAfter q now r ending) := by
  unfold Worker.enqueueTickAfter
  split
  · exact hq
  · exact hq
  · exact hq
  · split
    · exact hq.enqueueJob
    · exact hq

theorem QueueOk.settle (hq : QueueOk catalog q) (w : Worker)
    (hf : ∀ r ∈ q.rows, r.heldBy lease clock → ending.Fits r) :
    QueueOk catalog (w.settle q lease ending now clock).2 := by
  unfold Worker.settle
  split
  · exact hq
  · rename_i r h
    obtain ⟨hr, hh⟩ := lockLeasedJob_spec h
    exact (hq.endJobAttempt hr hh.2.2.1 (hf r hr hh)).enqueueTickAfter w

theorem buryEnding_fits (w : Worker) : (w.buryEnding row).Fits r := by
  intro kind code message h
  unfold Worker.buryEnding at h
  split at h <;> cases h

theorem QueueOk.bury (hq : QueueOk catalog q) (w : Worker) :
    QueueOk catalog (w.bury q jobId now) := by
  unfold Worker.bury
  split
  · exact hq
  · rename_i r h
    obtain ⟨hr, he, _⟩ := lockExhaustedJob_spec h
    exact (hq.endJobAttempt hr he.1 (buryEnding_fits w)).enqueueTickAfter w

theorem QueueOk.heartbeatJob (hq : QueueOk catalog q) :
    QueueOk catalog (heartbeatJob q lease leaseMs clock).2 :=
  hq.eases <| forall₂_updateWhere (fun r _ => .refl r) fun _ _ h => beat_eases h.2.2.1

theorem QueueOk.leasedTransaction (hq : QueueOk catalog q) :
    QueueOk catalog (leasedTransaction q lease leaseMs checkedAt clock).2 := by
  unfold Jobs.leasedTransaction
  split
  · exact hq
  · rename_i r h
    obtain ⟨hr, hh⟩ := lockLeasedJob_spec h
    refine hq.eases <| forall₂_updateWhere (fun r _ => .refl r) fun x hx hxl => beat_eases ?_
    have hxr : x = r := eq_of_key hq.ids_nodup hx hr (hxl.1.trans hh.1.symm)
    exact hxr ▸ hh.2.2.1

theorem QueueOk.makeScheduleTickDue (hq : QueueOk catalog q) :
    QueueOk catalog (makeScheduleTickDue q now instanceId schedule) :=
  hq.eases <| forall₂_updateWhere (fun r _ => .refl r) fun r _ _ => dueNow_eases r

theorem QueueOk.requeue (hq : QueueOk catalog q) (hr : r ∈ q.rows) (hf : r.Final)
    (hs : ¬ superseded q r) :
    QueueOk catalog
      { q with rows := updateWhere (fun x => x.id = r.id) (requeuedRow now) q.rows } := by
  have hrows : List.Forall₂ (fun x x' => x' = x ∨ (x = r ∧ x' = requeuedRow now r)) q.rows
      (updateWhere (fun x => x.id = r.id) (requeuedRow now) q.rows) := by
    refine forall₂_updateWhere (fun _ _ => .inl rfl) fun x hx hid => ?_
    have hxr : x = r := eq_of_key hq.ids_nodup hx hr hid
    subst hxr
    exact .inr ⟨rfl, rfl⟩
  have hidle := (hq.rows r hr).idle fun h => hf (.inr h)
  have hcount {p : JobRow → Prop} [DecidablePred p] (h : p (requeuedRow now r) → p r) :
      count p (updateWhere (fun x => x.id = r.id) (requeuedRow now) q.rows) ≤ count p q.rows := by
    refine count_le_of_forall₂ (hrows.imp fun x x' hx hp => ?_)
    rcases hx with rfl | ⟨rfl, rfl⟩
    · exact hp
    · exact h hp
  have hmem : ∀ x' ∈ updateWhere (fun x => x.id = r.id) (requeuedRow now) q.rows,
      x' ∈ q.rows ∨ x' = requeuedRow now r := by
    intro x' hx'
    obtain ⟨x, hx, rfl | ⟨_, rfl⟩⟩ := forall₂_mem_right hrows hx'
    · exact .inl hx
    · exact .inr rfl
  refine ⟨fun x hx => ?_, ?_, fun x hx => ?_, fun x hx t ht => ?_, fun t => ?_,
    fun i k hk most hm => ?_, fun i key k hk most hm => ?_, fun i k key => ?_⟩
  · rcases hmem x hx with hx | rfl
    · exact hq.rows x hx
    · have hp := (hq.rows r hr).maxAttempts_pos
      exact ⟨hp, fun _ => hp, fun h => (nomatch h), fun h => (nomatch h), fun _ => hidle⟩
  · rw [map_eq_of_forall₂ (hrows.imp fun x x' hx => ?_)]
    · exact hq.ids_nodup
    · rcases hx with rfl | ⟨rfl, rfl⟩ <;> rfl
  · rcases hmem x hx with hx | rfl
    · exact hq.ids_lt x hx
    · exact hq.ids_lt r hr
  · rcases hmem x hx with hx | rfl
    · exact hq.tokens_lt x hx t ht
    · exact hq.tokens_lt r hr t ht
  · exact (hcount id).trans (hq.token_once t)
  · exact (hcount fun h => nomatch h.2).trans (hq.globally i k hk most hm)
  · exact (hcount fun h => nomatch h.2.1).trans (hq.perKey i key k hk most hm)
  · by_cases h : r.ofKind i k ∧ r.dedupeKey = some key
    · -- no live job holds the key, or the retry would have been superseded
      obtain ⟨⟨rfl, rfl⟩, hd⟩ := h
      have hz : count (JobRow.liveWithKey r.clientInstanceId r.kind key) q.rows = 0 :=
        count_eq_zero.mpr fun x hx hl => hs ⟨key, hd, x, hx, hl⟩
      exact (count_updateWhere_key_le hq.ids_nodup).trans (Nat.add_le_add_right hz.le 1)
    · exact (hcount fun h' => absurd ⟨h'.1, h'.2.1⟩ h).trans (hq.dedupe i k key)

theorem QueueOk.retryJob (hq : QueueOk catalog q) :
    QueueOk catalog (retryJob q instanceId jobId now).2 := by
  unfold Jobs.retryJob
  split
  · rename_i r h
    have hr := List.mem_of_find?_eq_some h
    have hret : r.retryable instanceId jobId := by simpa using List.find?_some h
    split
    · exact hq
    · refine hq.requeue hr (fun hl => ?_) ‹_›
      rcases hret.2.2 with h | h <;> rcases hl with h' | h' <;> rw [h] at h' <;> cases h'
  · split <;> exact hq

end Catalyst.Jobs
