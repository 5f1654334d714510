import Catalyst.Jobs.Outcome

/-!
# Where the rows of the queue come from

A transaction moves the rows there are and adds rows of the kinds it names: the kind it enqueues,
or the kinds of the schedules its worker serves. Rows may also be removed: what the executor keeps
of its rows it keeps of any part of them.
-/

namespace Catalyst.Jobs

open Library

def Action.Adds : Action → String → Prop
  | .enqueue kind _ _, name => name = kind.kind
  | .ensureTick _ schedule, name => name = schedule.kind.kind
  | .settle w .., name | .bury w .., name => ∃ schedule ∈ w.schedules, name = schedule.kind.kind
  | _, _ => False

/-- Each row was there under its id, or is of a kind in `P`. -/
def AddsOnly (P : String → Prop) (q q' : Queue) : Prop :=
  ∀ r ∈ q'.rows, r.id ∈ q.rows.map (·.id) ∨ P r.kind

theorem AddsOnly.of_ids {P : String → Prop} (h : q'.rows.map (·.id) = q.rows.map (·.id)) : AddsOnly P q q' :=
  fun _ hr => .inl (h ▸ List.mem_map_of_mem hr)

theorem AddsOnly.refl {P : String → Prop} : AddsOnly P q q := .of_ids rfl

theorem AddsOnly.updateWhere {P : String → Prop} {p : JobRow → Prop} [DecidablePred p] {f : JobRow → JobRow}
    (hf : ∀ r, p r → (f r).id = r.id) :
    AddsOnly P q { q with rows := Library.updateWhere p f q.rows } :=
  .of_ids (map_updateWhere JobRow.id hf)

theorem AddsOnly.enqueueJob {P : String → Prop} (h : AddsOnly P q q') (hP : P kind.kind) :
    AddsOnly P q (enqueueJob q' now kind payload options).2 := by
  unfold Jobs.enqueueJob
  split
  · exact h
  · intro r hr
    rcases List.mem_append.mp hr with hr | hr
    · exact h r hr
    · rw [List.mem_singleton.mp hr]
      exact .inr hP

theorem AddsOnly.enqueueTickAfter {P : String → Prop} (h : AddsOnly P q q') (w : Worker)
    (hP : ∀ schedule ∈ w.schedules, P schedule.kind.kind) :
    AddsOnly P q (w.enqueueTickAfter q' now r ending) := by
  unfold Worker.enqueueTickAfter
  split
  · exact h
  · exact h
  · exact h
  · rename_i schedule hs _ _
    split
    · exact h.enqueueJob (hP schedule (List.mem_of_find?_eq_some hs))
    · exact h

theorem endJobAttempt_adds {P : String → Prop} : AddsOnly P q (endJobAttempt q jobId ending now) :=
  .updateWhere fun r _ => (endedRow_same ending now r).id

theorem claimJobs_adds {P : String → Prop} (hq : (q.rows.map (·.id)).Nodup) :
    AddsOnly P q (claimJobs q instanceId kind workerId limit now locked).2 := by
  have hrec : (recoverExpired q instanceId kind now).rows.map (·.id) = q.rows.map (·.id) :=
    map_updateWhere JobRow.id fun _ _ => rfl
  refine .of_ids (Eq.trans (map_eq_of_forall₂ ?_) hrec)
  refine (claimLoop_rows (hrec ▸ hq)).imp fun x x' hx => ?_
  rcases hx with rfl | ⟨_, _, _, rfl⟩ <;> rfl

theorem transact_adds (hq : (q.rows.map (·.id)).Nodup) (now clock : Time) (a : Action) :
    AddsOnly a.Adds q (transact q now clock a).2 := by
  cases a with
  | enqueue kind payload options => exact AddsOnly.refl.enqueueJob rfl
  | ensureTick w schedule => exact AddsOnly.refl.enqueueJob rfl
  | makeTickDue w schedule => exact .updateWhere fun _ _ => rfl
  | claim w kind limit locked => exact claimJobs_adds hq
  | heartbeat kind row => exact .updateWhere fun _ _ => rfl
  | settle w kind row attempt hookFails =>
    simp only [transact, Worker.settle]
    split
    · exact .refl
    · exact endJobAttempt_adds.enqueueTickAfter w fun schedule hs => ⟨schedule, hs, rfl⟩
  | transaction kind row checkedAt =>
    simp only [transact, leasedTransaction]
    split
    · exact .refl
    · exact .updateWhere fun _ _ => rfl
  | bury w jobId hookFails =>
    simp only [transact, Worker.bury]
    split
    · exact .refl
    · exact endJobAttempt_adds.enqueueTickAfter w fun schedule hs => ⟨schedule, hs, rfl⟩
  | retry instanceId jobId =>
    simp only [transact, retryJob]
    split
    · split
      · exact .refl
      · exact .updateWhere fun _ _ => rfl
    · split <;> exact .refl

theorem transact_origin (hq : QueueOk catalog q) (hq' : ((transact q now clock a).2.rows.map (·.id)).Nodup)
    (hr : r' ∈ (transact q now clock a).2.rows) :
    (∃ r ∈ q.rows, RowChange q.fresh now clock a r r') ∨ (a.Adds r'.kind ∧ r'.status = .queued) := by
  rcases transact_adds hq.ids_nodup now clock a r' hr with hid | hadds
  · obtain ⟨r, hm, hid⟩ := List.mem_map.mp hid
    obtain ⟨x, hx, hc⟩ := (transact_moves hq.ids_nodup now clock a).mem_left hm
    rw [eq_of_key hq' hr hx (hid.symm.trans hc.id.symm)]
    exact .inl ⟨r, hm, hc⟩
  · rcases (transact_moves hq.ids_nodup now clock a).mem_right hr with h | ⟨hs, _⟩
    · exact .inl h
    · exact .inr ⟨hadds, hs⟩

theorem StateOk.transact (hs : StateOk catalog s) (ha : Allowed catalog s.handed since clock a) :
    StateOk catalog { s with queue := (Jobs.transact s.queue now clock a).2, clock := clock } :=
  ⟨hs.queue.transact hs.handed ha,
    fun row hr => (hs.handed row hr).moves hs.queue.rows (transact_moves hs.queue.ids_nodup now clock a)⟩

theorem HandedOk.same (hh : HandedOk q row) (hr : r ∈ q.rows) (held : r.heldBy row.lease clock) : SameJob row r := by
  obtain ⟨t, ht, _, hall⟩ := hh
  have htok : r.leaseToken = some t := by rw [held.2.1, JobRow.lease, ht]; rfl
  exact (hall r hr htok).1

def Action.Ends (lease : JobLease) : Action → Prop
  | .settle _ _ row _ _ => row.lease = lease
  | _ => False

/-- Nothing but its own attempt takes a lease that is live when the transaction ends. -/
theorem RowChange.held (h : RowChange fresh now clock a r r') (hr : r.heldBy lease clock) (hn : now ≤ clock)
    (ha : ¬ a.Ends lease) : r'.heldBy lease clock := by
  obtain ⟨hid, ht, hrun, e, he, hlt⟩ := hr
  have hlive : ¬ r.expiredBefore now := by
    rintro ⟨e', he', hlt'⟩
    cases Option.some.inj (he.symm.trans he')
    exact absurd (Nat.lt_of_lt_of_le hlt' hn) (Nat.lt_asymm hlt)
  have hnq : r.status ≠ .queued := fun h => nomatch h.symm.trans hrun
  cases h with
  | unchanged => exact ⟨hid, ht, hrun, e, he, hlt⟩
  | dueNow hs => exact absurd hs hnq
  | claimed hs => exact absurd hs hnq
  | recovered _ hx => exact absurd hx hlive
  | reclaimed _ hx => exact absurd hx hlive
  | beat => exact ⟨hid, ht, hrun, _, rfl, Nat.lt_add_of_pos_right (JobKind.leaseMs_pos _)⟩
  | renewed => exact ⟨hid, ht, hrun, _, rfl, Nat.lt_add_of_pos_right (JobKind.leaseMs_pos _)⟩
  | ended hh =>
    exact absurd (congrArg₂ JobLease.mk (hh.1.symm.trans hid) (Option.some.inj (hh.2.1.symm.trans ht))) ha
  | buried hx => exact absurd hx.2.1 hlive
  | requeued hs => rcases hs with h | h <;> exact nomatch h.symm.trans hrun

theorem transact_held (hq : (q.rows.map (·.id)).Nodup) (h : ∃ r ∈ q.rows, r.heldBy lease clock) (hn : now ≤ clock)
    (ha : ¬ a.Ends lease) : ∃ r ∈ (transact q now clock a).2.rows, r.heldBy lease clock := by
  obtain ⟨r, hr, hheld⟩ := h
  obtain ⟨r', hr', hc⟩ := (transact_moves hq now clock a).mem_left hr
  exact ⟨r', hr', hc.held hheld hn ha⟩

theorem held_of_transact (hq : QueueOk catalog q) (hlt : lease.token < q.fresh) (hc : a.checkedAt clock ≤ clock)
    (h : ∃ r ∈ (transact q now clock a).2.rows, r.heldBy lease clock) :
    ∃ r ∈ q.rows, r.heldBy lease (a.checkedAt clock) := by
  by_contra hn
  have hlost : Lost q lease (a.checkedAt clock) := ⟨hlt, fun r hr hheld => hn ⟨r, hr, hheld⟩⟩
  obtain ⟨r, hr, hheld⟩ := h
  exact (hlost.moves hq.rows (transact_moves hq.ids_nodup now clock a) hc (Nat.le_refl _)).2 r hr hheld

theorem HandedOk.token_lt (hh : HandedOk q row) : row.lease.token < q.fresh := by
  obtain ⟨t, ht, hlt, _⟩ := hh
  simpa [JobRow.lease, ht] using hlt

theorem claimLoop_tokens (i : ClientInstanceId) (kind : JobKind) (workerId : WorkerId) (now : Time)
    (locked : List JobId) (n : Nat) (q : Queue) :
    (∀ row ∈ (claimLoop i kind workerId now locked n q).1, ∃ t, row.leaseToken = some t ∧ q.fresh ≤ t) ∧
      ((claimLoop i kind workerId now locked n q).1.map (·.leaseToken)).Nodup := by
  induction n generalizing q with
  | zero => simp [claimLoop]
  | succ n ih =>
    rw [claimLoop]
    split
    · simp
    · rename_i r _
      obtain ⟨hnew, hnodup⟩ := ih (claimOne q kind workerId now r).2
      have hlater : ∀ row ∈ (claimLoop i kind workerId now locked n (claimOne q kind workerId now r).2).1,
          ∃ t, row.leaseToken = some t ∧ q.fresh < t := by
        intro row hrow
        obtain ⟨t, ht, hle⟩ := hnew row hrow
        exact ⟨t, ht, hle⟩
      constructor
      · intro row hrow
        rcases List.mem_cons.mp hrow with rfl | hrow
        · exact ⟨q.fresh, rfl, Nat.le_refl _⟩
        · obtain ⟨t, ht, hlt⟩ := hlater row hrow
          exact ⟨t, ht, hlt.le⟩
      · refine List.nodup_cons.mpr ⟨fun hm => ?_, hnodup⟩
        obtain ⟨row, hrow, he⟩ := List.mem_map.mp hm
        obtain ⟨t, ht, hlt⟩ := hlater row hrow
        have htok : some t = some q.fresh := ht.symm.trans he
        cases htok
        exact absurd hlt (Nat.lt_irrefl _)

theorem count_sublist {p : JobRow → Prop} [DecidablePred p] (h : List.Sublist t t') :
    count p t ≤ count p t' := h.countP_le

theorem QueueOk.sublist (hq : QueueOk catalog q) (h : List.Sublist kept q.rows) :
    QueueOk catalog { q with rows := kept } where
  rows r hr := hq.rows r (h.subset hr)
  ids_nodup := hq.ids_nodup.sublist (h.map _)
  ids_lt r hr := hq.ids_lt r (h.subset hr)
  tokens_lt r hr := hq.tokens_lt r (h.subset hr)
  token_once t := (count_sublist h).trans (hq.token_once t)
  globally i kind hk most hm := (count_sublist h).trans (hq.globally i kind hk most hm)
  perKey i key kind hk most hm := (count_sublist h).trans (hq.perKey i key kind hk most hm)
  dedupe i kind key := (count_sublist h).trans (hq.dedupe i kind key)

theorem HandedOk.sublist (hh : HandedOk q row) (h : List.Sublist kept q.rows) :
    HandedOk { q with rows := kept } row := by
  obtain ⟨t, ht, hlt, hall⟩ := hh
  exact ⟨t, ht, hlt, fun r hr => hall r (h.subset hr)⟩

end Catalyst.Jobs
