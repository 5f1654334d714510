import Catalyst.Jobs.Outcome
import Catalyst.Runs.Log

/-!
# One execution under one lease

A run leaves `queued` with its claim and never returns, so one claim over the
whole history is answered "claimed". A lease that was lost stays lost, and a
write reads the job row before it reads or writes anything else.
-/

namespace Catalyst.Runs

open Library Library.Tx Jobs

structure QueueHandedOk (catalog : Catalog) (s : State) : Prop where
  queue : QueueOk catalog s.db.queue
  handed : ∀ row ∈ s.handed, HandedOk s.db.queue row

theorem queueAfter_ok (hq : QueueOk catalog q) (hh : ∀ row ∈ handed, HandedOk q row)
    (ha : Allowed catalog handed since clock a) : QueueOk catalog (queueAfter now clock q a) := by
  cases a with
  | accept input => exact hq.enqueueJob
  | jobs a => exact hq.transact hh ha
  | claimRun row checkedAt => exact hq.leasedTransaction
  | _ => exact hq

theorem queueAfter_moves (hq : (q.rows.map (·.id)).Nodup) (hc : since ≤ clock)
    (ha : Allowed catalog handed since clock a) :
    ∃ b : Jobs.Action, since ≤ b.checkedAt clock ∧
      Moves (RowChange q.fresh now clock b) q (queueAfter now clock q a) := by
  have hsame : Moves (RowChange q.fresh now clock (.retry "" 0)) q q :=
    .refl fun _ _ => .unchanged
  cases a with
  | accept input => exact ⟨.retry "" 0, hc, hsame.enqueueJob⟩
  | jobs a =>
    refine ⟨a, ?_, transact_moves hq now clock a⟩
    cases a with
    | transaction kind row checkedAt => exact ha.2.1
    | _ => exact hc
  | claimRun row checkedAt =>
    exact ⟨.transaction executeAgentRunJob row checkedAt, ha.2.1, leasedTransaction_moves hq⟩
  | _ => exact ⟨.retry "" 0, hc, hsame⟩

theorem next_moves (hq : QueueOk catalog s.db.queue) (hl : LogsOk s.db)
    (he : (runSystem catalog).enabled s st) :
    ∃ b : Jobs.Action, s.clock ≤ b.checkedAt st.clock ∧
      Moves (RowChange s.db.queue.fresh st.now st.clock b) s.db.queue
        ((runSystem catalog).next s st).db.queue := by
  rcases (runSystem_step catalog s st hl).2.2 with h | h
  · rw [h]; exact queueAfter_moves hq.ids_nodup he.1 he.2.2
  · rw [h]; exact ⟨.retry "" 0, he.1, .refl fun _ _ => .unchanged⟩

theorem perform_handed (h : perform now clock a db = .ok (answer, db'))
    (hrow : row ∈ handedBy (.ok answer)) :
    ∃ b, a = .jobs b ∧ row ∈ (transact db.queue now clock b).1.rows ∧
      db'.queue = (transact db.queue now clock b).2 := by
  cases a with
  | jobs b =>
    simp only [perform, transactJobs, bind_ok, get_ok, modify_ok, pure_ok] at h
    obtain ⟨_, _, ⟨_, _, ⟨rfl, rfl⟩, _, db₁, hh, _, _, rfl, rfl, rfl⟩, rfl, rfl⟩ := h
    exact ⟨b, rfl, hrow, rfl⟩
  | _ =>
    simp only [perform, bind_ok, pure_ok, modify_ok] at h
    obtain ⟨_, _, _, rfl, _⟩ := h
    cases hrow

theorem runSystem_queueOk (hs : (runSystem catalog).Reachable s) : QueueHandedOk catalog s := by
  have hboth : LogsOk s.db ∧ QueueHandedOk catalog s := by
    refine hs.invariant (I := fun s => LogsOk s.db ∧ QueueHandedOk catalog s) (fun s hs => ?_) ?_
    · obtain ⟨hq, hr, ho, hh⟩ := hs
      refine ⟨⟨by simp [hr], by simp [hr], by simp [ho]⟩, ⟨?_, ?_, ?_, ?_, ?_, ?_, ?_, ?_⟩, ?_⟩ <;>
        simp [hq, hh]
    · rintro s st ⟨hl, hq, hh⟩ he
      obtain ⟨b, _, hm⟩ := next_moves hq hl he
      have hq' : QueueOk catalog ((runSystem catalog).next s st).db.queue := by
        rcases (runSystem_step catalog s st hl).2.2 with h | h
        · rw [h]; exact queueAfter_ok hq hh he.2.2
        · rw [h]; exact hq
      refine ⟨(runSystem_step catalog s st hl).1, hq', fun row hrow => ?_⟩
      rcases List.mem_append.mp hrow with hrow | hrow
      · exact (hh row hrow).moves hq.rows hm
      · cases hp : perform st.now st.clock st.action s.db with
        | error e =>
          rw [hp] at hrow
          cases hrow
        | ok p =>
          rw [hp] at hrow
          obtain ⟨b, hb, hrow, hqb⟩ := perform_handed hp hrow
          have hn : ((runSystem catalog).next s st).db.queue
              = (transact s.db.queue st.now st.clock b).2 :=
            (congrArg (fun x => x.2.queue) (commit_ok hp)).trans hqb
          cases b with
          | claim w kind limit locked =>
            obtain ⟨hin, t, ht⟩ := claimJobs_returned hq hrow
            exact .claimed hq' (hn ▸ hin) ht
          | _ => exact absurd hrow List.not_mem_nil
  exact hboth.2

def LeaseLost (q : Queue) (clock : Time) (row : JobRow) : Prop :=
  ∀ r ∈ q.rows, r.id = row.id →
    r.leaseToken ≠ row.leaseToken ∨ ¬ r.Running ∨ ∀ e ∈ r.leaseExpiresAt, e ≤ clock
  deriving Decidable

theorem leaseLost_iff (h : HandedOk q row) : LeaseLost q clock row ↔ Lost q row.lease clock := by
  obtain ⟨t, ht, hlt, _⟩ := h
  have hlease : row.lease = ⟨row.id, t⟩ := by rw [JobRow.lease, ht]; rfl
  rw [hlease]
  constructor
  · refine fun h => ⟨hlt, fun r hr hheld => ?_⟩
    obtain ⟨hid, htok, hrun, e, he, hlive⟩ := hheld
    rcases h r hr hid with h | h | h
    · exact h (htok.trans ht.symm)
    · exact h hrun
    · exact Nat.not_lt.mpr (h e he) hlive
  · intro h r hr hid
    by_cases htok : r.leaseToken = row.leaseToken
    · by_cases hrun : r.Running
      · refine .inr (.inr fun e he => Nat.not_lt.mp fun hlive => ?_)
        exact h.2 r hr ⟨hid, htok.trans ht, hrun, e, he, hlive⟩
      · exact .inr (.inl hrun)
    · exact .inl htok

theorem lost_run (hs : (runSystem catalog).Reachable s) (hl : Lost s.db.queue lease s.clock)
    (hrun : (runSystem catalog).Run s h t) : s.clock ≤ t.clock ∧ Lost t.db.queue lease t.clock := by
  induction hrun with
  | nil => exact ⟨Nat.le_refl _, hl⟩
  | @cons s st h t he _ ih =>
    have hq := (runSystem_queueOk hs).queue
    obtain ⟨b, hb, hm⟩ := next_moves hq (runSystem_logsOk hs) he
    have hclock : ((runSystem catalog).next s st).clock = st.clock := rfl
    obtain ⟨hle, hlost⟩ := ih (hs.next he) (hclock ▸ hl.moves hq.rows hm he.1 hb)
    exact ⟨Nat.le_trans he.1 hle, hlost⟩

theorem requireJobLease_error (h : Lost db.queue lease clock) :
    requireJobLease lease clock db = .error (.jobLeaseLost lease.jobId) := by
  rw [requireJobLease, bind_of_ok (get_ok.mpr ⟨rfl, rfl⟩)]
  refine require_error fun hexists => ?_
  obtain ⟨r, hr, hheld⟩ := hexists
  exact h.2 r hr hheld

theorem Write.perform_error (w : Write) (h : Lost db.queue row.lease clock) :
    w.perform row runId clock db = .error (.jobLeaseLost row.id) := by
  have hlease : requireJobLease (claimOf row runId).lease clock db
      = .error (.jobLeaseLost row.id) := requireJobLease_error h
  cases w with
  | observation event => exact bind_error (bind_error hlease)
  | message m => exact bind_error hlease
  | runEnd m events => exact bind_error hlease
  | approval request => exact bind_error (bind_error hlease)
  | continuation conversationId providerId => exact bind_error (bind_error hlease)

theorem claimRun_error (h : Lost db.queue row.lease checkedAt) :
    claimRun row now checkedAt clock db = .error (.jobLeaseLost row.id) := by
  have hnone : (leasedTransaction db.queue row.lease executeAgentRunJob.leaseMs checkedAt
      clock).1 = false := by
    rw [leasedTransaction, lockLeasedJob_none.mpr h.2]
  rw [claimRun, bind_of_ok (get_ok.mpr ⟨rfl, rfl⟩)]
  refine bind_error (require_error ?_)
  rw [hnone]
  exact Bool.false_ne_true

/-- The step is a transaction of the attempt that was handed `row`. -/
def Step.under (st : Step) (row : JobRow) : Prop :=
  (∃ runId w, st.action = .write row runId w) ∨ ∃ checkedAt, st.action = .claimRun row checkedAt

def Step.checkedAt (st : Step) : Time :=
  match st.action with
  | .claimRun _ checkedAt => checkedAt
  | _ => st.clock

theorem checkedAt_ge (he : (runSystem catalog).enabled t st) : t.clock ≤ st.checkedAt := by
  obtain ⟨now, clock, action⟩ := st
  cases action with
  | claimRun row checkedAt => exact he.2.2.2.1
  | _ => exact he.1

theorem step_refused (catalog : Catalog) (t : State) (hu : st.under row)
    (hl : Lost t.db.queue row.lease st.checkedAt) :
    (runSystem catalog).step t st
      = (.error (.jobLeaseLost row.id), ⟨t.db, st.clock, t.handed⟩) := by
  have herr : perform st.now st.clock st.action t.db = .error (.jobLeaseLost row.id) := by
    obtain ⟨now, clock, action⟩ := st
    rcases hu with ⟨runId, w, rfl⟩ | ⟨checkedAt, rfl⟩
    · exact bind_error (w.perform_error hl)
    · exact bind_error (claimRun_error hl)
  have hcommit := commit_error herr
  simp only [runSystem, hcommit, handedBy, List.append_nil]

def executes : Except RunError Answer → Option (ClientInstanceId × RunId)
  | .ok (.claim (.claimed run)) => some run.key
  | _ => none

def timesExecuted (key : ClientInstanceId × RunId) (h : List (Step × Except RunError Answer)) :
    Nat := h.countP fun e => executes e.2 = some key

theorem claimOfCurrent_ne (current : Option AgentRun) :
    claimOfCurrent jobId now current ≠ .claimed run := by
  unfold claimOfCurrent
  split
  · exact fun h => nomatch h
  · split
    · exact fun h => nomatch h
    · split <;> exact fun h => nomatch h

/-- A claim that answers "claimed" found the run queued and leaves it running. -/
theorem claimAgentRunForJob_claimed
    (h : claimAgentRunForJob claim leaseMs now db = .ok (.claimed run, db')) :
    ∃ r ∈ db.runs, r.status = .queued ∧ r.key = run.key ∧ run.status = .running ∧
      run ∈ db'.runs := by
  simp only [claimAgentRunForJob, bind_ok, updateRuns_ok, get_ok] at h
  obtain ⟨rows, db₁, ⟨hrows, rfl⟩, _, _, ⟨rfl, rfl⟩, h⟩ := h
  cases rows with
  | cons row rows =>
    obtain ⟨hrun, rfl⟩ := pure_ok.mp h
    cases hrun
    have hm : run ∈ (db.runs.filter fun r =>
        r.ofRow claim.clientInstanceId claim.runId ∧ r.status = .queued).map
          (claimedRun claim.lease leaseMs now) := hrows ▸ List.mem_cons_self
    obtain ⟨r, hr, rfl⟩ := List.mem_map.mp hm
    obtain ⟨hr, hp⟩ := List.mem_filter.mp hr
    have hp : r.ofRow claim.clientInstanceId claim.runId ∧ r.status = .queued := by simpa using hp
    exact ⟨r, hr, hp.2, rfl, rfl, mem_updateWhere_of_mem hr hp⟩
  | nil => exact absurd (pure_ok.mp h).1 (claimOfCurrent_ne _)

theorem claimRun_claimed (h : claimRun row now checkedAt clock db = .ok (.claimed run, db')) :
    ∃ r ∈ db.runs, r.status = .queued ∧ r.key = run.key ∧ run.status = .running ∧
      run ∈ db'.runs := by
  simp only [claimRun, bind_ok, get_ok, require_ok, need_ok, modify_ok, pure_ok] at h
  obtain ⟨_, _, ⟨rfl, rfl⟩, _, _, ⟨_, rfl⟩, runId, _, ⟨_, rfl⟩, claim, db₁, hc, _, db₂, hf,
    _, _, rfl, rfl, rfl⟩ := h
  obtain ⟨r, hr, hq, hk, hs, hm⟩ := claimAgentRunForJob_claimed hc
  rw [if_neg (by rintro ⟨⟩)] at hf
  obtain ⟨_, rfl⟩ := pure_ok.mp hf
  exact ⟨r, hr, hq, hk, hs, hm⟩

theorem executes_step (h : executes ((runSystem catalog).answer s st) = some key) :
    (∃ r ∈ s.db.runs, r.key = key ∧ r.status = .queued) ∧
      ∃ r ∈ ((runSystem catalog).next s st).db.runs, r.key = key ∧ r.status ≠ .queued := by
  cases hp : perform st.now st.clock st.action s.db with
  | error e =>
    have ha : (runSystem catalog).answer s st = .error e := congrArg Prod.fst (commit_error hp)
    rw [ha] at h
    cases h
  | ok p =>
    have ha : (runSystem catalog).answer s st = .ok p.1 := congrArg Prod.fst (commit_ok hp)
    have hn : ((runSystem catalog).next s st).db = p.2 := congrArg Prod.snd (commit_ok hp)
    obtain ⟨answer, db'⟩ := p
    rw [ha] at h
    cases answer with
    | claim c =>
      cases c with
      | claimed run =>
        have hclaim : ∃ row checkedAt, claimRun row st.now checkedAt st.clock s.db
            = .ok (.claimed run, db') := by
          cases hact : st.action with
          | claimRun row checkedAt =>
            rw [hact] at hp
            simp only [perform, bind_ok, pure_ok] at hp
            obtain ⟨_, _, hc, hcl, rfl⟩ := hp
            cases hcl
            exact ⟨row, checkedAt, hc⟩
          | _ =>
            rw [hact] at hp
            simp only [perform, bind_ok, pure_ok] at hp
            obtain ⟨_, _, _, hcl, _⟩ := hp
            cases hcl
        obtain ⟨row, checkedAt, hc⟩ := hclaim
        obtain ⟨r, hr, hq, hk, hs, hm⟩ := claimRun_claimed hc
        cases Option.some.inj h
        refine ⟨⟨r, hr, hk, hq⟩, run, hn ▸ hm, rfl, ?_⟩
        rw [hs]
        exact fun h => nomatch h
      | _ => cases h
    | _ => cases h

/-- A run past `queued` is not claimed again. -/
theorem timesExecuted_started (hs : (runSystem catalog).Reachable s)
    (hr : ∃ r ∈ s.db.runs, r.key = key ∧ r.status ≠ .queued)
    (hrun : (runSystem catalog).Run s h t) : timesExecuted key h = 0 := by
  induction hrun with
  | nil => rfl
  | @cons s st h t he _ ih =>
    obtain ⟨r, hr, hk, hq⟩ := hr
    have hlogs := runSystem_logsOk hs
    obtain ⟨r', hr', hl⟩ := (runSystem_step catalog s st hlogs).2.1 r hr
    have hrest := ih (hs.next he) ⟨r', hr', hl.key.trans hk, hl.queued hq⟩
    have hfirst : ¬ executes ((runSystem catalog).answer s st) = some key := by
      intro h
      obtain ⟨⟨x, hx, hxk, hxq⟩, _⟩ := executes_step h
      have hxr : x = r := eq_of_key hlogs.keys_nodup hx hr (hxk.trans hk.symm)
      exact hq (hxr ▸ hxq)
    rw [timesExecuted, List.countP_cons_of_neg (by simpa using hfirst)]
    exact hrest

theorem timesExecuted_le_one (hs : (runSystem catalog).Reachable s)
    (hrun : (runSystem catalog).Run s h t) : timesExecuted key h ≤ 1 := by
  induction hrun with
  | nil => exact Nat.zero_le 1
  | @cons s st h t he hrest ih =>
    by_cases hx : executes ((runSystem catalog).answer s st) = some key
    · have hzero := timesExecuted_started (hs.next he) (executes_step hx).2 hrest
      rw [timesExecuted, List.countP_cons_of_pos (by simpa using hx)]
      exact Nat.succ_le_succ hzero.le
    · rw [timesExecuted, List.countP_cons_of_neg (by simpa using hx)]
      exact ih (hs.next he)

theorem handed_of_under (he : (runSystem catalog).enabled t st) (hu : st.under row) :
    row ∈ t.handed := by
  obtain ⟨now, clock, action⟩ := st
  rcases hu with ⟨runId, w, rfl⟩ | ⟨checkedAt, rfl⟩
  · exact he.2.2
  · exact he.2.2.1.1

/-- Over every history a run is executed at most once, and whatever an attempt tries after
it lost its lease, at any earlier moment or at the one it looks, is refused and changes no
table. -/
theorem executed_once_and_fenced (catalog : Catalog) (s : State)
    (hs : (runSystem catalog).Reachable s) (h : List (Step × Except RunError Answer)) (t : State)
    (hrun : (runSystem catalog).Run s h t) :
    (∀ key, timesExecuted key h ≤ 1) ∧
      ∀ row st, (runSystem catalog).enabled t st → st.under row →
        (row ∈ s.handed ∧ LeaseLost s.db.queue s.clock row) ∨
          LeaseLost t.db.queue st.checkedAt row →
        (runSystem catalog).answer t st = .error (.jobLeaseLost row.id) ∧
          ((runSystem catalog).next t st).db = t.db := by
  refine ⟨fun key => timesExecuted_le_one hs hrun, fun row st he hu hlost => ?_⟩
  have hlost' : Lost t.db.queue row.lease st.checkedAt := by
    rcases hlost with ⟨hrow, hl⟩ | hl
    · have hhanded := (runSystem_queueOk hs).handed row hrow
      exact (lost_run hs ((leaseLost_iff hhanded).mp hl) hrun).2.later (checkedAt_ge he)
    · have hhanded := (runSystem_queueOk (hs.run hrun)).handed row (handed_of_under he hu)
      exact (leaseLost_iff hhanded).mp hl
  have hstep := step_refused catalog t hu hlost'
  exact ⟨congrArg Prod.fst hstep, congrArg (fun x => x.2.db) hstep⟩

namespace Example

def bury : Step := ⟨200000, 200000, .jobs (.bury worker 0 false)⟩

def buried : State := after [accept, claimJob, claim, bury]

def lateComplete : Step := { complete with now := 200001, clock := 200001 }

theorem buried_reachable : (runSystem catalog).Reachable buried :=
  (((empty_reachable.next (a := accept) (by decide)).next (a := claimJob) (by decide)).next
    (a := claim) (by decide)).next (a := bury) (by decide)

end Example

theorem executed_once_and_fenced_buried :
    Example.buried.db.runs.map (·.status) = [.failed] ∧
      (runSystem Example.catalog).answer Example.buried Example.lateComplete
        = .error (.jobLeaseLost Example.row.id) ∧
      ((runSystem Example.catalog).next Example.buried Example.lateComplete).db
        = Example.buried.db :=
  ⟨by decide, (executed_once_and_fenced _ _ Example.buried_reachable [] _ .nil).2 Example.row _
    (by decide) (.inl ⟨"r", _, rfl⟩) (.inl (by decide))⟩

end Catalyst.Runs
