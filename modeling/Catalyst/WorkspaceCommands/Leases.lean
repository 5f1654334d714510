import Catalyst.Jobs.Origin
import Catalyst.WorkspaceCommands.Runners

/-!
# The lease of a command

The row of a command that an attempt claimed stays claimed under the attempt's token for as long as
the job's lease is live: whoever else writes the row works at a job of the same command, and two
jobs of one command are not live at once. For the same reason two attempts of one workspace do not
hold their leases at once.
-/

namespace Catalyst.WorkspaceCommands

open Library Jobs

def Keeps (t t' : List WorkspaceCommand) : Prop :=
  ∀ c ∈ t, ∃ c' ∈ t', c'.id = c.id ∧ c'.workspaceId = c.workspaceId

def ClaimedUnder (t : List WorkspaceCommand) (c : WorkspaceCommand) : Prop :=
  ∃ x ∈ t, x.claimedBy c.id c.leaseToken
  deriving Decidable

structure Edit (commandId : String) (t t' : List WorkspaceCommand) : Prop where
  keeps : Keeps t t'
  ids : t'.map (·.id) = t.map (·.id)
  others : ∀ c ∈ t, c.id ≠ commandId → c ∈ t'

theorem Edit.refl : Edit commandId t t := ⟨fun c hc => ⟨c, hc, rfl, rfl⟩, rfl, fun _ hc _ => hc⟩

theorem Edit.trans (h : Edit commandId t t') (h' : Edit commandId t' t'') : Edit commandId t t'' where
  keeps c hc := by
    obtain ⟨c', hc', hid, hw⟩ := h.keeps c hc
    obtain ⟨c'', hc'', hid', hw'⟩ := h'.keeps c' hc'
    exact ⟨c'', hc'', hid'.trans hid, hw'.trans hw⟩
  ids := h'.ids.trans h.ids
  others c hc hne := h'.others c (h.others c hc hne) hne

theorem Edit.updateWhere {p : WorkspaceCommand → Prop} [DecidablePred p] {f : WorkspaceCommand → WorkspaceCommand}
    (hp : ∀ c, p c → c.id = commandId) (hf : ∀ c, (f c).id = c.id ∧ (f c).workspaceId = c.workspaceId) :
    Edit commandId t (Library.updateWhere p f t) where
  keeps c hc := by
    by_cases h : p c
    · exact ⟨f c, mem_updateWhere_of_mem hc h, hf c⟩
    · exact ⟨c, mem_updateWhere_of_not hc h, rfl, rfl⟩
  ids := map_updateWhere _ fun c _ => (hf c).1
  others _ hc hne := mem_updateWhere_of_not hc fun h => hne (hp _ h)

theorem Edit.claimedUnder (h : Edit commandId t t') (hne : c.id ≠ commandId) (hc : ClaimedUnder t c) :
    ClaimedUnder t' c := by
  obtain ⟨x, hx, hby⟩ := hc
  exact ⟨x, h.others x hx fun he => hne (hby.1.symm.trans he), hby⟩

theorem claimWorkspaceCommand_cases (t : List WorkspaceCommand) (commandId : String) (owner : JobId)
    (token : LeaseToken) (leaseMs : Nat) (now : Time) :
    (∃ c ∈ t, c.id = commandId ∧ claimWorkspaceCommand t commandId owner token leaseMs now
        = (.claimed (claimedCommand owner token leaseMs now c),
          updateWhere (fun x => x.id = commandId) (claimedCommand owner token leaseMs now) t)) ∨
      claimWorkspaceCommand t commandId owner token leaseMs now = (.held, t) ∨
      claimWorkspaceCommand t commandId owner token leaseMs now = (.finished, t) := by
  unfold claimWorkspaceCommand
  split
  · exact .inr (.inr rfl)
  · rename_i c hc
    split
    · exact .inl ⟨c, List.mem_of_find?_eq_some hc, by simpa using List.find?_some hc, rfl⟩
    · split
      · exact .inr (.inl rfl)
      · exact .inr (.inr rfl)

theorem claimWorkspaceCommand_edit :
    Edit commandId t (claimWorkspaceCommand t commandId owner token leaseMs now).2 := by
  rcases claimWorkspaceCommand_cases t commandId owner token leaseMs now with ⟨_, _, _, h⟩ | h | h
  · rw [h]
    exact .updateWhere (fun _ h => h) fun _ => ⟨rfl, rfl⟩
  · rw [h]
    exact .refl
  · rw [h]
    exact .refl

theorem endClaimedCommand_edit (h : endClaimedCommand t commandId token ending = some t') :
    Edit commandId t t' := by
  unfold endClaimedCommand at h
  split at h
  · cases h
    exact .updateWhere (fun _ h => h.1) fun _ => ⟨rfl, rfl⟩
  · cases h

/-- The last attempt's `onExhausted` writes the row of its own command. -/
theorem failAfterWorkerLoss_edit : Edit (commandIdOf job) t (failAfterWorkerLoss t job token now) := by
  unfold failAfterWorkerLoss
  rcases claimWorkspaceCommand_cases t (commandIdOf job) job.id token LOST_COMMAND_LEASE_MS now with
    ⟨c, _, hid, h⟩ | h | h
  · have hedit : Edit (commandIdOf job) t
        (claimWorkspaceCommand t (commandIdOf job) job.id token LOST_COMMAND_LEASE_MS now).2 :=
      claimWorkspaceCommand_edit
    rw [h] at hedit ⊢
    simp only
    cases hend : endClaimedCommand (updateWhere (fun x => x.id = commandIdOf job)
        (claimedCommand job.id token LOST_COMMAND_LEASE_MS now) t)
        (claimedCommand job.id token LOST_COMMAND_LEASE_MS now c).id
        (claimedCommand job.id token LOST_COMMAND_LEASE_MS now c).leaseToken .failed with
    | none => exact hedit
    | some t' =>
      have hended := endClaimedCommand_edit hend
      rw [show (claimedCommand job.id token LOST_COMMAND_LEASE_MS now c).id = commandIdOf job from hid] at hended
      exact hedit.trans hended
  · rw [h]
    exact .refl
  · rw [h]
    exact .refl

theorem renew_edit : Edit commandId t (renewClaimedWorkspaceCommandLease t commandId token now) :=
  .updateWhere (fun _ h => h.1) fun _ => ⟨rfl, rfl⟩

theorem cancellation_edit : Edit commandId t (requestWorkspaceCommandCancellation t commandId) := by
  refine .updateWhere (fun _ h => h.1) fun c => ?_
  unfold cancellationOf
  split <;> exact ⟨rfl, rfl⟩

theorem ClaimedUnder.updateWhere {p : WorkspaceCommand → Prop} [DecidablePred p]
    {f : WorkspaceCommand → WorkspaceCommand} (hc : ClaimedUnder t c)
    (hf : ∀ x, x.claimedBy c.id c.leaseToken → (f x).claimedBy c.id c.leaseToken) :
    ClaimedUnder (Library.updateWhere p f t) c := by
  obtain ⟨x, hx, hby⟩ := hc
  by_cases h : p x
  · exact ⟨f x, mem_updateWhere_of_mem hx h, hf x hby⟩
  · exact ⟨x, mem_updateWhere_of_not hx h, hby⟩

theorem ClaimedUnder.renew (hc : ClaimedUnder t c) :
    ClaimedUnder (renewClaimedWorkspaceCommandLease t commandId token now) c :=
  hc.updateWhere fun _ hby => hby

theorem ClaimedUnder.cancellation (hc : ClaimedUnder t c) :
    ClaimedUnder (requestWorkspaceCommandCancellation t commandId) c := by
  refine hc.updateWhere fun x hby => ?_
  obtain ⟨hid, hsome, htok, hclaimed⟩ := hby
  have hnq : x.status ≠ .queued := by rcases hclaimed with h | h <;> simp [h]
  rw [cancellationOf, if_neg hnq]
  exact ⟨hid, hsome, htok, .inr rfl⟩

variable {instanceId : ClientInstanceId}

structure JobFor (instanceId : ClientInstanceId) (commandId workspaceId : String) (x : JobRow) : Prop where
  ofKind : x.ofKind instanceId runWorkspaceCommandJob.kind
  payload : x.payload = commandPayload commandId
  dedupeKey : x.dedupeKey = some (subjectDedupeKey runWorkspaceCommandJob.kind commandId)
  concurrencyKey : x.concurrencyKey = some workspaceId

theorem JobFor.same (h : JobFor instanceId commandId workspaceId x) (hs : SameJob x x') :
    JobFor instanceId commandId workspaceId x' where
  ofKind := ⟨hs.clientInstanceId ▸ h.ofKind.1, hs.kind ▸ h.ofKind.2⟩
  payload := hs.payload ▸ h.payload
  dedupeKey := hs.dedupeKey ▸ h.dedupeKey
  concurrencyKey := hs.concurrencyKey ▸ h.concurrencyKey

theorem JobFor.commandIdOf (h : JobFor instanceId commandId workspaceId x) : commandIdOf x = commandId := by
  simp [WorkspaceCommands.commandIdOf, h.payload, commandPayload]

theorem JobFor.unique (hq : QueueOk catalog q) (hx : x ∈ q.rows) (hy : y ∈ q.rows)
    (h : JobFor instanceId commandId w x) (h' : JobFor instanceId commandId w' y) (hl : x.Live) (hl' : y.Live) :
    x = y :=
  eq_of_count_le_one (hq.dedupe instanceId runWorkspaceCommandJob.kind _) hx hy
    ⟨h.ofKind, h.dedupeKey, hl⟩ ⟨h'.ofKind, h'.dedupeKey, hl'⟩

theorem JobFor.alone (hq : QueueOk catalog q) (hx : x ∈ q.rows) (hy : y ∈ q.rows)
    (h : JobFor instanceId commandId w x) (h' : JobFor instanceId commandId' w y) (hr : x.Running) (hr' : y.Running) :
    x = y :=
  eq_of_count_le_one (hq.perKey instanceId w runWorkspaceCommandJob List.mem_cons_self 1 rfl) hx hy
    ⟨h.ofKind, hr, h.concurrencyKey⟩ ⟨h'.ofKind, hr', h'.concurrencyKey⟩

theorem lease_eq_of_heldBy {x : JobRow} (h : x.heldBy lease c) (h' : x.heldBy lease' c') : lease = lease' :=
  congrArg₂ JobLease.mk (h.1.symm.trans h'.1) (Option.some.inj (h.2.1.symm.trans h'.2.1))

theorem queuedJob_for :
    JobFor instanceId commandId w (queuedJob q now runWorkspaceCommandJob (commandPayload commandId)
      (workspaceCommandJobOptions instanceId commandId w)) :=
  ⟨⟨rfl, rfl⟩, rfl, rfl, rfl⟩

inductive JobsMove (j : Jobs.State) (now clock : Time) : Jobs.State → Prop
  | idle : JobsMove j now clock { j with clock := clock }
  | transact {a : Jobs.Action} : Allowed catalog j.handed j.clock clock a →
      JobsMove j now clock ((executor catalog).next j ⟨now, clock, a⟩)

theorem checkedAt_of_allowed (h : Allowed catalog handed since clock a) (hc : since ≤ clock) :
    since ≤ a.checkedAt clock ∧ a.checkedAt clock ≤ clock := by
  cases a with
  | transaction kind row checkedAt => exact h.2
  | _ => exact ⟨hc, Nat.le_refl _⟩

section JobsMove

variable {j j' : Jobs.State} {now clock : Time} {a : Jobs.Action}

theorem JobsMove.ok (h : JobsMove j now clock j') (hj : StateOk catalog j) (hc : j.clock ≤ clock) (hn : now ≤ clock) :
    StateOk catalog j' := by
  cases h with
  | idle => exact ⟨hj.queue, hj.handed⟩
  | transact ha => exact executor_preserves catalog j ⟨now, clock, _⟩ hj ⟨hc, hn, ha⟩

theorem JobsMove.clock_eq (h : JobsMove j now clock j') : j'.clock = clock := by
  cases h with
  | idle => rfl
  | transact ha => rfl

theorem JobsMove.handed (h : JobsMove j now clock j') (hr : row ∈ j.handed) : row ∈ j'.handed := by
  cases h with
  | idle => exact hr
  | transact ha => exact List.mem_append_left _ hr

theorem JobsMove.handed_origin (h : JobsMove j now clock j') (hj : StateOk catalog j) (hr : row ∈ j'.handed) :
    row ∈ j.handed ∨ row ∈ j'.queue.rows := by
  cases h with
  | idle => exact .inl hr
  | @transact a ha =>
    rcases List.mem_append.mp hr with hr | hr
    · exact .inl hr
    · cases a with
      | claim w kind limit locked => exact .inr (claimJobs_returned hj.queue hr).1
      | _ => simp [Answer.rows] at hr

theorem heldBy_earlier {x : JobRow} (h : x.heldBy lease c') (hc : c ≤ c') : x.heldBy lease c := by
  obtain ⟨hid, ht, hrun, e, he, hlt⟩ := h
  exact ⟨hid, ht, hrun, e, he, Nat.lt_of_le_of_lt hc hlt⟩

theorem JobsMove.before (h : JobsMove j now clock j') (hj : StateOk catalog j) (hc : j.clock ≤ clock)
    (hr : row ∈ j.handed) (hheld : ∃ x ∈ j'.queue.rows, x.heldBy row.lease clock) :
    ∃ x ∈ j.queue.rows, x.heldBy row.lease j.clock := by
  cases h with
  | idle =>
    obtain ⟨x, hx, hby⟩ := hheld
    exact ⟨x, hx, heldBy_earlier hby hc⟩
  | transact ha =>
    obtain ⟨hle, hle'⟩ := checkedAt_of_allowed ha hc
    obtain ⟨x, hx, hby⟩ := held_of_transact hj.queue (hj.handed row hr).token_lt hle' hheld
    exact ⟨x, hx, heldBy_earlier hby hle⟩

theorem transact_same (now : Time) (hj : StateOk catalog j) (ha : Allowed catalog j.handed j.clock clock a)
    (hadds : ∀ name, ¬ a.Adds name) (hx : x' ∈ (transact j.queue now clock a).2.rows) :
    ∃ x ∈ j.queue.rows, SameJob x x' := by
  rcases transact_origin hj.queue (hj.queue.transact hj.handed ha).ids_nodup hx with ⟨x, hx, hc⟩ | ⟨h, _⟩
  · exact ⟨x, hx, hc.same⟩
  · exact absurd h (hadds _)

end JobsMove

structure RunnerOk (instanceId : ClientInstanceId) (s : State) (r : Runner) : Prop where
  handed : r.row ∈ s.jobs.handed
  job : ∀ c, r.phase.command? = some c →
    JobFor instanceId c.id c.workspaceId r.row ∧ c.leaseToken = some r.lease.token
  claimed : ∀ c, r.phase.command? = some c → s.Holds r s.jobs.clock → ClaimedUnder s.commands c

structure CommandsOk (instanceId : ClientInstanceId) (s : State) : Prop where
  jobs : StateOk catalog s.jobs
  rows : ∀ x ∈ s.jobs.queue.rows, ∃ c ∈ s.commands, JobFor instanceId c.id c.workspaceId x
  handed : ∀ row ∈ s.jobs.handed, ∃ c ∈ s.commands, JobFor instanceId c.id c.workspaceId row
  ids : (s.commands.map (·.id)).Nodup
  leases : (s.runners.map Runner.lease).Nodup
  runners : ∀ r ∈ s.runners, RunnerOk instanceId s r

theorem RunnerOk.of_command (h : RunnerOk instanceId s r)
    (hp : ∀ c, phase.command? = some c → r.phase.command? = some c) : RunnerOk instanceId s { r with phase := phase } where
  handed := h.handed
  job c hc := h.job c (hp c hc)
  claimed c hc := h.claimed c (hp c hc)

theorem RunnerOk.of_none (h : r.row ∈ s.jobs.handed) (hp : r.phase.command? = none) : RunnerOk instanceId s r where
  handed := h
  job _ hc := nomatch hp.symm.trans hc
  claimed _ hc := nomatch hp.symm.trans hc

theorem RunnerOk.move (h : RunnerOk instanceId s r) (hs : StateOk catalog s.jobs) (hc : s.jobs.clock ≤ clock)
    (hj : JobsMove s.jobs now clock s'.jobs)
    (hspare : ∀ c, r.phase.command? = some c → s.Holds r s.jobs.clock → s'.Holds r clock →
      ClaimedUnder s.commands c → ClaimedUnder s'.commands c) : RunnerOk instanceId s' r where
  handed := hj.handed h.handed
  job := h.job
  claimed c hcmd hholds := by
    rw [hj.clock_eq] at hholds
    have hbefore : s.Holds r s.jobs.clock := hj.before hs hc h.handed hholds
    exact hspare c hcmd hbefore hholds (h.claimed c hcmd hbefore)

theorem CommandsOk.move (h : CommandsOk instanceId s) (hc : s.jobs.clock ≤ clock) (hn : now ≤ clock)
    (hj : JobsMove s.jobs now clock s'.jobs)
    (hrows : ∀ x' ∈ s'.jobs.queue.rows, (∃ x ∈ s.jobs.queue.rows, SameJob x x') ∨
      ∃ c ∈ s'.commands, JobFor instanceId c.id c.workspaceId x')
    (hkeeps : Keeps s.commands s'.commands) (hids : (s'.commands.map (·.id)).Nodup)
    (hleases : (s'.runners.map Runner.lease).Nodup) (hrunners : ∀ r ∈ s'.runners, RunnerOk instanceId s' r) :
    CommandsOk instanceId s' := by
  have hkept : ∀ x, (∃ c ∈ s.commands, JobFor instanceId c.id c.workspaceId x) →
      ∃ c ∈ s'.commands, JobFor instanceId c.id c.workspaceId x := by
    rintro x ⟨c, hcm, hfor⟩
    obtain ⟨c', hc', hid, hw⟩ := hkeeps c hcm
    exact ⟨c', hc', hid ▸ hw ▸ hfor⟩
  have hrows' : ∀ x' ∈ s'.jobs.queue.rows, ∃ c ∈ s'.commands, JobFor instanceId c.id c.workspaceId x' := by
    intro x' hx'
    rcases hrows x' hx' with ⟨x, hx, hsame⟩ | hnew
    · obtain ⟨c, hcm, hfor⟩ := hkept x (h.rows x hx)
      exact ⟨c, hcm, hfor.same hsame⟩
    · exact hnew
  refine ⟨hj.ok h.jobs hc hn, hrows', fun row hrow => ?_, hids, hleases, hrunners⟩
  rcases hj.handed_origin h.jobs hrow with hrow | hrow
  · exact hkept row (h.handed row hrow)
  · exact hrows' row hrow

section Holders

variable {s : State} {r r₂ : Runner} {c : WorkspaceCommand}

theorem CommandsOk.holder (h : CommandsOk instanceId s) (hr : r ∈ s.runners) (hcmd : r.phase.command? = some c)
    (hheld : s.Holds r t) : ∃ x ∈ s.jobs.queue.rows, x.heldBy r.lease t ∧ JobFor instanceId c.id c.workspaceId x := by
  obtain ⟨x, hx, hby⟩ := hheld
  have hrow := h.runners r hr
  exact ⟨x, hx, hby, (hrow.job c hcmd).1.same ((h.jobs.handed _ hrow.handed).same hx hby)⟩

theorem CommandsOk.other_command (h : CommandsOk instanceId s) (hr : r ∈ s.runners) (hr₂ : r₂ ∈ s.runners)
    (hne : r.lease ≠ r₂.lease) (hcmd : r.phase.command? = some c) (hheld : s.Holds r t) (hheld₂ : s.Holds r₂ t₂) :
    c.id ≠ commandIdOf r₂.row := by
  intro hid
  obtain ⟨x, hx, hby, hfor⟩ := h.holder hr hcmd hheld
  obtain ⟨x₂, hx₂, hby₂⟩ := hheld₂
  have hrow₂ := (h.runners r₂ hr₂).handed
  obtain ⟨c₂, _, hfor₂⟩ := h.handed r₂.row hrow₂
  have hfor₂' := hfor₂.same ((h.jobs.handed _ hrow₂).same hx₂ hby₂)
  rw [hid, hfor₂.commandIdOf] at hfor
  obtain rfl := hfor.unique h.jobs.queue hx hx₂ hfor₂' (.inr hby.2.2.1) (.inr hby₂.2.2.1)
  exact hne (lease_eq_of_heldBy hby hby₂)

theorem CommandsOk.other_buried (h : CommandsOk instanceId s) (hr : r ∈ s.runners) (hcmd : r.phase.command? = some c)
    (hheld : s.Holds r clock) (hn : now ≤ clock) {x₂ : JobRow} (hx₂ : x₂ ∈ s.jobs.queue.rows)
    (hex : x₂.exhausted now) : c.id ≠ commandIdOf x₂ := by
  intro hid
  obtain ⟨x, hx, hby, hfor⟩ := h.holder hr hcmd hheld
  obtain ⟨c₂, _, hfor₂⟩ := h.rows x₂ hx₂
  rw [hid, hfor₂.commandIdOf] at hfor
  obtain rfl := hfor.unique h.jobs.queue hx hx₂ hfor₂ (.inr hby.2.2.1) (.inr hex.1)
  obtain ⟨e, he, hlt⟩ := hby.2.2.2
  obtain ⟨e', he', hlt'⟩ := hex.2.1
  cases Option.some.inj (he.symm.trans he')
  exact absurd (Nat.lt_of_lt_of_le hlt' hn) (Nat.lt_asymm hlt)

theorem CommandsOk.alone (h : CommandsOk instanceId s) (hr : r ∈ s.runners) (hr₂ : r₂ ∈ s.runners)
    (hw : r.row.concurrencyKey = r₂.row.concurrencyKey) (hheld : s.Holds r t) (hheld₂ : s.Holds r₂ t₂) :
    r.lease = r₂.lease := by
  obtain ⟨x, hx, hby⟩ := hheld
  obtain ⟨x₂, hx₂, hby₂⟩ := hheld₂
  have hrow := (h.runners r hr).handed
  have hrow₂ := (h.runners r₂ hr₂).handed
  obtain ⟨c, _, hfor⟩ := h.handed r.row hrow
  obtain ⟨c₂, _, hfor₂⟩ := h.handed r₂.row hrow₂
  have hsame : c.workspaceId = c₂.workspaceId :=
    Option.some.inj (hfor.concurrencyKey.symm.trans (hw.trans hfor₂.concurrencyKey))
  rw [← hsame] at hfor₂
  obtain rfl := (hfor.same ((h.jobs.handed _ hrow).same hx hby)).alone h.jobs.queue hx hx₂
    (hfor₂.same ((h.jobs.handed _ hrow₂).same hx₂ hby₂)) hby.2.2.1 hby₂.2.2.1
  exact lease_eq_of_heldBy hby hby₂

end Holders

end Catalyst.WorkspaceCommands
