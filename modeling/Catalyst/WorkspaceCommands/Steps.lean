import Catalyst.WorkspaceCommands.Leases

/-!
# What a step of the commands does

Each function of the machine as one record: the transaction on the jobs, the edit of one command's
row, and what becomes of the attempt that took the step. The invariant of the leases is read off
these.
-/

namespace Catalyst.WorkspaceCommands

open Library Jobs

variable {instanceId : ClientInstanceId} {keyOf : ObjectKeyFactory}

-- -----------------
-- The transactions of a step
-- -----------------

section Transactions

variable {s : State} {r : Runner}

theorem transact_eq (s : State) (now clock : Time) (a : Jobs.Action) :
    s.transact now clock a = ((executor catalog).answer s.jobs ⟨now, clock, a⟩,
      { s with jobs := (executor catalog).next s.jobs ⟨now, clock, a⟩ }) := rfl

theorem held_of_transaction
    (h : (executor catalog).answer s.jobs ⟨now, clock, .transaction kind r.row checkedAt⟩ = .held true) :
    s.Holds r checkedAt := by
  simp only [Machine.answer, executor, transact, leasedTransaction] at h
  split at h
  · cases h
  · rename_i x hx
    exact ⟨x, lockLeasedJob_spec hx⟩

theorem answer_of_held (h : s.Holds r checkedAt) :
    (executor catalog).answer s.jobs ⟨now, clock, .transaction kind r.row checkedAt⟩ = .held true := by
  simp only [Machine.answer, executor, transact, leasedTransaction]
  split
  · rename_i hx
    obtain ⟨x, hx', hby⟩ := h
    exact absurd hby (lockLeasedJob_none.mp hx x hx')
  · rfl

theorem held_of_settle
    (h : (executor catalog).answer s.jobs ⟨now, clock, .settle w kind r.row attempt hookFails⟩ = .held true) :
    s.Holds r clock := by
  simp only [Machine.answer, executor, transact, Worker.settle] at h
  split at h
  · cases h
  · rename_i x hx
    exact ⟨x, lockLeasedJob_spec hx⟩

theorem claimRow_cases (s : State) (now clock : Time) (r : Runner) (checkedAt : Time) :
    ∃ phase commands, s.claimRow now clock r checkedAt
        = { s with
            jobs := (executor catalog).next s.jobs
              ⟨now, clock, .transaction runWorkspaceCommandJob r.row checkedAt⟩
            commands := commands
            runners := phase.elim s.runners fun p => (s.advance r p).runners } ∧
      ((commands = s.commands ∧ ∀ p ∈ phase, p.command? = none ∧ p.written = [] ∧ p.rest = []) ∨
        (s.Holds r checkedAt ∧ ∃ c ∈ s.commands, c.id = commandIdOf r.row ∧
          let claimed := claimedCommand r.row.id r.lease.token WORKSPACE_COMMAND_LEASE_MS now
          commands = updateWhere (fun x => x.id = commandIdOf r.row) claimed s.commands ∧
            (phase = some (.recording (claimed c) [] .failed) ∨ phase = some (.hydrating (claimed c))))) := by
  unfold State.claimRow
  rw [transact_eq]
  generalize hans : (executor catalog).answer s.jobs
    ⟨now, clock, .transaction runWorkspaceCommandJob r.row checkedAt⟩ = answer
  split
  · rename_i s₁ h
    obtain ⟨rfl, rfl⟩ := Prod.mk.inj h
    rcases claimWorkspaceCommand_cases s.commands (commandIdOf r.row) r.row.id r.lease.token
      WORKSPACE_COMMAND_LEASE_MS now with ⟨c, hc, hid, he⟩ | he | he
    · refine ⟨some (if 1 < (claimedCommand r.row.id r.lease.token WORKSPACE_COMMAND_LEASE_MS now c).attempts then
        .recording (claimedCommand r.row.id r.lease.token WORKSPACE_COMMAND_LEASE_MS now c) [] .failed
        else .hydrating (claimedCommand r.row.id r.lease.token WORKSPACE_COMMAND_LEASE_MS now c)), _, ?_,
        .inr ⟨held_of_transaction hans, c, hc, hid, rfl, ?_⟩⟩
      · simp only [he]
        rfl
      · split
        · exact .inl rfl
        · exact .inr rfl
    · exact ⟨none, s.commands, by simp only [he]; rfl, .inl ⟨rfl, by simp⟩⟩
    · exact ⟨some (.ended false), s.commands, by simp only [he]; rfl, .inl ⟨rfl, by simp [Phase.command?, Phase.written, Phase.rest]⟩⟩
  · rename_i s₁ _ h
    obtain ⟨-, rfl⟩ := Prod.mk.inj h
    exact ⟨some (.ended true), s.commands, rfl, .inl ⟨rfl, by simp [Phase.command?, Phase.written, Phase.rest]⟩⟩

theorem record_cases (s : State) (now clock : Time) (r : Runner) (c : WorkspaceCommand) (written : List FileWrite)
    (ending : Ending) (checkedAt : Time) :
    (∃ commands, s.Holds r checkedAt ∧ endClaimedCommand s.commands c.id c.leaseToken ending = some commands ∧
      s.record now clock r c written ending checkedAt = (.recorded c.id c.workspaceId written,
        { s with
          jobs := (executor catalog).next s.jobs ⟨now, clock, .transaction runWorkspaceCommandJob r.row checkedAt⟩
          commands := commands
          runners := (s.advance r (.ended false)).runners })) ∨
      (∃ threw, endClaimedCommand s.commands c.id c.leaseToken ending = none ∧
        s.record now clock r c written ending checkedAt = (.done, (s.at clock).advance r (.ended threw))) ∨
      (¬ s.Holds r checkedAt ∧ s.record now clock r c written ending checkedAt = (.done,
        { s with
          jobs := (executor catalog).next s.jobs ⟨now, clock, .transaction runWorkspaceCommandJob r.row checkedAt⟩
          runners := (s.advance r (.ended true)).runners })) := by
  unfold State.record
  rw [transact_eq]
  generalize hans : (executor catalog).answer s.jobs
    ⟨now, clock, .transaction runWorkspaceCommandJob r.row checkedAt⟩ = answer
  split
  · rename_i s₁ h
    obtain ⟨rfl, rfl⟩ := Prod.mk.inj h
    split
    · rename_i commands he
      exact .inl ⟨commands, held_of_transaction hans, he, rfl⟩
    · rename_i he
      exact .inr (.inl ⟨_, he, rfl⟩)
  · rename_i s₁ hne h
    obtain ⟨rfl, rfl⟩ := Prod.mk.inj h
    exact .inr (.inr ⟨fun hheld => hne (hans.symm.trans (answer_of_held hheld)), rfl⟩)

theorem settle_cases (s : State) (w : Worker) (now clock : Time) (r : Runner) (attempt : Attempt) (hookFails : Bool) :
    ∃ commands, s.settle w now clock r attempt hookFails = { s with
        jobs := (executor catalog).next s.jobs ⟨now, clock, .settle w runWorkspaceCommandJob r.row attempt hookFails⟩
        commands := commands } ∧
      (commands = s.commands ∨ (s.Holds r clock ∧ attempt ≠ .stopped ∧
        commands = failAfterWorkerLoss s.commands r.row s.jobs.queue.fresh now)) := by
  unfold State.settle
  rw [transact_eq]
  generalize hans : (executor catalog).answer s.jobs
    ⟨now, clock, .settle w runWorkspaceCommandJob r.row attempt hookFails⟩ = answer
  split
  · rename_i s₁ h
    obtain ⟨rfl, rfl⟩ := Prod.mk.inj h
    split
    · rename_i hex
      refine ⟨_, rfl, .inr ⟨held_of_settle hans, ?_, rfl⟩⟩
      rintro rfl
      exact nomatch hex.1
    · exact ⟨_, rfl, .inl rfl⟩
  · rename_i s₁ _ h
    obtain ⟨-, rfl⟩ := Prod.mk.inj h
    exact ⟨_, rfl, .inl rfl⟩

theorem bury_cases (s : State) (w : Worker) (now clock : Time) (jobId : JobId) (hookFails : Bool) :
    ∃ commands, s.bury w now clock jobId hookFails = { s with
        jobs := (executor catalog).next s.jobs ⟨now, clock, .bury w jobId hookFails⟩, commands := commands } ∧
      (commands = s.commands ∨ ∃ x ∈ s.jobs.queue.rows, x.exhausted now ∧
        commands = failAfterWorkerLoss s.commands x s.jobs.queue.fresh now) := by
  unfold State.bury
  rw [transact_eq]
  split
  · rename_i x hx
    obtain ⟨hm, hex, _⟩ := lockExhaustedJob_spec hx
    split
    · exact ⟨_, rfl, .inl rfl⟩
    · exact ⟨_, rfl, .inr ⟨x, hm, hex, rfl⟩⟩
  · exact ⟨_, rfl, .inl rfl⟩

theorem heartbeat_cases (s : State) (now clock : Time) (r : Runner) :
    ∃ commands, s.heartbeat now clock r = { s with
        jobs := (executor catalog).next s.jobs ⟨now, clock, .heartbeat runWorkspaceCommandJob r.row⟩
        commands := commands } ∧
      (commands = s.commands ∨
        commands = renewClaimedWorkspaceCommandLease s.commands (commandIdOf r.row) r.lease.token now) := by
  unfold State.heartbeat
  rw [transact_eq]
  generalize (executor catalog).answer s.jobs ⟨now, clock, .heartbeat runWorkspaceCommandJob r.row⟩ = answer
  split
  · rename_i s₁ h
    obtain ⟨-, rfl⟩ := Prod.mk.inj h
    exact ⟨_, rfl, .inr rfl⟩
  · rename_i s₁ _ h
    obtain ⟨-, rfl⟩ := Prod.mk.inj h
    exact ⟨_, rfl, .inl rfl⟩

theorem work_cases (keyOf : ObjectKeyFactory) (s : State) (now : Time) (r : Runner) (act : RunnerAct) :
    (work keyOf s now r act).jobs = s.jobs ∧ (work keyOf s now r act).commands = s.commands ∧
      ((work keyOf s now r act).runners = s.runners ∨ ∃ phase, (work keyOf s now r act).runners
        = (s.advance r phase).runners ∧ ∀ c, phase.command? = some c → r.phase.command? = some c) := by
  unfold work
  split <;> try split
  all_goals first
    | exact ⟨rfl, rfl, .inl rfl⟩
    | exact ⟨rfl, rfl, .inr ⟨_, rfl, by simp_all [Phase.command?]⟩⟩

end Transactions

-- -----------------
-- The invariant across a step
-- -----------------

section Preserved

variable {s s' : State} {r : Runner} {now clock : Time}

theorem mem_advance (h : (s.runners.map Runner.lease).Nodup) (hr : r ∈ s.runners) :
    r' ∈ (s.advance r phase).runners ↔ r' = { r with phase := phase } ∨ (r' ∈ s.runners ∧ r'.lease ≠ r.lease) :=
  updateWhere_key_of_mem h hr

theorem CommandsOk.leases_advance (h : CommandsOk instanceId s) (r : Runner) (phase : Phase) :
    ((s.advance r phase).runners.map Runner.lease).Nodup := by
  have hkept : (s.advance r phase).runners.map Runner.lease = s.runners.map Runner.lease :=
    map_updateWhere Runner.lease fun _ _ => rfl
  exact hkept ▸ h.leases

def Spared (s s' : State) (clock : Time) (r : Runner) : Prop :=
  ∀ c, r.phase.command? = some c → s.Holds r s.jobs.clock → s'.Holds r clock →
    ClaimedUnder s.commands c → ClaimedUnder s'.commands c

theorem CommandsOk.step (h : CommandsOk instanceId s) (hc : s.jobs.clock ≤ clock) (hn : now ≤ clock)
    (hj : JobsMove s.jobs now clock s'.jobs)
    (hrows : ∀ x' ∈ s'.jobs.queue.rows, ∃ x ∈ s.jobs.queue.rows, SameJob x x')
    (hedit : Edit commandId s.commands s'.commands) (hleases : (s'.runners.map Runner.lease).Nodup)
    (hrunners : ∀ r ∈ s'.runners, RunnerOk instanceId s' r ∨ (r ∈ s.runners ∧ Spared s s' clock r)) :
    CommandsOk instanceId s' := by
  refine h.move hc hn hj (fun x hx => .inl (hrows x hx)) hedit.keeps (hedit.ids ▸ h.ids) hleases fun r hr => ?_
  rcases hrunners r hr with hok | ⟨hr, hspared⟩
  · exact hok
  · exact (h.runners r hr).move h.jobs hc hj hspared

theorem CommandsOk.allowed (h : CommandsOk instanceId s) (hr : r ∈ s.runners) :
    runWorkspaceCommandJob ∈ catalog.kinds ∧ r.row ∈ s.jobs.handed ∧ r.row.kind = runWorkspaceCommandJob.kind := by
  have hrow := (h.runners r hr).handed
  obtain ⟨c, _, hfor⟩ := h.handed r.row hrow
  exact ⟨List.mem_cons_self, hrow, hfor.ofKind.2⟩

theorem CommandsOk.enqueue (h : CommandsOk instanceId s) (hc : s.jobs.clock ≤ clock) (hn : now ≤ clock)
    (hcommands : s'.commands = s.commands ++ added) (hids : (s'.commands.map (·.id)).Nodup)
    (hmem : ∃ c ∈ s'.commands, c.id = commandId ∧ c.workspaceId = workspaceId)
    (hjobs : s'.jobs = s.jobs) (hrunners : s'.runners = s.runners) :
    CommandsOk instanceId (s'.enqueueJob instanceId now clock commandId workspaceId) := by
  have hj : JobsMove s.jobs now clock (s'.enqueueJob instanceId now clock commandId workspaceId).jobs := by
    have ha : Allowed catalog s.jobs.handed s.jobs.clock clock (.enqueue runWorkspaceCommandJob
        (commandPayload commandId) (workspaceCommandJobOptions instanceId commandId workspaceId)) := trivial
    rw [State.enqueueJob, transact_eq, hjobs]
    exact .transact ha
  have hkeeps : Keeps s.commands s'.commands := fun c hcm =>
    ⟨c, hcommands ▸ List.mem_append_left _ hcm, rfl, rfl⟩
  refine h.move hc hn hj (fun x' hx' => ?_) hkeeps hids (hrunners ▸ h.leases) fun r hr => ?_
  · have hx' : x' ∈ (Jobs.enqueueJob s.jobs.queue now runWorkspaceCommandJob (commandPayload commandId)
        (workspaceCommandJobOptions instanceId commandId workspaceId)).2.rows := hjobs ▸ hx'
    unfold Jobs.enqueueJob at hx'
    split at hx'
    · exact .inl ⟨x', hx', .refl x'⟩
    · rcases List.mem_append.mp hx' with hx' | hx'
      · exact .inl ⟨x', hx', .refl x'⟩
      · obtain ⟨c, hcm, hid, hw⟩ := hmem
        rw [List.mem_singleton.mp hx']
        exact .inr ⟨c, hcm, hid ▸ hw ▸ queuedJob_for⟩
  · refine (h.runners r (hrunners ▸ hr)).move h.jobs hc hj fun c _ _ _ hclaimed => ?_
    obtain ⟨x, hx, hby⟩ := hclaimed
    exact ⟨x, hcommands ▸ List.mem_append_left _ hx, hby⟩

theorem CommandsOk.claim (h : CommandsOk instanceId s) (hc : s.jobs.clock ≤ clock) (hn : now ≤ clock) (w : Worker) :
    CommandsOk instanceId (s.claim w now clock limit locked) := by
  have ha : Allowed catalog s.jobs.handed s.jobs.clock clock (.claim w runWorkspaceCommandJob limit locked) :=
    List.mem_cons_self
  have hj : JobsMove s.jobs now clock (s.claim w now clock limit locked).jobs := .transact ha
  obtain ⟨htokens, hnodup⟩ := claimLoop_tokens w.clientInstanceId runWorkspaceCommandJob w.workerId now locked
    (freeSlots (recoverExpired s.jobs.queue w.clientInstanceId runWorkspaceCommandJob now) w.clientInstanceId
      runWorkspaceCommandJob limit)
    (recoverExpired s.jobs.queue w.clientInstanceId runWorkspaceCommandJob now)
  refine h.step hc hn hj (fun x hx => transact_same now h.jobs ha (fun _ h => h) hx) (@Edit.refl "" _) ?_ ?_
  · have hnew : ∀ row ∈ (claimJobs s.jobs.queue w.clientInstanceId runWorkspaceCommandJob w.workerId limit now locked).1,
        s.jobs.queue.fresh ≤ row.lease.token := by
      intro row hrow
      obtain ⟨t, ht, hle⟩ := htokens row hrow
      have hle : s.jobs.queue.fresh ≤ t := hle
      simpa [JobRow.lease, ht] using hle
    have hmap : (s.claim w now clock limit locked).runners.map Runner.lease = s.runners.map Runner.lease
        ++ (claimJobs s.jobs.queue w.clientInstanceId runWorkspaceCommandJob w.workerId limit now locked).1.map
          JobRow.lease := by
      simp only [State.claim, List.map_append, List.map_map]
      rfl
    rw [hmap, List.nodup_append]
    refine ⟨h.leases, ?_, ?_⟩
    · refine List.Nodup.of_map (fun l : JobLease => some l.token) ?_
      rw [List.map_map]
      refine (List.map_congr_left fun row hrow => ?_).symm ▸ hnodup
      obtain ⟨t, ht, _⟩ := htokens row hrow
      simp [JobRow.lease, ht]
    · intro lease hlease lease' hlease' heq
      obtain ⟨r, hr, rfl⟩ := List.mem_map.mp hlease
      obtain ⟨row, hrow, rfl⟩ := List.mem_map.mp hlease'
      have hlt := (h.jobs.handed _ (h.runners r hr).handed).token_lt
      have hle := hnew row hrow
      rw [← heq] at hle
      exact absurd hlt (Nat.not_lt.mpr hle)
  · intro r hr
    rcases List.mem_append.mp hr with hr | hr
    · exact .inr ⟨hr, fun _ _ _ _ hclaimed => hclaimed⟩
    · obtain ⟨row, hrow, rfl⟩ := List.mem_map.mp hr
      exact .inl (.of_none (List.mem_append_right _ hrow) rfl)

theorem advance_runners (h : CommandsOk instanceId s) (hr : r ∈ s.runners)
    (hrunners : s'.runners = (s.advance r phase).runners) (hok : RunnerOk instanceId s' { r with phase := phase })
    (hothers : ∀ x ∈ s.runners, x.lease ≠ r.lease → Spared s s' clock x) :
    ∀ x ∈ s'.runners, RunnerOk instanceId s' x ∨ (x ∈ s.runners ∧ Spared s s' clock x) := by
  intro x hx
  rw [hrunners] at hx
  rcases (mem_advance h.leases hr).mp hx with rfl | ⟨hx, hne⟩
  · exact .inl hok
  · exact .inr ⟨hx, hothers x hx hne⟩

theorem CommandsOk.spared (h : CommandsOk instanceId s) (hr : r ∈ s.runners) (hheld : s.Holds r t)
    (hedit : Edit (commandIdOf r.row) s.commands s'.commands) :
    ∀ x ∈ s.runners, x.lease ≠ r.lease → Spared s s' clock x :=
  fun _ hx hne _ hcmd hholds _ hclaimed =>
    hedit.claimedUnder (h.other_command hx hr hne hcmd hholds hheld) hclaimed

theorem spared_of_eq (he : s'.commands = s.commands) (r : Runner) : Spared s s' clock r := by
  intro c _ _ _ hclaimed
  rw [he]
  exact hclaimed

theorem CommandsOk.transaction (h : CommandsOk instanceId s) (hr : r ∈ s.runners)
    (hat : s.jobs.clock ≤ checkedAt ∧ checkedAt ≤ clock) :
    Allowed catalog s.jobs.handed s.jobs.clock clock (.transaction runWorkspaceCommandJob r.row checkedAt) :=
  ⟨h.allowed hr, hat⟩

theorem CommandsOk.claimRow (h : CommandsOk instanceId s) (hc : s.jobs.clock ≤ clock) (hn : now ≤ clock)
    (hr : r ∈ s.runners) (hat : s.jobs.clock ≤ checkedAt ∧ checkedAt ≤ clock) :
    CommandsOk instanceId (s.claimRow now clock r checkedAt) := by
  have ha := h.transaction hr hat
  obtain ⟨phase, commands, he, hcases⟩ := claimRow_cases s now clock r checkedAt
  have hj : JobsMove s.jobs now clock (s.claimRow now clock r checkedAt).jobs := he ▸ .transact ha
  have hrows : ∀ x' ∈ (s.claimRow now clock r checkedAt).jobs.queue.rows, ∃ x ∈ s.jobs.queue.rows, SameJob x x' := by
    rw [he]
    exact fun x hx => transact_same now h.jobs ha (fun _ h => h) hx
  have hcommands : (s.claimRow now clock r checkedAt).commands = commands := by rw [he]
  have hrunners : (s.claimRow now clock r checkedAt).runners
      = phase.elim s.runners fun p => (s.advance r p).runners := by rw [he]
  have hleases : ((s.claimRow now clock r checkedAt).runners.map Runner.lease).Nodup := by
    rw [hrunners]
    cases phase with
    | none => exact h.leases
    | some p => exact h.leases_advance r _
  generalize s.claimRow now clock r checkedAt = s' at *
  rcases hcases with ⟨rfl, hphase⟩ | ⟨hheld, c, hcm, hid, hedited, hphase⟩
  · have hedit : Edit "" s.commands s'.commands := hcommands ▸ .refl
    refine h.step hc hn hj hrows hedit hleases ?_
    cases phase with
    | none =>
      intro x hx
      rw [hrunners] at hx
      exact .inr ⟨hx, spared_of_eq hcommands x⟩
    | some p =>
      exact advance_runners h hr hrunners (.of_none (hj.handed (h.runners r hr).handed) (hphase p rfl).1)
        fun x _ _ => spared_of_eq hcommands x
  · have hedit : Edit (commandIdOf r.row) s.commands s'.commands := by
      rw [hcommands, hedited]
      exact .updateWhere (fun _ h => h) fun _ => ⟨rfl, rfl⟩
    obtain ⟨p, rfl, hcmd⟩ : ∃ p, phase = some p ∧ p.command? =
        some (claimedCommand r.row.id r.lease.token WORKSPACE_COMMAND_LEASE_MS now c) := by
      rcases hphase with rfl | rfl
      · exact ⟨_, rfl, rfl⟩
      · exact ⟨_, rfl, rfl⟩
    refine h.step hc hn hj hrows hedit hleases (advance_runners h hr hrunners ?_ (h.spared hr hheld hedit))
    obtain ⟨c', hc', hfor⟩ := h.handed r.row (h.runners r hr).handed
    have hsame : c' = c := eq_of_key h.ids hc' hcm (hfor.commandIdOf.symm.trans hid.symm)
    subst hsame
    refine ⟨hj.handed (h.runners r hr).handed, fun c₁ h₁ => ?_, fun c₁ h₁ _ => ?_⟩
    · obtain rfl := Option.some.inj (hcmd.symm.trans h₁)
      exact ⟨hfor, rfl⟩
    · obtain rfl := Option.some.inj (hcmd.symm.trans h₁)
      refine ⟨_, hcommands ▸ hedited ▸ mem_updateWhere_of_mem hcm hid, rfl, rfl, rfl, .inl rfl⟩

theorem CommandsOk.record (h : CommandsOk instanceId s) (hc : s.jobs.clock ≤ clock) (hn : now ≤ clock)
    (hr : r ∈ s.runners) (hat : s.jobs.clock ≤ checkedAt ∧ checkedAt ≤ clock) (hcmd : r.phase.command? = some c) :
    CommandsOk instanceId (s.record now clock r c written ending checkedAt).2 := by
  have ha := h.transaction hr hat
  have hrow := (h.runners r hr).handed
  have hend : ∀ (s' : State) threw, JobsMove s.jobs now clock s'.jobs →
      RunnerOk instanceId s' { r with phase := .ended threw } := fun s' threw hj => .of_none (hj.handed hrow) rfl
  have hid : c.id = commandIdOf r.row := ((h.runners r hr).job c hcmd).1.commandIdOf.symm
  rcases record_cases s now clock r c written ending checkedAt with
    ⟨commands, hheld, hended, he⟩ | ⟨threw, _, he⟩ | ⟨_, he⟩
  · rw [he]
    have hedit : Edit (commandIdOf r.row) s.commands commands := hid ▸ endClaimedCommand_edit hended
    exact h.step hc hn (.transact ha) (fun x hx => transact_same now h.jobs ha (fun _ h => h) hx) hedit
      (h.leases_advance r _)
      (advance_runners h hr rfl (hend _ _ (.transact ha)) (h.spared hr hheld hedit))
  · rw [he]
    exact h.step hc hn .idle (fun x hx => ⟨x, hx, .refl x⟩) (@Edit.refl "" _) (h.leases_advance r _)
      (advance_runners h hr rfl (hend _ _ .idle) fun x _ _ => spared_of_eq rfl x)
  · rw [he]
    exact h.step hc hn (.transact ha) (fun x hx => transact_same now h.jobs ha (fun _ h => h) hx) (@Edit.refl "" _)
      (h.leases_advance r _)
      (advance_runners h hr rfl (hend _ _ (.transact ha)) fun _ _ _ _ _ _ _ hclaimed => hclaimed)

theorem CommandsOk.leave (h : CommandsOk instanceId s) (r : Runner) : CommandsOk instanceId (s.leave r) where
  jobs := h.jobs
  rows := h.rows
  handed := h.handed
  ids := h.ids
  leases := map_deleteWhere_nodup Runner.lease h.leases
  runners x hx := by
    have hok := h.runners x (mem_deleteWhere.mp hx).1
    exact ⟨hok.handed, hok.job, hok.claimed⟩

theorem CommandsOk.quiet (h : CommandsOk instanceId s) (hc : s.jobs.clock ≤ clock) (hn : now ≤ clock)
    (hj : JobsMove s.jobs now clock s'.jobs)
    (hrows : ∀ x' ∈ s'.jobs.queue.rows, ∃ x ∈ s.jobs.queue.rows, SameJob x x')
    (hcommands : s'.commands = s.commands) (hrunners : s'.runners = s.runners) : CommandsOk instanceId s' := by
  have hedit : Edit "" s.commands s'.commands := hcommands ▸ .refl
  refine h.step hc hn hj hrows hedit (hrunners ▸ h.leases) fun x hx => .inr ⟨hrunners ▸ hx, ?_⟩
  exact spared_of_eq hcommands x

/-- The end of an attempt whose handler is over, or that its worker gives back. -/
theorem CommandsOk.settle (h : CommandsOk instanceId s) (hc : s.jobs.clock ≤ clock) (hn : now ≤ clock)
    (hr : r ∈ s.runners) {w : Worker} (hw : w.schedules = [])
    (hover : r.phase.command? = none ∨ attempt = .stopped) :
    CommandsOk instanceId (s.settle w now clock r attempt hookFails) := by
  have ha : Allowed catalog s.jobs.handed s.jobs.clock clock
      (.settle w runWorkspaceCommandJob r.row attempt hookFails) := h.allowed hr
  have hj := @JobsMove.transact s.jobs now clock _ ha
  obtain ⟨commands, he, hcases⟩ := settle_cases s w now clock r attempt hookFails
  have hrows : ∀ x' ∈ (s.settle w now clock r attempt hookFails).jobs.queue.rows,
      ∃ x ∈ s.jobs.queue.rows, SameJob x x' := by
    rw [he]
    exact fun x hx => transact_same now h.jobs ha (by simp [Action.Adds, hw]) hx
  rw [he] at hrows ⊢
  rcases hcases with rfl | ⟨hheld, hns, rfl⟩
  · exact h.quiet hc hn hj hrows rfl rfl
  · have hnone : r.phase.command? = none := hover.resolve_right hns
    refine h.step hc hn hj hrows failAfterWorkerLoss_edit h.leases fun x hx => .inr ⟨hx, ?_⟩
    by_cases hx' : x.lease = r.lease
    · obtain rfl := eq_of_key h.leases hx hr hx'
      exact fun c hcmd => nomatch hnone.symm.trans hcmd
    · exact h.spared hr hheld failAfterWorkerLoss_edit x hx hx'

theorem CommandsOk.bury (h : CommandsOk instanceId s) (hc : s.jobs.clock ≤ clock) (hn : now ≤ clock) {w : Worker}
    (hw : w.schedules = []) : CommandsOk instanceId (s.bury w now clock jobId hookFails) := by
  have ha : Allowed catalog s.jobs.handed s.jobs.clock clock (.bury w jobId hookFails) := trivial
  have hj := @JobsMove.transact s.jobs now clock _ ha
  obtain ⟨commands, he, hcases⟩ := bury_cases s w now clock jobId hookFails
  have hrows : ∀ x' ∈ (s.bury w now clock jobId hookFails).jobs.queue.rows,
      ∃ x ∈ s.jobs.queue.rows, SameJob x x' := by
    rw [he]
    exact fun x hx => transact_same now h.jobs ha (by simp [Action.Adds, hw]) hx
  rw [he] at hrows ⊢
  rcases hcases with rfl | ⟨x₂, hx₂, hex, rfl⟩
  · exact h.quiet hc hn hj hrows rfl rfl
  · refine h.step hc hn hj hrows failAfterWorkerLoss_edit h.leases fun x hx => .inr ⟨hx, ?_⟩
    intro c hcmd _ hlater hclaimed
    -- a lease that is live when the burial ends was live when it began
    have hlater : ∃ y ∈ (transact s.jobs.queue now clock (.bury w jobId hookFails)).2.rows, y.heldBy x.lease clock :=
      hlater
    have hheld : s.Holds x clock := held_of_transact h.jobs.queue
      (h.jobs.handed _ (h.runners x hx).handed).token_lt (Nat.le_refl clock) hlater
    exact failAfterWorkerLoss_edit.claimedUnder (h.other_buried hx hcmd hheld hn hx₂ hex) hclaimed

theorem CommandsOk.heartbeat (h : CommandsOk instanceId s) (hc : s.jobs.clock ≤ clock) (hn : now ≤ clock)
    (hr : r ∈ s.runners) : CommandsOk instanceId (s.heartbeat now clock r) := by
  have ha : Allowed catalog s.jobs.handed s.jobs.clock clock (.heartbeat runWorkspaceCommandJob r.row) :=
    h.allowed hr
  have hj := @JobsMove.transact s.jobs now clock _ ha
  obtain ⟨commands, he, hcases⟩ := heartbeat_cases s now clock r
  have hrows : ∀ x' ∈ (s.heartbeat now clock r).jobs.queue.rows, ∃ x ∈ s.jobs.queue.rows, SameJob x x' := by
    rw [he]
    exact fun x hx => transact_same now h.jobs ha (fun _ h => h) hx
  rw [he] at hrows ⊢
  rcases hcases with rfl | rfl
  · exact h.quiet hc hn hj hrows rfl rfl
  · exact h.step hc hn hj hrows renew_edit h.leases fun x hx => .inr ⟨hx, fun _ _ _ _ hclaimed => hclaimed.renew⟩

theorem CommandsOk.cancellation (h : CommandsOk instanceId s) (hc : s.jobs.clock ≤ clock) (hn : now ≤ clock)
    (commandId : String) : CommandsOk instanceId
      { s.at clock with commands := requestWorkspaceCommandCancellation s.commands commandId } :=
  h.step hc hn .idle (fun x hx => ⟨x, hx, .refl x⟩) cancellation_edit h.leases
    fun _ hx => .inr ⟨hx, fun _ _ _ _ hclaimed => hclaimed.cancellation⟩

theorem CommandsOk.at (h : CommandsOk instanceId s) (hc : s.jobs.clock ≤ clock) (hn : now ≤ clock) :
    CommandsOk instanceId (s.at clock) :=
  h.quiet hc hn .idle (fun x hx => ⟨x, hx, .refl x⟩) rfl rfl

theorem CommandsOk.work (h : CommandsOk instanceId s) (hr : r ∈ s.runners) :
    CommandsOk instanceId (work keyOf s now r act) := by
  obtain ⟨hjobs, hcommands, hrunners⟩ := work_cases keyOf s now r act
  generalize WorkspaceCommands.work keyOf s now r act = s' at *
  have hsame : ∀ x, RunnerOk instanceId s x → RunnerOk instanceId s' x := by
    intro x hx
    refine ⟨hjobs ▸ hx.handed, hx.job, fun c hcmd hheld => ?_⟩
    rw [hcommands]
    unfold State.Holds at hheld
    rw [hjobs] at hheld
    exact hx.claimed c hcmd hheld
  refine ⟨hjobs ▸ h.jobs, hjobs ▸ hcommands ▸ h.rows, hjobs ▸ hcommands ▸ h.handed, hcommands ▸ h.ids, ?_, ?_⟩
  · rcases hrunners with he | ⟨phase, he, _⟩
    · exact he ▸ h.leases
    · exact he ▸ h.leases_advance r phase
  · intro x hx
    rcases hrunners with he | ⟨phase, he, hp⟩
    · exact hsame x (h.runners x (he ▸ hx))
    · rw [he] at hx
      rcases (mem_advance h.leases hr).mp hx with rfl | ⟨hx, _⟩
      · exact (hsame r (h.runners r hr)).of_command hp
      · exact hsame x (h.runners x hx)

end Preserved

theorem commands_preserves (instanceId : ClientInstanceId) (keyOf : ObjectKeyFactory) :
    (workspaceCommands instanceId keyOf).Preserves (CommandsOk instanceId) := by
  rintro s ⟨now, clock, action⟩ h ⟨hc, hn, he⟩
  cases action with
  | enqueue commandId workspaceId conversationId =>
    refine h.enqueue hc hn rfl ?_ ⟨_, List.mem_append_right _ List.mem_cons_self, rfl, rfl⟩ rfl rfl
    rw [List.map_append]
    refine List.nodup_append.mpr ⟨h.ids, List.nodup_singleton _, ?_⟩
    intro id hid id' hid'
    obtain ⟨c, hcm, rfl⟩ := List.mem_map.mp hid
    rw [List.mem_singleton.mp hid']
    exact he c hcm
  | adopt c => exact h.enqueue hc hn (List.append_nil _).symm h.ids ⟨c, he.1, rfl, rfl⟩ rfl rfl
  | requestCancellation commandId => exact h.cancellation hc hn commandId
  | claim workerId limit locked => exact h.claim hc hn _
  | heartbeat r => exact h.heartbeat hc hn he
  | act r act =>
    obtain ⟨hr, hat⟩ := he
    have hwork : CommandsOk instanceId (work keyOf (s.at clock) now r act) := (h.at hc hn).work hr
    cases act with
    | claimRow checkedAt =>
      refine h.claimRow hc hn hr ?_
      revert hat
      cases r.phase <;> simp [RunnerAct.At]
    | record checkedAt =>
      obtain ⟨c, written, ending, hphase⟩ : ∃ c written ending, r.phase = .recording c written ending := by
        revert hat
        cases r.phase <;> simp [RunnerAct.At]
      have hat : s.jobs.clock ≤ checkedAt ∧ checkedAt ≤ clock := by simpa [hphase, RunnerAct.At] using hat
      have hok : CommandsOk instanceId (s.record now clock r c written ending checkedAt).2 :=
        h.record hc hn hr hat (by rw [hphase]; rfl)
      simpa [Machine.next, workspaceCommands, perform, hphase] using hok
    | _ => exact hwork
  | settle workerId r code message stopping hookFails =>
    obtain ⟨hr, threw, hphase⟩ := he
    exact (h.settle hc hn hr rfl (.inl (by rw [hphase]; rfl))).leave r
  | release workerId r => exact h.settle hc hn he rfl (.inr rfl)
  | kill r => exact (h.at hc hn).leave r
  | bury workerId jobId hookFails => exact h.bury hc hn rfl

theorem commands_init (hs : (workspaceCommands instanceId keyOf).init s) : CommandsOk instanceId s := by
  obtain ⟨hrows, hhanded, hcommands, hrunners⟩ := hs
  refine ⟨⟨⟨?_, ?_, ?_, ?_, ?_, ?_, ?_, ?_⟩, ?_⟩, ?_, ?_, ?_, ?_, ?_⟩ <;> simp [hrows, hhanded, hcommands, hrunners]

end Catalyst.WorkspaceCommands
