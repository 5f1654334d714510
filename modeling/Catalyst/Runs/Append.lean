import Catalyst.Runs.Log

/-!
# What a transaction adds to the logs

Observations are only ever added. A write of an attempt adds events it carries to
the log of its run; every other transaction adds terminal observations alone.
-/

namespace Catalyst.Runs

open Library Library.Tx Jobs

/-- Observations with `P` were added since `before`. -/
def Appends (P : RunObservation → Prop) (before : List RunObservation) (db : Db) : Prop :=
  ∃ new, db.observations = before ++ new ∧ ∀ o ∈ new, P o

theorem Appends.refl : Appends P db.observations db := ⟨[], by simp, List.forall_mem_nil _⟩

theorem Appends.more (h : Appends P before db) (ho : db'.observations = db.observations ++ new)
    (hn : ∀ o ∈ new, P o) : Appends P before db' := by
  obtain ⟨old, hold, hp⟩ := h
  refine ⟨old ++ new, by rw [ho, hold, List.append_assoc], fun o hm => ?_⟩
  exact (List.mem_append.mp hm).elim (hp o) (hn o)

theorem Appends.same (h : Appends P before db) (ho : db'.observations = db.observations) :
    Appends P before db' := by
  obtain ⟨new, hnew, hp⟩ := h
  exact ⟨new, ho.trans hnew, hp⟩

theorem updateRuns_appends {p : AgentRun → Prop} [DecidablePred p] :
    Keeps (Appends P before) (updateRuns p f) := by
  intro db rows db' ha h
  obtain ⟨_, rfl⟩ := updateRuns_ok.mp h
  exact ha.same rfl

theorem insertObservations_appends (hp : ∀ o ∈ rows, P o) :
    Keeps (Appends P before) (insertObservations rows) :=
  Triple.modify fun _ ha => ha.more rfl hp

def RunObservation.Ends (o : RunObservation) : Prop := o.type.ends.isSome

theorem requireJobLease_appends : Keeps (Appends P before) (requireJobLease lease clock) := by
  intro db u db' ha h
  obtain ⟨_, rfl⟩ := requireJobLease_ok.mp h
  exact ha

theorem claimAgentRunForJob_appends : Keeps (Appends P before) (claimAgentRunForJob claim leaseMs now) := by
  refine updateRuns_appends.bind fun rows => Triple.get.bind fun db => ?_
  cases rows with
  | cons row rows => exact Triple.pure fun _ h => h.2
  | nil => exact Triple.pure fun _ h => h.2

theorem renewAgentRunJobLease_appends :
    Keeps (Appends P before) (renewAgentRunJobLease claim leaseMs now) :=
  updateRuns_appends.bind fun _ => Triple.pure fun _ h => h

theorem requestAgentRunCancellation_appends : Keeps (Appends RunObservation.Ends before)
    (requestAgentRunCancellation instanceId runId requestedAt reason) := by
  refine Triple.get.bind fun db => Triple.need.bind fun locked => ?_
  refine Triple.pre ?_ fun _ h => h.2.2
  split
  · refine updateRuns_appends.bind fun rows => Triple.need.bind fun row => ?_
    refine Triple.bind (Triple.pre (insertObservations_appends ?_) fun _ h => h.2)
      fun _ => Triple.pure fun _ h => h
    intro o ho
    rw [List.mem_singleton.mp ho]
    rfl
  · split
    · exact updateRuns_appends.bind fun rows => Triple.need.post fun _ _ h => h.2
    · exact Triple.pure fun _ h => h

theorem failLostAgentRun_appends : Keeps (Appends RunObservation.Ends before)
    (failLostAgentRun instanceId runId jobId error now) := by
  refine updateRuns_appends.bind fun rows => ?_
  refine (insertObservations_appends ?_).bind fun _ => Triple.pure fun _ h => h
  intro o ho
  obtain ⟨r, _, rfl⟩ := List.mem_map.mp ho
  rfl

theorem failAgentRunOfLostJob_appends : Keeps (Appends RunObservation.Ends before)
    (failAgentRunOfLostJob instanceId runId jobId now) :=
  failLostAgentRun_appends.bind fun _ => Triple.modify fun _ h => h.same rfl

theorem failAgentRunsWhere_appends {condition : Db → AgentRun → Prop}
    [∀ db, DecidablePred (condition db)] : Keeps (Appends RunObservation.Ends before)
    (failAgentRunsWhere instanceId error limit now condition) := by
  refine Triple.get.bind fun db => ?_
  refine Triple.bind (Triple.pre updateRuns_appends fun _ h => h.2) fun rows => ?_
  refine (insertObservations_appends ?_).bind fun _ => Triple.pure fun _ h => h
  intro o ho
  obtain ⟨r, _, rfl⟩ := List.mem_map.mp ho
  rfl

theorem insertClaimedAgentRunMessage_appends :
    Keeps (Appends P before) (insertClaimedAgentRunMessage claim message) := by
  intro db a db' ha h
  simp only [insertClaimedAgentRunMessage, bind_ok, get_ok, need_ok, require_ok, modify_ok] at h
  obtain ⟨_, _, ⟨rfl, rfl⟩, run, _, ⟨_, rfl⟩, _, _, ⟨_, rfl⟩, _, _, hl, _, _, ⟨_, rfl⟩, rfl⟩ := h
  obtain rfl := requireActiveConversationLock_ok hl
  exact ha.same rfl

def ObservesIn (claim : ClaimedRun) (events : List AgentRuntimeEvent) (o : RunObservation) : Prop :=
  o.key = (claim.clientInstanceId, claim.runId) ∧ o.payload ∈ events ∧ o.sequence = o.payload.sequence ∧
    o.type = o.payload.body.type

theorem insertClaimedRunObservation_appends (he : event ∈ events) :
    Keeps (Appends (ObservesIn claim events) before) (insertClaimedRunObservation claim event) := by
  intro db a db' ha h
  simp only [insertClaimedRunObservation, bind_ok, require_ok, updateRuns_ok, need_ok,
    insertObservations, modify_ok, pure_ok] at h
  obtain ⟨_, _, ⟨_, rfl⟩, _, _, ⟨rfl, rfl⟩, row, _, ⟨hrow, rfl⟩, _, _, rfl, rfl, rfl⟩ := h
  refine ha.more rfl fun o ho => ?_
  rw [List.mem_singleton.mp ho]
  refine ⟨?_, he, rfl, rfl⟩
  -- the row is the claim's: the update keeps its key
  obtain ⟨r, hr, rfl⟩ := List.mem_map.mp (List.mem_of_mem_head? hrow)
  have hp := (List.mem_filter.mp hr).2
  simp only [decide_eq_true_eq] at hp
  exact (observedRun_step hp.1.2.2 hp.2.1 hp.2.2).key.trans (ofRow_key hp.1.1)

theorem insertClaimedRunObservations_appends : Keeps (Appends (ObservesIn claim events) before)
    (each (fun event => do let _ ← insertClaimedRunObservation claim event) events) :=
  Keeps.each_mem fun _ he => (insertClaimedRunObservation_appends he).bind fun _ => Triple.pure fun _ h => h

theorem requireClaimedAgentRun_appends : Keeps (Appends P before) (requireClaimedAgentRun claim clock) :=
  requireJobLease_appends.bind fun _ => Triple.get.bind fun _ => Triple.require.post fun _ _ h => h.2.2

def Write.events : Write → List AgentRuntimeEvent
  | .observation event => [event]
  | .runEnd _ events => events
  | .message _ | .approval _ | .continuation .. => []

theorem Write.perform_appends (w : Write) :
    Keeps (Appends (ObservesIn (claimOf row runId) w.events) before) (w.perform row runId clock) := by
  cases w with
  | observation event =>
    exact (requireJobLease_appends.bind fun _ => insertClaimedRunObservation_appends List.mem_cons_self).bind
      fun _ => Triple.pure fun _ h => h
  | message m => exact requireJobLease_appends.bind fun _ => insertClaimedAgentRunMessage_appends
  | runEnd m events =>
    refine requireJobLease_appends.bind fun _ => ?_
    refine (Keeps.each (fun m => insertClaimedAgentRunMessage_appends) _).bind fun _ => ?_
    exact insertClaimedRunObservations_appends
  | approval request =>
    exact requireClaimedAgentRun_appends.bind fun _ => Triple.modify fun _ h => h.same rfl
  | continuation conversationId providerId =>
    exact requireClaimedAgentRun_appends.bind fun _ => Triple.modify fun _ h => h.same rfl

theorem claimRun_appends :
    Keeps (Appends RunObservation.Ends before) (claimRun row now checkedAt clock) := by
  intro db a db' ha h
  simp only [claimRun, bind_ok, get_ok, require_ok, need_ok, modify_ok, pure_ok] at h
  obtain ⟨_, _, ⟨rfl, rfl⟩, _, _, ⟨_, rfl⟩, runId, _, ⟨_, rfl⟩, claim, db₁, hc, _, db₂, hf,
    _, _, rfl, _, rfl⟩ := h
  have ha₁ := claimAgentRunForJob_appends _ _ _ ha hc
  exact (Keeps.each (fun _ => failAgentRunOfLostJob_appends) _ _ _ _ ha₁ hf).same rfl

theorem runHook_appends (hook : Hook) : Keeps (Appends RunObservation.Ends before) (runHook now hook) := by
  cases hook with
  | onHeartbeat row =>
    exact Keeps.each (fun _ => renewAgentRunJobLease_appends.bind fun _ => Triple.pure fun _ h => h) _
  | onExhausted row => exact Keeps.each (fun _ => failAgentRunOfLostJob_appends) _

theorem transactJobs_appends :
    Keeps (Appends RunObservation.Ends before) (transactJobs a now clock) := by
  intro db answer db' ha h
  simp only [transactJobs, bind_ok, get_ok, modify_ok, pure_ok] at h
  obtain ⟨_, _, ⟨rfl, rfl⟩, _, db₁, hh, _, _, rfl, _, rfl⟩ := h
  exact (Keeps.each runHook_appends _ _ _ _ ha hh).same rfl

theorem prepareConversationRunStart_appends :
    Keeps (Appends P before) (prepareConversationRunStart input now) := by
  intro db a db' ha h
  simp only [prepareConversationRunStart, bind_ok, get_ok, require_ok, modify_ok, pure_ok] at h
  obtain ⟨_, _, ⟨rfl, rfl⟩, _, _, ⟨_, rfl⟩, _, _, ⟨_, rfl⟩, _, _, ⟨_, rfl⟩, _, _, rfl, _, rfl⟩ := h
  exact ha.same rfl

def Action.Adds : Action → RunObservation → Prop
  | .write row runId w => ObservesIn (claimOf row runId) w.events
  | _ => RunObservation.Ends

theorem perform_appends (now clock : Time) (a : Action) :
    Keeps (Appends a.Adds before) (perform now clock a) := by
  cases a with
  | accept input => exact prepareConversationRunStart_appends.bind fun _ => Triple.pure fun _ h => h
  | jobs a => exact transactJobs_appends.bind fun _ => Triple.pure fun _ h => h
  | claimRun row checkedAt => exact claimRun_appends.bind fun _ => Triple.pure fun _ h => h
  | write row runId w => exact w.perform_appends.bind fun _ => Triple.pure fun _ h => h
  | requestCancellation instanceId runId requestedAt reason =>
    exact requestAgentRunCancellation_appends.bind fun _ => Triple.pure fun _ h => h
  | failLost instanceId runId jobId =>
    exact failAgentRunOfLostJob_appends.bind fun _ => Triple.pure fun _ h => h
  | failQueuedTooLong instanceId error limit queuedMs =>
    exact failAgentRunsWhere_appends.bind fun _ => Triple.pure fun _ h => h
  | failWithoutWorker instanceId error limit =>
    exact failAgentRunsWhere_appends.bind fun _ => Triple.pure fun _ h => h
  | elsewhere conversations workspaces users =>
    exact (Triple.modify fun _ h => h.same rfl).bind fun _ => Triple.pure fun _ h => h

theorem runSystem_appends (catalog : Catalog) (s : State) (st : Step) :
    Appends st.action.Adds s.db.observations ((runSystem catalog).next s st).db := by
  have hk : Keeps (Appends st.action.Adds s.db.observations) (perform st.now st.clock st.action) :=
    perform_appends st.now st.clock st.action
  exact hk.commit .refl

def Db.logOf (db : Db) (key : ClientInstanceId × RunId) : List RunObservation :=
  db.observations.filter (·.key = key)

theorem logOf_grows (catalog : Catalog) (s : State) (st : Step) (key : ClientInstanceId × RunId) :
    s.db.logOf key <+: ((runSystem catalog).next s st).db.logOf key := by
  obtain ⟨new, hnew, _⟩ := runSystem_appends catalog s st
  rw [Db.logOf, Db.logOf, hnew, List.filter_append]
  exact List.prefix_append _ _

end Catalyst.Runs
