import Catalyst.Runs.Worker

/-!
# The end of a run is stored whole

Whatever the worker, the runtime, the store and the rest of the product do to one
another, the stored observations of a run are the first events the runtime
emitted, and an answer is stored with the end of its run.
-/

namespace Catalyst.Runs

open Library Library.Tx Jobs

section Executions

variable {catalog : Catalog} {row : JobRow} {runId : RunId} {emitted : List AgentRuntimeEvent} {e : AgentRuntimeEvent}

-- -----------------
-- Traced events
-- -----------------

def Emitted (emitted : List AgentRuntimeEvent) (e : AgentRuntimeEvent) : Prop :=
  0 < e.sequence ∧ emitted[e.sequence - 1]? = some e

def Traced (emitted : List AgentRuntimeEvent) (e : AgentRuntimeEvent) : Prop :=
  e.isTerminal ∨ Emitted emitted e

theorem Emitted.append (h : Emitted emitted e) (more : List AgentRuntimeEvent) : Emitted (emitted ++ more) e := by
  obtain ⟨hpos, hget⟩ := h
  refine ⟨hpos, ?_⟩
  rw [List.getElem?_append_left (List.getElem?_eq_some_iff.mp hget).1, hget]

theorem Traced.append (h : Traced emitted e) (more : List AgentRuntimeEvent) : Traced (emitted ++ more) e :=
  h.imp_right fun he => he.append more

theorem emitted_get {i : Nat} (hn : Numbered (·.sequence) emitted) (h : emitted[i]? = some e) : Emitted emitted e := by
  obtain ⟨hlt, hget⟩ := List.getElem?_eq_some_iff.mp h
  have hdrop : emitted.drop i = e :: emitted.drop (i + 1) := by rw [List.drop_eq_getElem_cons hlt, hget]
  have hseq : e.sequence = i + 1 := hn.number_eq hdrop
  refine ⟨hseq ▸ Nat.succ_pos i, ?_⟩
  rw [hseq, Nat.add_sub_cancel, h]

structure SystemOk (catalog : Catalog) (row : JobRow) (runId : RunId) (emitted : List AgentRuntimeEvent)
    (s : State) : Prop where
  reachable : (runSystem catalog).Reachable s
  log : ∀ o ∈ s.db.logOf (row.clientInstanceId, runId),
    o.type.ends.isSome ∨ (o.payload.sequence = o.sequence ∧ Emitted emitted o.payload)

theorem SystemOk.emits (h : SystemOk catalog row runId emitted s) (more : List AgentRuntimeEvent) :
    SystemOk catalog row runId (emitted ++ more) s where
  reachable := h.reachable
  log o ho := (h.log o ho).imp_right fun he => ⟨he.1, he.2.append more⟩

theorem SystemOk.adds (h : SystemOk catalog row runId emitted s) (he : (runSystem catalog).enabled s st)
    (hadds : ∀ o, o.key = (row.clientInstanceId, runId) → st.action.Adds o →
      o.type.ends.isSome ∨ (o.payload.sequence = o.sequence ∧ Emitted emitted o.payload)) :
    SystemOk catalog row runId emitted ((runSystem catalog).next s st) := by
  refine ⟨h.reachable.next he, fun o ho => ?_⟩
  obtain ⟨new, hnew, hall⟩ := runSystem_appends catalog s st
  rw [Db.logOf, hnew, List.filter_append] at ho
  rcases List.mem_append.mp ho with ho | ho
  · exact h.log o ho
  · obtain ⟨ho, hkey⟩ := List.mem_filter.mp ho
    exact hadds o (by simpa using hkey) (hall o ho)

theorem SystemOk.others (h : SystemOk catalog row runId emitted s) (he : (runSystem catalog).enabled s st)
    (hw : ¬ st.writesRun row runId) : SystemOk catalog row runId emitted ((runSystem catalog).next s st) := by
  refine h.adds he fun o hkey hadds => ?_
  obtain ⟨now, clock, action⟩ := st
  cases action with
  | write row' runId' w =>
    obtain ⟨hown, hevent, _⟩ := hadds
    have hsame : (row'.clientInstanceId, runId') = (row.clientInstanceId, runId) := hown.symm.trans hkey
    cases w <;> simp_all [Step.writesRun, Write.events]
  | _ => exact .inl hadds

theorem SystemOk.writes (h : SystemOk catalog row runId emitted s)
    (hp : How.Possible row s (.reaches now clock answered)) (hw : ∀ e ∈ w.events, Traced emitted e) :
    SystemOk catalog row runId emitted ((runSystem catalog).next s ⟨now, clock, .write row runId w⟩) := by
  obtain ⟨hclock, hnow, hrow⟩ := hp
  refine h.adds ⟨hclock, hnow, hrow⟩ fun o _ hadds => ?_
  obtain ⟨_, hevent, hseq, htype⟩ := hadds
  rcases hw _ hevent with hterm | hemitted
  · rw [AgentRuntimeEvent.isTerminal] at hterm
    exact .inl (by rwa [htype])
  · exact .inr ⟨hseq.symm, hemitted⟩

def Holds (key : ClientInstanceId × RunId) (type : EventType) (db : Db) : Prop :=
  ∃ o ∈ db.logOf key, o.type = type

theorem Holds.appends (h : Holds key type db) (ha : Appends P db.observations db') : Holds key type db' := by
  obtain ⟨o, ho, htype⟩ := h
  obtain ⟨new, hnew, _⟩ := ha
  refine ⟨o, ?_, htype⟩
  rw [Db.logOf, hnew, List.filter_append]
  exact List.mem_append_left _ ho

theorem insertClaimedRunObservation_holds : Triple (fun _ => True) (insertClaimedRunObservation claim event)
    fun _ => Holds (claim.clientInstanceId, claim.runId) event.body.type := by
  intro db a db' _ h
  have hadds : Appends (ObservesIn claim [event]) db.observations db' :=
    insertClaimedRunObservation_appends (List.mem_singleton_self event) db a db' .refl h
  simp only [insertClaimedRunObservation, bind_ok, require_ok, updateRuns_ok, need_ok,
    insertObservations, modify_ok, pure_ok] at h
  obtain ⟨_, _, ⟨_, rfl⟩, _, _, ⟨rfl, rfl⟩, r, _, ⟨_, rfl⟩, _, _, rfl, rfl, rfl⟩ := h
  obtain ⟨new, hnew, hall⟩ := hadds
  have hmem : observationOf r event ∈ new := by
    have hsame : [observationOf r event] = new := List.append_cancel_left hnew
    rw [← hsame]
    exact List.mem_singleton_self _
  refine ⟨_, List.mem_filter.mpr ⟨?_, by simpa using (hall _ hmem).1⟩, rfl⟩
  simp

theorem each_holds (events : List AgentRuntimeEvent) :
    Triple (fun _ => True) (each (fun event => do let _ ← insertClaimedRunObservation claim event) events)
      fun _ db => ∀ e ∈ events, Holds (claim.clientInstanceId, claim.runId) e.body.type db := by
  induction events with
  | nil => exact Triple.pure fun _ _ => List.forall_mem_nil _
  | cons event events ih =>
    intro db u db' _ h
    simp only [each, bind_ok] at h
    obtain ⟨_, db₁, ⟨_, _, hfirst, hpure⟩, hrest⟩ := h
    obtain ⟨_, rfl⟩ := pure_ok.mp hpure
    have hhead := insertClaimedRunObservation_holds db _ _ trivial hfirst
    intro e he
    rcases List.mem_cons.mp he with rfl | he
    · exact hhead.appends (insertClaimedRunObservations_appends _ _ _ .refl hrest)
    · exact ih _ _ _ trivial hrest e he

theorem runEnd_holds (h : (Write.runEnd m events).perform row runId clock db = .ok (u, db')) :
    ∀ e ∈ events, Holds (row.clientInstanceId, runId) e.body.type db' := by
  simp only [Write.perform, appendClaimedAgentRunEnd, bind_ok] at h
  obtain ⟨_, _, _, _, _, _, hevents⟩ := h
  have heach := each_holds events _ _ _ trivial hevents
  exact heach

theorem runEnd_over {batch : RunWrite} (h : SystemOk catalog row runId emitted ((runSystem catalog).next s st))
    (hst : st.action = .write row runId batch.write) (hok : ((runSystem catalog).answer s st).isOk)
    (hends : batch.endsRun) : Over ((runSystem catalog).next s st).db (row.clientInstanceId, runId) := by
  obtain ⟨last, hlast, hterm⟩ := (Option.any_eq_true _ _).mp hends
  have hstored : Holds (row.clientInstanceId, runId) last.body.type ((runSystem catalog).next s st).db := by
    obtain ⟨now, clock, action⟩ := st
    obtain rfl : action = .write row runId batch.write := hst
    cases hp : perform now clock (.write row runId batch.write) s.db with
    | error e => simp [Machine.answer, runSystem, commit, hp, Except.isOk, Except.toBool] at hok
    | ok p =>
      obtain ⟨answer, db'⟩ := p
      have hdb : ((runSystem catalog).next s ⟨now, clock, .write row runId batch.write⟩).db = db' := by
        simp [Machine.next, runSystem, commit, hp]
      rw [hdb]
      simp only [perform, bind_ok, pure_ok] at hp
      obtain ⟨_, _, hperform, _, rfl⟩ := hp
      exact runEnd_holds hperform last (List.mem_of_getLast? hlast)
  obtain ⟨o, ho, htype⟩ := hstored
  refine over_of_terminal (runSystem_logsOk h.reachable) ho ?_
  rw [htype]
  exact hterm

-- -----------------
-- What an attempt carries
-- -----------------

def Writing.batch : Writing → RunWrite
  | storing b | looking b _ | storingCancelled b => b

def Main.batch : Main → Option RunWrite
  | appending w | closingHeld w _ _ _ | closingLast w _ => some w.batch
  | _ => none

def CallPhase.batch : CallPhase → Option RunWrite
  | flushing w => some w.batch
  | _ => none

def RunWrite.call (b : RunWrite) : Option Nat := b.message.map (·.call)

namespace Attempt

def Carries (a : Attempt) (b : RunWrite) : Option Nat → Prop
  | none => a.main.batch = some b
  | some i => ∃ c, a.calls[i]? = some c ∧ c.phase.batch = some b

def phaseOf (a : Attempt) (i : Nat) : Option CallPhase := a.calls[i]?.map (·.phase)

def heldCall (a : Attempt) : Option Nat := a.heldEnd.bind RunWrite.call

def Used (a : Attempt) (out : List RunWrite) (j : Nat) : Prop :=
  (∃ b ∈ out, b.call = some j) ∨ ∃ t b, a.Carries b t ∧ b.call = some j

end Attempt

/-- What the loop stores with a message ends the run or is over the limit. What a call stores
was held by an earlier one. -/
structure BatchOk (emitted : List AgentRuntimeEvent) (thread : Option Nat) (b : RunWrite) : Prop where
  traced : ∀ e ∈ b.events, Traced emitted e
  whole : thread = none → b.message.isSome → b.endsRun ∨ heldEndMaxEvents < b.events.length
  later : ∀ i, thread = some i → ∀ j, b.call = some j → j < i

structure AttemptOk (emitted : List AgentRuntimeEvent) (out : List RunWrite) (a : Attempt) : Prop where
  carried : ∀ t b, a.Carries b t → BatchOk emitted t b
  held : ∀ b, a.heldEnd = some b → ∀ e ∈ b.events, Emitted emitted e
  known : ∀ j, a.Used out j ∨ a.heldCall = some j → a.phaseOf j = some .held
  once : ∀ j, a.heldCall = some j → ¬ a.Used out j
  plain : ∀ c ∈ a.calls, c.phase = .storing → c.write.final = false

section Attempt

variable {out : List RunWrite} {a a' : Attempt} {b batch : RunWrite} {failure : AgentRunError} {now : Time}

theorem BatchOk.append (h : BatchOk emitted t b) (more : List AgentRuntimeEvent) : BatchOk (emitted ++ more) t b where
  traced e he := (h.traced e he).append more
  whole := h.whole
  later := h.later

theorem AttemptOk.emits (h : AttemptOk emitted out a) (more : List AgentRuntimeEvent) :
    AttemptOk (emitted ++ more) out a where
  carried t b hb := (h.carried t b hb).append more
  held b hb e he := (h.held b hb e he).append more
  known := h.known
  once := h.once
  plain := h.plain

theorem AttemptOk.stores (h : AttemptOk emitted out a) (hb : a.Carries b t) : AttemptOk emitted (out ++ [b]) a := by
  have hused : ∀ j, a.Used (out ++ [b]) j → a.Used out j := by
    rintro j (⟨b', hb', hj⟩ | hcarried)
    · rcases List.mem_append.mp hb' with hb' | hb'
      · exact .inl ⟨b', hb', hj⟩
      · obtain rfl := List.mem_singleton.mp hb'
        exact .inr ⟨t, b', hb, hj⟩
    · exact .inr hcarried
  exact ⟨h.carried, h.held, fun j hj => h.known j (hj.imp_left (hused j)), fun j hj hu => h.once j hj (hused j hu),
    h.plain⟩

/-- What a step of an attempt must give: no message is carried that was not used or held. -/
theorem AttemptOk.moves (h : AttemptOk emitted out a)
    (hphase : ∀ j, a.phaseOf j = some .held → a'.phaseOf j = some .held)
    (hplain : ∀ c ∈ a'.calls, c.phase = .storing → c.write.final = false)
    (hheld : ∀ b, a'.heldEnd = some b → (∀ e ∈ b.events, Emitted emitted e) ∧ b.call = a.heldCall)
    (hcarried : ∀ t b, a'.Carries b t → BatchOk emitted t b ∧
      ∀ j, b.call = some j → a.Used out j ∨ (a.heldCall = some j ∧ a'.heldEnd = none)) : AttemptOk emitted out a' := by
  have hcall : ∀ j, a'.heldCall = some j → a.heldCall = some j ∧ a'.heldEnd ≠ none := by
    intro j hj
    obtain ⟨b, hb, hbj⟩ := Option.bind_eq_some_iff.mp hj
    rw [← (hheld b hb).2, hb]
    exact ⟨hbj, nofun⟩
  refine ⟨fun t b hb => (hcarried t b hb).1, fun b hb => (hheld b hb).1, fun j hj => hphase j (h.known j ?_), ?_,
    hplain⟩
  · rcases hj with (hout | ⟨t, b, hb, hj⟩) | hj
    · exact .inl (.inl hout)
    · exact ((hcarried t b hb).2 j hj).imp_right And.left
    · exact .inr (hcall j hj).1
  · rintro j hj (hout | ⟨t, b, hb, hbj⟩)
    · exact h.once j (hcall j hj).1 (.inl hout)
    · rcases (hcarried t b hb).2 j hbj with hused | ⟨_, hnone⟩
      · exact h.once j (hcall j hj).1 hused
      · exact (hcall j hj).2 hnone

theorem AttemptOk.heldSame (h : AttemptOk emitted out a) (hb : a.heldEnd = some b) :
    (∀ e ∈ b.events, Emitted emitted e) ∧ b.call = a.heldCall :=
  ⟨h.held b hb, by rw [Attempt.heldCall, hb, Option.bind_some]⟩

theorem AttemptOk.old {p : Nat → Prop} (h : AttemptOk emitted out a) (hold : a.Carries b t) :
    BatchOk emitted t b ∧ ∀ j, b.call = some j → a.Used out j ∨ p j :=
  ⟨h.carried t b hold, fun _ hj => .inl (.inr ⟨t, b, hold, hj⟩)⟩

theorem AttemptOk.main (h : AttemptOk emitted out a) (hcalls : a'.calls = a.calls) (hheld : a'.heldEnd = a.heldEnd)
    (hmain : ∀ b, a'.main.batch = some b → BatchOk emitted none b ∧ ∀ j, b.call = some j → a.Used out j) :
    AttemptOk emitted out a' := by
  refine h.moves (fun j hj => ?_) (hcalls ▸ h.plain) (fun b hb => h.heldSame (hheld ▸ hb)) fun t b hb => ?_
  · rwa [Attempt.phaseOf, hcalls]
  · cases t with
    | none =>
      obtain ⟨hok, hused⟩ := hmain b hb
      exact ⟨hok, fun j hj => .inl (hused j hj)⟩
    | some i =>
      have hold : a.Carries b (some i) := by
        obtain ⟨c, hc, hcb⟩ := hb
        exact ⟨c, hcalls ▸ hc, hcb⟩
      exact h.old hold

theorem AttemptOk.quiet (h : AttemptOk emitted out a) (hmain : a'.main = a.main ∨ a'.main.batch = none)
    (hcalls : a'.calls = a.calls) (hheld : a'.heldEnd = a.heldEnd) : AttemptOk emitted out a' := by
  refine h.main hcalls hheld fun b hb => ?_
  rcases hmain with hmain | hnone
  · have hold : a.Carries b none := by rwa [Attempt.Carries, ← hmain]
    exact ⟨h.carried _ b hold, fun j hj => .inr ⟨none, b, hold, hj⟩⟩
  · rw [hnone] at hb
    cases hb

/-- A call goes on: to another phase that still carries what it carried, if anything. -/
theorem AttemptOk.setCall (h : AttemptOk emitted out a) (hc : a.calls[i]? = some c) (hnot : c.phase ≠ .held)
    (hplain : phase = .storing → c.write.final = false)
    (hbatch : ∀ b, phase.batch = some b → BatchOk emitted (some i) b ∧ ∀ j, b.call = some j → a.Used out j) :
    AttemptOk emitted out (a.setCall i c phase) := by
  obtain ⟨hlt, _⟩ := List.getElem?_eq_some_iff.mp hc
  refine h.moves (fun j hj => ?_) (fun c' hc' => ?_) (fun b hb => h.heldSame hb) fun t b hb => ?_
  · have hne : i ≠ j := by
      rintro rfl
      rw [Attempt.phaseOf, hc] at hj
      exact hnot (Option.some.inj hj)
    simpa [Attempt.phaseOf, Attempt.setCall, hne] using hj
  · rcases List.mem_or_eq_of_mem_set hc' with hc' | rfl
    · exact h.plain c' hc'
    · exact hplain
  · cases t with
    | none => exact h.old hb
    | some k =>
      obtain ⟨c', hc', hb'⟩ := hb
      by_cases hk : i = k
      · subst hk
        simp only [Attempt.setCall, List.getElem?_set_self hlt, Option.some.injEq] at hc'
        subst hc'
        obtain ⟨hok, hused⟩ := hbatch b hb'
        exact ⟨hok, fun j hj => .inl (hused j hj)⟩
      · simp only [Attempt.setCall, List.getElem?_set_ne hk] at hc'
        exact h.old ⟨c', hc', hb'⟩

theorem AttemptOk.holds (h : AttemptOk emitted out a) (hc : a.calls[i]? = some c) (hp : c.phase = .flushed) :
    AttemptOk emitted out { a.setCall i c .held with heldEnd := some ⟨some ⟨i, m⟩, []⟩ } := by
  have hnot : ¬ (a.Used out i ∨ a.heldCall = some i) := by
    intro hused
    have hheld := h.known i hused
    rw [Attempt.phaseOf, hc, Option.map_some, hp] at hheld
    cases hheld
  have hset : AttemptOk emitted out (a.setCall i c .held) := h.setCall hc (by simp [hp]) nofun nofun
  obtain ⟨hlt, _⟩ := List.getElem?_eq_some_iff.mp hc
  have hnew : (a.setCall i c .held).phaseOf i = some .held := by
    simp [Attempt.phaseOf, Attempt.setCall, List.getElem?_set_self hlt]
  have hused : ¬ (a.setCall i c .held).Used out i := by
    rintro (hout | ⟨t, b, hb, hj⟩)
    · exact hnot (.inl (.inl hout))
    · refine hnot (.inl (.inr ⟨t, b, ?_, hj⟩))
      cases t with
      | none => exact hb
      | some k =>
        obtain ⟨c', hc', hb'⟩ := hb
        by_cases hk : i = k
        · subst hk
          simp only [Attempt.setCall, List.getElem?_set_self hlt, Option.some.injEq] at hc'
          subst hc'
          cases hb'
        · simp only [Attempt.setCall, List.getElem?_set_ne hk] at hc'
          exact ⟨c', hc', hb'⟩
  refine ⟨hset.carried, ?_, ?_, ?_, hset.plain⟩
  · rintro b ⟨⟩ e he
    cases he
  · rintro j (hj | hj)
    · exact hset.known j (.inl hj)
    · obtain rfl : i = j := by simpa [Attempt.heldCall, RunWrite.call] using hj
      exact hnew
  · intro j hj
    obtain rfl : i = j := by simpa [Attempt.heldCall, RunWrite.call] using hj
    exact hused

theorem AttemptOk.calls (h : AttemptOk emitted out a) (write : ConversationWrite) :
    AttemptOk emitted out (a.call write) := by
  have hstays : ∀ {c j}, a.phaseOf j = some .held → ((a.calls ++ [c])[j]?).map (·.phase) = some .held := by
    intro c j hj
    have hlt : j < a.calls.length := by
      rw [← Nat.not_le]
      intro hle
      simp [Attempt.phaseOf, List.getElem?_eq_none hle] at hj
    rw [List.getElem?_append_left hlt]
    exact hj
  have hplain : ∀ {c : Call}, c.phase ≠ .storing →
      ∀ c' ∈ a.calls ++ [c], c'.phase = .storing → c'.write.final = false := by
    intro c hc c' hc' hp
    rcases List.mem_append.mp hc' with hc' | hc'
    · exact h.plain c' hc' hp
    · rw [List.mem_singleton.mp hc'] at hp
      exact absurd hp hc
  -- what the new call carries, if anything, is what was held
  have hcarries : ∀ {c : Call} {a' : Attempt}, a'.calls = a.calls ++ [c] → a'.main = a.main →
      (∀ b, c.phase.batch = some b → a.heldEnd = some b ∧ a'.heldEnd = none) → ∀ t b, a'.Carries b t →
      BatchOk emitted t b ∧ ∀ j, b.call = some j → a.Used out j ∨ (a.heldCall = some j ∧ a'.heldEnd = none) := by
    intro c a' hcalls hmain hnew t b hb
    cases t with
    | none =>
      have hold : a.Carries b none := by rwa [Attempt.Carries, ← hmain]
      exact h.old hold
    | some k =>
      obtain ⟨c', hc', hb'⟩ := hb
      rw [hcalls] at hc'
      rcases Nat.lt_or_ge k a.calls.length with hlt | hge
      · rw [List.getElem?_append_left hlt] at hc'
        exact h.old ⟨c', hc', hb'⟩
      · have hk : k = a.calls.length ∧ c' = c := by
          rw [List.getElem?_append_right hge] at hc'
          obtain ⟨hlt, hget⟩ := List.getElem?_eq_some_iff.mp hc'
          rw [List.length_singleton, Nat.lt_one_iff] at hlt
          exact ⟨Nat.le_antisymm (Nat.le_of_sub_eq_zero hlt) hge, by simpa [hlt] using hget.symm⟩
        obtain ⟨rfl, rfl⟩ := hk
        obtain ⟨hheld, hnone⟩ := hnew b hb'
        obtain ⟨hevents, hcall⟩ := h.heldSame hheld
        refine ⟨⟨fun e he => .inr (hevents e he), by simp, ?_⟩, fun j hj => .inr ⟨hcall ▸ hj, hnone⟩⟩
        rintro _ ⟨⟩ j hj
        have hphase := h.known j (.inr (hcall ▸ hj))
        rw [← Nat.not_le]
        intro hle
        simp [Attempt.phaseOf, List.getElem?_eq_none hle] at hphase
  unfold Attempt.call
  split
  · exact h.moves (fun _ => hstays) (hplain (by simp)) (fun b hb => h.heldSame hb) (hcarries rfl rfl (by rintro b ⟨⟩))
  · cases hheld : a.heldEnd with
    | none =>
      simp only
      exact h.moves (fun _ => hstays) (hplain (by simp)) (fun b hb => h.heldSame (hheld ▸ hb)) (hcarries rfl rfl (by rintro b ⟨⟩))
    | some held =>
      simp only
      refine h.moves (fun _ => hstays) (hplain (by simp)) (by simp) (hcarries rfl rfl ?_)
      rintro b ⟨⟩
      exact ⟨hheld, rfl⟩

theorem endsRun_append (h : event.isTerminal) : RunWrite.endsRun ⟨message, events ++ [event]⟩ := by
  simpa [RunWrite.endsRun] using h

theorem AttemptOk.append (h : AttemptOk emitted out a) (event : AgentRuntimeEvent) (he : Traced emitted event)
    (main' : Main) (hm : main'.batch = (a.append event).2) :
    AttemptOk emitted out { (a.append event).1 with main := main' } := by
  unfold Attempt.append at hm ⊢
  cases hheld : a.heldEnd with
  | none =>
    simp only [hheld] at hm ⊢
    refine h.main rfl hheld.symm fun b hb => ?_
    obtain rfl : ⟨none, [event]⟩ = b := Option.some.inj (hm.symm.trans hb)
    exact ⟨⟨by simpa using he, nofun, nofun⟩, nofun⟩
  | some held =>
    obtain ⟨hevents, hcall⟩ := h.heldSame hheld
    -- the batch goes to the loop: it ends the run or is over the limit
    have htaken : ∀ {a'}, a'.calls = a.calls → a'.heldEnd = none →
        a'.main.batch = some { held with events := held.events ++ [event] } →
        event.isTerminal ∨ heldEndMaxEvents < (held.events ++ [event]).length → AttemptOk emitted out a' := by
      intro a' hcalls hnone hbatch hwhole
      refine h.moves (fun j hj => ?_) (hcalls ▸ h.plain) (by rw [hnone]; nofun) fun t b hb => ?_
      · rwa [Attempt.phaseOf, hcalls]
      · cases t with
        | some i =>
          have hold : a.Carries b (some i) := by
            obtain ⟨c, hc, hcb⟩ := hb
            exact ⟨c, hcalls ▸ hc, hcb⟩
          exact h.old hold
        | none =>
          obtain rfl := Option.some.inj (hbatch.symm.trans hb)
          refine ⟨⟨fun e hmem => ?_, fun _ _ => hwhole.imp_left endsRun_append, nofun⟩,
            fun j hj => .inr ⟨hcall ▸ hj, hnone⟩⟩
          rcases List.mem_append.mp hmem with hmem | hmem
          · exact .inr (hevents e hmem)
          · exact List.mem_singleton.mp hmem ▸ he
    simp only [hheld] at hm ⊢
    split
    · simp only [if_pos ‹_›] at hm
      exact htaken rfl rfl hm (.inl ‹_›)
    · rename_i hnot
      simp only [if_neg hnot] at hm
      split
      · simp only [if_pos ‹_›] at hm
        refine h.moves (fun _ hj => hj) h.plain ?_ fun t b hb => ?_
        · rintro b ⟨⟩
          refine ⟨fun e hmem => ?_, hcall⟩
          rcases List.mem_append.mp hmem with hmem | hmem
          · exact hevents e hmem
          · rw [List.mem_singleton.mp hmem]
            exact he.resolve_left hnot
        · cases t with
          | none =>
            rw [Attempt.Carries, hm] at hb
            cases hb
          | some i => exact h.old hb
      · rename_i hover
        simp only [if_neg hover] at hm
        exact htaken rfl rfl hm (.inr (Nat.lt_of_not_le hover))

theorem closingEvent_terminal {sequence : Nat} (a : Attempt) : (a.closingEvent runId sequence now failure).isTerminal := by
  unfold Attempt.closingEvent
  split <;> rfl

theorem shown_traced (he : Traced emitted event) : Traced emitted (a.shown runId now event) := by
  unfold Attempt.shown
  split
  · split
    · exact .inl (closingEvent_terminal a)
    · exact he
  · exact .inl rfl
  · exact he

theorem AttemptOk.consume (h : AttemptOk emitted out a) (he : Traced emitted event) :
    AttemptOk emitted out (a.consume runId now event) := by
  unfold Attempt.consume
  split
  · exact h.quiet (.inr rfl) rfl rfl
  · have happend := h.append (a.shown runId now event) (shown_traced he)
    split <;> rename_i heq <;> rw [heq] at happend
    · exact happend (.appending (.storing _)) rfl
    · exact happend .consuming rfl

theorem AttemptOk.caught (h : AttemptOk emitted out a) (e : Thrown) (again : Bool) :
    AttemptOk emitted out (a.caught e again) := by
  unfold Attempt.caught
  split
  · exact h.quiet (.inr rfl) rfl rfl
  · exact h.quiet (.inr rfl) rfl rfl

theorem AttemptOk.closeLast (h : AttemptOk emitted out a) :
    AttemptOk emitted out (a.closeLast runId lastSequence now failure again) := by
  unfold Attempt.closeLast
  have happend := h.append (a.closingEvent runId (lastSequence + 1) now failure) (.inl (closingEvent_terminal a))
  split <;> rename_i heq <;> rw [heq] at happend
  · exact happend (.closingLast (.storing _) again) rfl
  · exact happend .ended rfl

theorem AttemptOk.close (h : AttemptOk emitted out a) (latest : Option AgentRun) :
    AttemptOk emitted out (a.close runId now failure again latest) := by
  cases latest with
  | none => exact h.quiet (.inr rfl) rfl rfl
  | some latest =>
    unfold Attempt.close
    simp only
    split
    · exact h.quiet (.inr rfl) rfl rfl
    · have hasked : AttemptOk emitted out
          (if latest.status = .cancelling then a.asked latest.cancellationReason else a) := by
        split
        · exact h.quiet (.inl rfl) rfl rfl
        · exact h
      generalize (if latest.status = .cancelling then a.asked latest.cancellationReason else a) = a₁ at hasked
      split
      · exact hasked.closeLast
      · rename_i held _
        have happend := hasked.append (a₁.closingEvent runId
          ((held.events.getLast?.map (·.sequence)).getD latest.lastSequence + 1) now failure)
          (.inl (closingEvent_terminal a₁))
        split <;> rename_i heq <;> rw [heq] at happend
        · exact happend (.closingHeld (.storing _) latest.lastSequence failure again) rfl
        · exact happend .ended rfl

end Attempt

-- -----------------
-- Steps
-- -----------------

section Steps

variable {s s' : Execution} {out : List RunWrite} {w : Writing} {how : How} {i : Nat}

/-- One `await` leaves the threads where they are and the log traced. -/
structure Awaited (catalog : Catalog) (row : JobRow) (runId : RunId) (s s' : Execution) : Prop where
  emitted : s'.emitted = s.emitted
  system : SystemOk catalog row runId s.emitted s'.system
  main : s'.attempt.main = s.attempt.main
  calls : s'.attempt.calls = s.attempt.calls
  heldEnd : s'.attempt.heldEnd = s.attempt.heldEnd
  kept : Over s.system.db (row.clientInstanceId, runId) → Over s'.system.db (row.clientInstanceId, runId)

theorem Awaited.same (hs : SystemOk catalog row runId s.emitted s.system) : Awaited catalog row runId s s :=
  ⟨rfl, hs, rfl, rfl, rfl, id⟩

theorem fenced_same (a : Attempt) (r : Except Thrown Unit) :
    (a.fenced r).main = a.main ∧ (a.fenced r).calls = a.calls ∧ (a.fenced r).heldEnd = a.heldEnd := by
  cases r with
  | ok => exact ⟨rfl, rfl, rfl⟩
  | error e =>
    simp only [Attempt.fenced]
    split
    · exact ⟨rfl, rfl, rfl⟩
    · exact ⟨rfl, rfl, rfl⟩

theorem transact_ok {write : Write} (hs : SystemOk catalog row runId s.emitted s.system)
    (hp : how.Possible row s.system) (hw : ∀ e ∈ write.events, Traced s.emitted e) :
    Awaited catalog row runId s (s.transact catalog row runId write how).2.1 := by
  cases how with
  | fails now => exact .same hs
  | reaches now clock answered =>
    obtain ⟨hmain, hcalls, hheld⟩ := fenced_same s.attempt
      (heard answered ((runSystem catalog).answer s.system ⟨now, clock, .write row runId write⟩))
    exact ⟨rfl, hs.writes hp hw, hmain, hcalls, hheld,
      fun hover => ((moved catalog (runSystem_logsOk hs.reachable) _).kept hover).1⟩

theorem transact_over {batch : RunWrite} (hs : SystemOk catalog row runId s.emitted s.system)
    (hp : how.Possible row s.system) (hw : ∀ e ∈ batch.events, Traced s.emitted e)
    (hstored : (s.transact catalog row runId batch.write how).2.2) (hends : batch.endsRun) :
    Over (s.transact catalog row runId batch.write how).2.1.system.db (row.clientInstanceId, runId) := by
  cases how with
  | fails now => cases hstored
  | reaches now clock answered =>
    have hw' : ∀ e ∈ batch.write.events, Traced s.emitted e := hw
    exact runEnd_over (hs.writes hp hw') rfl hstored hends

/-- What one `await` of `write` gives. -/
structure Advanced (catalog : Catalog) (row : JobRow) (runId : RunId) (thread : Option Nat) (s : Execution) (w : Writing)
    (r : Wrote × Execution × Option Stored) : Prop where
  awaited : Awaited catalog row runId s r.2.1
  going : ∀ w', r.1 = .going w' → BatchOk s.emitted thread w'.batch ∧ w'.batch.call = w.batch.call
  stored : ∀ x, r.2.2 = some x → x = .batch w.batch ∧
    (w.batch.endsRun → Over r.2.1.system.db (row.clientInstanceId, runId))

theorem Writing.after_going {w w' : Writing} {batch : RunWrite} (h : w.after batch r = .going w') :
    w'.batch = batch := by
  unfold Writing.after at h
  split at h
  · cases h
  · split at h
    · split at h
      · obtain rfl := Wrote.going.inj h
        rfl
      · cases h
    · cases h

theorem advance_ok (hs : SystemOk catalog row runId s.emitted s.system) (hp : how.Possible row s.system)
    (hb : BatchOk s.emitted thread w.batch) :
    Advanced catalog row runId thread s w (s.advance catalog row runId how w) := by
  have hstoring : ∀ {w : Writing}, BatchOk s.emitted thread w.batch →
      Advanced catalog row runId thread s w
        (w.after w.batch (s.transact catalog row runId w.batch.write how).1,
          (s.transact catalog row runId w.batch.write how).2.1,
          if (s.transact catalog row runId w.batch.write how).2.2 then some (.batch w.batch) else none) := by
    intro w hb
    have hw : ∀ e ∈ w.batch.write.events, Traced s.emitted e := hb.traced
    refine ⟨transact_ok hs hp hw, fun w' hgoing => ?_, fun x hx => ?_⟩
    · rw [Writing.after_going hgoing]
      exact ⟨hb, rfl⟩
    · split at hx
      · obtain rfl := Option.some.inj hx
        exact ⟨rfl, transact_over hs hp hb.traced ‹_›⟩
      · cases hx
  cases w with
  | storing batch => exact hstoring hb
  | storingCancelled batch => exact hstoring hb
  | looking batch e =>
    simp only [Execution.advance]
    split
    · split
      · refine ⟨⟨rfl, hs, rfl, rfl, rfl, id⟩, ?_, by rintro _ ⟨⟩⟩
        rintro w' ⟨⟩
        refine ⟨⟨fun e he => ?_, fun _ _ => .inl (endsRun_append rfl), hb.later⟩, rfl⟩
        rcases List.mem_append.mp he with he | he
        · exact hb.traced e (List.dropLast_subset _ he)
        · rw [List.mem_singleton.mp he]
          exact .inl rfl
      · exact ⟨.same hs, by rintro _ ⟨⟩, by rintro _ ⟨⟩⟩
    · exact ⟨.same hs, by rintro _ ⟨⟩, by rintro _ ⟨⟩⟩
    · exact ⟨.same hs, by rintro _ ⟨⟩, by rintro _ ⟨⟩⟩

def Fits (key : ClientInstanceId × RunId) (db : Db) : ExecutionMove × Option Stored → Prop
  | (move, some (.batch b)) => b.message.isSome → (b.endsRun ∧ Over db key) ∨
      (∃ i how, move = .call i how ∧ ∀ j, b.call = some j → j < i) ∨ heldEndMaxEvents < b.events.length
  | (_, some (.message write)) => write.final = false
  | _ => True

def batchOf : Option Stored → List RunWrite
  | some (.batch b) => [b]
  | _ => []

structure ExecutionOk (catalog : Catalog) (row : JobRow) (runId : RunId) (out : List RunWrite) (s : Execution) : Prop where
  system : SystemOk catalog row runId s.emitted s.system
  numbered : Numbered (·.sequence) s.emitted
  attempt : AttemptOk s.emitted out s.attempt

theorem Awaited.attempt (h : Awaited catalog row runId s s') (ha : AttemptOk s.emitted out s.attempt) :
    AttemptOk s'.emitted out s'.attempt := by
  rw [h.emitted]
  exact ha.quiet (.inl h.main) h.calls h.heldEnd

theorem AttemptOk.wroteOut {a : Attempt} {w : Writing} (h : AttemptOk emitted out a) (hc : a.Carries w.batch t)
    (hx : ∀ x, stored = some x → x = .batch w.batch) : AttemptOk emitted (out ++ batchOf stored) a := by
  cases stored with
  | none => simpa [batchOf] using h
  | some x =>
    obtain rfl := hx x rfl
    exact h.stores hc

structure StepOk (catalog : Catalog) (row : JobRow) (runId : RunId) (out : List RunWrite) (s : Execution)
    (move : ExecutionMove) (r : Option Stored × Execution) : Prop where
  ok : ExecutionOk catalog row runId (out ++ batchOf r.1) r.2
  fits : Fits (row.clientInstanceId, runId) r.2.system.db (move, r.1)
  kept : Over s.system.db (row.clientInstanceId, runId) → Over r.2.system.db (row.clientInstanceId, runId)

theorem ExecutionOk.silent (h : ExecutionOk catalog row runId out s) (ha : AttemptOk s.emitted out a) :
    StepOk catalog row runId out s move (none, { s with attempt := a }) where
  ok := ⟨h.system, h.numbered, by simpa [batchOf] using ha⟩
  fits := trivial
  kept := id

/-- A thread goes on behind an `await` of `write`. -/
theorem ExecutionOk.goesOn {t : Option Nat} (h : ExecutionOk catalog row runId out s) (hc : s.attempt.Carries w.batch t)
    (hadv : Advanced catalog row runId t s w (wrote, s', stored))
    (hmove : ∀ i, t = some i → ∃ how, move = .call i how)
    (ha : AttemptOk s'.emitted (out ++ batchOf stored) s'.attempt → AttemptOk s'.emitted (out ++ batchOf stored) a) :
    StepOk catalog row runId out s move (stored, { s' with attempt := a }) := by
  have hb := h.attempt.carried t _ hc
  have hold := hadv.awaited.attempt (h.attempt.wroteOut hc fun x hx => (hadv.stored x hx).1)
  have hemitted : s'.emitted = s.emitted := hadv.awaited.emitted
  refine ⟨⟨hemitted ▸ hadv.awaited.system, hemitted ▸ h.numbered, ha hold⟩, ?_, hadv.awaited.kept⟩
  cases stored with
  | none => trivial
  | some x =>
    obtain ⟨rfl, hover⟩ := hadv.stored x rfl
    intro hmessage
    cases t with
    | none => exact (hb.whole rfl hmessage).imp (fun hends => ⟨hends, hover hends⟩) .inr
    | some i =>
      obtain ⟨how, rfl⟩ := hmove i rfl
      exact .inr (.inl ⟨i, how, rfl, hb.later i rfl⟩)

theorem Advanced.carries {t : Option Nat} {stored : Option Stored} (hadv : Advanced catalog row runId t s w (.going w', s', stored))
    (hc : s.attempt.Carries w.batch t) :
    BatchOk s'.emitted t w'.batch ∧ ∀ j, w'.batch.call = some j → s'.attempt.Used out j := by
  obtain ⟨hok, hcall⟩ := hadv.going w' rfl
  have hemitted : s'.emitted = s.emitted := hadv.awaited.emitted
  have hmain : s'.attempt.main = s.attempt.main := hadv.awaited.main
  have hcalls : s'.attempt.calls = s.attempt.calls := hadv.awaited.calls
  refine ⟨hemitted ▸ hok, fun j hj => .inr ⟨t, w.batch, ?_, hcall ▸ hj⟩⟩
  cases t with
  | none => rwa [Attempt.Carries, hmain]
  | some i => rwa [Attempt.Carries, hcalls]

theorem mainStep_ok (h : ExecutionOk catalog row runId out s) (hp : how.Possible row s.system) :
    StepOk catalog row runId out s (.main how) (s.mainStep catalog row runId how) := by
  have hmove : ∀ i, (none : Option Nat) = some i → ∃ how', ExecutionMove.main how = .call i how' := nofun
  have hadvance : ∀ {w : Writing}, s.attempt.Carries w.batch none →
      Advanced catalog row runId none s w (s.advance catalog row runId how w) :=
    fun hc => advance_ok h.system hp (h.attempt.carried none _ hc)
  unfold Execution.mainStep
  cases hmain : s.attempt.main with
  | appending w =>
    have hc : s.attempt.Carries w.batch none := by rw [Attempt.Carries, hmain]; rfl
    have hadv := hadvance hc
    simp only
    generalize s.advance catalog row runId how w = r at hadv ⊢
    obtain ⟨wrote, s', stored⟩ := r
    cases wrote with
    | going w' =>
      refine h.goesOn hc hadv hmove fun ha => ha.main rfl rfl ?_
      rintro b ⟨⟩
      exact hadv.carries hc
    | stored batch =>
      refine h.goesOn hc hadv hmove fun ha => ha.quiet (.inr ?_) rfl rfl
      simp only
      split <;> rfl
    | threw e => exact h.goesOn hc hadv hmove fun ha => ha.caught e false
  | closing failure again =>
    cases how with
    | fails now => exact h.silent (h.attempt.caught _ _)
    | reaches now clock answered =>
      cases answered with
      | false => exact h.silent (h.attempt.caught _ _)
      | true => exact h.silent (h.attempt.close _)
  | closingHeld w lastSequence failure again =>
    have hc : s.attempt.Carries w.batch none := by rw [Attempt.Carries, hmain]; rfl
    have hadv := hadvance hc
    simp only
    generalize s.advance catalog row runId how w = r at hadv ⊢
    obtain ⟨wrote, s', stored⟩ := r
    cases wrote with
    | going w' =>
      refine h.goesOn hc hadv hmove fun ha => ha.main rfl rfl ?_
      rintro b ⟨⟩
      exact hadv.carries hc
    | stored batch => exact h.goesOn hc hadv hmove fun ha => ha.quiet (.inr rfl) rfl rfl
    | threw e =>
      refine h.goesOn hc hadv hmove fun ha => ?_
      split
      · exact ha.caught e again
      · exact ha.closeLast
  | closingLast w again =>
    have hc : s.attempt.Carries w.batch none := by rw [Attempt.Carries, hmain]; rfl
    have hadv := hadvance hc
    simp only
    generalize s.advance catalog row runId how w = r at hadv ⊢
    obtain ⟨wrote, s', stored⟩ := r
    cases wrote with
    | going w' =>
      refine h.goesOn hc hadv hmove fun ha => ha.main rfl rfl ?_
      rintro b ⟨⟩
      exact hadv.carries hc
    | stored batch => exact h.goesOn hc hadv hmove fun ha => ha.quiet (.inr rfl) rfl rfl
    | threw e => exact h.goesOn hc hadv hmove fun ha => ha.caught e again
  | claiming | preparing | consuming | ended => exact h.silent h.attempt

theorem callStep_ok (h : ExecutionOk catalog row runId out s) (hp : how.Possible row s.system) :
    StepOk catalog row runId out s (.call i how) (s.callStep catalog row runId i how) := by
  have hmove : ∀ j, some i = some j → ∃ how', ExecutionMove.call i how = .call j how' := by
    rintro j ⟨⟩
    exact ⟨how, rfl⟩
  unfold Execution.callStep
  cases hget : s.attempt.calls[i]? with
  | none => exact h.silent h.attempt
  | some c =>
    cases hphase : c.phase with
    | flushing w =>
      have hc : s.attempt.Carries w.batch (some i) := ⟨c, hget, by rw [hphase]; rfl⟩
      have hadv := advance_ok (w := w) h.system hp (h.attempt.carried _ _ hc)
      simp only [hphase]
      generalize s.advance catalog row runId how w = r at hadv ⊢
      obtain ⟨wrote, s', stored⟩ := r
      have hget' : s'.attempt.calls[i]? = some c := by
        have hcalls : s'.attempt.calls = s.attempt.calls := hadv.awaited.calls
        rw [hcalls, hget]
      have hnot : c.phase ≠ .held := by simp [hphase]
      cases wrote with
      | going w' =>
        refine h.goesOn hc hadv hmove fun ha => ha.setCall hget' hnot nofun ?_
        rintro b ⟨⟩
        exact hadv.carries hc
      | stored batch =>
        refine h.goesOn hc hadv hmove fun ha => ?_
        have hwrote : AttemptOk s'.emitted (out ++ batchOf stored) (s'.attempt.wrote batch) :=
          ha.quiet (.inl rfl) rfl rfl
        exact hwrote.setCall hget' hnot nofun nofun
      | threw e => exact h.goesOn hc hadv hmove fun ha => ha.setCall hget' hnot nofun nofun
    | flushed =>
      simp only [hphase]
      split
      · exact h.silent (h.attempt.holds hget hphase)
      · exact h.silent (h.attempt.setCall hget (by simp [hphase]) (fun _ => by simpa using ‹¬ c.write.final = true›) nofun)
    | storing =>
      have hplain : c.write.final = false := h.attempt.plain c (List.mem_of_getElem? hget) hphase
      have hawait : Awaited catalog row runId s (s.transact catalog row runId (.message c.write.message) how).2.1 :=
        transact_ok h.system hp nofun
      simp only [hphase]
      generalize s.transact catalog row runId (.message c.write.message) how = r at hawait ⊢
      obtain ⟨result, s', stored⟩ := r
      have hemitted : s'.emitted = s.emitted := hawait.emitted
      have hcalls : s'.attempt.calls = s.attempt.calls := hawait.calls
      have ha : AttemptOk s'.emitted out s'.attempt := hawait.attempt h.attempt
      have hset : AttemptOk s'.emitted out (s'.attempt.setCall i c (if result.isOk then .done else .threw)) :=
        ha.setCall (by rw [hcalls, hget]) (by simp [hphase]) (by split <;> nofun) (by split <;> nofun)
      refine ⟨⟨hemitted ▸ hawait.system, hemitted ▸ h.numbered, ?_⟩, ?_, hawait.kept⟩
      · cases stored <;> simpa [batchOf] using hset
      · cases stored with
        | false => trivial
        | true => exact hplain
    | held | done | threw =>
      simp only [hphase]
      exact h.silent h.attempt

theorem execution_step_ok (h : ExecutionOk catalog row runId out s)
    (he : (execution catalog row runId).enabled s move) :
    StepOk catalog row runId out s move
      ((execution catalog row runId).answer s move, (execution catalog row runId).next s move) := by
  have hg := runSystem_logsOk h.system.reachable
  have hstep : ∀ {st a}, AttemptOk s.emitted out a →
      SystemOk catalog row runId s.emitted ((runSystem catalog).next s.system st) →
      StepOk catalog row runId out s move
        (none, { s with system := (runSystem catalog).next s.system st, attempt := a }) :=
    fun ha hsys => ⟨⟨hsys, h.numbered, by simpa [batchOf] using ha⟩, trivial, fun hover => ((moved catalog hg _).kept hover).1⟩
  cases move with
  | system st => exact hstep h.attempt (h.system.others he.1 he.2)
  | claims now checkedAt clock =>
    refine hstep ?_ (h.system.others he.2.2.2 (by simp [Step.writesRun]))
    refine h.attempt.quiet (.inr ?_) rfl rfl
    simp only
    split <;> rfl
  | prepared => exact h.silent (h.attempt.quiet (.inr rfl) rfl rfl)
  | prepareThrows e | sourceThrows e => exact h.silent (h.attempt.caught e false)
  | emits createdAt body =>
    refine ⟨⟨h.system.emits _, ?_, ?_⟩, trivial, id⟩
    · have hn : s.emitted.map (·.sequence) = List.range' 1 s.emitted.length := h.numbered
      simp [Numbered, execution, Machine.next, hn, List.range'_concat, Nat.add_comm]
    · have hemits := h.attempt.emits [⟨runId, s.emitted.length + 1, createdAt, body⟩]
      rw [← List.append_nil out] at hemits
      exact hemits
  | takes now =>
    have hnext : AttemptOk s.emitted out { s.attempt with consumed := s.attempt.consumed + 1 } :=
      h.attempt.quiet (.inl rfl) rfl rfl
    simp only [Machine.answer, Machine.next, execution]
    cases hevent : s.emitted[s.attempt.consumed]? with
    | none => exact h.silent h.attempt
    | some event => exact h.silent (hnext.consume (.inr (emitted_get h.numbered hevent)))
  | aborts now => exact h.silent (h.attempt.consume (.inl rfl))
  | sourceEnds =>
    refine h.silent (h.attempt.quiet (.inr ?_) rfl rfl)
    simp only
    split <;> rfl
  | stops cause => exact h.silent (h.attempt.quiet (.inl rfl) rfl rfl)
  | watches =>
    simp only [Machine.answer, Machine.next, execution]
    split
    · split
      · exact h.silent (h.attempt.quiet (.inl rfl) rfl rfl)
      · exact h.silent h.attempt
    · exact h.silent h.attempt
  | cancelFails => exact h.silent (h.attempt.quiet (.inl rfl) rfl rfl)
  | calls write => exact h.silent (h.attempt.calls write)
  | main how => exact mainStep_ok h he.2.2
  | call i how => exact callStep_ok h he.2
  | killed => exact h.silent (h.attempt.quiet (.inl rfl) rfl rfl)

end Steps

section Run

variable {s t : Execution} {h h' : List (ExecutionMove × Option Stored)}

def batches (h : List (ExecutionMove × Option Stored)) : List RunWrite := h.flatMap fun entry => batchOf entry.2

theorem mem_batches (hm : (move, some (.batch b)) ∈ h) : b ∈ batches h :=
  List.mem_flatMap.mpr ⟨_, hm, List.mem_singleton_self b⟩

theorem Fits.over {entry : ExecutionMove × Option Stored} (hf : Fits key db entry)
    (ho : Over db key → Over db' key) : Fits key db' entry := by
  obtain ⟨move, answer⟩ := entry
  cases answer with
  | none => trivial
  | some x =>
    cases x with
    | batch b => exact fun hmessage => (hf hmessage).imp_left fun hends => ⟨hends.1, ho hends.2⟩
    | message write => exact hf

theorem execution_ok (hi : (execution catalog row runId).init s) (hr : (execution catalog row runId).Run s h t) :
    ExecutionOk catalog row runId (batches h) t ∧
      ∀ entry ∈ h, Fits (row.clientInstanceId, runId) t.system.db entry := by
  obtain ⟨hsystem, hattempt, hemitted⟩ := hi
  have hstart : ExecutionOk catalog row runId [] s := by
    refine ⟨⟨⟨_, [], hsystem, .nil⟩, ?_⟩, ?_, ?_⟩
    · intro o ho
      rw [Db.logOf, hsystem.2.2.1] at ho
      cases ho
    · rw [hemitted]
      rfl
    · rw [hattempt, hemitted]
      have hnone : ∀ t b, ¬ (⟨true, .claiming, [], 0, none, none, false, none, false⟩ : Attempt).Carries b t := by
        rintro (_ | i) b
        · rintro ⟨⟩
        · rintro ⟨c, hc, _⟩
          simp at hc
      refine ⟨fun t b hb => absurd hb (hnone t b), by simp, ?_, by simp [Attempt.heldCall], by simp⟩
      rintro j ((⟨b, hb, _⟩ | ⟨t, b, hb, _⟩) | hj)
      · cases hb
      · exact absurd hb (hnone t b)
      · cases hj
  suffices hstep : ∀ h s move, (ExecutionOk catalog row runId (batches h) s ∧
        ∀ entry ∈ h, Fits (row.clientInstanceId, runId) s.system.db entry) →
      (execution catalog row runId).enabled s move →
      ExecutionOk catalog row runId (batches (h ++ [(move, (execution catalog row runId).answer s move)]))
          ((execution catalog row runId).next s move) ∧
        ∀ entry ∈ h ++ [(move, (execution catalog row runId).answer s move)],
          Fits (row.clientInstanceId, runId) ((execution catalog row runId).next s move).system.db entry by
    have hnil : ExecutionOk catalog row runId (batches []) s ∧
        ∀ entry ∈ ([] : List (ExecutionMove × Option Stored)), Fits (row.clientInstanceId, runId) s.system.db entry :=
      ⟨hstart, by simp⟩
    exact hr.history hstep hnil
  rintro h s move ⟨hok, hfits⟩ he
  have hstep := execution_step_ok hok he
  refine ⟨?_, fun entry hentry => ?_⟩
  · rw [batches, List.flatMap_append, List.flatMap_singleton]
    exact hstep.ok
  · rcases List.mem_append.mp hentry with hentry | hentry
    · exact (hfits entry hentry).over hstep.kept
    · rw [List.mem_singleton.mp hentry]
      exact hstep.fits

theorem payloads_eq {first : List RunObservation} (hn : Numbered (·.sequence) first)
    (he : ∀ o ∈ first, o.payload.sequence = o.sequence ∧ Emitted emitted o.payload) :
    first.map (·.payload) = emitted.take first.length := by
  refine List.ext_getElem? fun i => ?_
  obtain hlt | hge := Nat.lt_or_ge i first.length
  · have hseq : first[i].sequence = i + 1 := by
      have hget : (first.map (·.sequence))[i]? = (List.range' 1 first.length)[i]? := by rw [hn]
      simpa [hlt, Nat.add_comm] using hget
    obtain ⟨hpayload, _, hemitted⟩ := he _ (List.getElem_mem hlt)
    rw [hpayload, hseq, Nat.add_sub_cancel] at hemitted
    rw [List.getElem?_take_of_lt hlt, hemitted]
    simp [hlt]
  · rw [List.getElem?_eq_none (by simpa using hge), List.getElem?_eq_none]
    exact Nat.le_trans (List.length_take_le _ _) hge

theorem killed_run (hr : (execution catalog row runId).Run s h t) (hdead : s.attempt.alive = false) :
    ∀ entry ∈ h, entry.2 = none := by
  induction hr with
  | nil => simp
  | @cons s move h t he hr ih =>
    have hnot : ¬ s.attempt.alive := by simp [hdead]
    have hlives : s.Enabled catalog row runId move := he
    cases move with
    | system st => exact List.forall_mem_cons.mpr ⟨rfl, ih hdead⟩
    | stops | killed => exact absurd hlives hnot
    | _ => exact absurd hlives.1 hnot

/-- What the store holds of a run and its answer. -/
structure EndStored (catalog : Catalog) (row : JobRow) (runId : RunId) (h : List (ExecutionMove × Option Stored))
    (s : Execution) : Prop where
  /-- The stored observations are the first events of the runtime, and at most an end behind them. -/
  log : ∃ first last, s.system.db.logOf (row.clientInstanceId, runId) = first ++ last ∧
    first.map (·.payload) = s.emitted.take first.length ∧
      (last = [] ∨ ∃ o, last = [o] ∧ o.type.ends.isSome)
  /-- An answer is stored with the end of its run, or by a later write into the conversation, or
  with more events than may be held. -/
  answer : ∀ move b final, (move, some (.batch b)) ∈ h → b.message = some final →
    (b.endsRun ∧ Over s.system.db (row.clientInstanceId, runId)) ∨
      (∃ i how, move = .call i how ∧ final.call < i) ∨ heldEndMaxEvents < b.events.length
  plain : ∀ move write, (move, some (.message write)) ∈ h → write.final = false
  /-- An answer that is held when the worker is lost is never stored. -/
  lost : ∀ b final h' t, s.attempt.heldEnd = some b → b.message = some final → s.attempt.alive = false →
    (execution catalog row runId).Run s h' t →
      ∀ move b', (move, some (.batch b')) ∈ h ++ h' → b'.call ≠ some final.call

theorem end_stored (catalog : Catalog) (row : JobRow) (runId : RunId) (s t : Execution)
    (h : List (ExecutionMove × Option Stored)) (hi : (execution catalog row runId).init s)
    (hr : (execution catalog row runId).Run s h t) : EndStored catalog row runId h t := by
  obtain ⟨hok, hfits⟩ := execution_ok hi hr
  have hg := runSystem_logsOk hok.system.reachable
  have hn : Numbered (·.sequence) (t.system.db.logOf (row.clientInstanceId, runId)) := logOf_numbered hg
  have hshown : ∀ {first : List RunObservation}, first <+: t.system.db.logOf (row.clientInstanceId, runId) →
      (∀ o ∈ first, o.type.ends = none) → first.map (·.payload) = t.emitted.take first.length := by
    intro first hpart hgoing
    refine payloads_eq (hn.part hpart) fun o ho => ?_
    refine (hok.system.log o (hpart.subset ho)).resolve_left ?_
    rw [hgoing o ho]
    exact Bool.false_ne_true
  refine ⟨?_, fun move b final hm hb => ?_, fun move write hm => hfits _ hm, ?_⟩
  · by_cases hover : Over t.system.db (row.clientInstanceId, runId)
    · obtain ⟨r, hmem, hkey, hend⟩ := hover
      have hrun : RunOk r (t.system.db.logOf (row.clientInstanceId, runId)) := hkey ▸ hg.runs r hmem
      obtain ⟨first, last, hlog, hlast, hgoing⟩ := hrun.ended hend
      exact ⟨first, [last], hlog, hshown ⟨[last], hlog.symm⟩ hgoing, .inr ⟨last, rfl, by rw [hlast]; rfl⟩⟩
    · refine ⟨_, [], (List.append_nil _).symm, hshown List.prefix_rfl fun o ho => ?_, .inl rfl⟩
      cases hends : o.type.ends with
      | none => rfl
      | some status => exact absurd (over_of_terminal hg ho (by rw [hends]; rfl)) hover
  · refine (hfits _ hm (by rw [hb]; rfl)).imp_right (Or.imp_left ?_)
    rintro ⟨i, how, rfl, hlater⟩
    exact ⟨i, how, rfl, hlater _ (by rw [RunWrite.call, hb, Option.map_some])⟩
  · intro b final h' u hheld hb hdead hr' move b' hm hcall
    have hcalled : t.attempt.heldCall = some final.call := by
      rw [Attempt.heldCall, hheld, Option.bind_some, RunWrite.call, hb, Option.map_some]
    rcases List.mem_append.mp hm with hm | hm
    · exact hok.attempt.once _ hcalled (.inl ⟨b', mem_batches hm, hcall⟩)
    · exact nomatch killed_run hr' hdead _ hm

end Run

end Executions

namespace Example

def fresh : Execution := ⟨empty, ⟨true, .claiming, [], 0, none, none, false, none, false⟩, []⟩

def answer : ClaimedMessage := ⟨"a", "c", .assistant, "done", none, 6⟩

def executing : List ExecutionMove :=
  [.system accept, .system claimJob, .claims 3 3 3, .prepared, .emits 4 (.messageDelta [("delta", "done")]), .takes 4,
    .main (.reaches 4 4 true), .calls (.appendAssistantMessage answer true), .call 0 (.reaches 5 5 true),
    .emits 6 (.messageCompleted []), .takes 6, .emits 6 .runCompleted, .takes 6, .main (.reaches 7 7 true)]

def executed : Execution := (execution catalog row "r").after fresh executing

theorem executing_allowed : (execution catalog row "r").Allows fresh executing := by decide

end Example

theorem end_stored_completed :
    EndStored Example.catalog Example.row "r"
        ((execution Example.catalog Example.row "r").history Example.fresh Example.executing) Example.executed ∧
      Example.executed.system.db.runs.map (·.status) = [.completed] ∧
      Example.executed.system.db.messages.map (·.id) = ["m", "a"] :=
  ⟨end_stored _ _ _ _ _ _ ⟨⟨rfl, rfl, rfl, rfl⟩, rfl, rfl⟩ Example.executing_allowed.run, by decide,
    by decide⟩

end Catalyst.Runs
