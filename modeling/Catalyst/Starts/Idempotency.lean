import Catalyst.Starts.Once

/-!
# Start requests under one key

Any number of requests start and read runs under one key, in any order of their statements.
-/

namespace Catalyst.Starts

open Library Library.Tx Library.Processes Runs

variable {k : CommandKey} {log : List Answered} {db db' : Db} {t : Starting}

structure Safe (k : CommandKey) (log : List Answered) (db : Db) (t : Starting) (r : StepResult) : Prop where
  good : Good k (log ++ r.1.toList) r.2.2
  others : ∀ q, Apart k t q → Relies k db q → Relies k r.2.2 q
  next : ∀ t' ∈ r.2.1, t'.key = t.key ∧ Relies k r.2.2 t' ∧
    ∀ claim ∈ t'.claim, claim ∈ t.claim ∨ claim.number = db.claims

theorem Safe.answers {answer : Except Thrown RunId} (hf : Frames k log t db db')
    (ha : ∀ run, t.key = some k → answer = .ok run → HasRun k db' run) : Safe k log db t (t.answers db' answer) := by
  refine ⟨⟨⟨hf.good.conversations, hf.good.runs, ?_⟩, hf.good.number, hf.good.completed, hf.good.owned, hf.good.ran⟩,
    hf.others, by simp [Starting.answers]⟩
  intro run hrun
  simp only [Starting.answers, Option.toList_some, List.mem_append, List.mem_singleton, Answered.mk.injEq] at hrun
  rcases hrun with hrun | ⟨hk, rfl⟩
  · exact hf.good.answers run hrun
  · exact ha run hk.symm rfl

theorem Safe.throws (hf : Frames k log t db db') (e : Thrown) : Safe k log db t (t.answers db' (.error e)) :=
  .answers hf fun _ _ h => by cases h

theorem Safe.goesTo (ht : Relies k db t) (hf : Frames k log t db db')
    (hk : t.key = some k → { t with phase, steps := t.steps + 1 }.Knows k db') :
    Safe k log db t (t.goesTo db' phase) := by
  refine ⟨by simpa [Starting.goesTo] using hf.good, hf.others, ?_⟩
  rintro _ ⟨⟩
  exact ⟨rfl, fun h => ⟨fun c hc => Nat.lt_of_lt_of_le ((ht h).1 c hc) hf.claims, hk h⟩, fun _ h => .inl h⟩

theorem Safe.fails (ht : Relies k db t) (hf : Frames k log t db db') (e : Thrown) :
    Safe k log db t (t.fails db' e) := by
  unfold Starting.fails
  split
  · exact .throws hf e
  · exact .goesTo ht hf fun _ => trivial

theorem Safe.after {failed : Db → StepResult} (h : Safe k log db t (failed db)) (h' : Safe k log db t (failed db'))
    (hdone : Safe k log db t done) : Safe k log db t (t.after db db' failed done) := by
  unfold Starting.after
  split
  · exact h
  · exact h'
  · exact hdone

theorem Safe.called {failed : Thrown → StepResult} (h : ∀ e, Safe k log db t (failed e))
    (hdone : Safe k log db t done) : Safe k log db t (t.called failed done) := by
  unfold Starting.called
  split
  · exact h _
  · exact hdone

theorem Safe.claims {claim : Claim} (hf : Frames k log t db db') (hnew : claim.number = db.claims)
    (hclaims : claim.number < db'.claims)
    (hmade : t.key = some k → ∀ c ∈ db'.conversationsOf k, c.claim ≠ claim.number) :
    Safe k log db t (t.claims db' claim) := by
  refine ⟨by simpa [Starting.claims] using hf.good, hf.others, ?_⟩
  rintro _ ⟨⟩
  refine ⟨rfl, fun h => ⟨?_, claim, rfl, hmade h⟩, ?_⟩
  · rintro _ ⟨⟩
    exact hclaims
  · rintro _ ⟨⟩
    exact .inr hnew

def Phase.waits : Phase → Bool
  | .reclaiming _ | .reading _ => true
  | _ => false

theorem Safe.asks_claimed {key : CommandKey} (h : Good k log db) (now : Time) (otherwise : Phase)
    (hfree : key = k → db.conversationsOf k = [] ∧ ∀ command ∈ db.commands k, command.status ≠ .completed) :
    Safe k log db t (t.asks db (db.claimed key now) otherwise) := by
  have hf := frames_claimed (t := t) h now hfree
  refine .after (.throws (.refl h) _) (.throws hf _) (.claims hf rfl (Nat.lt_succ_self _) fun hk c hc he => ?_)
  obtain ⟨_, command, hcommand, hown⟩ := h.owned c hc
  exact absurd (h.number command hcommand) (by simp [hown, he])

theorem Safe.asks_none (h : Good k log db) (ht : Relies k db t) (hw : otherwise.waits) :
    Safe k log db t (t.asks db (none, db) otherwise) := by
  refine .after (.throws (.refl h) _) (.throws (.refl h) _) (.goesTo ht (.refl h) fun _ => ?_)
  cases otherwise <;> trivial

theorem startedRunFromCommand_ok (h : startedRunFromCommand work instanceId target command = .ok run) :
    command.runId = some run := by
  unfold startedRunFromCommand at h
  split at h
  · rename_i hrun
    split at h
    · cases h
    · split at h
      · cases h
      · rename_i found hfind
        split at h
        · have hid := List.find?_some hfind
          simp only [decide_eq_true_eq] at hid
          rw [hrun, ← hid.2.2, Except.ok.inj h]
        · cases h
  · cases h

/-- Steps of a request that creates its conversation are kept from opening a command again: it creates the
conversation while the claim is its own, and a command whose conversation exists is neither released
nor reclaimed. -/
def Keeps (k : CommandKey) (db : Db) (t : Starting) : Phase → Prop
  | .creating => Held k db t
  | .releasing _ => ∀ command ∈ db.commands k, ∀ claim ∈ t.claim, command.pendingAt claim.claimedAt →
      db.conversationsOf k = []
  | .reclaiming _ => ∀ command ∈ db.commands k, command.reclaimable t.script.reclaimPendingBefore →
      db.conversationsOf k = []
  | _ => True

def Allowed (k : CommandKey) (db : Db) (t : Starting) : Prop :=
  t.key = some k → k.kind = .createConversationRun → Keeps k db t t.phase

theorem step_inserting (h : Good k log db) (ht : Relies k db t) (hp : t.phase = .inserting waited) :
    Safe k log db t (t.step db) := by
  simp only [Starting.step, hp]
  cases hk : t.key with
  | none => exact .goesTo ht (.refl h) fun hk' => by simp [hk] at hk'
  | some key =>
    simp only [insertCommand]
    cases hc : db.commands key with
    | some _ => exact .asks_none h ht rfl
    | none =>
      refine .asks_claimed h _ _ fun hkey => ⟨List.eq_nil_iff_forall_not_mem.mpr fun c hcon => ?_, ?_⟩
      · obtain ⟨_, command, hcommand, _⟩ := h.owned c hcon
        simp [← hkey, hc] at hcommand
      · simp [← hkey, hc]

theorem step_reclaiming (h : Good k log db) (ht : Relies k db t) (hkeep : Allowed k db t)
    (hp : t.phase = .reclaiming waited) : Safe k log db t (t.step db) := by
  simp only [Starting.step, hp]
  cases hk : t.key with
  | none => exact .goesTo ht (.refl h) fun hk' => by simp [hk] at hk'
  | some key =>
    simp only [reclaimCommand]
    cases hc : db.commands key with
    | none => exact .asks_none h ht rfl
    | some command =>
      simp only
      split
      · rename_i hreclaim
        refine .asks_claimed h _ _ ?_
        rintro rfl
        refine ⟨?_, fun command' hc' => ?_⟩
        · cases hkind : key.kind with
          | startConversationRun => exact h.no_conversations hkind
          | createConversationRun =>
            have := hkeep hk hkind
            simp only [Keeps, hp] at this
            exact this command hc hreclaim
        · obtain rfl := Option.some.inj (hc.symm.trans hc')
          simp [hreclaim.1]
      · exact .asks_none h ht rfl

theorem step_reading (h : Good k log db) (ht : Relies k db t) (hp : t.phase = .reading waited) :
    Safe k log db t (t.step db) := by
  simp only [Starting.step, hp]
  cases hk : t.key with
  | none => exact .goesTo ht (.refl h) fun hk' => by simp [hk] at hk'
  | some key =>
    refine .after (.throws (.refl h) _) (.throws (.refl h) _) ?_
    cases hc : db.commands key with
    | none => exact .throws (.refl h) _
    | some command =>
      simp only
      split
      · exact .throws (.refl h) _
      · cases hs : command.status with
        | completed =>
          refine .goesTo ht (.refl h) fun hk' => ?_
          obtain rfl := Option.some.inj (hk.symm.trans hk')
          exact h.completed command hc hs
        | failed => exact .throws (.refl h) _
        | pending => exact .goesTo ht (.refl h) fun _ => trivial

theorem step_resolving (h : Good k log db) (ht : Relies k db t) (hp : t.phase = .resolving command) :
    Safe k log db t (t.step db) := by
  simp only [Starting.step, hp]
  refine .called (fun e => .throws (.refl h) e) (.answers (.refl h) fun run hk ha => ?_)
  have hknows := (ht hk).2
  simp only [Starting.Knows, hp] at hknows
  obtain ⟨r, hr, hrun⟩ := hknows
  exact ⟨r, hr, Option.some.inj (hrun.symm.trans (startedRunFromCommand_ok ha))⟩

theorem step_checking (h : Good k log db) (ht : Relies k db t) (hp : t.phase = .checking) :
    Safe k log db t (t.step db) := by
  simp only [Starting.step, hp]
  refine .called (fun e => .fails ht (.refl h) e) ?_
  have hknows : t.key = some k → NotMade k db t := fun hk => by simpa only [Starting.Knows, hp] using (ht hk).2
  cases htarget : t.request.target with
  | existing conversationId =>
    refine .goesTo ht (.refl h) fun hk => ⟨?_, fun hkind => ?_⟩
    · obtain ⟨claim, hclaim, _⟩ := hknows hk
      exact Option.isSome_iff_exists.mpr ⟨claim, hclaim⟩
    · simp [htarget, Target.kind] at hkind
  | new title => exact .goesTo ht (.refl h) fun hk => ⟨hknows hk, by simp [htarget, Target.kind]⟩

theorem step_creating (h : Good k log db) (ht : Relies k db t) (hkeep : Allowed k db t) (hp : t.phase = .creating) :
    Safe k log db t (t.step db) := by
  simp only [Starting.step, hp]
  cases hc : createConversation db.work t.conversation with
  | error e => exact .fails ht (.refl h) e
  | ok work =>
    have hknows : t.key = some k → NotMade k db t ∧ k.kind = .createConversationRun := fun hk => by
      have := (ht hk).2
      simp only [Starting.Knows, hp] at this
      exact ⟨this.1, (kind_of_key hk).trans this.2⟩
    have hheld : t.key = some k → Held k db t := fun hk => by
      have := hkeep hk (hknows hk).2
      simpa only [Keeps, hp] using this
    have hf := frames_conversation h work hknows hheld
    refine .after (.fails ht (.refl h) _) (.fails ht hf _) (.goesTo ht hf fun hk => ?_)
    obtain ⟨hmade, hkind⟩ := hknows hk
    obtain ⟨claim, hclaim, _⟩ := id hmade
    refine ⟨⟨⟨claim, hclaim, ⟨k, claim.number, t.script.conversationId⟩, ?_, rfl⟩,
      (h.nothing hmade (hheld hk)).2⟩, (kind_of_key hk).symm.trans hkind⟩
    rw [conversationsOf_record work hk hclaim]
    exact List.mem_cons_self

theorem step_created (h : Good k log db) (ht : Relies k db t) (hp : t.phase = .created conversationId) :
    Safe k log db t (t.step db) := by
  simp only [Starting.step, hp]
  refine .called (fun e => .fails ht (.refl h) e) (.goesTo ht (.refl h) fun hk => ?_)
  have hknows := (ht hk).2
  simp only [Starting.Knows, hp] at hknows
  obtain ⟨claim, hclaim, _⟩ := hknows.1.1
  exact ⟨Option.isSome_iff_exists.mpr ⟨claim, hclaim⟩, fun _ => hknows.1⟩

theorem step_preparing (h : Good k log db) (ht : Relies k db t) (hp : t.phase = .preparing conversationId) :
    Safe k log db t (t.step db) := by
  simp only [Starting.step, hp]
  cases hprep : prepareRun db (t.accepted conversationId) t.ownCommand with
  | error e => exact .fails ht (.refl h) e
  | ok db₁ =>
    have hknows : t.key = some k →
        t.claim.isSome ∧ (t.request.target.kind = .createConversationRun → Owns k db t) := fun hk => by
      simpa only [Starting.Knows, hp] using (ht hk).2
    have hf := frames_prepared h (fun hk => (hknows hk).1) (fun hk => (hknows hk).2) hprep
    refine .after (.fails ht (.refl h) _) (.fails ht hf _) (.goesTo ht hf fun hk => ?_)
    refine ⟨⟨k, t.script.runId⟩, ?_, rfl⟩
    rw [runsOf_record hk]
    exact List.mem_cons_self

theorem step_starting (h : Good k log db) (ht : Relies k db t) (hp : t.phase = .starting conversationId run) :
    Safe k log db t (t.step db) := by
  simp only [Starting.step, hp]
  have hrun : t.key = some k → HasRun k db run := fun hk => by simpa only [Starting.Knows, hp] using (ht hk).2
  have hanswers : Safe k log db t (t.answers db (.ok run)) :=
    .answers (.refl h) fun _ hk ha => Except.ok.inj ha ▸ hrun hk
  refine .called (fun e => .fails ht (.refl h) e) ?_
  cases t.request.target with
  | existing _ => exact hanswers
  | new _ =>
    simp only
    split
    · exact .goesTo ht (.refl h) hrun
    · exact hanswers

theorem step_completing (h : Good k log db) (ht : Relies k db t) (hp : t.phase = .completing conversationId run) :
    Safe k log db t (t.step db) := by
  have hrun : t.key = some k → HasRun k db run := fun hk => by simpa only [Starting.Knows, hp] using (ht hk).2
  simp only [Starting.step, hp]
  split
  · rename_i key claim hkey hclaim
    split
    · exact .fails ht (.refl h) _
    · rename_i db' hc
      have hf : Frames k log t db db' := frames_completed h (fun he => hrun (he ▸ hkey)) hc
      refine .after (.fails ht (.refl h) _) (.fails ht hf _) (.answers hf fun _ hk ha => ?_)
      obtain ⟨command, _, _, rfl⟩ := completeRunStartCommand_ok hc
      exact Except.ok.inj ha ▸ hrun hk
  · exact .answers (.refl h) fun _ hk ha => Except.ok.inj ha ▸ hrun hk

theorem step_releasing (h : Good k log db) (hkeep : Allowed k db t) (hp : t.phase = .releasing e) :
    Safe k log db t (t.step db) := by
  simp only [Starting.step, hp]
  split
  · rename_i key claim hkey hclaim
    have hf : Frames k log t db (releaseRunStartCommand db key claim.claimedAt) := by
      refine frames_released h _ ?_
      rintro rfl command hc hpending
      cases hkind : key.kind with
      | startConversationRun => exact h.no_conversations hkind
      | createConversationRun =>
        have := hkeep hkey hkind
        simp only [Keeps, hp] at this
        exact this command hc claim hclaim hpending
    exact .after (.throws (.refl h) _) (.throws hf _) (.throws hf _)
  · exact .throws (.refl h) e

theorem step_safe (h : Good k log db) (ht : Relies k db t) (hkeep : Allowed k db t) : Safe k log db t (t.step db) := by
  cases hp : t.phase with
  | accessing =>
    simp only [Starting.step, hp]
    refine .called (fun e => .throws (.refl h) e) (.goesTo ht (.refl h) fun hk => ?_)
    simp [Starting.begins, hk, Starting.Knows]
  | inserting waited => exact step_inserting h ht hp
  | reclaiming waited => exact step_reclaiming h ht hkeep hp
  | reading waited => exact step_reading h ht hp
  | resolving command => exact step_resolving h ht hp
  | checking => exact step_checking h ht hp
  | creating => exact step_creating h ht hkeep hp
  | created conversationId => exact step_created h ht hp
  | preparing conversationId => exact step_preparing h ht hp
  | starting conversationId run => exact step_starting h ht hp
  | completing conversationId run => exact step_completing h ht hp
  | releasing e => exact step_releasing h hkeep hp

def CommandKept (k : CommandKey) (s : Pool Db Starting) : Move (StartRequest × Script) Runs.Db → Prop
  | .advance pid => ∀ t ∈ s.at? pid, Allowed k s.store t
  | _ => True

def assertions (k : CommandKey) : Assertions Db Starting Answered where
  holds log db := Good k log db
  relies _ db t := Relies k db t
  apart := Apart k

theorem startOf_phase (input : StartRequest × Script) :
    (startOf input).claim = none ∧ ((startOf input).phase = .accessing ∨ (startOf input).phase = (startOf input).begins) := by
  unfold startOf
  cases input.1.target with
  | existing _ => exact ⟨rfl, .inl rfl⟩
  | new _ => exact ⟨rfl, .inr rfl⟩

theorem startOf_relies (input : StartRequest × Script) : Relies k db (startOf input) := by
  obtain ⟨hclaim, hphase⟩ := startOf_phase input
  intro hk
  refine ⟨by simp [hclaim], ?_⟩
  rcases hphase with hp | hp
  · simp [Starting.Knows, hp]
  · simp [Starting.Knows, hp, Starting.begins, hk]

theorem inductive_runStarts (k : CommandKey) : runStarts.Inductive (assertions k) (CommandKept k) where
  symm p q h hq hp c hc c' hc' := (h hp hq c' hc' c hc).symm
  start log s input hs _ := by
    refine ⟨startOf_relies input, fun q _ _ c hc => ?_⟩
    simp [runStarts, (startOf_phase input).1] at hc
  step log s pid t hs hallowed hat ht hothers := by
    have hsafe := step_safe hs.holds ht (hallowed t hat)
    refine ⟨⟨hsafe.good, fun q hap hq => hsafe.others q hap.1 hq⟩, fun t' ht' => ?_⟩
    obtain ⟨hkey, hrelies, hclaims⟩ := hsafe.next t' ht'
    refine ⟨hrelies, fun q hq hap _ hk hqk c hc c' hc' => ?_⟩
    rcases hclaims c hc with hold | hnew
    · exact hap (hkey ▸ hk) hqk c hold c' hc'
    · have := (hq hqk).1 c' hc'
      exact fun he => absurd this (by simp [← he, hnew])
  env log s e hs _ := by
    have hsame : Same k s.store { s.store with work := e } := work_same _ e
    refine ⟨?_, fun q _ hq => hq.same hsame⟩
    rw [show log ++ (runStarts.env s.store e).1.toList = log from List.append_nil log]
    exact hs.holds.same hsame

def Db.Fresh (db : Db) : Prop := (∀ key, db.commands key = none) ∧ db.conversations = [] ∧ db.runs = []

theorem Db.Fresh.good (h : db.Fresh) : Good k [] db := by
  obtain ⟨hcommands, hconversations, hruns⟩ := h
  have hc : db.conversationsOf k = [] := by simp [Db.conversationsOf, hconversations]
  have hr : db.runsOf k = [] := by simp [Db.runsOf, hruns]
  refine ⟨⟨?_, ?_, ?_⟩, ?_, ?_, ?_, ?_⟩ <;> simp [hc, hr, hcommands]

def startSystem : Machine (Pool Db Starting) (Move (StartRequest × Script) Runs.Db) (Option Answered) :=
  runStarts.machine Db.Fresh fun _ _ => True

instance : Decidable (runStarts.blocks q t) := inferInstanceAs (Decidable False)

instance : Decidable (Held k db t) :=
  inferInstanceAs (Decidable (∃ command ∈ db.commands k, command.status = .pending ∧ ∀ claim ∈ t.claim, command.claim = claim.number))

instance : ∀ phase, Decidable (Keeps k db t phase)
  | .creating => inferInstanceAs (Decidable (Held k db t))
  | .releasing _ => inferInstanceAs (Decidable (∀ command ∈ db.commands k, ∀ claim ∈ t.claim,
      command.pendingAt claim.claimedAt → db.conversationsOf k = []))
  | .reclaiming _ => inferInstanceAs (Decidable (∀ command ∈ db.commands k,
      command.reclaimable t.script.reclaimPendingBefore → db.conversationsOf k = []))
  | .accessing | .inserting _ | .reading _ | .resolving _ | .checking | .created _ | .preparing _ | .starting _ _
  | .completing _ _ => .isTrue trivial

instance : DecidablePred (CommandKept k s)
  | .advance pid => inferInstanceAs (Decidable (∀ t ∈ s.at? pid, t.key = some k →
      k.kind = .createConversationRun → Keeps k s.store t t.phase))
  | .start _ | .abort _ | .env _ => .isTrue trivial

instance : Decidable (startSystem.enabled s a) := inferInstanceAs (Decidable (runStarts.Unblocked s a ∧ True))

instance : Decidable ((startSystem.when (CommandKept k)).enabled s a) :=
  inferInstanceAs (Decidable (startSystem.enabled s a ∧ CommandKept k s a))

/-- Of one key at most one conversation and one run are created, and every request that succeeds answers with
that run: in an existing conversation always, together with a new one as long as its command is kept. -/
theorem starts_once (k : CommandKey) {s₀ s : Pool Db Starting}
    {h : List (Move (StartRequest × Script) Runs.Db × Option Answered)} (hi : startSystem.init s₀)
    (hr : (startSystem.when (CommandKept k)).Run s₀ h s) : OneStart k (answers h) s.store := by
  obtain ⟨hfresh, hidle, _⟩ := hi
  have hok : (assertions k).Ok [] s₀ := Assertions.Ok.of_idle hidle hfresh.good
  exact ((inductive_runStarts k).run_ok (run_of_when _ hr) hok).holds.toOneStart

namespace Example

def instanceId : ClientInstanceId := "instance"

def request : StartRequest := ⟨instanceId, "owner", some "key", .new "Title", "Hello"⟩

def key : CommandKey := ⟨instanceId, "owner", .createConversationRun, "key"⟩

def script (conversation message run : String) : Script :=
  ⟨conversation, message, run, "workspace", false, fun _ => 10, 0, 10, fun _ => none, fun _ => .none⟩

def failing : Script := { script "c1" "m1" "r1" with fault := fun n => if n = 6 then .beforeCommit else .none }

def fresh : Pool Db Starting :=
  ⟨⟨⟨⟨[], 0⟩, [], [], [], [], [], [], [], [], [], 0⟩, fun _ => none, 0, [], []⟩, [], 0⟩

abbrev Go := Move (StartRequest × Script) Runs.Db

def goes (pid : Nat) (script : Script) (steps : Nat) : List Go :=
  .start (request, script) :: List.replicate steps (.advance pid)

def repeated : List Go := goes 0 failing 8 ++ goes 1 (script "c2" "m2" "r2") 7

def kept : List Go := goes 0 (script "c1" "m1" "r1") 7 ++ goes 1 (script "c2" "m2" "r2") 4

end Example

/-- A claim's conversation and run exist when the command is released: the next request creates both again. -/
theorem starts_twice : ¬ ∀ (k : CommandKey) (s₀ s : Pool Db Starting)
    (h : List (Move (StartRequest × Script) Runs.Db × Option Answered)),
    startSystem.init s₀ → startSystem.Run s₀ h s → OneStart k (answers h) s.store := by
  intro hall
  have hallows : startSystem.Allows Example.fresh Example.repeated := by decide
  have hone := hall Example.key Example.fresh _ _ ⟨⟨fun _ => rfl, rfl, rfl⟩, rfl, rfl⟩ hallows.run
  exact absurd hone.conversations (by decide)

theorem starts_once_kept :
    (startSystem.after Example.fresh Example.kept).store.runsOf Example.key = [⟨Example.key, "r1"⟩] ∧
    OneStart Example.key (answers (startSystem.history Example.fresh Example.kept))
      (startSystem.after Example.fresh Example.kept).store := by
  have hallows : (startSystem.when (CommandKept Example.key)).Allows Example.fresh Example.kept := by decide
  exact ⟨by decide, starts_once Example.key ⟨⟨fun _ => rfl, rfl, rfl⟩, rfl, rfl⟩ hallows.run⟩

end Catalyst.Starts
