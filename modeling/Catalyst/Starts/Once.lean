import Catalyst.Starts.Model

/-!
# One run a key

Of one key: a conversation that was created for it belongs to the claim its command still
has, and a run that was started for it belongs to that conversation or was completed with
its command. This holds as long as no command is opened again after its conversation was
created.
-/

namespace Catalyst.Starts

open Library Library.Tx Library.Processes Runs

variable {k : CommandKey} {db db' : Db}

def Db.conversationsOf (db : Db) (k : CommandKey) : List CreatedConversation := db.conversations.filter (·.key = k)

def Db.runsOf (db : Db) (k : CommandKey) : List CreatedRun := db.runs.filter (·.key = k)

/-- What is claimed of a key: one conversation, one run, and that run is what requests answer. -/
structure OneStart (k : CommandKey) (log : List Answered) (db : Db) : Prop where
  conversations : (db.conversationsOf k).length ≤ 1
  runs : (db.runsOf k).length ≤ 1
  answers : ∀ run, ⟨some k, .ok run⟩ ∈ log → ∃ r ∈ db.runsOf k, r.runId = run

structure Good (k : CommandKey) (log : List Answered) (db : Db) : Prop extends OneStart k log db where
  number : ∀ command ∈ db.commands k, command.claim < db.claims
  completed : ∀ command ∈ db.commands k, command.status = .completed → ∃ r ∈ db.runsOf k, command.runId = some r.runId
  owned : ∀ c ∈ db.conversationsOf k, k.kind = .createConversationRun ∧ ∃ command ∈ db.commands k, command.claim = c.claim
  ran : ∀ r ∈ db.runsOf k, (∃ c, c ∈ db.conversationsOf k) ∨
    (k.kind = .startConversationRun ∧ ∃ command ∈ db.commands k, command.status = .completed)

def Owns (k : CommandKey) (db : Db) (t : Starting) : Prop :=
  (∃ claim ∈ t.claim, ∃ c ∈ db.conversationsOf k, c.claim = claim.number) ∧ db.runsOf k = []

def NotMade (k : CommandKey) (db : Db) (t : Starting) : Prop :=
  ∃ claim ∈ t.claim, ∀ c ∈ db.conversationsOf k, c.claim ≠ claim.number

def HasRun (k : CommandKey) (db : Db) (run : RunId) : Prop := ∃ r ∈ db.runsOf k, r.runId = run

def Starting.Knows (k : CommandKey) (db : Db) (t : Starting) : Prop :=
  match t.phase with
  | .accessing | .inserting _ | .reclaiming _ | .reading _ => True
  | .resolving command => ∃ r ∈ db.runsOf k, command.runId = some r.runId
  | .checking => NotMade k db t
  | .creating => NotMade k db t ∧ t.request.target.kind = .createConversationRun
  | .created _ => Owns k db t ∧ t.request.target.kind = .createConversationRun
  | .preparing _ => t.claim.isSome ∧ (t.request.target.kind = .createConversationRun → Owns k db t)
  | .starting _ run | .completing _ run => HasRun k db run
  | .releasing _ => True

def Relies (k : CommandKey) (db : Db) (t : Starting) : Prop :=
  t.key = some k → (∀ claim ∈ t.claim, claim.number < db.claims) ∧ t.Knows k db

def Apart (k : CommandKey) (p q : Starting) : Prop :=
  p.key = some k → q.key = some k → ∀ c ∈ p.claim, ∀ c' ∈ q.claim, c.number ≠ c'.number

theorem kind_of_key {t : Starting} (h : t.key = some k) : k.kind = t.request.target.kind := by
  simp only [Starting.key, StartRequest.key, Option.map_eq_some_iff] at h
  obtain ⟨_, _, rfl⟩ := h
  rfl

theorem Good.no_runs (h : Good k log db) (hnone : db.conversationsOf k = [])
    (hpending : ∀ command ∈ db.commands k, command.status ≠ .completed) : db.runsOf k = [] := by
  refine List.eq_nil_iff_forall_not_mem.mpr fun r hr => ?_
  rcases h.ran r hr with ⟨c, hc⟩ | ⟨_, command, hc, hs⟩
  · rw [hnone] at hc
    cases hc
  · exact hpending command hc hs

theorem Good.no_conversations (h : Good k log db) (hkind : k.kind = .startConversationRun) :
    db.conversationsOf k = [] := by
  refine List.eq_nil_iff_forall_not_mem.mpr fun c hc => ?_
  simpa [hkind] using (h.owned c hc).1

theorem Good.same_claim (h : Good k log db) (hc : c ∈ db.conversationsOf k) (hc' : c' ∈ db.conversationsOf k) :
    c.claim = c'.claim := by
  obtain ⟨_, command, hcommand, hown⟩ := h.owned c hc
  obtain ⟨_, command', hcommand', hown'⟩ := h.owned c' hc'
  obtain rfl := Option.some.inj (hcommand.symm.trans hcommand')
  exact hown.symm.trans hown'

structure Same (k : CommandKey) (db db' : Db) : Prop where
  commands : db'.commands k = db.commands k
  claims : db.claims ≤ db'.claims
  conversations : db'.conversationsOf k = db.conversationsOf k
  runs : db'.runsOf k = db.runsOf k

theorem Good.same (h : Good k log db) (hs : Same k db db') : Good k log db' := by
  refine ⟨⟨?_, ?_, ?_⟩, ?_, ?_, ?_, ?_⟩
  · rw [hs.conversations]; exact h.conversations
  · rw [hs.runs]; exact h.runs
  · rw [hs.runs]; exact h.answers
  · rw [hs.commands]; exact fun c hc => Nat.lt_of_lt_of_le (h.number c hc) hs.claims
  · rw [hs.commands, hs.runs]; exact h.completed
  · rw [hs.conversations, hs.commands]; exact h.owned
  · rw [hs.runs, hs.conversations, hs.commands]; exact h.ran

/-- What changes for the requests under the key: they keep what they rely on if conversations of other
claims and runs are only added, and runs only where nobody else has a conversation. -/
theorem Relies.mono {q : Starting} (h : Relies k db q) (hclaims : db.claims ≤ db'.claims)
    (hruns : ∀ r ∈ db.runsOf k, r ∈ db'.runsOf k)
    (hmade : NotMade k db q → NotMade k db' q) (howns : Owns k db q → Owns k db' q) : Relies k db' q := by
  intro hk
  obtain ⟨hnumber, hknows⟩ := h hk
  refine ⟨fun c hc => Nat.lt_of_lt_of_le (hnumber c hc) hclaims, ?_⟩
  have hrun : ∀ run, HasRun k db run → HasRun k db' run := fun run ⟨r, hr, h⟩ => ⟨r, hruns r hr, h⟩
  unfold Starting.Knows at hknows ⊢
  cases hp : q.phase <;> simp only [hp] at hknows ⊢
  case resolving =>
    obtain ⟨r, hr, h⟩ := hknows
    exact ⟨r, hruns r hr, h⟩
  case checking => exact hmade hknows
  case creating => exact hknows.imp_left hmade
  case created => exact hknows.imp_left howns
  case preparing => exact hknows.imp_right fun h hn => howns (h hn)
  case starting => exact hrun _ hknows
  case completing => exact hrun _ hknows

theorem Relies.same {q : Starting} (h : Relies k db q) (hs : Same k db db') : Relies k db' q := by
  refine h.mono hs.claims (fun r hr => hs.runs ▸ hr) ?_ ?_
  · rintro ⟨c, hc, h⟩
    exact ⟨c, hc, hs.conversations ▸ h⟩
  · rintro ⟨⟨c, hc, h⟩, hr⟩
    exact ⟨⟨c, hc, hs.conversations ▸ h⟩, hs.runs ▸ hr⟩

/-- A statement of a request keeps what holds of the key and what the others rely on. -/
structure Frames (k : CommandKey) (log : List Answered) (t : Starting) (db db' : Db) : Prop where
  good : Good k log db'
  claims : db.claims ≤ db'.claims
  others : ∀ q, Apart k t q → Relies k db q → Relies k db' q

theorem Frames.same (h : Good k log db) (hs : Same k db db') : Frames k log t db db' :=
  ⟨h.same hs, hs.claims, fun _ _ hq => hq.same hs⟩

theorem Frames.of_same (hf : Frames k log t db db') (hs : Same k db' db'') : Frames k log t db db'' :=
  ⟨hf.good.same hs, Nat.le_trans hf.claims hs.claims, fun q hap hq => (hf.others q hap hq).same hs⟩

theorem Frames.of_same_left (hs : Same k db db') (hf : Frames k log t db' db'') : Frames k log t db db'' :=
  ⟨hf.good, Nat.le_trans hs.claims hf.claims, fun q hap hq => hf.others q hap (hq.same hs)⟩

theorem Frames.refl (h : Good k log db) : Frames k log t db db :=
  .same h ⟨rfl, Nat.le_refl _, rfl, rfl⟩

section statements

variable {log : List Answered} {t : Starting} {key : CommandKey}

/-- The command is pending, where nothing was created for it, under a new claim. -/
theorem frames_claimed (h : Good k log db) (now : Time)
    (hfree : key = k → db.conversationsOf k = [] ∧ ∀ command ∈ db.commands k, command.status ≠ .completed) :
    Frames k log t db (db.claimed key now).2 := by
  by_cases hkey : key = k
  · subst hkey
    obtain ⟨hnone, hpending⟩ := hfree rfl
    have hruns := h.no_runs hnone hpending
    have hcommand : (db.claimed key now).2.commands key = some (pendingCommand now db.claims) := Function.update_self ..
    refine ⟨⟨⟨h.conversations, h.runs, h.answers⟩, ?_, ?_, ?_, ?_⟩, Nat.le_succ _, fun q _ hq => ?_⟩
    · rw [hcommand]
      rintro _ ⟨⟩
      exact Nat.lt_succ_self _
    · rw [hcommand]
      rintro _ ⟨⟩ hs
      cases hs
    · intro c hc
      have hc : c ∈ db.conversationsOf key := hc
      rw [hnone] at hc
      cases hc
    · intro r hr
      have hr : r ∈ db.runsOf key := hr
      rw [hruns] at hr
      cases hr
    · exact hq.mono (Nat.le_succ _) (fun _ h => h) (fun h => h) fun h => h
  · exact .same h ⟨Function.update_of_ne (Ne.symm hkey) .., Nat.le_succ _, rfl, rfl⟩

theorem frames_released (h : Good k log db) (claimedAt : Time)
    (hfree : key = k → ∀ command ∈ db.commands k, command.pendingAt claimedAt → db.conversationsOf k = []) :
    Frames k log t db (releaseRunStartCommand db key claimedAt) := by
  unfold releaseRunStartCommand
  cases hc : db.commands key with
  | none => exact .refl h
  | some command =>
    simp only
    split
    · rename_i hpending
      by_cases hkey : key = k
      · subst hkey
        have hnone := hfree rfl command hc hpending
        have hruns := h.no_runs hnone fun command' hc' => by
          obtain rfl := Option.some.inj (hc.symm.trans hc')
          simp [hpending.1]
        refine ⟨⟨⟨h.conversations, h.runs, h.answers⟩, ?_, ?_, ?_, ?_⟩, Nat.le_refl _, fun q _ hq => ?_⟩
        · simp
        · simp
        · intro c hc
          have hc : c ∈ db.conversationsOf key := hc
          rw [hnone] at hc
          cases hc
        · intro r hr
          have hr : r ∈ db.runsOf key := hr
          rw [hruns] at hr
          cases hr
        · exact hq.mono (Nat.le_refl _) (fun _ h => h) (fun h => h) fun h => h
      · exact .same h ⟨Function.update_of_ne (Ne.symm hkey) .., Nat.le_refl _, rfl, rfl⟩
    · exact .refl h

theorem conversationsOf_record (work : Runs.Db) (hk : t.key = some k) (hc : t.claim = some claim) :
    (t.recordConversation db work).conversationsOf k
      = ⟨k, claim.number, t.script.conversationId⟩ :: db.conversationsOf k := by
  simp [Starting.recordConversation, Db.conversationsOf, hk, hc]

theorem recordConversation_same (work : Runs.Db) (hk : t.key ≠ some k) : Same k db (t.recordConversation db work) := by
  refine ⟨rfl, Nat.le_refl _, ?_, rfl⟩
  unfold Starting.recordConversation Db.conversationsOf
  cases hkey : t.key with
  | none => rfl
  | some key =>
    cases t.claim with
    | none => rfl
    | some claim =>
      have hne : key ≠ k := fun h => hk (h ▸ hkey)
      simp [hne]

def Held (k : CommandKey) (db : Db) (t : Starting) : Prop :=
  ∃ command ∈ db.commands k, command.status = .pending ∧ ∀ claim ∈ t.claim, command.claim = claim.number

theorem Good.nothing (h : Good k log db) (hmade : NotMade k db t) (hheld : Held k db t) :
    db.conversationsOf k = [] ∧ db.runsOf k = [] := by
  obtain ⟨claim, hclaim, hno⟩ := hmade
  obtain ⟨command, hcommand, hpending, hnumber⟩ := hheld
  have hnone : db.conversationsOf k = [] := by
    refine List.eq_nil_iff_forall_not_mem.mpr fun c hc => hno c hc ?_
    obtain ⟨_, command', hcommand', hown⟩ := h.owned c hc
    obtain rfl := Option.some.inj (hcommand.symm.trans hcommand')
    exact hown.symm.trans (hnumber claim hclaim)
  refine ⟨hnone, h.no_runs hnone fun command' hc' => ?_⟩
  obtain rfl := Option.some.inj (hcommand.symm.trans hc')
  simp [hpending]

theorem frames_conversation (h : Good k log db) (work : Runs.Db)
    (hmade : t.key = some k → NotMade k db t ∧ k.kind = .createConversationRun)
    (hheld : t.key = some k → Held k db t) :
    Frames k log t db (t.recordConversation db work) := by
  by_cases hk : t.key = some k
  · obtain ⟨hmade, hkind⟩ := hmade hk
    obtain ⟨hnone, hruns⟩ := h.nothing hmade (hheld hk)
    obtain ⟨claim, hclaim, _⟩ := hmade
    obtain ⟨command, hcommand, _, hnumber⟩ := hheld hk
    have hconversations : (t.recordConversation db work).conversationsOf k = _ :: db.conversationsOf k :=
      conversationsOf_record work hk hclaim
    rw [hnone] at hconversations
    refine ⟨⟨⟨?_, h.runs, h.answers⟩, h.number, h.completed, ?_, ?_⟩, Nat.le_refl _, fun q hap hq => ?_⟩
    · rw [hconversations]
      simp
    · rw [hconversations]
      intro c hc
      cases List.mem_singleton.mp hc
      exact ⟨hkind, command, hcommand, hnumber claim hclaim⟩
    · intro r hr
      have hr : r ∈ db.runsOf k := hr
      rw [hruns] at hr
      cases hr
    · intro hqk
      have hrelies : Relies k (t.recordConversation db work) q := by
        refine hq.mono (Nat.le_refl _) (fun _ h => h) ?_ ?_
        · rintro ⟨claim', hclaim', _⟩
          refine ⟨claim', hclaim', fun c hc => ?_⟩
          rw [hconversations] at hc
          cases List.mem_singleton.mp hc
          exact hap hk hqk claim hclaim claim' hclaim'
        · rintro ⟨⟨_, _, c, hc, _⟩, _⟩
          rw [hnone] at hc
          cases hc
      exact hrelies hqk
  · exact .same h (recordConversation_same work hk)

def Db.withCommand (db : Db) (key : CommandKey) (command : RunStartCommand) : Db :=
  { db with commands := Function.update db.commands key (some command) }

theorem completeRunStartCommand_ok (h : completeRunStartCommand db key claimedAt conversationId messageId run now = .ok db') :
    ∃ command, db.commands key = some command ∧ command.status = .pending ∧
      db' = db.withCommand key
        ⟨.completed, some conversationId, some messageId, some run, now, command.claim⟩ := by
  unfold completeRunStartCommand at h
  cases hc : db.commands key with
  | none => simp [hc] at h
  | some command =>
    simp only [hc] at h
    split at h
    · rename_i hp
      exact ⟨command, rfl, hp.1, (Except.ok.inj h).symm⟩
    · cases h

@[simp] theorem withCommand_self (db : Db) (key : CommandKey) (command : RunStartCommand) :
    (db.withCommand key command).commands key = some command := Function.update_self ..

theorem withCommand_same (hne : key ≠ k) (command : RunStartCommand) : Same k db (db.withCommand key command) :=
  ⟨Function.update_of_ne (Ne.symm hne) .., Nat.le_refl _, rfl, rfl⟩

theorem frames_completed (h : Good k log db) (hr : key = k → HasRun k db run)
    (hc : completeRunStartCommand db key claimedAt conversationId messageId run now = .ok db') :
    Frames k log t db db' := by
  obtain ⟨command, hcommand, _, rfl⟩ := completeRunStartCommand_ok hc
  by_cases hkey : key = k
  · subst hkey
    obtain ⟨r, hmem, rfl⟩ := hr rfl
    refine ⟨⟨⟨h.conversations, h.runs, h.answers⟩, ?_, ?_, ?_, ?_⟩, Nat.le_refl _, fun q _ hq => ?_⟩
    · rw [withCommand_self]
      rintro _ ⟨⟩
      exact h.number command hcommand
    · rw [withCommand_self]
      rintro _ ⟨⟩ _
      exact ⟨r, hmem, rfl⟩
    · rw [withCommand_self]
      intro c hc
      obtain ⟨hkind, command', hcommand', hown⟩ := h.owned c hc
      obtain rfl := Option.some.inj (hcommand.symm.trans hcommand')
      exact ⟨hkind, _, rfl, hown⟩
    · rw [withCommand_self]
      exact fun r hr => (h.ran r hr).imp_right fun ⟨hkind, _⟩ => ⟨hkind, _, rfl, rfl⟩
    · exact hq.mono (Nat.le_refl _) (fun _ h => h) (fun h => h) fun h => h
  · exact .same h (withCommand_same hkey _)

theorem recordRun_same (hk : t.key ≠ some k) : Same k db (t.recordRun db) := by
  refine ⟨rfl, Nat.le_refl _, rfl, ?_⟩
  unfold Starting.recordRun Db.runsOf
  cases hkey : t.key with
  | none => rfl
  | some key =>
    have hne : key ≠ k := fun h => hk (h ▸ hkey)
    simp [hne]

theorem runsOf_record (hk : t.key = some k) :
    (t.recordRun db).runsOf k = ⟨k, t.script.runId⟩ :: db.runsOf k := by
  simp [Starting.recordRun, Db.runsOf, hk]

/-- The run of the claim that made the conversation: nobody else stands where they own one. -/
theorem frames_run (h : Good k log db) (howns : t.key = some k → Owns k db t) :
    Frames k log t db (t.recordRun db) := by
  by_cases hk : t.key = some k
  · obtain ⟨⟨claim, hclaim, c, hc, hmade⟩, hnone⟩ := howns hk
    have hruns : (t.recordRun db).runsOf k = _ :: db.runsOf k := runsOf_record hk
    rw [hnone] at hruns
    refine ⟨⟨⟨h.conversations, ?_, ?_⟩, h.number, ?_, h.owned, ?_⟩, Nat.le_refl _, fun q hap hq => ?_⟩
    · simp [hruns]
    · intro run hrun
      obtain ⟨r, hr, _⟩ := h.answers run hrun
      rw [hnone] at hr
      cases hr
    · intro command hcommand hs
      obtain ⟨r, hr, _⟩ := h.completed command hcommand hs
      rw [hnone] at hr
      cases hr
    · exact fun r _ => .inl ⟨c, hc⟩
    · intro hqk
      have hrelies : Relies k (t.recordRun db) q := by
        refine hq.mono (Nat.le_refl _) (fun r hr => ?_) (fun h => h) ?_
        · rw [hnone] at hr
          cases hr
        · rintro ⟨⟨claim', hclaim', c', hc', hmade'⟩, _⟩
          have hone : c.claim = c'.claim := h.same_claim hc hc'
          exact absurd (hmade.symm.trans (hone.trans hmade')) (hap hk hqk claim hclaim claim' hclaim')
      exact hrelies hqk
  · exact .same h (recordRun_same hk)

/-- In a conversation that exists, the command is completed together with its run. -/
theorem frames_run_completed (h : Good k log db) (hk : t.key = some k) (hkind : k.kind = .startConversationRun)
    (hc : completeRunStartCommand db k claimedAt conversationId messageId t.script.runId now = .ok db') :
    Frames k log t db (t.recordRun db') := by
  obtain ⟨command, hcommand, hpending, rfl⟩ := completeRunStartCommand_ok hc
  have hnone := h.no_conversations hkind
  have hempty := h.no_runs hnone fun command' hc' => by
    obtain rfl := Option.some.inj (hcommand.symm.trans hc')
    simp [hpending]
  have hruns : (t.recordRun db).runsOf k = _ :: db.runsOf k := runsOf_record hk
  rw [hempty] at hruns
  have hran : ∃ r ∈ (t.recordRun db).runsOf k, r.runId = t.script.runId := by simp [hruns]
  refine ⟨⟨⟨h.conversations, ?_, ?_⟩, ?_, ?_, ?_, ?_⟩, Nat.le_refl _, fun q hap hq => ?_⟩
  · exact Nat.le_of_eq (congrArg List.length hruns)
  · intro run hrun
    obtain ⟨r, hr, _⟩ := h.answers run hrun
    rw [hempty] at hr
    cases hr
  · show ∀ command' ∈ (db.withCommand k _).commands k, _
    rw [withCommand_self]
    rintro _ ⟨⟩
    exact h.number command hcommand
  · show ∀ command' ∈ (db.withCommand k _).commands k, _
    rw [withCommand_self]
    rintro _ ⟨⟩ _
    obtain ⟨r, hr, hrun⟩ := hran
    exact ⟨r, hr, congrArg some hrun.symm⟩
  · intro c hc
    have hc : c ∈ db.conversationsOf k := hc
    rw [hnone] at hc
    cases hc
  · exact fun _ _ => .inr ⟨hkind, _, withCommand_self db k _, rfl⟩
  · refine hq.mono (Nat.le_refl _) (fun r hr => ?_) (fun h => h) ?_
    · rw [hempty] at hr
      cases hr
    · rintro ⟨⟨_, _, c, hc, _⟩, _⟩
      rw [hnone] at hc
      cases hc

theorem prepareRun_ok (h : prepareRun db input command = .ok db') :
    ∃ work, match command with
      | none => db' = { db with work }
      | some (key, claim) => completeRunStartCommand { db with work } key claim.claimedAt input.conversationId
          input.userMessageId input.runId input.createdAt = .ok db' := by
  unfold prepareRun at h
  cases hw : prepareConversationRunStart input input.createdAt db.work with
  | error e => simp [hw] at h
  | ok p =>
    obtain ⟨_, work⟩ := p
    simp only [hw] at h
    cases command with
    | none => exact ⟨work, (Except.ok.inj h).symm⟩
    | some _ => exact ⟨work, h⟩

theorem work_same (db : Db) (work : Runs.Db) : Same k db { db with work } := ⟨rfl, Nat.le_refl _, rfl, rfl⟩

theorem ownCommand_key (h : t.ownCommand = some (key, claim)) : t.key = some key := by
  unfold Starting.ownCommand at h
  split at h
  · simp_all
  · cases h

/-- Either the command is completed with the run or the run's conversation was made by the claim. -/
theorem frames_prepared (h : Good k log db) (hclaim : t.key = some k → t.claim.isSome)
    (howns : t.key = some k → t.request.target.kind = .createConversationRun → Owns k db t)
    (hp : prepareRun db (t.accepted conversationId) t.ownCommand = .ok db') :
    Frames k log t db (t.recordRun db') := by
  obtain ⟨work, hp⟩ := prepareRun_ok hp
  have hwork : Same k db { db with work } := work_same db work
  by_cases hk : t.key = some k
  · obtain ⟨claim, hc⟩ := Option.isSome_iff_exists.mp (hclaim hk)
    have hkind := kind_of_key hk
    cases ht : t.request.target with
    | existing _ =>
      simp only [Starting.ownCommand, ht, hk, hc] at hp
      exact .of_same_left hwork (frames_run_completed (h.same hwork) hk (by simpa [ht, Target.kind] using hkind) hp)
    | new _ =>
      simp only [Starting.ownCommand, ht] at hp
      subst hp
      exact .of_same_left hwork (frames_run (h.same hwork) fun _ => howns hk (by simp [ht, Target.kind]))
  · refine .of_same_left hwork (.of_same (.same (h.same hwork) ?_) (recordRun_same hk))
    cases ho : t.ownCommand with
    | none =>
      simp only [ho] at hp
      exact hp ▸ ⟨rfl, Nat.le_refl _, rfl, rfl⟩
    | some own =>
      obtain ⟨key, claim⟩ := own
      simp only [ho] at hp
      have hne : key ≠ k := by
        rintro rfl
        exact hk (ownCommand_key ho)
      obtain ⟨command, _, _, rfl⟩ := completeRunStartCommand_ok hp
      exact withCommand_same hne _

end statements

end Catalyst.Starts
