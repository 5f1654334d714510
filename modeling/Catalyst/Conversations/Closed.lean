import Catalyst.Conversations.Model

/-!
# An ended conversation stays empty

Whoever adds to a conversation holds its row's lock and has found it active, and so does the
call that ends it. A call that only updates rows needs no lock: it never makes a criterion
fail that held. Publishing looks at the conversation's row for its foreign key alone, so it is
the one call that can add to a conversation after its end.
-/

namespace Catalyst.Conversations

open Library Library.Check Library.Processes
open Runs (AgentRunStatus)

variable {db db' : Db} {g g' : Going} {write : Write} {input : ExpiryInput} {reason : ExpiryReason}
  {answer : Option Answer}

-- -----------------
-- What a call relies on
-- -----------------

def Going.Relies (db : Db) (g : Going) : Prop :=
  match g.phase with
  | .writing _ | .evaluating _ _ _ => db.Active
  | .expiring _ input reason => db.Active ∧ db.Meets input reason
  | _ => True

structure Db.Cleared (db : Db) : Prop where
  messages : db.messages = []
  structuredData : db.structuredData = []
  attachments : ∀ a ∈ db.attachments, a.status = .deleted

structure Frozen (db db' : Db) : Prop where
  status : db'.conversation.status = db.conversation.status
  messages : db'.messages = db.messages
  attachments : db'.attachments.map (·.id) = db.attachments.map (·.id)
  artifacts : db'.artifacts = db.artifacts
  structuredData : db'.structuredData = db.structuredData

theorem Frozen.refl (db : Db) : Frozen db db := ⟨rfl, rfl, rfl, rfl, rfl⟩

theorem Frozen.trans (h₁ : Frozen db db') (h₂ : Frozen db' db'') : Frozen db db'' :=
  ⟨h₂.status.trans h₁.status, h₂.messages.trans h₁.messages, h₂.attachments.trans h₁.attachments,
    h₂.artifacts.trans h₁.artifacts, h₂.structuredData.trans h₁.structuredData⟩

theorem Frozen.active (h : Frozen db db') : db'.Active ↔ db.Active := by
  unfold Db.Active
  rw [h.status]

inductive Effect (db : Db) (answer : Option Answer) (db' : Db) : Prop
  | goesOn (status : db'.conversation.status = db.conversation.status)
      (frozen : ¬ db.Active → db.Cleared → Frozen db db' ∧ db'.Cleared)
      (answer : ∀ a ∈ answer, ¬ a.Ended)
  | ended (active : db.Active) (inactive : ¬ db'.Active) (cleared : db'.Cleared) (answer : ∃ a ∈ answer, a.Ended)

theorem Effect.same (h : ∀ a ∈ answer, ¬ a.Ended) : Effect db answer db :=
  .goesOn rfl (fun _ hc => ⟨.refl db, hc⟩) h

theorem Effect.ofActive (ha : db.Active) (hs : db'.conversation.status = db.conversation.status)
    (h : ∀ a ∈ answer, ¬ a.Ended) : Effect db answer db' :=
  .goesOn hs (fun hn => absurd ha hn) h

theorem not_ended_of_none : ∀ a ∈ (none : Option Answer), ¬ a.Ended := by simp

theorem not_ended_of_some {a : Answer} (h : ¬ a.Ended) : ∀ b ∈ some a, ¬ b.Ended := by
  rintro b hb
  obtain rfl := Option.some.inj hb
  exact h

theorem markLockedConversationDeleted_cleared (db : Db) (at_ : Time) (status : ConversationStatus) :
    (markLockedConversationDeleted db at_ status).Cleared where
  messages := rfl
  structuredData := rfl
  attachments a ha := by
    obtain ⟨x, -, rfl⟩ := mem_updateWhere.mp ha
    split
    · rfl
    · rename_i h
      exact not_not.mp h

theorem insertMessage_status {message : Message} (h : insertMessage db message = .ok db') :
    db'.conversation = db.conversation := by
  obtain ⟨-, -, h⟩ := bind_ok.mp h
  exact pure_ok.mp h ▸ rfl

theorem Write.apply_status (h : write.apply db = .ok db') (hd : ∀ deletedAt w, write ≠ .deleteConversation deletedAt w) :
    db'.conversation.status = db.conversation.status := by
  cases write with
  | appendMessage message =>
    obtain ⟨db₁, h₁, h⟩ := bind_ok.mp h
    obtain rfl := pure_ok.mp h
    have hs : db₁.conversation.status = db.conversation.status := congrArg _ (insertMessage_status h₁)
    exact hs
  | prepareConversationRunStart start =>
    obtain ⟨-, -, h⟩ := bind_ok.mp h
    obtain ⟨db₁, h₁, h⟩ := bind_ok.mp h
    obtain ⟨-, -, h⟩ := bind_ok.mp h
    obtain rfl := pure_ok.mp h
    have hs : db₁.conversation.status = db.conversation.status := congrArg _ (insertMessage_status h₁)
    exact hs
  | createConversationAttachment id status now =>
    obtain ⟨-, -, h⟩ := bind_ok.mp h
    exact pure_ok.mp h ▸ rfl
  | reactivateDraftAttachment id status now =>
    obtain ⟨-, -, h⟩ := bind_ok.mp h
    exact pure_ok.mp h ▸ rfl
  | createManagedArtifact artifact =>
    obtain ⟨-, -, h⟩ := bind_ok.mp h
    exact pure_ok.mp h ▸ rfl
  | deleteConversation deletedAt w => exact absurd rfl (hd deletedAt w)

theorem Write.apply_effect (ha : db.Active) (h : write.apply db = .ok db') :
    Effect db (some (Going.Write.answer write)) db' := by
  cases write with
  | deleteConversation deletedAt w =>
    obtain rfl := Except.ok.inj h
    exact .ended ha (fun h => by cases h) (markLockedConversationDeleted_cleared db deletedAt .deleted) ⟨_, rfl, trivial⟩
  | appendMessage | prepareConversationRunStart | createConversationAttachment | reactivateDraftAttachment
  | createManagedArtifact => exact .ofActive ha (apply_status h fun _ _ h => by cases h) (not_ended_of_some id)

structure Beside (db db' : Db) : Prop where
  conversation : db'.conversation = db.conversation
  messages : db'.messages = db.messages
  drafts : (∀ a ∈ db.attachments, ¬ a.Draft) → ∀ a ∈ db'.attachments, ¬ a.Draft
  idle : db.Idle → db'.Idle

theorem Beside.refl (db : Db) : Beside db db := ⟨rfl, rfl, id, id⟩

theorem Beside.meets (hb : Beside db db') (h : db.Meets input reason) : db'.Meets input reason := by
  cases reason with
  | retentionDue =>
    obtain ⟨hdue, hidle⟩ := h
    exact ⟨by rwa [hb.conversation], hb.idle hidle⟩
  | abandonedDraft =>
    obtain ⟨hbefore, hmessages, hdrafts, hidle⟩ := h
    exact ⟨by rwa [hb.conversation], hb.messages.trans hmessages, hb.drafts hdrafts, hb.idle hidle⟩

theorem Beside.relies (hb : Beside db db') (h : g.Relies db) : g.Relies db' := by
  have hactive : db.Active → db'.Active := fun ha => (congrArg Conversation.status hb.conversation).trans ha
  obtain ⟨call, phase⟩ := g
  cases phase with
  | writing | evaluating => exact hactive h
  | expiring => exact ⟨hactive h.1, hb.meets h.2⟩
  | starting | inserting | touching => trivial

theorem updateAgentRunStatus_beside (db : Db) (runId : String) (status : AgentRunStatus) (updatedAt : Time) :
    Beside db (updateAgentRunStatus db runId status updatedAt) where
  conversation := rfl
  messages := rfl
  drafts := id
  idle hidle := by
    have hsame : updateWhere (fun run : AgentRun => run.id = runId ∧ run.InProgress)
        (fun run => { run with status := status, updatedAt := updatedAt }) db.runs = db.runs :=
      updateWhere_eq_self fun run hrun h => hidle run hrun h.2
    unfold Db.Idle updateAgentRunStatus
    rwa [hsame]

theorem deleteDraftAttachment_ok {id : String} (h : deleteDraftAttachment db id deletedAt = .ok db') :
    Beside db db' ∧ Frozen db db' ∧ (db.Cleared → db'.Cleared) := by
  obtain ⟨-, -, h⟩ := bind_ok.mp h
  obtain rfl := pure_ok.mp h
  refine ⟨⟨rfl, rfl, fun hnone a ha => ?_, fun h => h⟩, ⟨rfl, rfl, map_updateWhere _ fun _ _ => rfl, rfl, rfl⟩,
    fun hc => ⟨hc.messages, hc.structuredData, fun a ha => ?_⟩⟩
  · obtain ⟨x, hx, rfl⟩ := mem_updateWhere.mp ha
    split
    · exact fun hdraft => hdraft.2 rfl
    · exact hnone x hx
  · obtain ⟨x, hx, rfl⟩ := mem_updateWhere.mp ha
    split
    · rfl
    · exact hc.attachments x hx

theorem republish_frozen (hc : db.Cleared) (input : Published) : republish db input = db := by
  unfold republish
  rw [updateWhere_eq_self (by simp [hc.structuredData])]

def Going.PublishesActive (db : Db) (g : Going) : Prop :=
  match g.phase with
  | .inserting _ => db.Active
  | _ => True

instance : DecidablePred (Going.PublishesActive db) := fun g => by
  obtain ⟨call, phase⟩ := g
  cases phase with
  | inserting input => exact inferInstanceAs (Decidable db.Active)
  | _ => exact inferInstanceAs (Decidable True)

structure StepOk (db : Db) (g : Going) (result : StepResult) : Prop where
  effect : Effect db result.1 result.2.2
  /-- Whoever neither holds the lock nor waits for it disturbs no holder. -/
  beside : ¬ g.Holds → ¬ g.Waits → Beside db result.2.2
  next : ∀ g' ∈ result.2.1, g'.Relies result.2.2 ∧ (g'.Holds → g.Holds ∨ g.Waits)

theorem StepOk.answers {a : Answer} (ha : ¬ a.Ended) : StepOk db g (Going.answers db a) :=
  ⟨.same (not_ended_of_some ha), fun _ _ => .refl db, by simp [Going.answers]⟩

theorem StepOk.goesTo {phase : Phase} (hr : Going.Relies db ⟨g.call, phase⟩)
    (hh : Going.Holds ⟨g.call, phase⟩ → g.Holds ∨ g.Waits) : StepOk db g (g.goesTo db phase) := by
  refine ⟨.same not_ended_of_none, fun _ _ => .refl db, fun g' hg' => ?_⟩
  obtain rfl := Option.some.inj hg'
  exact ⟨hr, hh⟩

theorem StepOk.commits {a : Answer} {result : Except AppError Db} (ha : ¬ a.Ended) (hw : g.Holds ∨ g.Waits)
    (h : ∀ db', result = .ok db' → db.Active ∧ db'.conversation.status = db.conversation.status) :
    StepOk db g (Going.commits db a result) := by
  cases hresult : result with
  | error e => exact .answers (a := .refused e) id
  | ok db' =>
    obtain ⟨hactive, hs⟩ := h db' hresult
    exact ⟨.ofActive hactive hs (not_ended_of_some ha), fun hh hn => (hw.elim hh hn).elim, by simp [Going.commits]⟩

theorem starts_ok (call : Call) : StepOk db ⟨call, .starting⟩ (Going.starts ⟨call, .starting⟩ db) := by
  cases call with
  | write write =>
    simp only [Going.starts]
    split
    · rename_i hl
      exact .goesTo hl.1 fun _ => .inr id
    · exact .answers id
  | expireConversation expiredAt input =>
    simp only [Going.starts]
    split
    · rename_i hl
      exact .goesTo hl.1 fun _ => .inr id
    · exact .answers id
  | moveConversation fromWorkspace toWorkspace visibility =>
    refine .commits id (.inr id) fun db' h => ?_
    obtain ⟨_, hw, h⟩ := bind_ok.mp h
    obtain rfl := pure_ok.mp h
    exact ⟨(require_ok.mp hw).1, rfl⟩
  | updateConversationTitle title updatedAt =>
    refine .commits id (.inr id) fun db' h => ?_
    obtain ⟨_, hw, h⟩ := bind_ok.mp h
    obtain rfl := pure_ok.mp h
    exact ⟨require_ok.mp hw, rfl⟩
  | publishStructuredDataResource published =>
    simp only [Going.starts]
    split
    · refine ⟨.goesOn rfl (fun _ hc => ?_) (not_ended_of_some id), fun _ _ => ⟨rfl, rfl, id, id⟩, fun _ h => absurd h (Option.not_mem_none _)⟩
      rw [republish_frozen hc]
      exact ⟨.refl db, hc⟩
    · exact .goesTo trivial False.elim
  | deleteDraftAttachment id deletedAt =>
    simp only [Going.starts]
    split
    · rename_i db' h
      obtain ⟨hb, hf, hc⟩ := deleteDraftAttachment_ok h
      refine ⟨.goesOn hf.status (fun _ hcl => ⟨hf, hc hcl⟩) not_ended_of_none, fun _ _ => hb, fun g' hg' => ?_⟩
      obtain rfl := Option.some.inj hg'
      exact ⟨trivial, False.elim⟩
    · exact .answers (a := .refused _) False.elim
  | updateAgentRunStatus runId status updatedAt =>
    refine ⟨.goesOn rfl (fun _ hc => ⟨⟨rfl, rfl, rfl, rfl, rfl⟩, ⟨hc.1, hc.2, hc.3⟩⟩) (not_ended_of_some id),
      fun _ _ => updateAgentRunStatus_beside db runId status updatedAt, fun _ h => absurd h (Option.not_mem_none _)⟩

theorem step_ok (hr : g.Relies db) (hp : g.PublishesActive db) : StepOk db g (g.step db) := by
  obtain ⟨call, phase⟩ := g
  cases phase with
  | starting => exact starts_ok call
  | writing write =>
    simp only [Going.step, Going.commits]
    split
    · rename_i db' h
      exact ⟨write.apply_effect hr h, fun hh => absurd trivial hh,
        fun _ h => absurd h (Option.not_mem_none _)⟩
    · exact .answers (a := .refused _) id
  | evaluating expiredAt input reason =>
    simp only [Going.step, Going.evaluates]
    split
    · rename_i hm
      exact .goesTo ⟨hr, hm⟩ fun _ => .inl trivial
    · cases reason with
      | retentionDue => exact .goesTo hr fun _ => .inl trivial
      | abandonedDraft => exact .answers id
  | expiring expiredAt input reason =>
    exact ⟨.ended hr.1 (fun h => by cases h) (markLockedConversationDeleted_cleared db expiredAt .retentionExpired) ⟨_, rfl, trivial⟩,
      fun hh => absurd trivial hh,
        fun _ h => absurd h (Option.not_mem_none _)⟩
  | inserting published =>
    refine ⟨.ofActive hp ?_ (not_ended_of_some id), fun _ hw => absurd trivial hw,
      fun _ h => absurd h (Option.not_mem_none _)⟩
    simp only [Going.step, publishStructuredDataResource]
    split <;> rfl
  | touching updatedAt =>
    exact ⟨.goesOn rfl (fun _ hc => ⟨⟨rfl, rfl, rfl, rfl, rfl⟩, ⟨hc.1, hc.2, hc.3⟩⟩) (not_ended_of_some id),
      fun _ hw => absurd trivial hw,
      fun _ h => absurd h (Option.not_mem_none _)⟩

theorem starts_not_expired (call : Call) : (Going.starts ⟨call, .starting⟩ db).1 ≠ some (.expired input reason) := by
  intro h
  cases call <;> simp only [Going.starts, Going.commits] at h <;> (try split at h) <;> cases h

def conversationSystem : Machine ConversationPool ConversationMove (Option Answer) :=
  conversationCalls.machine Db.Active fun _ _ => True

def PublishesActive (s : ConversationPool) : ConversationMove → Prop
  | .advance pid => ∀ g ∈ s.at? pid, g.PublishesActive s.store
  | _ => True

instance : DecidablePred (PublishesActive s)
  | .advance pid => inferInstanceAs (Decidable (∀ g ∈ s.at? pid, g.PublishesActive s.store))
  | .start _ | .abort _ => .isTrue trivial
  | .env e => e.elim

def ends (log : List Answer) : Nat := log.countP fun a => a.Ended

structure Db.Ok (log : List Answer) (db : Db) : Prop where
  cleared : ¬ db.Active → db.Cleared
  once : ends log = if db.Active then 0 else 1

def closed : Assertions Db Going Answer where
  holds := fun log db => db.Ok log
  relies _ db g := g.Relies db
  apart p q := ¬ (p.Holds ∧ q.Holds)

theorem Effect.ok (hd : db.Ok log) (he : Effect db answer db') : db'.Ok (log ++ answer.toList) := by
  cases he with
  | goesOn hs hf ha =>
    have hactive : db'.Active ↔ db.Active := by
      unfold Db.Active
      rw [hs]
    have hnone : answer.toList.countP (fun a => a.Ended) = 0 := List.countP_eq_zero.mpr (by simpa using ha)
    have hsame : ends (log ++ answer.toList) = ends log := by
      rw [ends, List.countP_append, hnone, Nat.add_zero, ends]
    refine ⟨fun hn => ?_, by simpa only [hsame, hactive] using hd.once⟩
    have hn : ¬ db.Active := fun h => hn (hactive.mpr h)
    exact (hf hn (hd.cleared hn)).2
  | ended ha hn hc he =>
    obtain ⟨a, ha', hended⟩ := he
    obtain rfl := Option.mem_def.mp ha'
    refine ⟨fun _ => hc, ?_⟩
    have honce := hd.once
    rw [if_pos ha] at honce
    rw [if_neg hn, ends, List.countP_append, show log.countP _ = 0 from honce]
    simp [hended]

theorem closed_inductive : conversationCalls.Inductive closed PublishesActive where
  symm _ _ h hpq := h ⟨hpq.2, hpq.1⟩
  start _ _ _ _ _ := ⟨trivial, fun _ h => h.1⟩
  step log s pid g hs ha hat hg hothers := by
    have hstep : StepOk s.store g (g.step s.store) := step_ok hg (ha g hat)
    refine ⟨⟨hstep.effect.ok hs.holds, fun q hq hrelies => ?_⟩, fun g' hg' => ?_⟩
    · obtain ⟨hapart, p, hp, rfl⟩ := hq
      by_cases hholds : p.2.Holds
      · have hnot : ¬ g.Holds := fun h => hapart ⟨h, hholds⟩
        have hfree : ¬ g.Waits := fun h => (hothers p hp).2 ⟨hholds, h⟩
        exact (hstep.beside hnot hfree).relies hrelies
      · revert hholds
        obtain ⟨_, _, phase⟩ := p
        cases phase with
        | writing | evaluating | expiring => exact fun h => absurd trivial h
        | starting | inserting | touching => exact fun _ => trivial
    · obtain ⟨hrelies, hlock⟩ := hstep.next g' hg'
      refine ⟨hrelies, fun q _ hapart hfree hboth => ?_⟩
      rcases hlock hboth.1 with hh | hw
      · exact hapart ⟨hh, hboth.2⟩
      · exact hfree ⟨hboth.2, hw⟩
  env _ _ e := e.elim

theorem conversationSystem_ok (hs : conversationSystem.init s₀)
    (hr : (conversationSystem.when PublishesActive).Run s₀ h s) : closed.Ok (answers h) s := by
  obtain ⟨hactive, hidle, -⟩ := hs
  have hstart : closed.Ok [] s₀ := by
    refine .of_idle hidle ⟨fun hn => absurd hactive hn, ?_⟩
    rw [if_pos hactive]
    rfl
  simpa using closed_inductive.run_ok (run_of_when _ hr) hstart

theorem next_frozen (hok : closed.Ok log s) (ha : PublishesActive s a) (hn : ¬ s.store.Active) :
    Frozen s.store (conversationSystem.next s a).store := by
  cases a with
  | start call => exact .refl _
  | abort pid => exact .refl _
  | env e => exact e.elim
  | advance pid =>
    simp only [Machine.next, conversationSystem, machine, move, advance]
    cases hat : s.at? pid with
    | none => exact .refl _
    | some g =>
      have hr : g.Relies s.store := hok.relies _ (at?_mem hat)
      have hstep := (step_ok hr (ha g hat)).effect
      cases hstep with
      | goesOn hs hf ha => exact (hf hn (hok.holds.cleared hn)).1
      | ended hactive => exact absurd hactive hn

theorem run_frozen (hok : closed.Ok log s) (hn : ¬ s.store.Active)
    (hr : (conversationSystem.when PublishesActive).Run s h t) : Frozen s.store t.store := by
  induction hr generalizing log with
  | nil => exact .refl _
  | cons he _ ih =>
    have hf := next_frozen hok he.2 hn
    have hnext := closed_inductive.move_ok hok he.1.1 he.2
    exact hf.trans (ih hnext fun h => hn (hf.active.mp h))

/-- Only a call at its last step with the lock answers that the conversation is expired. -/
theorem expired_meets (hok : closed.Ok log s) (ha : conversationSystem.answer s a = some (.expired input reason)) :
    s.store.Active ∧ s.store.Meets input reason := by
  cases a with
  | start call => cases ha
  | abort pid => cases ha
  | env e => exact e.elim
  | advance pid =>
    simp only [Machine.answer, conversationSystem, machine, move, advance] at ha
    cases hat : s.at? pid with
    | none => simp [hat] at ha
    | some g =>
      have hr : g.Relies s.store := hok.relies _ (at?_mem hat)
      simp only [hat] at ha
      have ha : (g.step s.store).1 = some (.expired input reason) := ha
      obtain ⟨call, phase⟩ := g
      cases phase with
      | expiring expiredAt input' reason' =>
        obtain ⟨rfl, rfl⟩ := Answer.expired.inj (Option.some.inj ha)
        exact hr
      | starting => exact absurd ha (starts_not_expired call)
      | writing write =>
        simp only [Going.step, Going.commits] at ha
        split at ha
        · cases write <;> cases ha
        · cases ha
      | evaluating expiredAt input' reason' =>
        simp only [Going.step, Going.evaluates] at ha
        split at ha
        · cases ha
        · cases reason' <;> cases ha
      | inserting published => cases ha
      | touching updatedAt => cases ha

/-- Where nothing is published after the end: an ended conversation has no message and no structured
data and gets none, nor an attachment or an artifact; it is expired only where the criterion is met;
and one call at most ends it. -/
theorem ended_conversation_ok (hs : conversationSystem.init s₀)
    (hr : (conversationSystem.when PublishesActive).Run s₀ h s) :
    (¬ s.store.Active → s.store.Cleared ∧
      ∀ h' t, (conversationSystem.when PublishesActive).Run s h' t → Frozen s.store t.store) ∧
    (∀ a input reason, conversationSystem.answer s a = some (.expired input reason) →
      s.store.Active ∧ s.store.Meets input reason) ∧
    ends (answers h) ≤ 1 := by
  have hok := conversationSystem_ok hs hr
  refine ⟨fun hn => ⟨hok.holds.cleared hn, fun h' t hrun => run_frozen hok hn hrun⟩,
    fun a input reason ha => expired_meets hok ha, ?_⟩
  have honce : ends (answers h) = if s.store.Active then 0 else 1 := hok.holds.once
  split at honce <;> omega

namespace Example

def conversation : Conversation := ⟨"w", .workspace, "Title", .active, 0, 100, none⟩

def start : ConversationPool := ⟨⟨conversation, [], [], [], [], []⟩, [], 0⟩

def publish : Call := .publishStructuredDataResource ⟨"key", "Title", "[]", 6⟩

def delete : Call := .write (.deleteConversation 5 none)

def append : Call := .write (.appendMessage ⟨"m", .user, "Text", 3⟩)

def expire : Call := .expireConversation 4 ⟨none, some 4⟩

abbrev Moves := List ConversationMove

def steps (pid n : Nat) : Moves := List.replicate n (.advance pid)

def late : Moves := .start delete :: steps 0 2 ++ .start publish :: steps 1 2

def kept : Moves :=
  .start expire :: .start append :: steps 1 2 ++ steps 0 3 ++ .start delete :: steps 2 2 ++ .start append :: steps 3 1

instance : Decidable (conversationCalls.blocks p q) := inferInstanceAs (Decidable (p.Holds ∧ q.Waits))

instance : Decidable (conversationSystem.enabled s a) :=
  inferInstanceAs (Decidable ((conversationCalls.machine _ fun _ _ => True).enabled s a))

instance : Decidable ((conversationSystem.when PublishesActive).enabled s a) :=
  inferInstanceAs (Decidable (conversationSystem.enabled s a ∧ PublishesActive s a))

theorem start_ok : conversationSystem.init start := ⟨rfl, rfl, rfl⟩

end Example

/-- A tool publishes a table after the conversation was deleted, and its row stays. -/
theorem structured_data_after_deletion :
    ¬ ∀ s, conversationSystem.Reachable s → ¬ s.store.Active → s.store.structuredData = [] := by
  intro h
  have hrun : conversationSystem.Allows Example.start Example.late := by decide
  have hn : ¬ (conversationSystem.after Example.start Example.late).store.Active := by decide
  have hrow : (conversationSystem.after Example.start Example.late).store.structuredData ≠ [] := by decide
  exact hrow (h _ ⟨_, _, Example.start_ok, hrun.run⟩ hn)

theorem ended_conversation_ok_kept :
    (conversationSystem.after Example.start Example.kept).store.Cleared ∧
      ends (answers (conversationSystem.history Example.start Example.kept)) ≤ 1 := by
  have hrun : (conversationSystem.when PublishesActive).Allows Example.start Example.kept := by decide
  have hn : ¬ (conversationSystem.after Example.start Example.kept).store.Active := by decide
  obtain ⟨hclosed, -, honce⟩ := ended_conversation_ok Example.start_ok hrun.run
  exact ⟨(hclosed hn).1, honce⟩

end Catalyst.Conversations
