import Catalyst.ChatUi.Controller

/-!
# Each observation once

Whatever is delivered, the run that the page keeps is the fold of the first observations of
its log, each taken once and in order. As long as the page keeps a run it never goes back.
-/

namespace Catalyst.ChatUi

open Library Runs

variable {logs : RunLogs} {s t : ConversationControllerState} {observation : RunObservation}

@[simp] theorem applyAgentRunObservation_lastSequence (p : AgentRunProjection) (o : RunObservation) :
    (applyAgentRunObservation p o).lastSequence = max p.lastSequence o.sequence := rfl

theorem RunLogs.sequence (logs : RunLogs) (hn : n < (logs.observations runId).length) :
    (logs.observations runId)[n].sequence = n + 1 := by
  have hs : ((logs.observations runId).map (·.sequence))[n]? = some (1 + n) := by
    rw [logs.numbered]
    simp [hn]
  rw [List.getElem?_map, List.getElem?_eq_getElem hn, Option.map_some, Option.some.injEq] at hs
  exact hs.trans (Nat.add_comm 1 n)

theorem RunLogs.take_succ (logs : RunLogs) (hn : n < (logs.observations runId).length) :
    (logs.observations runId).take (n + 1) = (logs.observations runId).take n ++ [(logs.observations runId)[n]] := by
  rw [List.take_add_one, List.getElem?_eq_getElem hn, Option.toList_some]

theorem RunLogs.at_sequence (logs : RunLogs) (ho : o ∈ logs.observations runId) (hs : o.sequence = n + 1) :
    ∃ hn : n < (logs.observations runId).length, (logs.observations runId)[n] = o := by
  obtain ⟨m, hm, rfl⟩ := List.getElem_of_mem ho
  obtain rfl : m = n := Nat.succ.inj ((logs.sequence hm).symm.trans hs)
  exact ⟨hm, rfl⟩

theorem project_lastSequence (logs : RunLogs) (run : AgentRun) (hn : n ≤ (logs.observations run.id).length) :
    (projectAgentRun run ((logs.observations run.id).take n)).lastSequence = max run.lastSequence n := by
  induction n with
  | zero => simp [projectAgentRun, createAgentRunProjection]
  | succ n ih =>
    rw [logs.take_succ hn, projectAgentRun_append, applyAgentRunObservation_lastSequence, ih (Nat.le_of_succ_le hn),
      logs.sequence hn]
    omega

def ActiveRun.IsFold (logs : RunLogs) (active : ActiveRun) : Prop :=
  ∃ row : AgentRun, row.id = active.run.id ∧ row.lastSequence ≤ active.lastAppliedSequence ∧
    active.lastAppliedSequence ≤ (logs.observations row.id).length ∧
    active.projection = projectAgentRun row ((logs.observations row.id).take active.lastAppliedSequence)

def FoldOk (logs : RunLogs) (s : ConversationControllerState) : Prop := ∀ active ∈ s.activeRun, active.IsFold logs

theorem ActiveRun.IsFold.lastSequence {active : ActiveRun} (h : active.IsFold logs) :
    active.projection.lastSequence = active.lastAppliedSequence := by
  obtain ⟨row, -, hrow, hn, hp⟩ := h
  rw [hp, project_lastSequence logs row hn, Nat.max_eq_right hrow]

def ActiveRun.Ended (active : ActiveRun) : Prop := isLiveRunStatus active.run.status = false

structure ActiveRun.Onward (a b : ActiveRun) : Prop where
  id : b.run.id = a.run.id
  sequence : a.lastAppliedSequence ≤ b.lastAppliedSequence
  ended : a.Ended → b.Ended

theorem ActiveRun.Onward.refl (a : ActiveRun) : a.Onward a := ⟨rfl, Nat.le_refl _, fun h => h⟩

theorem ActiveRun.Onward.trans {a b c : ActiveRun} (h₁ : a.Onward b) (h₂ : b.Onward c) : a.Onward c :=
  ⟨h₂.id.trans h₁.id, h₁.sequence.trans h₂.sequence, fun h => h₂.ended (h₁.ended h)⟩

theorem statusAfterEvent_ended (status : AgentRunStatus) (event : EventBody) (h : isLiveRunStatus status = false) :
    isLiveRunStatus (statusAfterEvent status event) = false := by
  cases event <;> first | exact h | rfl

inductive ObservationEffect (s : ConversationControllerState) (o : RunObservation) : ApplyResult → Prop
  | ignored : ObservationEffect s o ⟨s, false, false⟩
  | gap {a : ActiveRun} : s.activeRun = some a → a.run.id = o.runId → a.lastAppliedSequence + 1 < o.sequence →
      ObservationEffect s o ⟨askForRefresh s, false, true⟩
  | applied {a b : ActiveRun} {t : ConversationControllerState} : s.activeRun = some a → a.run.id = o.runId →
      t.activeRun = some b → o.sequence = a.lastAppliedSequence + 1 → b.lastAppliedSequence = o.sequence →
      b.projection = applyAgentRunObservation a.projection o → a.Onward b → ObservationEffect s o ⟨t, true, false⟩

theorem applyObservation_effect (s : ConversationControllerState) (o : RunObservation) :
    ObservationEffect s o (applyRunObservationToControllerState s o) := by
  unfold applyRunObservationToControllerState
  cases ha : s.activeRun with
  | none => exact .ignored
  | some a =>
    dsimp only
    split
    · exact .ignored
    · rename_i hid
      have hid : a.run.id = o.runId := not_not.mp hid
      split
      · exact .ignored
      · rename_i hnew
        split
        · rename_i hgap
          exact .gap ha hid hgap
        · rename_i hnext
          have hs : o.sequence = a.lastAppliedSequence + 1 := by omega
          refine .applied ha hid rfl hs rfl rfl ⟨rfl, by rw [hs]; exact Nat.le_succ _, ?_⟩
          exact statusAfterEvent_ended _ _

/-- One step of the page: the kept run stays a fold, and if it is the same run it goes on. -/
structure StepOk (logs : RunLogs) (s t : ConversationControllerState) : Prop where
  fold : FoldOk logs t
  onward : ∀ a ∈ s.activeRun, ∀ b ∈ t.activeRun, b.run.id = a.run.id → a.Onward b

theorem StepOk.of_same (hs : FoldOk logs s) (h : ∀ b ∈ t.activeRun, b ∈ s.activeRun) : StepOk logs s t where
  fold b hb := hs b (h b hb)
  onward a ha b hb _ := by
    obtain rfl := Option.some.inj (ha.symm.trans (h b hb))
    exact .refl a

theorem observation_step (ho : o ∈ logs.observations o.runId) (hs : FoldOk logs s) :
    StepOk logs s (applyRunObservationToControllerState s o).state := by
  have heffect := applyObservation_effect s o
  generalize applyRunObservationToControllerState s o = result at heffect ⊢
  cases heffect with
  | ignored => exact .of_same hs fun b hb => hb
  | gap => exact .of_same hs fun b hb => hb
  | @applied a b t ha hid hb hnext hlast hprojection honward =>
    obtain ⟨row, hrow, hle, -, hp⟩ := hs a ha
    have hrun : row.id = o.runId := hrow.trans hid
    obtain ⟨hn, hget⟩ := logs.at_sequence ho hnext
    refine ⟨fun b' hb' => ?_, fun a' ha' b' hb' _ => ?_⟩
    · obtain rfl := Option.some.inj (hb.symm.trans hb')
      refine ⟨row, hrow.trans honward.id.symm, hle.trans honward.sequence, ?_, ?_⟩
      · rw [hlast, hnext, hrun]
        exact hn
      · rw [hprojection, hlast, hnext, hp, hrun, logs.take_succ hn, hget, projectAgentRun_append]
    · obtain rfl := Option.some.inj (ha.symm.trans ha')
      obtain rfl := Option.some.inj (hb.symm.trans hb')
      exact honward

theorem thread_fold {read : ThreadRead} {reported : SnapshotRun} (hd : logs.Delivers (.thread read))
    (h : (logs.thread read).activeRun = some reported) :
    (⟨reported.run, reported.projection, reported.projection.lastSequence⟩ : ActiveRun).IsFold logs := by
  obtain ⟨row, hrow, rfl⟩ := Option.map_eq_some_iff.mp h
  obtain ⟨hle, hn⟩ := hd row hrow
  have hlast := project_lastSequence logs row hn
  rw [Nat.max_eq_right hle] at hlast
  refine ⟨row, rfl, ?_, ?_, ?_⟩
  · exact hle.trans hlast.ge
  · exact hlast.trans_le hn
  · exact congrArg (fun n => projectAgentRun row ((logs.observations row.id).take n)) hlast.symm

/-- The run that a thread leaves is the one it reports, or the one seen, whichever is ahead. -/
theorem thread_effect {read : ThreadRead} (hd : logs.Delivers (.thread read)) (hs : FoldOk logs s)
    (hb : b ∈ (createControllerStateFromSnapshot (logs.thread read) s).activeRun) :
    b.IsFold logs ∧ ∀ a ∈ s.activeRun, b.run.id = a.run.id → a.Onward b := by
  obtain ⟨kept, hkept, rfl⟩ := Option.map_eq_some_iff.mp hb
  have hseen : ∀ a ∈ s.activeRun, kept = ⟨a.run, a.projection⟩ →
      (⟨kept.run, kept.projection, kept.projection.lastSequence⟩ : ActiveRun) = a := by
    rintro a ha rfl
    simp only [(hs a ha).lastSequence]
  unfold activeRunForSnapshot at hkept
  cases hr : (logs.thread read).activeRun with
  | none =>
    simp only [hr] at hkept
    obtain ⟨a, ha, he⟩ := Option.map_eq_some_iff.mp hkept
    have ha := (Option.filter_eq_some_iff.mp ha).1
    rw [hseen a ha he.symm]
    refine ⟨hs a ha, fun a' ha' _ => ?_⟩
    obtain rfl := Option.some.inj (ha.symm.trans ha')
    exact .refl a
  | some reported =>
    have hfold := thread_fold hd hr
    simp only [hr] at hkept
    cases ha : s.activeRun with
    | none =>
      simp only [ha, Option.some.injEq] at hkept
      subst hkept
      exact ⟨hfold, by simp⟩
    | some a =>
      simp only [ha] at hkept
      split at hkept
      · obtain rfl := Option.some.inj hkept
        rw [hseen a ha rfl]
        refine ⟨hs a ha, ?_⟩
        rintro _ ⟨⟩ -
        exact .refl a
      · rename_i hbehind
        obtain rfl := Option.some.inj hkept
        refine ⟨hfold, ?_⟩
        rintro _ ⟨⟩ hid
        simp only [ActiveRun.isAheadOf, Bool.and_eq_true, Bool.or_eq_true, decide_eq_true_eq, Bool.not_eq_true',
          not_and, not_or, not_lt] at hbehind
        obtain ⟨hsequence, hlive⟩ := hbehind hid.symm
        exact ⟨hid, hsequence, fun hended => Bool.eq_false_iff.mpr (hlive hended)⟩

theorem page_step (hd : logs.Delivers event) (hs : FoldOk logs s) : StepOk logs s ((page logs).next s event) := by
  cases event with
  | observation o => exact observation_step hd hs
  | thread read => exact ⟨fun b hb => (thread_effect hd hs hb).1, fun a ha b hb => (thread_effect hd hs hb).2 a ha⟩
  | select conversationId =>
    refine .of_same hs fun b hb => ?_
    simp only [page, Machine.next, handle, controllerStateForConversation] at hb
    split at hb
    · exact hb
    · cases hb
  | completeStream saw caught =>
    refine .of_same hs fun b hb => ?_
    simp only [page, Machine.next, handle, completeRunObservationStreamInControllerState] at hb
    split at hb <;> exact hb
  | threadLoading | connect | failStream =>
    refine .of_same hs fun b hb => ?_
    simp only [page, Machine.next, handle] at hb
    exact hb
  | threadFailed | disable =>
    refine .of_same hs fun b hb => ?_
    simp only [page, Machine.next, handle] at hb
    cases hb

theorem page_preserves (logs : RunLogs) : (page logs).Preserves (FoldOk logs) :=
  fun _ _ hs hd => (page_step hd hs).fold

def Keeps (runId : RunId) (s : ConversationControllerState) : Prop := ∃ a ∈ s.activeRun, a.run.id = runId

theorem kept_run_onward (hr : ((page logs).when fun s e => Keeps runId ((page logs).next s e)).Run s h t)
    (hs : FoldOk logs s) (ha : a ∈ s.activeRun) (hid : a.run.id = runId) : ∃ b ∈ t.activeRun, a.Onward b := by
  induction hr generalizing a with
  | nil => exact ⟨a, ha, .refl a⟩
  | @cons s event h t he _ ih =>
    have hstep := page_step he.1 hs
    obtain ⟨b, hb, hbid⟩ := he.2
    obtain ⟨c, hc, hbc⟩ := ih hstep.fold hb hbid
    exact ⟨c, hc, (hstep.onward a ha b hb (hbid.trans hid.symm)).trans hbc⟩

instance : Decidable ((page logs).enabled s event) :=
  match event with
  | .observation o => inferInstanceAs (Decidable (o ∈ logs.observations o.runId))
  | .thread read => inferInstanceAs (Decidable (∀ run ∈ read.runForSnapshot,
      run.lastSequence ≤ read.stored ∧ read.stored ≤ (logs.observations run.id).length))
  | .select _ | .threadLoading | .threadFailed _ | .disable | .connect | .completeStream .. | .failStream _ =>
    .isTrue trivial

namespace Example

def observed (sequence : Nat) (body : EventBody) : RunObservation := ⟨"i", "run", "c", sequence, ⟨sequence, body⟩, sequence⟩

def log : List RunObservation :=
  [observed 1 (.messageDelta "It is "), observed 2 (.messageDelta "noon."), observed 3 .runCompleted]

def runLogs : RunLogs where
  observations runId := if runId = "run" then log else []
  numbered runId := by split <;> rfl
  of_run runId o ho := by
    split at ho
    · rename_i h
      simp only [log, observed, List.mem_cons, List.not_mem_nil, or_false] at ho
      rcases ho with rfl | rfl | rfl <;> exact h.symm
    · cases ho

def row (status : AgentRunStatus) (lastSequence : Nat) : AgentRun :=
  ⟨"run", "i", "c", "u", "m", status, 0, 0, none, none, none, lastSequence, none, none, none, none, none, none, none⟩

def early : PageEvent := .thread ⟨"c", [], none, some (row .running 1), none, 1⟩

def seen : List PageEvent := early :: log.map .observation

def later : List PageEvent := [.thread ⟨"c", [], none, none, some (row .completed 3), 3⟩, early]

def shown (s : ConversationControllerState) : Option (AgentRunStatus × Nat × String) :=
  s.activeRun.map fun a => (a.run.status, a.lastAppliedSequence, a.projection.text)

end Example

end Catalyst.ChatUi
