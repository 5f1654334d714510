import Mathlib
import Catalyst.WorkspaceCommands.Rows

/-!
# The life of a command

What one statement may do to the row of a command, and from it what holds over every order of
statements: who may claim a command, who may end it, that an ended row stays as it is, and that a
runner whose command was claimed by another does not hold it again.
-/

namespace Catalyst.WorkspaceCommands.Rows

open Library Jobs

/-- What a statement does to a row that is there before it and after it. -/
inductive Moved : Statement → WorkspaceCommandRow → WorkspaceCommandRow → Prop
  | same : Moved a c c
  | claimed : c.id = input.commandId → c.claimable input.leaseOwnerId now → Moved (.claim input now) c (input.set now c)
  | renewed : c.claimedBy commandId leaseToken → Moved (.renew commandId leaseToken leaseMs now) c
      { c with heartbeatAt := some now, leaseExpiresAt := some (now + leaseMs), updatedAt := now }
  | cancelling : c.id = commandId → c.Waiting →
      Moved (.requestCancellation commandId reason requestedAt) c (cancellationSet reason requestedAt c)
  | finished : c.claimedBy commandId leaseToken →
      Moved (.finish commandId leaseToken finish at') c (finish.set at' c)
  | cleanedUp : c.conversationId = conversationId → c.status = .queued →
      Moved (.markDeleted conversationId deletedAt) c (Rows.cleanedUp deletedAt c)

theorem Finish.set_id (finish : Finish) : (finish.set at' c).id = c.id := by
  cases finish <;> rfl

theorem Moved.ids (h : Moved a c r) : r.id = c.id := by
  cases h with
  | finished _ => exact Finish.set_id _
  | _ => rfl

theorem Moved.eq_of_terminal (h : Moved a c r) (hc : c.Terminal) : r = c := by
  have hw : ¬ c.Waiting := c.terminal_iff.mp hc
  cases h with
  | same => rfl
  | claimed _ hclaim =>
    refine absurd ?_ hw
    rcases hclaim with hq | ⟨hheld, -⟩
    · exact .inl hq
    · exact .inr hheld
  | renewed hby => exact absurd (.inr hby.2.2.2) hw
  | cancelling _ hwait => exact absurd hwait hw
  | finished hby => exact absurd (.inr hby.2.2.2) hw
  | cleanedUp _ hq => exact absurd (.inl hq) hw

theorem claimWorkspaceCommand_cases (rows : List WorkspaceCommandRow) (input : ClaimWorkspaceCommandInput) (now : Time) :
    (∃ c ∈ rows, (c.id = input.commandId ∧ c.claimable input.leaseOwnerId now) ∧
        claimWorkspaceCommand rows input now = (.claimed (input.set now c),
          updateWhere (fun x => x.id = input.commandId ∧ x.claimable input.leaseOwnerId now) (input.set now) rows)) ∨
      (claimWorkspaceCommand rows input now).2 = rows ∧
        ((claimWorkspaceCommand rows input now).1 = .held ∨ (claimWorkspaceCommand rows input now).1 = .finished) := by
  unfold claimWorkspaceCommand
  split
  · rename_i c hc
    exact .inl ⟨c, List.mem_of_find?_eq_some hc, by simpa using List.find?_some hc, rfl⟩
  · refine .inr ?_
    split
    · split
      · exact ⟨rfl, .inl rfl⟩
      · exact ⟨rfl, .inr rfl⟩
    · exact ⟨rfl, .inr rfl⟩

theorem finishClaimed_rows : (finishClaimed rows commandId leaseToken finish at').2
    = (updateClaimed rows commandId leaseToken (finish.set at')).2 := by
  unfold finishClaimed
  rcases h : updateClaimed rows commandId leaseToken (finish.set at') with ⟨_ | row, rows'⟩
  · rfl
  · rfl

theorem requestCancellation_rows : (requestWorkspaceCommandCancellation rows commandId reason requestedAt).2
    = updateWhere (fun c => c.id = commandId ∧ c.Waiting) (cancellationSet reason requestedAt) rows := by
  unfold requestWorkspaceCommandCancellation
  split
  · rfl
  · rename_i hnone
    rw [updateWhere_eq_self]
    simpa using hnone

theorem next_cases (s : State) (a : Statement) :
    (∃ commandId workspaceId conversationId queuedAt, a = .enqueue commandId workspaceId conversationId queuedAt ∧
      machine.next s a = ⟨enqueuedRow commandId workspaceId conversationId queuedAt :: s.rows,
        commandId :: s.drawn, s.claimants⟩) ∨
    (∃ input now, ∃ c ∈ s.rows, a = .claim input now ∧ (c.id = input.commandId ∧ c.claimable input.leaseOwnerId now) ∧
      machine.answer s a = .claim (.claimed (input.set now c)) ∧
      machine.next s a = ⟨updateWhere (fun x => x.id = input.commandId ∧ x.claimable input.leaseOwnerId now)
        (input.set now) s.rows, s.drawn, input.leaseToken :: s.claimants⟩) ∨
    (∃ input now, a = .claim input now ∧ machine.next s a = s ∧
      (machine.answer s a = .claim .held ∨ machine.answer s a = .claim .finished)) ∨
    (∃ commandId leaseToken leaseMs now, a = .renew commandId leaseToken leaseMs now ∧
      machine.next s a = ⟨(renewClaimedWorkspaceCommandLease s.rows commandId leaseToken leaseMs now).2,
        s.drawn, s.claimants⟩) ∨
    (∃ commandId reason requestedAt, a = .requestCancellation commandId reason requestedAt ∧
      machine.next s a = ⟨updateWhere (fun c => c.id = commandId ∧ c.Waiting)
        (cancellationSet reason requestedAt) s.rows, s.drawn, s.claimants⟩) ∨
    (∃ commandId leaseToken finish at', a = .finish commandId leaseToken finish at' ∧
      machine.next s a = ⟨(updateClaimed s.rows commandId leaseToken (finish.set at')).2, s.drawn, s.claimants⟩) ∨
    (∃ conversationId deletedAt, a = .markDeleted conversationId deletedAt ∧
      machine.next s a = ⟨markExecutionWorkspaceDeleted s.rows conversationId deletedAt, s.drawn, s.claimants⟩) := by
  cases a with
  | enqueue commandId workspaceId conversationId queuedAt =>
    exact .inl ⟨commandId, workspaceId, conversationId, queuedAt, rfl, rfl⟩
  | claim input now =>
    refine .inr ?_
    rcases claimWorkspaceCommand_cases s.rows input now with ⟨c, hc, hclaim, h⟩ | ⟨hrows, h⟩
    · exact .inl ⟨input, now, c, hc, rfl, hclaim, by simp [Machine.answer, machine, step, h],
        by simp [Machine.next, machine, step, h]⟩
    · refine .inr (.inl ⟨input, now, rfl, ?_⟩)
      rcases hclaim : claimWorkspaceCommand s.rows input now with ⟨answer, rows⟩
      rw [hclaim] at hrows h
      obtain rfl : rows = s.rows := hrows
      rcases h with rfl | rfl
      · exact ⟨by simp [Machine.next, machine, step, hclaim], .inl (by simp [Machine.answer, machine, step, hclaim])⟩
      · exact ⟨by simp [Machine.next, machine, step, hclaim], .inr (by simp [Machine.answer, machine, step, hclaim])⟩
  | renew commandId leaseToken leaseMs now =>
    exact .inr (.inr (.inr (.inl ⟨commandId, leaseToken, leaseMs, now, rfl, rfl⟩)))
  | requestCancellation commandId reason requestedAt =>
    refine .inr (.inr (.inr (.inr (.inl ⟨commandId, reason, requestedAt, rfl, ?_⟩))))
    rw [← requestCancellation_rows]
    rfl
  | finish commandId leaseToken finish at' =>
    refine .inr (.inr (.inr (.inr (.inr (.inl ⟨commandId, leaseToken, finish, at', rfl, ?_⟩)))))
    rw [← finishClaimed_rows]
    rfl
  | markDeleted conversationId deletedAt =>
    exact .inr (.inr (.inr (.inr (.inr (.inr ⟨conversationId, deletedAt, rfl, rfl⟩)))))

theorem mem_updateWhere_cases {p : WorkspaceCommandRow → Prop} [DecidablePred p]
    {f : WorkspaceCommandRow → WorkspaceCommandRow} (h : r ∈ updateWhere p f rows) :
    r ∈ rows ∨ ∃ c ∈ rows, p c ∧ r = f c := by
  obtain ⟨c, hc, rfl⟩ := mem_updateWhere.mp h
  split
  · rename_i hp
    exact .inr ⟨c, hc, hp, rfl⟩
  · exact .inl hc

theorem row_before (hr : r ∈ (machine.next s a).rows) :
    (∃ c ∈ s.rows, Moved a c r) ∨ ∃ commandId workspaceId conversationId queuedAt,
      a = .enqueue commandId workspaceId conversationId queuedAt ∧
        r = enqueuedRow commandId workspaceId conversationId queuedAt := by
  rcases next_cases s a with ⟨commandId, workspaceId, conversationId, queuedAt, ha, h⟩ |
    ⟨input, now, _, _, rfl, _, _, h⟩ | ⟨_, _, rfl, h, _⟩ | ⟨commandId, leaseToken, leaseMs, now, rfl, h⟩ |
    ⟨commandId, reason, requestedAt, rfl, h⟩ | ⟨commandId, leaseToken, finish, at', rfl, h⟩ |
    ⟨conversationId, deletedAt, rfl, h⟩ <;> rw [h] at hr
  · rcases List.mem_cons.mp hr with rfl | hr
    · exact .inr ⟨commandId, workspaceId, conversationId, queuedAt, ha, rfl⟩
    · exact .inl ⟨r, hr, .same⟩
  · rcases mem_updateWhere_cases hr with hr | ⟨c, hc, hclaim, rfl⟩
    · exact .inl ⟨r, hr, .same⟩
    · exact .inl ⟨c, hc, .claimed hclaim.1 hclaim.2⟩
  · exact .inl ⟨r, hr, .same⟩
  · rcases mem_updateWhere_cases hr with hr | ⟨c, hc, hby, rfl⟩
    · exact .inl ⟨r, hr, .same⟩
    · exact .inl ⟨c, hc, .renewed hby⟩
  · rcases mem_updateWhere_cases hr with hr | ⟨c, hc, hwait, rfl⟩
    · exact .inl ⟨r, hr, .same⟩
    · exact .inl ⟨c, hc, .cancelling hwait.1 hwait.2⟩
  · rcases mem_updateWhere_cases hr with hr | ⟨c, hc, hby, rfl⟩
    · exact .inl ⟨r, hr, .same⟩
    · exact .inl ⟨c, hc, .finished hby⟩
  · rcases mem_updateWhere_cases (mem_deleteWhere.mp hr).1 with hr | ⟨c, hc, hq, rfl⟩
    · exact .inl ⟨r, hr, .same⟩
    · exact .inl ⟨c, hc, .cleanedUp hq.1 hq.2⟩

/-- A row before a statement is there after it, but for the ended ones that a clean-up removes. -/
theorem row_after (hc : c ∈ s.rows) :
    (∃ r ∈ (machine.next s a).rows, Moved a c r) ∨
      (c.Terminal ∧ ∃ deletedAt, a = .markDeleted c.conversationId deletedAt) := by
  have hmoved : ∀ {p : WorkspaceCommandRow → Prop} [DecidablePred p] {f : WorkspaceCommandRow → WorkspaceCommandRow},
      (p c → Moved a c (f c)) → ∃ r ∈ updateWhere p f s.rows, Moved a c r := by
    intro p _ f hf
    by_cases hp : p c
    · exact ⟨f c, mem_updateWhere_of_mem hc hp, hf hp⟩
    · exact ⟨c, mem_updateWhere_of_not hc hp, .same⟩
  rcases next_cases s a with ⟨_, _, _, _, rfl, h⟩ | ⟨input, now, _, _, rfl, _, _, h⟩ | ⟨_, _, rfl, h, _⟩ |
    ⟨commandId, leaseToken, leaseMs, now, rfl, h⟩ | ⟨commandId, reason, requestedAt, rfl, h⟩ |
    ⟨commandId, leaseToken, finish, at', rfl, h⟩ | ⟨conversationId, deletedAt, rfl, h⟩ <;> rw [h]
  · exact .inl ⟨c, List.mem_cons_of_mem _ hc, .same⟩
  · exact .inl (hmoved fun hp => .claimed hp.1 hp.2)
  · exact .inl ⟨c, hc, .same⟩
  · exact .inl (hmoved fun hp => .renewed hp)
  · exact .inl (hmoved fun hp => .cancelling hp.1 hp.2)
  · exact .inl (hmoved fun hp => .finished hp)
  · by_cases hq : c.conversationId = conversationId ∧ c.status = .queued
    · refine .inl ⟨cleanedUp deletedAt c, mem_deleteWhere.mpr ⟨mem_updateWhere_of_mem hc hq, ?_⟩, .cleanedUp hq.1 hq.2⟩
      rintro ⟨-, -, hbefore⟩
      exact Nat.lt_irrefl _ (hbefore deletedAt rfl)
    · have hstays : c ∈ updateWhere (fun c => c.conversationId = conversationId ∧ c.status = .queued)
          (cleanedUp deletedAt) s.rows := mem_updateWhere_of_not hc hq
      by_cases hdel : c.conversationId = conversationId ∧ c.Terminal ∧ ∀ e ∈ c.completedAt, e < deletedAt
      · obtain ⟨rfl, hterm, -⟩ := hdel
        exact .inr ⟨hterm, deletedAt, rfl⟩
      · exact .inl ⟨c, mem_deleteWhere.mpr ⟨hstays, hdel⟩, .same⟩

theorem Finish.set_terminal (finish : Finish) : (finish.set at' c).Terminal := by
  cases finish with
  | complete _ => exact .inl rfl
  | fail _ _ => exact .inr (.inl rfl)
  | cancel _ _ => exact .inr (.inr rfl)

theorem cancellationSet_status (reason : Option String) (requestedAt : Time) (hw : c.Waiting) :
    (c.status = .queued ∧ (cancellationSet reason requestedAt c).status = .cancelled) ∨
      (c.Claimed ∧ (cancellationSet reason requestedAt c).status = .cancelling ∧
        (cancellationSet reason requestedAt c).leaseToken = c.leaseToken) := by
  rcases hw with hq | hheld
  · exact .inl ⟨hq, if_pos hq⟩
  · have hq : c.status ≠ .queued := by rcases hheld with h | h <;> simp [h]
    exact .inr ⟨hheld, if_neg hq, if_neg hq⟩

/-- A statement that ends a command names the token of its row, or the command waits in the queue. -/
theorem Moved.ends (h : Moved a c r) (hc : ¬ c.Terminal) (hr : r.Terminal) :
    (∃ leaseToken finish at', a = .finish c.id leaseToken finish at' ∧ c.Claimed ∧ c.leaseToken = some leaseToken) ∨
      (c.status = .queued ∧ r.status = .cancelled ∧
        ((∃ reason requestedAt, a = .requestCancellation c.id reason requestedAt) ∨
          ∃ deletedAt, a = .markDeleted c.conversationId deletedAt)) := by
  cases h with
  | same => exact absurd hr hc
  | claimed _ _ =>
    rcases hr with h | h | h
    · cases h
    · cases h
    · cases h
  | renewed _ => exact absurd hr hc
  | cancelling hid hwait =>
    rename_i reason requestedAt
    rcases cancellationSet_status reason requestedAt hwait with
      ⟨hq, hcancelled⟩ | ⟨-, hcancelling, -⟩
    · exact .inr ⟨hq, hcancelled, .inl ⟨reason, requestedAt, by rw [hid]⟩⟩
    · simp [WorkspaceCommandRow.Terminal, hcancelling] at hr
  | finished hby =>
    rename_i finish at'
    obtain ⟨hid, -, htoken, hheld⟩ := hby
    exact .inl ⟨_, finish, at', by rw [hid], hheld, htoken⟩
  | cleanedUp hconv hq => exact .inr ⟨hq, rfl, .inr ⟨_, by rw [hconv]⟩⟩

/-- A runner that holds a command after a statement held it before, or has just claimed it. -/
theorem Moved.holds (h : Moved a c r) (hr : r.claimedBy commandId leaseToken) :
    c.claimedBy commandId leaseToken ∨ ∃ input now, a = .claim input now ∧ input.leaseToken = leaseToken := by
  obtain ⟨hid, hsome, htoken, hheld⟩ := hr
  have hrid := h.ids
  have hnot : ¬ r.Terminal := fun ht => r.terminal_iff.mp ht (.inr hheld)
  cases h with
  | same => exact .inl ⟨hid, hsome, htoken, hheld⟩
  | claimed _ _ => exact .inr ⟨_, _, rfl, Option.some.inj htoken⟩
  | renewed hby => exact .inl ⟨hid, hsome, htoken, hby.2.2.2⟩
  | cancelling hcid hwait =>
    rename_i reason requestedAt
    rcases cancellationSet_status reason requestedAt hwait with
      ⟨-, hcancelled⟩ | ⟨hc, -, htoken'⟩
    · exact absurd (.inr (.inr hcancelled)) hnot
    · exact .inl ⟨hid, hsome, htoken'.symm.trans htoken, hc⟩
  | finished _ => exact absurd (Finish.set_terminal _) hnot
  | cleanedUp _ _ => exact absurd (.inr (.inr rfl)) hnot

structure Valid (s : State) : Prop where
  ids : (s.rows.map (·.id)).Nodup
  drawn : ∀ c ∈ s.rows, c.id ∈ s.drawn

theorem next_drawn (h : commandId ∈ s.drawn) : commandId ∈ (machine.next s a).drawn := by
  rcases next_cases s a with ⟨_, _, _, _, _, hn⟩ | ⟨_, _, _, _, _, _, _, hn⟩ | ⟨_, _, _, hn, _⟩ | ⟨_, _, _, _, _, hn⟩ |
    ⟨_, _, _, _, hn⟩ | ⟨_, _, _, _, _, hn⟩ | ⟨_, _, _, hn⟩ <;> rw [hn]
  · exact List.mem_cons_of_mem _ h
  all_goals exact h

theorem next_claimants (h : token ∈ s.claimants) : token ∈ (machine.next s a).claimants := by
  rcases next_cases s a with ⟨_, _, _, _, _, hn⟩ | ⟨_, _, _, _, _, _, _, hn⟩ | ⟨_, _, _, hn, _⟩ | ⟨_, _, _, _, _, hn⟩ |
    ⟨_, _, _, _, hn⟩ | ⟨_, _, _, _, _, hn⟩ | ⟨_, _, _, hn⟩ <;> rw [hn]
  · exact h
  · exact List.mem_cons_of_mem _ h
  all_goals exact h

theorem nodup_ids_updateWhere {p : WorkspaceCommandRow → Prop} [DecidablePred p]
    {f : WorkspaceCommandRow → WorkspaceCommandRow} (hf : ∀ c, (f c).id = c.id) (h : (rows.map (·.id)).Nodup) :
    ((updateWhere p f rows).map (·.id)).Nodup := by
  rw [map_updateWhere _ fun c _ => hf c]
  exact h

theorem next_ids (hs : Valid s) (he : machine.enabled s a) : ((machine.next s a).rows.map (·.id)).Nodup := by
  rcases next_cases s a with ⟨commandId, _, _, _, rfl, hn⟩ | ⟨_, _, _, _, _, _, _, hn⟩ | ⟨_, _, _, hn, _⟩ |
    ⟨_, _, _, _, _, hn⟩ | ⟨_, _, _, _, hn⟩ | ⟨_, _, finish, _, _, hn⟩ | ⟨_, _, _, hn⟩ <;> rw [hn]
  · refine List.nodup_cons.mpr ⟨fun hm => ?_, hs.ids⟩
    obtain ⟨c, hc, hid⟩ := List.mem_map.mp hm
    have hid : c.id = commandId := hid
    exact he (hid ▸ hs.drawn c hc)
  · exact nodup_ids_updateWhere (fun _ => rfl) hs.ids
  · exact hs.ids
  · exact nodup_ids_updateWhere (fun _ => rfl) hs.ids
  · exact nodup_ids_updateWhere (fun _ => rfl) hs.ids
  · exact nodup_ids_updateWhere (fun _ => finish.set_id) hs.ids
  · exact map_deleteWhere_nodup _ (nodup_ids_updateWhere (fun _ => rfl) hs.ids)

theorem preserves_valid : machine.Preserves Valid := by
  intro s a hs he
  refine ⟨next_ids hs he, fun r hr => ?_⟩
  rcases row_before hr with ⟨c, hc, hmoved⟩ | ⟨commandId, _, _, _, rfl, rfl⟩
  · rw [hmoved.ids]
    exact next_drawn (hs.drawn c hc)
  · exact List.mem_cons_self

theorem reachable_valid (hs : machine.Reachable s) : Valid s := by
  refine hs.invariant (fun s h => ?_) preserves_valid
  subst h
  exact ⟨List.nodup_nil, fun _ hc => absurd hc List.not_mem_nil⟩

theorem moved_of_id (hs : Valid s) (he : machine.enabled s a) (hc : c ∈ s.rows) (hr : r ∈ (machine.next s a).rows)
    (hid : r.id = c.id) : Moved a c r := by
  rcases row_before hr with ⟨x, hx, hmoved⟩ | ⟨commandId, _, _, _, rfl, rfl⟩
  · obtain rfl : x = c := eq_of_key hs.ids hx hc (hmoved.ids.symm.trans hid)
    exact hmoved
  · have hid : commandId = c.id := hid
    exact absurd (hid ▸ hs.drawn c hc) he

def Holds (s : State) (leaseToken : LeaseToken) (commandId : String) : Prop :=
  ∃ c ∈ s.rows, c.claimedBy commandId leaseToken

def ClaimsFree (s : State) : Prop :=
  ∀ input now row, machine.answer s (.claim input now) = .claim (.claimed row) →
    ∃ c ∈ s.rows, c.id = input.commandId ∧ (c.status = .queued ∨
      (c.Claimed ∧ ((∀ e ∈ c.leaseExpiresAt, e ≤ now) ∨ c.leaseOwner = some input.leaseOwnerId)))

/-- A command is ended under the token on its row, or cancelled while it waits in the queue. -/
def EndsHeld (s : State) : Prop :=
  ∀ a, machine.enabled s a → ∀ c ∈ s.rows, ¬ c.Terminal → ∀ r ∈ (machine.next s a).rows, r.id = c.id → r.Terminal →
    (∃ leaseToken finish at', a = .finish c.id leaseToken finish at' ∧ Holds s leaseToken c.id) ∨
      (c.status = .queued ∧ r.status = .cancelled ∧
        ((∃ reason requestedAt, a = .requestCancellation c.id reason requestedAt) ∨
          ∃ deletedAt, a = .markDeleted c.conversationId deletedAt))

def EndedStays (s : State) (h : List (Statement × Answer)) (t : State) : Prop :=
  ∀ c ∈ s.rows, c.Terminal → (∀ r ∈ t.rows, r.id = c.id → r = c) ∧
    (c ∈ t.rows ∨ ∃ deletedAt, (.markDeleted c.conversationId deletedAt, .done) ∈ h)

def NeverAgain (s t : State) : Prop :=
  ∀ leaseToken ∈ s.claimants, ∀ commandId, ¬ Holds s leaseToken commandId → ¬ Holds t leaseToken commandId

theorem claimsFree (s : State) : ClaimsFree s := by
  intro input now row hanswer
  rcases claimWorkspaceCommand_cases s.rows input now with ⟨c, hc, ⟨hid, hclaim⟩, -⟩ | ⟨-, h⟩
  · exact ⟨c, hc, hid, hclaim⟩
  · have hstep : machine.answer s (.claim input now) = .claim (claimWorkspaceCommand s.rows input now).1 := by
      rcases hclaim : claimWorkspaceCommand s.rows input now with ⟨answer, rows⟩
      cases answer <;> simp [Machine.answer, machine, step, hclaim]
    rw [hstep] at hanswer
    rcases h with h | h <;> rw [h] at hanswer <;> cases hanswer

theorem endsHeld (hs : Valid s) : EndsHeld s := by
  intro a he c hc hlive r hr hid hterm
  rcases (moved_of_id hs he hc hr hid).ends hlive hterm with ⟨leaseToken, finish, at', ha, hheld, htoken⟩ | hqueued
  · exact .inl ⟨leaseToken, finish, at', ha, c, hc, rfl, rfl, htoken, hheld⟩
  · exact .inr hqueued

theorem holder_unique (hs : Valid s) (h : Holds s leaseToken commandId) (h' : Holds s leaseToken' commandId) :
    leaseToken = leaseToken' := by
  obtain ⟨c, hc, hid, -, htoken, -⟩ := h
  obtain ⟨c', hc', hid', -, htoken', -⟩ := h'
  obtain rfl : c = c' := eq_of_key hs.ids hc hc' (hid.trans hid'.symm)
  exact Option.some.inj (htoken.symm.trans htoken')

theorem preserves_ended {c : WorkspaceCommandRow} (hc : c.Terminal) :
    machine.Preserves fun t => c.id ∈ t.drawn ∧ ∀ r ∈ t.rows, r.id = c.id → r = c := by
  rintro t a ⟨hdrawn, hrows⟩ he
  refine ⟨next_drawn hdrawn, fun r hr hid => ?_⟩
  rcases row_before hr with ⟨x, hx, hmoved⟩ | ⟨commandId, _, _, _, rfl, rfl⟩
  · obtain rfl : x = c := hrows x hx (hmoved.ids.symm.trans hid)
    exact hmoved.eq_of_terminal hc
  · have hid : commandId = c.id := hid
    exact absurd (hid ▸ hdrawn) he

theorem endedStays (hs : Valid s) (hr : machine.Run s h t) : EndedStays s h t := by
  intro c hc hterm
  refine ⟨(hr.preserves (preserves_ended hterm) ⟨hs.drawn c hc, fun r hr hid => eq_of_key hs.ids hr hc hid⟩).2, ?_⟩
  refine @Machine.Run.history _ _ _ machine _ _ _ []
    (fun h t => c ∈ t.rows ∨ ∃ deletedAt, (.markDeleted c.conversationId deletedAt, .done) ∈ h)
    (fun h t a hP _ => ?_) hr (.inl hc)
  rcases hP with hct | ⟨deletedAt, hm⟩
  · rcases row_after (a := a) hct with ⟨r, hr, hmoved⟩ | ⟨-, deletedAt, rfl⟩
    · exact .inl (hmoved.eq_of_terminal hterm ▸ hr)
    · exact .inr ⟨deletedAt, List.mem_append_right _ (List.mem_singleton.mpr rfl)⟩
  · exact .inr ⟨deletedAt, List.mem_append_left _ hm⟩

theorem neverAgain (hr : machine.Run s h t) : NeverAgain s t := by
  intro leaseToken hclaimant commandId hnot
  refine (hr.preserves (I := fun t => leaseToken ∈ t.claimants ∧ ¬ Holds t leaseToken commandId) ?_
    ⟨hclaimant, hnot⟩).2
  rintro t a ⟨hclaimant, hnot⟩ he
  refine ⟨next_claimants hclaimant, ?_⟩
  rintro ⟨r, hr, hby⟩
  rcases row_before hr with ⟨c, hc, hmoved⟩ | ⟨_, _, _, _, -, rfl⟩
  · rcases hmoved.holds hby with hby | ⟨input, now, rfl, rfl⟩
    · exact hnot ⟨c, hc, hby⟩
    · exact he hclaimant
  · rcases hby.2.2.2 with hq | hq
    · cases hq
    · cases hq

theorem command_lifecycle (hs : machine.Reachable s) :
    ClaimsFree s ∧ EndsHeld s ∧
      (∀ commandId leaseToken leaseToken', Holds s leaseToken commandId → Holds s leaseToken' commandId →
        leaseToken = leaseToken') ∧
      ∀ h t, machine.Run s h t → EndedStays s h t ∧ NeverAgain s t := by
  have hvalid := reachable_valid hs
  exact ⟨claimsFree s, endsHeld hvalid, fun _ _ _ => holder_unique hvalid,
    fun h t hr => ⟨endedStays hvalid hr, neverAgain hr⟩⟩

/-- What a statement makes of the commands without their results. -/
def Statement.onCommands (commands : List WorkspaceCommand) : Statement → List WorkspaceCommand
  | .enqueue commandId workspaceId conversationId _ => queuedCommand commandId workspaceId conversationId :: commands
  | .claim input now => (WorkspaceCommands.claimWorkspaceCommand commands input.commandId input.leaseOwnerId
      input.leaseToken input.leaseMs now).2
  | .renew commandId leaseToken _ now => WorkspaceCommands.renewClaimedWorkspaceCommandLease commands commandId leaseToken now
  | .requestCancellation commandId _ _ => WorkspaceCommands.requestWorkspaceCommandCancellation commands commandId
  | .finish commandId leaseToken how _ => (endClaimedCommand commands commandId (some leaseToken) how.ending).getD commands
  | .markDeleted _ _ => commands

/-- A lease is renewed for the time of the job's, and no conversation is cleaned up. -/
def Statement.OfRunners : Statement → Prop
  | .renew _ _ leaseMs _ => leaseMs = WORKSPACE_COMMAND_LEASE_MS
  | .markDeleted _ _ => False
  | _ => True

/-- What the runners are answered: how a claim ended, and whether the end of a command was recorded. -/
def AnswersAgree (s : State) : Prop :=
  (∀ input now claim, machine.answer s (.claim input now) = .claim claim →
    claim.toClaim = (WorkspaceCommands.claimWorkspaceCommand (commandsOf s.rows) input.commandId input.leaseOwnerId
      input.leaseToken input.leaseMs now).1) ∧
  ∀ commandId leaseToken finish at', (∃ row, machine.answer s (.finish commandId leaseToken finish at') = .row row) ↔
    (endClaimedCommand (commandsOf s.rows) commandId (some leaseToken) finish.ending).isSome

theorem next_claim (s : State) (input : ClaimWorkspaceCommandInput) (now : Time) :
    (machine.next s (.claim input now)).rows = (claimWorkspaceCommand s.rows input now).2 ∧
      machine.answer s (.claim input now) = .claim (claimWorkspaceCommand s.rows input now).1 := by
  rcases h : claimWorkspaceCommand s.rows input now with ⟨answer, rows⟩
  cases answer <;> simp [Machine.next, Machine.answer, machine, step, h]

theorem finishClaimed_error (h : (finishClaimed rows commandId leaseToken finish at').1 = .error e) :
    (finishClaimed rows commandId leaseToken finish at').2 = rows := by
  rw [finishClaimed_rows]
  unfold finishClaimed at h
  split at h
  · cases h
  · rename_i rows' hnone
    have hfind : (rows.find? fun c => c.claimedBy commandId leaseToken).map (finish.set at') = none := congrArg Prod.fst hnone
    exact updateWhere_eq_self (by simpa using hfind)

theorem answersAgree (hids : (s.rows.map (·.id)).Nodup) : AnswersAgree s := by
  constructor
  · intro input now claim h
    rw [(next_claim s input now).2] at h
    obtain rfl := Answer.claim.inj h
    rw [claim_commandsOf hids]
  · intro commandId leaseToken finish at'
    rw [finish_commandsOf s.rows finish at']
    change (∃ row, Answer.ofExcept (finishClaimed s.rows commandId leaseToken finish at').1 = .row row) ↔ _
    cases (finishClaimed s.rows commandId leaseToken finish at').1 with
    | ok row => exact ⟨fun _ => rfl, fun _ => ⟨row, rfl⟩⟩
    | error e =>
      constructor
      · rintro ⟨row, h⟩
        cases h
      · intro h
        cases h

theorem next_commandsOf (hids : (s.rows.map (·.id)).Nodup) (ha : a.OfRunners) :
    commandsOf (machine.next s a).rows = a.onCommands (commandsOf s.rows) := by
  cases a with
  | enqueue commandId workspaceId conversationId queuedAt => rfl
  | claim input now =>
    rw [(next_claim s input now).1, Statement.onCommands, claim_commandsOf hids]
  | renew commandId leaseToken leaseMs now =>
    obtain rfl : leaseMs = WORKSPACE_COMMAND_LEASE_MS := ha
    exact renew_commandsOf s.rows
  | requestCancellation commandId reason requestedAt => exact requestCancellation_commandsOf s.rows
  | finish commandId leaseToken finish at' =>
    rw [Statement.onCommands, finish_commandsOf s.rows finish at']
    change commandsOf (finishClaimed s.rows commandId leaseToken finish at').2 = _
    cases h : (finishClaimed s.rows commandId leaseToken finish at').1 with
    | ok row => rfl
    | error e => rw [finishClaimed_error h]; rfl
  | markDeleted conversationId deletedAt => exact ha.elim

/-- The commands of the runners are the rows without their results: over any run their statements make of the one what
they make of the other, and answer the runners the same. -/
theorem rows_refine (hs : machine.Reachable s) (hr : (machine.when fun _ a => a.OfRunners).Run s h t) :
    commandsOf t.rows = h.foldl (fun commands entry => entry.1.onCommands commands) (commandsOf s.rows) ∧ AnswersAgree t := by
  refine ⟨?_, answersAgree (reachable_valid (hs.run hr.of_when)).ids⟩
  induction hr with
  | nil => rfl
  | cons henabled _ ih =>
    rw [List.foldl_cons, ← next_commandsOf (reachable_valid hs).ids henabled.2]
    exact ih (hs.next henabled.1)

namespace Example

def start : State := ⟨[], [], []⟩

def output : WorkspaceCommandOutput := ⟨0, "ok", "", 12, [], [], ⟨false, false⟩⟩

def enqueue : Statement := .enqueue "wcmd_1" "exec_1" "conv_1" 0

/-- Claims of the job `7` under its own token and under that of the job's end. -/
def claim : Statement := .claim ⟨"wcmd_1", 7, 1, WORKSPACE_COMMAND_LEASE_MS⟩ 10

def secondClaim : Statement := .claim ⟨"wcmd_1", 7, 2, LOST_COMMAND_LEASE_MS⟩ 20

def cancel : Statement := .requestCancellation "wcmd_1" (some "stopped") 5

theorem reachable (h : machine.Allows start as) : machine.Reachable (machine.after start as) :=
  ⟨start, _, rfl, h.run⟩

def completed : State := machine.after start [enqueue, claim, .finish "wcmd_1" 1 (.complete output) 15]

def waiting : State := machine.after start [enqueue]

def running : State := machine.after start [enqueue, claim]

end Example

open Example in
theorem command_lifecycle_completed :
    EndedStays completed (machine.history completed [cancel, secondClaim]) (machine.after completed [cancel, secondClaim]) ∧
      NeverAgain completed (machine.after completed [cancel, secondClaim]) :=
  (command_lifecycle (reachable (by decide))).2.2.2 _ _ (Machine.Allows.run (by decide))

open Example in
theorem rows_refine_completed :
    commandsOf completed.rows = (machine.history start [enqueue, claim, .finish "wcmd_1" 1 (.complete output) 15]).foldl
        (fun commands entry => entry.1.onCommands commands) (commandsOf start.rows) ∧ AnswersAgree completed :=
  have hallows : (machine.when fun _ a => a.OfRunners).Allows start
      [enqueue, claim, .finish "wcmd_1" 1 (.complete output) 15] :=
    ⟨⟨by decide, trivial⟩, ⟨by decide, trivial⟩, ⟨trivial, trivial⟩, trivial⟩
  rows_refine ⟨start, [], rfl, .nil⟩ hallows.run

open Example in
/-- The lease on the row is live, and its token is not the claimant's; and a command is ended with
no token. -/
theorem claim_of_live_row :
    (¬ ∀ s, machine.Reachable s → ∀ input now row,
        machine.answer s (.claim input now) = .claim (.claimed row) →
        ∃ c ∈ s.rows, c.id = input.commandId ∧
          (c.status = .queued ∨ ¬ (c.Claimed ∧ c.leaseToken.isSome ∧ ∃ e ∈ c.leaseExpiresAt, now < e))) ∧
      ¬ ∀ s, machine.Reachable s → ∀ a, machine.enabled s a → ∀ c ∈ s.rows, ¬ c.Terminal →
        ∀ r ∈ (machine.next s a).rows, r.id = c.id → r.Terminal →
          ∃ leaseToken finish at', a = .finish c.id leaseToken finish at' ∧ Holds s leaseToken c.id := by
  constructor
  · intro h
    obtain ⟨c, hc, -, hfree⟩ := h running (reachable (by decide)) ⟨"wcmd_1", 7, 2, LOST_COMMAND_LEASE_MS⟩ 20 _ rfl
    obtain rfl : c = _ := List.mem_singleton.mp hc
    revert hfree
    decide
  · intro h
    obtain ⟨_, _, _, ha, -⟩ := h waiting (reachable (by decide)) cancel trivial _ List.mem_cons_self (by decide)
      _ List.mem_cons_self rfl (by decide)
    cases ha

end Catalyst.WorkspaceCommands.Rows
