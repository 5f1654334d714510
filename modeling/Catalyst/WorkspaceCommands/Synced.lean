import Catalyst.WorkspaceCommands.Steps

/-!
# The files after the commands

A runner checks its lease when it claims the row and when it records the end, and nowhere between.
So its writes are those of a command that ended under its lease only where no lease ends on a runner
that has files to write, or written files to record.
-/

namespace Catalyst.WorkspaceCommands

open Library Jobs
open ExecutionWorkspaces (WorkspaceFile)

variable {instanceId : ClientInstanceId} {keyOf : ObjectKeyFactory}

-- -----------------
-- The files of one workspace
-- -----------------

theorem find?_filesOf (key : String × String) {q : WorkspaceFile → Prop} [DecidablePred q]
    (hq : ∀ f, q f → f.key = key) (files : List WorkspaceFile) :
    (filesOf key.1 files).find? q = files.find? q := by
  rw [filesOf, List.find?_filter]
  congr 1
  funext f
  by_cases h : q f
  · have hw : f.workspaceId = key.1 := congrArg Prod.fst (hq f h)
    simp [h, hw]
  · simp [h]

theorem workspaceId_of_find? {key : String × String} {files : List WorkspaceFile}
    (h : files.find? (fun f => f.key = key ∧ f.deletedAt = none) = some f) : f.workspaceId = key.1 := by
  have hf := List.find?_some h
  simp only [decide_eq_true_eq] at hf
  exact congrArg Prod.fst hf.1

theorem filesOf_apply (x : FileWrite) (files : List WorkspaceFile) :
    filesOf x.workspaceId (x.apply files) = x.apply (filesOf x.workspaceId files) := by
  cases x with
  | put input conversationId =>
    have hfind := find?_filesOf (input.workspaceId, input.path) (fun _ h => h) files
    simp only [FileWrite.apply, FileWrite.workspaceId] at hfind ⊢
    rw [hfind]
    exact filter_upsert_of_pos fun f h => congrArg Prod.fst h
  | remove input =>
    have hfind := find?_filesOf (input.workspaceId, input.path)
      (q := fun f => f.key = (input.workspaceId, input.path) ∧ f.deletedAt = none) (fun _ h => h.1) files
    simp only [FileWrite.apply, FileWrite.workspaceId] at hfind ⊢
    rw [hfind]
    split
    · rfl
    · rename_i existing hex
      have hkey : existing.workspaceId = input.workspaceId := workspaceId_of_find? hex
      exact filter_upsert_of_pos fun f h => (congrArg Prod.fst h).trans hkey

theorem filesOf_apply_of_ne {x : FileWrite} (h : x.workspaceId ≠ w) (files : List WorkspaceFile) :
    filesOf w (x.apply files) = filesOf w files := by
  cases x with
  | put input conversationId =>
    exact filter_upsert_of_neg fun f hf hw => h ((congrArg Prod.fst hf).symm.trans hw)
  | remove input =>
    simp only [FileWrite.apply]
    split
    · rfl
    · rename_i existing hex
      have hkey : existing.workspaceId = input.workspaceId := workspaceId_of_find? hex
      exact filter_upsert_of_neg fun f hf hw => h (hkey.symm.trans ((congrArg Prod.fst hf).symm.trans hw))

theorem SyncItem.write_workspaceId (item : SyncItem) : (item.write keyOf c t).workspaceId = c.workspaceId := by
  cases item <;> rfl

def Runner.writtenIn (w : String) (r : Runner) : List FileWrite :=
  if r.row.concurrencyKey = some w then r.phase.written else []

def State.unrecorded (s : State) (w : String) : List FileWrite := s.runners.flatMap (Runner.writtenIn w)

def Answer.syncIn (w : String) : Answer → List FileWrite
  | recorded _ workspaceId written => if workspaceId = w then written else []
  | done => []

def syncsOf (w : String) (h : List (Step × Answer)) : List FileWrite := h.flatMap fun x => x.2.syncIn w

def State.Idle (s : State) (w : String) : Prop := ∀ c ∈ s.commands, c.workspaceId = w → ¬ c.Claimed
  deriving Decidable

def State.Stale (s : State) (r : Runner) (clock : Time) : Prop :=
  ¬ s.Holds r clock ∨ ∃ c, r.phase.command? = some c ∧ ¬ ClaimedUnder s.commands c

/-- No lease ends on a runner that has files to write or to record: none runs out and none is given
back; no runner dies after its first write; and where the lease is over when the process has ended,
the process left the files as they were. -/
def Covered (s : State) (st : Step) : Prop :=
  (∀ r ∈ s.runners, r.phase.AtWork → s.Holds r st.clock) ∧
    match st.action with
    | .release _ r => ¬ r.phase.AtWork
    | .kill r => r.phase.written = []
    | .act r (.endProcess scanned) =>
      match r.phase with
      | .running _ baseline => syncItems baseline scanned = [] ∨ s.Holds r st.clock
      | _ => True
    | _ => True

-- -----------------
-- A step that is covered
-- -----------------

/-- Who has work holds its lease; what a step writes is recorded with it or waits for the record. -/
structure SyncedStep (s : State) (answer : Answer) (s' : State) (clock : Time) : Prop where
  held : ∀ r ∈ s'.runners, r.phase.AtWork → s'.Holds r clock
  files : ∀ w, ∃ more, filesOf w s'.files = replay (filesOf w s.files) more ∧
    answer.syncIn w ++ s'.unrecorded w = s.unrecorded w ++ more

theorem SyncedStep.calm (held : ∀ r ∈ s'.runners, r.phase.AtWork → s'.Holds r clock) (hfiles : s'.files = s.files)
    (hwritten : ∀ w, answer.syncIn w ++ s'.unrecorded w = s.unrecorded w) : SyncedStep s answer s' clock :=
  ⟨held, fun w => ⟨[], by rw [hfiles]; rfl, by rw [hwritten, List.append_nil]⟩⟩

section Steps

variable {s s' : State} {r : Runner} {now clock : Time} {a : Jobs.Action}

def WorkHeld (s : State) (clock : Time) : Prop := ∀ r ∈ s.runners, r.phase.AtWork → s.Holds r clock

theorem Phase.not_atWork {p : Phase} (hw : p.written = []) (hrest : p.rest = []) : ¬ p.AtWork := by
  rintro (h | h)
  · exact h hw
  · exact h hrest

theorem CommandsOk.work_next (h : CommandsOk instanceId s) (hheld : WorkHeld s clock) (hn : now ≤ clock)
    (a : Jobs.Action) (hr : r ∈ s.runners) (hwork : r.phase.AtWork) (ha : ¬ a.Ends r.lease) :
    ∃ x ∈ ((executor catalog).next s.jobs ⟨now, clock, a⟩).queue.rows, x.heldBy r.lease clock :=
  transact_held h.jobs.queue.ids_nodup (hheld r hr hwork) hn ha

theorem advance_held (h : CommandsOk instanceId s) (hr : r ∈ s.runners)
    (hrunners : s'.runners = (s.advance r phase).runners) (hothers : ∀ x ∈ s.runners, x.phase.AtWork → s'.Holds x clock)
    (hphase : phase.AtWork → s'.Holds r clock) : ∀ x ∈ s'.runners, x.phase.AtWork → s'.Holds x clock := by
  intro x hx hwork
  rw [hrunners] at hx
  rcases (mem_advance h.leases hr).mp hx with rfl | ⟨hx, _⟩
  · exact hphase hwork
  · exact hothers x hx hwork

theorem CommandsOk.unrecorded_advance (h : CommandsOk instanceId s) (hr : r ∈ s.runners)
    (hrunners : s'.runners = (s.advance r phase).runners) (hp : phase.written = r.phase.written) (w : String) :
    s'.unrecorded w = s.unrecorded w := by
  unfold State.unrecorded
  rw [hrunners]
  refine flatMap_updateWhere fun x hx hlease => ?_
  obtain rfl := eq_of_key h.leases hx hr hlease
  simp [Runner.writtenIn, hp]

theorem CommandsOk.unrecorded_leave (h : CommandsOk instanceId s) (hr : r ∈ s.runners) (hp : r.phase.written = [])
    (w : String) : (s.leave r).unrecorded w = s.unrecorded w := by
  refine flatMap_deleteWhere fun x hx hlease => ?_
  obtain rfl := eq_of_key h.leases hx hr hlease
  simp [Runner.writtenIn, hp]

theorem CommandsOk.unrecorded_other (h : CommandsOk instanceId s) (hr : r ∈ s.runners)
    (hrunners : s'.runners = (s.advance r phase).runners) (hw : r.row.concurrencyKey ≠ some w) :
    s'.unrecorded w = s.unrecorded w := by
  unfold State.unrecorded
  rw [hrunners]
  refine flatMap_updateWhere fun x hx hlease => ?_
  obtain rfl := eq_of_key h.leases hx hr hlease
  simp [Runner.writtenIn, hw]

/-- Where one runner of the workspace has work, no other has written anything there. -/
theorem CommandsOk.unrecorded_eq (h : CommandsOk instanceId s) (hheld : WorkHeld s clock) (hr : r ∈ s.runners)
    (hwork : r.phase.AtWork) (hw : r.row.concurrencyKey = some w) :
    s.unrecorded w = r.phase.written ∧
      ∀ (s' : State) (phase : Phase), s'.runners = (s.advance r phase).runners → s'.unrecorded w = phase.written := by
  have hothers : ∀ x ∈ s.runners, x.lease ≠ r.lease → x.writtenIn w = [] := by
    intro x hx hne
    unfold Runner.writtenIn
    split
    · rename_i hxw
      by_contra hwritten
      exact hne (h.alone hx hr (hxw.trans hw.symm) (hheld x hx (.inl hwritten)) (hheld r hr hwork))
    · rfl
  constructor
  · unfold State.unrecorded
    rw [flatMap_eq_of_key h.leases hr hothers, Runner.writtenIn, if_pos hw]
  · intro s' phase hrunners
    have hmem : { r with phase := phase } ∈ (s.advance r phase).runners := (mem_advance h.leases hr).mpr (.inl rfl)
    unfold State.unrecorded
    rw [hrunners, flatMap_eq_of_key (h.leases_advance r phase) hmem, Runner.writtenIn, if_pos hw]
    intro x hx hne
    rcases (mem_advance h.leases hr).mp hx with rfl | ⟨hx, hne⟩
    · exact absurd rfl hne
    · exact hothers x hx hne

theorem SyncedStep.claimRow (h : CommandsOk instanceId s) (hheld : WorkHeld s clock) (hn : now ≤ clock)
    (hr : r ∈ s.runners) (hphase : r.phase = .claiming) :
    SyncedStep s .done (s.claimRow now clock r checkedAt) clock := by
  obtain ⟨phase, commands, he, hcases⟩ := claimRow_cases s now clock r checkedAt
  have hempty : ∀ p ∈ phase, p.written = [] ∧ p.rest = [] := by
    rcases hcases with ⟨_, hp⟩ | ⟨_, c, _, _, _, rfl | rfl⟩
    · exact fun p hm => (hp p hm).2
    · intro p hp
      cases hp
      exact ⟨rfl, rfl⟩
    · intro p hp
      cases hp
      exact ⟨rfl, rfl⟩
  have hothers : ∀ x ∈ s.runners, x.phase.AtWork → (s.claimRow now clock r checkedAt).Holds x clock := by
    rw [he]
    exact fun x hx hwork => h.work_next hheld hn _ hx hwork fun h => h
  have hrunners : (s.claimRow now clock r checkedAt).runners
      = phase.elim s.runners fun p => (s.advance r p).runners := by rw [he]
  have hfiles : (s.claimRow now clock r checkedAt).files = s.files := by rw [he]
  cases phase with
  | none =>
    refine .calm (hrunners ▸ hothers) hfiles fun w => ?_
    exact congrArg (List.flatMap (Runner.writtenIn w)) hrunners
  | some p =>
    obtain ⟨hwritten, hrest⟩ := hempty p rfl
    exact .calm (advance_held h hr hrunners hothers fun hw => absurd hw (Phase.not_atWork hwritten hrest)) hfiles
      fun w => h.unrecorded_advance hr hrunners (by rw [hwritten, hphase]; rfl) w

/-- A record ends the wait of what its runner has written; without a record nothing was written. -/
theorem SyncedStep.record (h : CommandsOk instanceId s) (hheld : WorkHeld s clock) (hc : s.jobs.clock ≤ clock)
    (hn : now ≤ clock) (hr : r ∈ s.runners) (hat : checkedAt ≤ clock) (hphase : r.phase = .recording c written ending) :
    SyncedStep s (s.record now clock r c written ending checkedAt).1
      (s.record now clock r c written ending checkedAt).2 clock := by
  have hcmd : r.phase.command? = some c := by rw [hphase]; rfl
  have hwritten : r.phase.written = written := by rw [hphase]; rfl
  have hended : ∀ threw, ¬ (Phase.ended threw).AtWork := fun _ => Phase.not_atWork rfl rfl
  have hkey : r.row.concurrencyKey = some c.workspaceId := ((h.runners r hr).job c hcmd).1.concurrencyKey
  have hlease : written ≠ [] → s.Holds r clock := fun hne => hheld r hr (.inl (hwritten ▸ hne))
  rcases record_cases s now clock r c written ending checkedAt with
    ⟨commands, _, _, he⟩ | ⟨threw, hnone, he⟩ | ⟨hlost, he⟩
  · rw [he]
    refine .calm (advance_held h hr rfl (fun x hx hwork => ?_) fun hw => absurd hw (hended _)) rfl fun w => ?_
    · exact h.work_next hheld hn _ hx hwork fun h => h
    · by_cases hw : c.workspaceId = w
      · subst hw
        rw [Answer.syncIn, if_pos rfl]
        by_cases hempty : written = []
        · rw [hempty, List.nil_append]
          exact h.unrecorded_advance hr rfl (by rw [hwritten, hempty]; rfl) _
        · obtain ⟨hbefore, hafter⟩ := h.unrecorded_eq hheld hr (.inl (hwritten ▸ hempty)) hkey
          rw [hbefore, hwritten]
          exact (congrArg (written ++ ·) (hafter _ (.ended false) rfl)).trans (List.append_nil _)
      · rw [Answer.syncIn, if_neg hw, List.nil_append]
        exact h.unrecorded_other hr rfl fun hk => hw (Option.some.inj (hkey.symm.trans hk))
  · have hempty : written = [] := by
      by_contra hne
      obtain ⟨x, hx, hby⟩ := hlease hne
      obtain ⟨y, hy, hyby⟩ := (h.runners r hr).claimed c hcmd ⟨x, hx, heldBy_earlier hby hc⟩
      unfold endClaimedCommand at hnone
      rw [if_pos ⟨y, hy, hyby⟩] at hnone
      cases hnone
    rw [he]
    exact .calm (advance_held h hr rfl (fun x hx hwork => hheld x hx hwork) fun hw => absurd hw (hended _)) rfl
      fun w => h.unrecorded_advance hr rfl (by rw [hwritten, hempty]; rfl) w
  · have hempty : written = [] := by
      by_contra hne
      obtain ⟨x, hx, hby⟩ := hlease hne
      exact hlost ⟨x, hx, heldBy_earlier hby hat⟩
    rw [he]
    refine .calm (advance_held h hr rfl (fun x hx hwork => ?_) fun hw => absurd hw (hended _)) rfl fun w =>
      h.unrecorded_advance hr rfl (by rw [hwritten, hempty]; rfl) w
    exact h.work_next hheld hn _ hx hwork fun h => h

/-- Where an attempt stands when it takes a step. -/
inductive Taken (clock : Time) : RunnerAct → Phase → Prop
  | claimRow (checkedAt : Time) : Taken clock (.claimRow checkedAt) .claiming
  | hydrate : Taken clock .hydrate (.hydrating c)
  | endProcess : Taken clock (.endProcess scanned) (.running c baseline)
  | store : Taken clock .store (.syncing c written (.put file metadata :: rest) false)
  | write : Taken clock .write (.syncing c written (item :: rest) stored)
  | finish (ending : Ending) : phase.command? = some c → Taken clock (.finish ending) phase
  | record (checkedAt : Time) (c : WorkspaceCommand) (written : List FileWrite) (ending : Ending) :
      checkedAt ≤ clock → Taken clock (.record checkedAt) (.recording c written ending)
  | throw : phase.written = [] → Taken clock .throw phase

theorem RunnerAct.At.taken {act : RunnerAct} (h : act.At since clock phase) : Taken clock act phase := by
  unfold RunnerAct.At at h
  split at h
  · exact .claimRow _
  · exact .hydrate
  · exact .endProcess
  · subst h
    exact .store
  · exact .write
  · exact .write
  · exact .finish _ rfl
  · exact .finish _ rfl
  · exact .finish _ rfl
  · exact .finish _ rfl
  · exact .record _ _ _ _ h.2
  · exact .throw rfl
  · exact .throw rfl
  · cases h

theorem SyncedStep.beside (h : CommandsOk instanceId s) (hheld : WorkHeld s clock) (hr : r ∈ s.runners) (phase : Phase)
    (hrunners : s'.runners = (s.advance r phase).runners) (hjobs : s'.jobs = (s.at clock).jobs)
    (hfiles : s'.files = s.files) (hp : phase.written = r.phase.written) (hwork : phase.AtWork → s.Holds r clock) :
    SyncedStep s .done s' clock := by
  have hsame : ∀ x, s.Holds x clock → s'.Holds x clock := by
    intro x hx
    unfold State.Holds
    rw [hjobs]
    exact hx
  exact .calm (advance_held h hr hrunners (fun x hx hw => hsame x (hheld x hx hw)) fun hw => hsame r (hwork hw)) hfiles
    fun w => h.unrecorded_advance hr hrunners hp w

theorem SyncedStep.write (h : CommandsOk instanceId s) (hheld : WorkHeld s clock) (hr : r ∈ s.runners)
    (hphase : r.phase = .syncing c written (item :: rest) stored) :
    SyncedStep s .done (work keyOf (s.at clock) now r .write) clock := by
  have hnext : work keyOf (s.at clock) now r .write
      = { s.at clock with files := (item.write keyOf c now).apply s.files }.advance r
          (.syncing c (written ++ [item.write keyOf c now]) rest false) := by
    simp only [work, hphase]
    rfl
  have hcmd : r.phase.command? = some c := by rw [hphase]; rfl
  have hwork : r.phase.AtWork := by
    rw [hphase]
    exact .inr (List.cons_ne_nil _ _)
  have hkey : r.row.concurrencyKey = some c.workspaceId := ((h.runners r hr).job c hcmd).1.concurrencyKey
  rw [hnext]
  refine ⟨advance_held h hr rfl (fun x hx hw => hheld x hx hw) fun _ => hheld r hr hwork, fun w => ?_⟩
  by_cases hw : c.workspaceId = w
  · subst hw
    obtain ⟨hbefore, hafter⟩ := h.unrecorded_eq hheld hr hwork hkey
    refine ⟨[item.write keyOf c now], ?_, ?_⟩
    · have happly := filesOf_apply (item.write keyOf c now) s.files
      rw [item.write_workspaceId] at happly
      exact happly
    · rw [hbefore, hphase]
      exact hafter _ (.syncing c (written ++ [item.write keyOf c now]) rest false) rfl
  · refine ⟨[], ?_, ?_⟩
    · exact filesOf_apply_of_ne (by rw [item.write_workspaceId]; exact hw) s.files
    · rw [List.append_nil]
      exact h.unrecorded_other hr rfl fun hk => hw (Option.some.inj (hkey.symm.trans hk))

theorem SyncedStep.work (h : CommandsOk instanceId s) (hheld : WorkHeld s clock) (hr : r ∈ s.runners)
    (ht : Taken clock act r.phase) (hclaim : ∀ t, act ≠ .claimRow t) (hrecord : ∀ t, act ≠ .record t)
    (hscan : ∀ scanned c baseline, act = .endProcess scanned → r.phase = .running c baseline →
      syncItems baseline scanned = [] ∨ s.Holds r clock) :
    SyncedStep s .done (work keyOf (s.at clock) now r act) clock := by
  obtain ⟨row, phase⟩ := r
  cases ht with
  | claimRow => exact absurd rfl (hclaim _)
  | record => exact absurd rfl (hrecord _)
  | @hydrate c =>
    exact .beside h hheld hr (.running c (listWorkspaceFiles s.files c.workspaceId)) rfl rfl rfl rfl
      fun hw => absurd hw (Phase.not_atWork rfl rfl)
  | @endProcess scanned c baseline =>
    refine .beside h hheld hr (.syncing c [] (syncItems baseline scanned) false) rfl rfl rfl rfl fun hw => ?_
    rcases hscan scanned c baseline rfl rfl with hsame | hholds
    · exact absurd hw (Phase.not_atWork rfl hsame)
    · exact hholds
  | @store c written file metadata rest =>
    exact .beside h hheld hr (.syncing c written (.put file metadata :: rest) true) rfl rfl rfl rfl
      fun _ => hheld _ hr (.inr (List.cons_ne_nil _ _))
  | write => exact .write h hheld hr rfl
  | finish ending hcmd =>
    rename_i c
    refine .beside h hheld hr (.recording c phase.written ending) ?_ ?_ ?_ rfl fun hw => ?_
    · simp only [WorkspaceCommands.work, hcmd]
      rfl
    · simp only [WorkspaceCommands.work, hcmd]
      rfl
    · simp only [WorkspaceCommands.work, hcmd]
      rfl
    · exact hheld _ hr (.inl (hw.resolve_right fun hrest => hrest rfl))
  | throw hwritten =>
    exact .beside h hheld hr (.ended true) rfl rfl rfl hwritten.symm fun hw => absurd hw (Phase.not_atWork rfl rfl)

theorem SyncedStep.settle (h : CommandsOk instanceId s) (hheld : WorkHeld s clock) (hn : now ≤ clock) (hr : r ∈ s.runners)
    (hidle : ¬ r.phase.AtWork) (w : Worker) :
    SyncedStep s .done (s.settle w now clock r attempt hookFails) clock := by
  obtain ⟨commands, he, _⟩ := settle_cases s w now clock r attempt hookFails
  rw [he]
  refine .calm (fun x hx hwork => h.work_next hheld hn _ hx hwork fun hends => ?_) rfl fun _ => rfl
  obtain rfl := eq_of_key h.leases hx hr hends.symm
  exact hidle hwork

theorem SyncedStep.leave (h : SyncedStep s .done s' clock) (hok : CommandsOk instanceId s') (hr : r ∈ s'.runners)
    (hp : r.phase.written = []) : SyncedStep s .done (s'.leave r) clock where
  held x hx hwork := h.held x (mem_deleteWhere.mp hx).1 hwork
  files w := by
    obtain ⟨more, hfiles, hwritten⟩ := h.files w
    exact ⟨more, hfiles, by rw [hok.unrecorded_leave hr hp]; exact hwritten⟩

theorem SyncedStep.at (hheld : WorkHeld s clock) : SyncedStep s .done (s.at clock) clock :=
  .calm (fun x hx hwork => hheld x hx hwork) rfl fun _ => rfl

theorem SyncedStep.bury (h : CommandsOk instanceId s) (hheld : WorkHeld s clock) (hn : now ≤ clock) (w : Worker) :
    SyncedStep s .done (s.bury w now clock jobId hookFails) clock := by
  obtain ⟨commands, he, _⟩ := bury_cases s w now clock jobId hookFails
  rw [he]
  exact .calm (fun x hx hwork => h.work_next hheld hn _ hx hwork fun h => h) rfl fun _ => rfl

theorem SyncedStep.heartbeat (h : CommandsOk instanceId s) (hheld : WorkHeld s clock) (hn : now ≤ clock) :
    SyncedStep s .done (s.heartbeat now clock r) clock := by
  obtain ⟨commands, he, _⟩ := heartbeat_cases s now clock r
  rw [he]
  exact .calm (fun x hx hwork => h.work_next hheld hn _ hx hwork fun h => h) rfl fun _ => rfl

theorem SyncedStep.claim (h : CommandsOk instanceId s) (hheld : WorkHeld s clock) (hn : now ≤ clock) (w : Worker) :
    SyncedStep s .done (s.claim w now clock limit locked) clock := by
  refine .calm (fun x hx hwork => ?_) rfl fun key => ?_
  · rcases List.mem_append.mp hx with hx | hx
    · exact h.work_next hheld hn (.claim w runWorkspaceCommandJob limit locked) hx hwork fun h => h
    · obtain ⟨row, _, rfl⟩ := List.mem_map.mp hx
      exact absurd hwork (Phase.not_atWork rfl rfl)
  · have hnew : ∀ rows : List JobRow, (rows.map fun row => (⟨row, .claiming⟩ : Runner)).flatMap (Runner.writtenIn key)
        = [] := by
      intro rows
      refine List.flatMap_eq_nil_iff.mpr fun x hx => ?_
      obtain ⟨row, _, rfl⟩ := List.mem_map.mp hx
      simp [Runner.writtenIn, Phase.written]
    unfold State.unrecorded State.claim
    rw [List.flatMap_append, hnew, List.append_nil]
    rfl

theorem SyncedStep.enqueueJob (h : CommandsOk instanceId s) (hheld : WorkHeld s clock) (hn : now ≤ clock)
    (hjobs : s'.jobs = s.jobs) (hfiles : s'.files = s.files) (hrunners : s'.runners = s.runners) :
    SyncedStep s .done (s'.enqueueJob instanceId now clock commandId workspaceId) clock := by
  refine .calm (fun x hx hwork => ?_) hfiles fun w => congrArg (List.flatMap (Runner.writtenIn w)) hrunners
  have hx : x ∈ s.runners := hrunners ▸ hx
  unfold State.Holds State.enqueueJob
  rw [transact_eq, hjobs]
  exact h.work_next hheld hn (.enqueue runWorkspaceCommandJob (commandPayload commandId)
    (workspaceCommandJobOptions instanceId commandId workspaceId)) hx hwork fun h => h

end Steps

theorem synced_step (h : CommandsOk instanceId s) (he : (workspaceCommands instanceId keyOf).enabled s st)
    (hcov : Covered s st) : SyncedStep s ((workspaceCommands instanceId keyOf).answer s st)
      ((workspaceCommands instanceId keyOf).next s st) st.clock := by
  obtain ⟨now, clock, action⟩ := st
  obtain ⟨hc, hn, he⟩ := he
  obtain ⟨hheld, hcov⟩ := hcov
  have hheld : WorkHeld s clock := hheld
  cases action with
  | enqueue commandId workspaceId conversationId => exact .enqueueJob h hheld hn rfl rfl rfl
  | adopt c => exact .enqueueJob h hheld hn rfl rfl rfl
  | requestCancellation commandId => exact .calm (fun x hx hwork => hheld x hx hwork) rfl fun _ => rfl
  | claim workerId limit locked => exact .claim h hheld hn _
  | heartbeat r => exact .heartbeat h hheld hn
  | act r act =>
    obtain ⟨hr, hat⟩ := he
    have ht := hat.taken
    have hwork := @SyncedStep.work instanceId keyOf s r now clock act h hheld hr ht
    cases act with
    | claimRow checkedAt =>
      have hphase : r.phase = .claiming := by
        revert ht
        generalize r.phase = phase
        rintro ⟨⟩
        rfl
      exact .claimRow h hheld hn hr hphase
    | record checkedAt =>
      obtain ⟨c, written, ending, hphase, hle⟩ :
          ∃ c written ending, r.phase = .recording c written ending ∧ checkedAt ≤ clock := by
        revert ht
        generalize r.phase = phase
        rintro ⟨⟩
        exact ⟨_, _, _, rfl, by assumption⟩
      have hstep : SyncedStep s (s.record now clock r c written ending checkedAt).1
          (s.record now clock r c written ending checkedAt).2 clock := .record h hheld hc hn hr hle hphase
      simpa [Machine.next, Machine.answer, workspaceCommands, perform, hphase] using hstep
    | endProcess scanned =>
      refine hwork (by rintro _ ⟨⟩) (by rintro _ ⟨⟩) fun scanned' c baseline heq hphase => ?_
      cases heq
      simpa [hphase] using hcov
    | _ => exact hwork (by rintro _ ⟨⟩) (by rintro _ ⟨⟩) (by rintro _ _ _ ⟨⟩)
  | settle workerId r code message stopping hookFails =>
    obtain ⟨hr, _, hphase⟩ := he
    have hover : r.phase.command? = none := by rw [hphase]; rfl
    have hwritten : r.phase.written = [] := by rw [hphase]; rfl
    have hrest : r.phase.rest = [] := by rw [hphase]; rfl
    have hok : CommandsOk instanceId (s.settle (workerOf instanceId workerId) now clock r
        (attemptOf (threw r.phase) stopping code message) hookFails) := h.settle hc hn hr rfl (.inl hover)
    have hmem : r ∈ (s.settle (workerOf instanceId workerId) now clock r
        (attemptOf (threw r.phase) stopping code message) hookFails).runners := by
      obtain ⟨_, heq, _⟩ := settle_cases s (workerOf instanceId workerId) now clock r
        (attemptOf (threw r.phase) stopping code message) hookFails
      rw [heq]
      exact hr
    exact (SyncedStep.settle h hheld hn hr (Phase.not_atWork hwritten hrest) _).leave hok hmem hwritten
  | release workerId r => exact .settle h hheld hn he hcov _
  | kill r => exact (SyncedStep.at hheld).leave (h.at hc hn) he hcov
  | bury workerId jobId hookFails => exact .bury h hheld hn _

theorem next_clock (he : (workspaceCommands instanceId keyOf).enabled s st) :
    ((workspaceCommands instanceId keyOf).next s st).jobs.clock = st.clock := by
  obtain ⟨now, clock, action⟩ := st
  obtain ⟨_, _, he⟩ := he
  cases action with
  | heartbeat r =>
    obtain ⟨_, heq, _⟩ := heartbeat_cases s now clock r
    exact (congrArg (·.jobs.clock) heq).trans rfl
  | act r act =>
    obtain ⟨hr, hat⟩ := he
    have ht := hat.taken
    have hwork := congrArg Jobs.State.clock (work_cases keyOf (s.at clock) now r act).1
    cases act with
    | claimRow checkedAt =>
      obtain ⟨_, _, heq, _⟩ := claimRow_cases s now clock r checkedAt
      exact (congrArg (·.jobs.clock) heq).trans rfl
    | record checkedAt =>
      obtain ⟨row, phase⟩ := r
      cases ht with
      | record _ c written ending =>
        rcases record_cases s now clock ⟨row, .recording c written ending⟩ c written ending checkedAt with
          ⟨_, _, _, heq⟩ | ⟨_, _, heq⟩ | ⟨_, heq⟩
        · exact (congrArg (·.2.jobs.clock) heq).trans rfl
        · exact (congrArg (·.2.jobs.clock) heq).trans rfl
        · exact (congrArg (·.2.jobs.clock) heq).trans rfl
    | _ => exact hwork
  | settle workerId r code message stopping hookFails =>
    obtain ⟨_, heq, _⟩ := settle_cases s (workerOf instanceId workerId) now clock r
      (attemptOf (threw r.phase) stopping code message) hookFails
    exact (congrArg (·.jobs.clock) heq).trans rfl
  | release workerId r =>
    obtain ⟨_, heq, _⟩ := settle_cases s (workerOf instanceId workerId) now clock r .stopped false
    exact (congrArg (·.jobs.clock) heq).trans rfl
  | bury workerId jobId hookFails =>
    obtain ⟨_, heq, _⟩ := bury_cases s (workerOf instanceId workerId) now clock jobId hookFails
    exact (congrArg (·.jobs.clock) heq).trans rfl
  | _ => rfl

/-- The files of every workspace are what the recorded commands wrote, and what waits for a record. -/
structure Synced (instanceId : ClientInstanceId) (files₀ : List WorkspaceFile) (h : List (Step × Answer))
    (s : State) : Prop where
  commands : CommandsOk instanceId s
  held : WorkHeld s s.jobs.clock
  files : ∀ w, filesOf w s.files = replay (filesOf w files₀) (syncsOf w h ++ s.unrecorded w)

theorem Synced.init (hs : (workspaceCommands instanceId keyOf).init s) : Synced instanceId s.files [] s := by
  have hnone : s.runners = [] := hs.2.2.2
  refine ⟨commands_init hs, by simp [WorkHeld, hnone], fun w => ?_⟩
  simp [State.unrecorded, hnone, syncsOf, replay]

theorem Synced.step (hs : Synced instanceId files₀ h s)
    (he : ((workspaceCommands instanceId keyOf).when Covered).enabled s st) :
    Synced instanceId files₀ (h ++ [(st, (workspaceCommands instanceId keyOf).answer s st)])
      ((workspaceCommands instanceId keyOf).next s st) := by
  have hstep := synced_step hs.commands he.1 he.2
  refine ⟨commands_preserves instanceId keyOf s st hs.commands he.1, ?_, fun w => ?_⟩
  · rw [WorkHeld, next_clock he.1]
    exact hstep.held
  · obtain ⟨more, hfiles, hwritten⟩ := hstep.files w
    have hsyncs : syncsOf w (h ++ [(st, (workspaceCommands instanceId keyOf).answer s st)])
        = syncsOf w h ++ ((workspaceCommands instanceId keyOf).answer s st).syncIn w := by
      simp [syncsOf]
    rw [hfiles, hs.files w, hsyncs, List.append_assoc, hwritten, ← List.append_assoc]
    exact List.foldl_append.symm

theorem Synced.run (hi : (workspaceCommands instanceId keyOf).init s₀)
    (hr : ((workspaceCommands instanceId keyOf).when Covered).Run s₀ h s) : Synced instanceId s₀.files h s :=
  Machine.Run.history (M := (workspaceCommands instanceId keyOf).when Covered)
    (P := fun h s => Synced instanceId s₀.files h s) (fun _ _ _ hs he => hs.step he) hr (.init hi)

theorem Synced.claimed (hs : Synced instanceId files₀ h s) (hr : r ∈ s.runners) (hwork : r.phase.AtWork) :
    ∃ c, r.phase.command? = some c ∧ ClaimedUnder s.commands c := by
  obtain ⟨c, hcmd⟩ : ∃ c, r.phase.command? = some c := by
    revert hwork
    cases r.phase <;> simp [Phase.AtWork, Phase.written, Phase.rest, Phase.command?]
  exact ⟨c, hcmd, (hs.commands.runners r hr).claimed c hcmd (hs.held r hr hwork)⟩

theorem Synced.not_stale (hs : Synced instanceId files₀ h s) (hcov : Covered s st) (hr : r ∈ s.runners)
    (hwork : r.phase.AtWork) : ¬ s.Stale r st.clock := by
  rintro (hlost | ⟨c, hcmd, hpassed⟩)
  · exact hlost (hcov.1 r hr hwork)
  · obtain ⟨c', hcmd', hclaimed⟩ := hs.claimed hr hwork
    cases Option.some.inj (hcmd.symm.trans hcmd')
    exact hpassed hclaimed

theorem Synced.unrecorded_nil (hs : Synced instanceId files₀ h s) (hidle : s.Idle w) : s.unrecorded w = [] := by
  refine List.flatMap_eq_nil_iff.mpr fun r hr => ?_
  unfold Runner.writtenIn
  split
  · rename_i hkey
    by_contra hwritten
    obtain ⟨c, hcmd, x, hx, hby⟩ := hs.claimed hr (.inl hwritten)
    have hrow := hs.commands.runners r hr
    obtain ⟨c', hc', hfor⟩ := hs.commands.handed r.row hrow.handed
    have hid : x.id = c'.id :=
      hby.1.trans ((hrow.job c hcmd).1.commandIdOf.symm.trans hfor.commandIdOf)
    obtain rfl := eq_of_key hs.commands.ids hx hc' hid
    exact hidle x hx (Option.some.inj (hfor.concurrencyKey.symm.trans hkey)) hby.2.2.2
  · rfl

/-- In every run whose steps are covered a stale runner changes nothing that is stored, and where no
command of a workspace runs its files are those the commands that ended under their leases wrote, in the
order of their ends. -/
theorem covered_run_ok (hi : (workspaceCommands instanceId keyOf).init s₀)
    (hr : ((workspaceCommands instanceId keyOf).when Covered).Run s₀ h s) :
    (∀ st r act, ((workspaceCommands instanceId keyOf).when Covered).enabled s st → st.action = .act r act →
      s.Stale r st.clock → ((workspaceCommands instanceId keyOf).next s st).files = s.files ∧
        ((workspaceCommands instanceId keyOf).next s st).objects = s.objects) ∧
      ∀ w, s.Idle w → filesOf w s.files = replay (filesOf w s₀.files) (syncsOf w h) := by
  have hs := Synced.run hi hr
  refine ⟨?_, fun w hidle => ?_⟩
  · rintro ⟨now, clock, action⟩ ⟨row, phase⟩ act ⟨⟨_, _, he⟩, hcov⟩ haction hstale
    cases haction
    obtain ⟨hmem, hat⟩ := he
    cases hat.taken with
    | claimRow checkedAt =>
      obtain ⟨_, _, heq, _⟩ := claimRow_cases s now clock ⟨row, .claiming⟩ checkedAt
      exact ⟨(congrArg (·.files) heq).trans rfl, (congrArg (·.objects) heq).trans rfl⟩
    | hydrate => exact ⟨rfl, rfl⟩
    | endProcess => exact ⟨rfl, rfl⟩
    | store => exact absurd hstale (hs.not_stale hcov hmem (.inr (List.cons_ne_nil _ _)))
    | write => exact absurd hstale (hs.not_stale hcov hmem (.inr (List.cons_ne_nil _ _)))
    | finish ending hcmd =>
      simp only [Machine.next, workspaceCommands, perform, work]
      split <;> exact ⟨rfl, rfl⟩
    | record checkedAt c written ending =>
      rcases record_cases s now clock ⟨row, .recording c written ending⟩ c written ending checkedAt with
        ⟨_, _, _, heq⟩ | ⟨_, _, heq⟩ | ⟨_, heq⟩
      all_goals exact ⟨(congrArg (·.2.files) heq).trans rfl, (congrArg (·.2.objects) heq).trans rfl⟩
    | throw => exact ⟨rfl, rfl⟩
  · rw [hs.files w, hs.unrecorded_nil hidle, List.append_nil]

namespace Example

instance (s : State) (st : Step) : Decidable (Enabled s st) := by
  unfold Enabled
  split <;> infer_instance

instance (s : State) (st : Step) : Decidable ((workspaceCommands instanceId keyOf).enabled s st) :=
  inferInstanceAs (Decidable (s.jobs.clock ≤ st.clock ∧ st.now ≤ st.clock ∧ Enabled s st))

instance (s : State) (st : Step) : Decidable (Covered s st) := by
  unfold Covered
  refine @instDecidableAnd _ _ inferInstance ?_
  split
  · infer_instance
  · infer_instance
  · split <;> infer_instance
  · infer_instance

instance (s : State) (st : Step) : Decidable (((workspaceCommands instanceId keyOf).when Covered).enabled s st) :=
  inferInstanceAs (Decidable ((workspaceCommands instanceId keyOf).enabled s st ∧ Covered s st))

def keys : ObjectKeyFactory := fun c file => c.id ++ "/" ++ file.checksum ++ "/" ++ file.path

def empty : State := ⟨⟨⟨[], 0⟩, 0, []⟩, [], [], [], []⟩

def runner (s : State) (commandId : String) : Runner :=
  (s.runners.find? fun r => commandIdOf r.row = commandId).getD
    ⟨queuedJob ⟨[], 0⟩ 0 runWorkspaceCommandJob [] (workspaceCommandJobOptions "i" "" ""), .claiming⟩

def act (commandId : String) (time : Time) (a : RunnerAct) (s : State) : Step :=
  ⟨time, time, .act (runner s commandId) a⟩

def play (s : State) : List (State → Step) → List Step
  | [] => []
  | step :: script => step s :: play ((workspaceCommands "i" keys).next s (step s)) script

def text (checksum : String) : ScannedFile := ⟨"a.txt", 2, checksum, none⟩

def start : List (State → Step) :=
  [fun _ => ⟨0, 0, .enqueue "first" "x" "v"⟩, fun _ => ⟨0, 0, .enqueue "second" "x" "v"⟩,
    fun _ => ⟨1, 1, .claim "w1" 1 []⟩, act "first" 2 (.claimRow 2), act "first" 3 .hydrate]

def overtake : List (State → Step) :=
  [fun _ => ⟨200000, 200000, .bury "w2" 0 false⟩, fun _ => ⟨200001, 200001, .claim "w2" 1 []⟩,
    act "second" 200002 (.claimRow 200002), act "second" 200003 .hydrate,
    act "second" 200004 (.endProcess [text "v2"]), act "second" 200005 .store, act "second" 200006 .write,
    act "second" 200007 (.finish .completed), act "second" 200008 (.record 200008)]

def stalled : List Step :=
  play empty (start ++ [act "first" 4 (.endProcess [text "v1"]), act "first" 5 .store] ++ overtake)

def unchanged : List Step :=
  play empty (start ++ overtake ++ [act "first" 200009 (.endProcess []), act "first" 200010 (.finish .completed)])

theorem init_empty : (workspaceCommands "i" keys).init empty := ⟨rfl, rfl, rfl, rfl⟩

/-- After `stalled`. -/
def overtaken : State := (workspaceCommands "i" keys).after empty stalled

theorem stalled_run :
    (workspaceCommands "i" keys).Run empty ((workspaceCommands "i" keys).history empty stalled) overtaken :=
  Machine.Allows.run (by decide)

/-- After `unchanged`. -/
def passed : State := ((workspaceCommands "i" keys).when Covered).after empty unchanged

theorem unchanged_run : ((workspaceCommands "i" keys).when Covered).Run empty
    (((workspaceCommands "i" keys).when Covered).history empty unchanged) passed :=
  Machine.Allows.run (by decide)

end Example

open Example

/-- A runner whose lease ran out writes over the file of the command after its own: no command runs, and
the file is of a command that did not end under its lease. -/
theorem stale_write_lands :
    ∃ s h st r, (workspaceCommands "i" keys).init empty ∧ (workspaceCommands "i" keys).Run empty h s ∧
      (workspaceCommands "i" keys).enabled s st ∧ st.action = .act r .write ∧ s.Stale r st.clock ∧
      ((workspaceCommands "i" keys).next s st).files ≠ s.files ∧
      ((workspaceCommands "i" keys).next s st).Idle "x" ∧
      filesOf "x" ((workspaceCommands "i" keys).next s st).files
        ≠ replay (filesOf "x" empty.files)
          (syncsOf "x" (h ++ [(st, (workspaceCommands "i" keys).answer s st)])) := by
  refine ⟨overtaken, _, act "first" 200010 .write overtaken, _, init_empty, stalled_run, ?_, rfl, .inl ?_, ?_, ?_, ?_⟩
  · decide
  · decide
  · decide
  · decide
  · decide

/-- Two commands, the first of which loses its lease and has changed nothing. -/
theorem covered_run_ok_passed :
    (((workspaceCommands "i" keys).next passed (act "first" 200011 (.record 200011) passed)).files = passed.files ∧
      ((workspaceCommands "i" keys).next passed (act "first" 200011 (.record 200011) passed)).objects
        = passed.objects) ∧
      filesOf "x" passed.files = replay (filesOf "x" empty.files)
        (syncsOf "x" (((workspaceCommands "i" keys).when Covered).history empty unchanged)) :=
  ⟨(covered_run_ok init_empty unchanged_run).1 (act "first" 200011 (.record 200011) passed) _ _ (by decide)
      rfl (.inl (by decide)),
    (covered_run_ok init_empty unchanged_run).2 "x" (by decide)⟩

end Catalyst.WorkspaceCommands
