import Catalyst.Workspaces.Owners

/-!
# Shared Workspaces keep an active owner

A process that has locked a workspace may rely on what it has read of its owners, as long as
nobody is made an owner whose account is being checked for its deletion.
-/

namespace Catalyst.Workspaces

open Library Library.Check Library.Processes

variable {db db' : Db} {w : WorkspaceId} {u : UserId}

-- -----------------
-- What a process relies on
-- -----------------

def Known (db : Db) (w : WorkspaceId) (active : List UserId) : Prop := ∀ v ∈ active, Owner db w v → Active db v

def Changing.Relies (db : Db) (c : Changing) : Prop :=
  match c.phase with
  | .accessing | .sharing _ => True
  | .targeting _ | .locking => c.workspaceId < db.fresh
  | .reading held | .users held => c.workspaceId < db.fresh ∧ (Open db c.workspaceId → c.workspaceId ∈ held)
  | .listing held active => c.workspaceId < db.fresh ∧
      (Open db c.workspaceId → c.workspaceId ∈ held ∧ Known db c.workspaceId active)
  | .changing held => c.workspaceId < db.fresh ∧
      (Open db c.workspaceId → c.workspaceId ∈ held ∧
        (Covered db c.workspaceId c.target ∨ ¬ Owner db c.workspaceId c.target))

/-- What the deletion of an account knows of a workspace the user owns. -/
def DeletePhase.Knows (db : Db) (u : UserId) (w : WorkspaceId) : DeletePhase → Prop
  | finding | snapshotting | repeating => True
  | acquiring waiting held => w ∈ waiting ∨ w ∈ held
  | users held owned => w ∈ held ∧ w ∈ owned
  | checking held active owned blocking =>
    w ∈ held ∧ (w ∈ owned ∨ 0 < blocking ∨ Covered db w u) ∧ Known db w active
  | marking held => w ∈ held ∧ Covered db w u

structure Deleting.Relies (db : Db) (d : Deleting) : Prop where
  repeating : d.phase = .repeating → ¬ Active db d.userId
  knows : ∀ w, Open db w → Owner db w d.userId → d.phase.Knows db d.userId w

def Process.Relies (db : Db) : Process → Prop
  | creating _ | adding _ => True
  | changing c => c.Relies db
  | deleting d => d.Relies db
  | cleaning c => c.phase ≠ .finding → ¬ Active db c.userId

def Process.deletes : Process → Option UserId
  | deleting d =>
    match d.phase with
    | .finding | .snapshotting | .repeating => none
    | .acquiring _ _ | .users _ _ | .checking _ _ _ _ | .marking _ => some d.userId
  | creating _ | adding _ | changing _ | cleaning _ => none

def Process.makesOwner : Process → Option UserId
  | creating u => some u
  | changing c =>
    match c.phase, c.command.change with
    | .changing _, .role .owner => some c.target
    | _, _ => none
  | adding _ | deleting _ | cleaning _ => none

section mono

variable {held : WorkspaceId → Prop}

theorem Covered.mono (h : Covered db w u) (hq : Quiet held db db') (hw : held w) (ho : Open db' w) : Covered db' w u := by
  obtain ⟨v, hne, hv, ha⟩ := h
  exact ⟨v, hne, hq.stays w hw ho v hv ha⟩

theorem Known.mono (h : Known db w active) (hq : Quiet held db db') (hw : held w) (hlt : w < db.fresh)
    (ho : Open db' w) : Known db' w active := by
  intro v hv howner
  have hold := hq.owner w hw hlt ho v howner
  exact (hq.stays w hw ho v hold (h v hv hold)).2

theorem Changing.Relies.mono {c : Changing} (h : c.Relies db) (hq : Quiet (· ∈ c.phase.held) db db') : c.Relies db' := by
  unfold Changing.Relies at h ⊢
  cases hp : c.phase <;> simp only [hp] at h hq ⊢
  case targeting => exact Nat.lt_of_lt_of_le h hq.fresh
  case locking => exact Nat.lt_of_lt_of_le h hq.fresh
  case reading => exact ⟨Nat.lt_of_lt_of_le h.1 hq.fresh, fun ho => h.2 (hq.opens _ h.1 ho)⟩
  case users => exact ⟨Nat.lt_of_lt_of_le h.1 hq.fresh, fun ho => h.2 (hq.opens _ h.1 ho)⟩
  case listing =>
    refine ⟨Nat.lt_of_lt_of_le h.1 hq.fresh, fun ho => ?_⟩
    obtain ⟨hheld, hknown⟩ := h.2 (hq.opens _ h.1 ho)
    exact ⟨hheld, hknown.mono hq hheld h.1 ho⟩
  case changing =>
    refine ⟨Nat.lt_of_lt_of_le h.1 hq.fresh, fun ho => ?_⟩
    obtain ⟨hheld, hcovered⟩ := h.2 (hq.opens _ h.1 ho)
    exact ⟨hheld, hcovered.imp (·.mono hq hheld ho) fun hno howner => hno (hq.owner _ hheld h.1 ho _ howner)⟩

theorem DeletePhase.Knows.mono {phase : DeletePhase} (h : phase.Knows db u w) (hq : Quiet (· ∈ phase.held) db db')
    (hlt : w < db.fresh) (ho : Open db' w) : phase.Knows db' u w := by
  cases phase with
  | finding | snapshotting | repeating => trivial
  | acquiring waiting held => exact h
  | users held owned => exact h
  | checking held active owned blocking =>
    obtain ⟨hheld, hcovered, hknown⟩ := h
    exact ⟨hheld, hcovered.imp_right (.imp_right (·.mono hq hheld ho)), hknown.mono hq hheld hlt ho⟩
  | marking held => exact ⟨h.1, h.2.mono hq h.1 ho⟩

theorem Process.Relies.mono {q : Process} (h : q.Relies db) (hd : db.Ok) (hq : Quiet (· ∈ q.held) db db')
    (hmade : ∀ u, q.deletes = some u → ∀ w, Owner db' w u → Owner db w u) : q.Relies db' := by
  cases q with
  | creating _ | adding _ => trivial
  | changing c => exact Changing.Relies.mono h hq
  | cleaning c => exact fun hp ha => h hp (hq.inactive _ ha)
  | deleting d =>
    refine ⟨fun hp ha => h.repeating hp (hq.inactive _ ha), fun w ho howner => ?_⟩
    cases hdel : (Process.deleting d).deletes with
    | none =>
      simp only [Process.deletes] at hdel
      cases hp : d.phase <;> simp [hp, DeletePhase.Knows] at hdel ⊢
    | some v =>
      have hv : v = d.userId := by
        simp only [Process.deletes] at hdel
        cases hp : d.phase <;> simp_all
      have hold := hmade v hdel w (hv ▸ howner)
      have hlt := hold.lt hd
      exact (h.knows w (hq.opens w hlt ho) (hv ▸ hold)).mono hq hlt ho

end mono

-- -----------------
-- Steps
-- -----------------

structure Steps (db : Db) (t : Process) (r : StepResult) : Prop where
  effect : Effect t.held t.makesOwner db r.2.2
  next : ∀ t' ∈ r.2.1, t'.Relies r.2.2 ∧ ∀ w ∈ t'.held, w ∈ t.held ∨ w ∈ t.waitsFor

section steps

variable {t t' : Process}

theorem Steps.answers (hd : db.Ok) (answer : Answer) : Steps db t (answers db answer) :=
  ⟨.refl hd, by simp [Workspaces.answers]⟩

theorem Steps.goesTo (hd : db.Ok) (h : t'.Relies db) (hheld : ∀ w ∈ t'.held, w ∈ t.held ∨ w ∈ t.waitsFor) :
    Steps db t (goesTo db t') := by
  refine ⟨.refl hd, ?_⟩
  rintro _ ⟨⟩
  exact ⟨h, hheld⟩

theorem Steps.reads {read : Except AppError α} {next : α → Process} (hd : db.Ok)
    (h : ∀ a, read = .ok a → (next a).Relies db)
    (hheld : ∀ a, ∀ w ∈ (next a).held, w ∈ t.held ∨ w ∈ t.waitsFor) : Steps db t (reads db read next) := by
  unfold Workspaces.reads
  cases read with
  | error e => exact .answers hd _
  | ok a => exact .goesTo hd (h a rfl) (hheld a)

theorem Steps.writes {write : Except AppError Db} (hd : db.Ok)
    (h : ∀ db', write = .ok db' → Effect t.held t.makesOwner db db') : Steps db t (writes db write) := by
  unfold Workspaces.writes
  cases write with
  | error e => exact .answers hd _
  | ok db' => exact ⟨h db' rfl, by simp [Workspaces.answers]⟩

theorem adding_steps (hd : db.Ok) (a : Adding) : Steps db (.adding a) (a.step db) := by
  unfold Adding.step
  cases hp : a.phase with
  | accessing | sharing | targeting | requiring =>
    exact .reads hd (fun _ _ => trivial) fun _ w hw => by cases hw
  | inserting => exact .writes hd fun db' h => insertMembership_effect hd h

theorem requireSharedWorkspace_lt (hd : db.Ok) (h : requireSharedWorkspace db w = .ok x) : w < db.fresh := by
  obtain ⟨workspace, hw, _⟩ := bind_ok.mp h
  have hfind := need_ok.mp hw
  obtain ⟨rfl, _⟩ : workspace.id = w ∧ workspace.notInDeletion := by simpa using List.find?_some hfind
  exact hd.workspace_lt workspace (List.mem_of_find?_eq_some hfind)

theorem mem_lockableWorkspace : v ∈ lockableWorkspace db w ↔ v = w ∧ ∃ x ∈ db.workspaces, x.id = w ∧ x.kind = .shared := by
  simp only [lockableWorkspace, List.mem_map, List.mem_filter, decide_eq_true_eq]
  constructor
  · rintro ⟨x, ⟨hx, hid, hk⟩, rfl⟩
    exact ⟨hid, x, hx, hid, hk⟩
  · rintro ⟨rfl, x, hx, hid, hk⟩
    exact ⟨x, ⟨hx, hid, hk⟩, hid⟩

theorem Open.lockable (h : Open db w) : w ∈ lockableWorkspace db w := by
  obtain ⟨x, hx, hid, hk, _⟩ := h
  exact mem_lockableWorkspace.mpr ⟨rfl, x, hx, hid, hk⟩

theorem Open.owned (h : Open db w) (ho : Owner db w u) : w ∈ lockableWorkspaces db u ∧ w ∈ ownedWorkspaces db u := by
  obtain ⟨x, hx, rfl, hk, hopen⟩ := h
  constructor
  · rw [lockableWorkspaces, List.mem_mergeSort]
    exact List.mem_map.mpr ⟨x, List.mem_filter.mpr ⟨hx, by simpa using ⟨hk, ho⟩⟩, rfl⟩
  · exact List.mem_map.mpr ⟨x, List.mem_filter.mpr ⟨hx, by simpa using ⟨hk, hopen, ho⟩⟩, rfl⟩

theorem Open.getMembership (h : Open db w) (hd : db.Ok) (ho : Owner db w u) :
    getMembership db w u = some ⟨w, u, .owner⟩ := by
  rw [Workspaces.getMembership, if_pos h.getWorkspace]
  have hfind : db.memberships.find? (fun m => m.key = (w, u)) = some ⟨w, u, .owner⟩ :=
    (find?_key_eq_some hd.memberships).mpr ⟨ho, rfl⟩
  simpa [WorkspaceMembership.key] using hfind

theorem covered_of_another (h : hasAnotherActiveOwner (membershipsOf db w) active u) (hknown : Known db w active) :
    Covered db w u := by
  obtain ⟨⟨w', v, role⟩, hm, rfl, hne, hactive⟩ := h
  obtain ⟨hmem, rfl⟩ : _ ∈ db.memberships ∧ w' = w := by simpa [membershipsOf] using hm
  exact ⟨v, hne, hmem, hknown v hactive hmem⟩

theorem changing_steps (hd : db.Ok) {c : Changing} (h : c.Relies db) : Steps db (.changing c) (c.step db) := by
  unfold Changing.step
  unfold Changing.Relies at h
  cases hp : c.phase <;> simp only [hp] at h ⊢
  case accessing => exact .reads hd (fun _ _ => trivial) fun _ w hw => by cases hw
  case sharing access =>
    exact .reads hd (fun _ hr => requireSharedWorkspace_lt hd hr) fun _ w hw => by cases hw
  case targeting => exact .reads hd (fun _ _ => h) fun _ w hw => by cases hw
  case locking =>
    refine .goesTo hd ⟨h, Open.lockable⟩ fun w hw => .inr ?_
    have hw : w ∈ lockableWorkspace db c.workspaceId := hw
    simp [Process.waitsFor, hp, (mem_lockableWorkspace.mp hw).1]
  case reading held =>
    have hheld : ∀ w ∈ held, w ∈ (Process.changing c).held ∨ w ∈ (Process.changing c).waitsFor := fun w hw =>
      .inl (by simpa [Process.held, ChangePhase.held, hp] using hw)
    split
    · exact .goesTo hd h hheld
    · rename_i hno
      refine .goesTo hd ⟨h.1, fun ho => ⟨h.2 ho, .inr fun howner => ?_⟩⟩ hheld
      have ho' : Open db c.workspaceId := ho
      have howner' : Owner db c.workspaceId c.target := howner
      rw [ho'.getMembership hd howner'] at hno
      exact hno rfl
  case users held =>
    refine .reads hd (fun _ _ => ⟨h.1, fun ho => ⟨h.2 ho, fun v hv _ => hv⟩⟩) fun _ w hw => .inl ?_
    simpa [Process.held, ChangePhase.held, hp] using hw
  case listing held active =>
    split
    · rename_i hanother
      refine .goesTo hd ⟨h.1, fun ho => ⟨(h.2 ho).1, .inl (covered_of_another hanother (h.2 ho).2)⟩⟩ fun w hw => .inl ?_
      simpa [Process.held, ChangePhase.held, hp] using hw
    · exact .answers hd _
  case changing held =>
    refine .writes hd fun db' hw => changeMembership_effect hd (fun ho => ?_) (fun ho => (h.2 ho).2) (fun he => ?_) hw
    · simpa [Process.held, ChangePhase.held, hp] using (h.2 ho).1
    · simp [Process.makesOwner, hp, he]

theorem deleting_steps (hd : db.Ok) {d : Deleting} (h : d.Relies db) : Steps db (.deleting d) (d.step db) := by
  obtain ⟨hrepeating, hknows⟩ := h
  unfold Deleting.step
  cases hp : d.phase with
  | finding =>
    simp only
    cases hu : db.users.find? (·.id = d.userId) with
    | none => exact .answers hd _
    | some user =>
      refine .goesTo hd ?_ fun w hw => ?_
      · cases hdel : user.deletionRequested with
        | false => exact ⟨by simp, fun _ _ _ => trivial⟩
        | true =>
          refine ⟨fun _ ha => ?_, fun _ _ _ => trivial⟩
          obtain ⟨x, hx, hid, hactive⟩ := active_iff.mp ha
          obtain rfl : x = user := Option.some.inj (((find?_key_eq_some hd.users).mpr ⟨hx, hid⟩).symm.trans hu)
          simp [ProductUser.isActive, hdel] at hactive
      · cases hdel : user.deletionRequested <;> simp [hdel, Process.held, DeletePhase.held] at hw
  | snapshotting =>
    exact .goesTo hd ⟨by simp, fun w ho howner => .inl (ho.owned howner).1⟩ fun w hw => by cases hw
  | acquiring waiting held =>
    simp only [hp] at hknows
    cases waiting with
    | nil =>
      refine .goesTo hd ⟨by simp, fun w ho howner => ⟨?_, (ho.owned howner).2⟩⟩ fun w hw => .inl ?_
      · exact (hknows w ho howner).resolve_left (by simp)
      · simpa [Process.held, DeletePhase.held, hp] using hw
    | cons w₁ waiting =>
      refine .goesTo hd ⟨by simp, fun w ho howner => ?_⟩ fun w hw => ?_
      · rcases hknows w ho howner with hw | hw
        · rcases List.mem_cons.mp hw with rfl | hw
          · exact .inr (List.mem_append_left _ ho.lockable)
          · exact .inl hw
        · exact .inr (List.mem_append_right _ hw)
      · rcases List.mem_append.mp hw with hw | hw
        · exact .inr (by simp [Process.waitsFor, hp, (mem_lockableWorkspace.mp hw).1])
        · exact .inl (by simpa [Process.held, DeletePhase.held, hp] using hw)
  | users held owned =>
    simp only [hp] at hknows
    refine .goesTo hd ⟨by simp, fun w ho howner => ?_⟩ fun w hw => .inl ?_
    · obtain ⟨hheld, howned⟩ := hknows w ho howner
      exact ⟨hheld, .inl howned, fun v hv _ => hv⟩
    · simpa [Process.held, DeletePhase.held, hp] using hw
  | checking held active owned blocking =>
    simp only [hp] at hknows
    have hheld : ∀ w ∈ held, w ∈ (Process.deleting d).held ∨ w ∈ (Process.deleting d).waitsFor := fun w hw =>
      .inl (by simpa [Process.held, DeletePhase.held, hp] using hw)
    cases owned with
    | nil =>
      simp only
      split
      · exact .answers hd _
      · rename_i hzero
        refine .goesTo hd ⟨by simp, fun w ho howner => ?_⟩ hheld
        obtain ⟨hw, hcovered, _⟩ := hknows w ho howner
        exact ⟨hw, (hcovered.resolve_left (by simp)).resolve_left hzero⟩
    | cons w₁ owned =>
      refine .reads hd (fun memberships hm => ⟨by simp, fun w ho howner => ?_⟩) fun _ => hheld
      obtain ⟨_, _, hm⟩ := bind_ok.mp hm
      obtain rfl := pure_ok.mp hm
      obtain ⟨hw, hcovered, hknown⟩ := hknows w ho howner
      refine ⟨hw, ?_, hknown⟩
      rcases hcovered with howned | hblocking | hcovered
      · rcases List.mem_cons.mp howned with rfl | howned
        · split
          · rename_i hanother
            exact .inr (.inr (covered_of_another hanother hknown))
          · exact .inr (.inl (Nat.succ_pos _))
        · exact .inl howned
      · refine .inr (.inl ?_)
        split
        · exact hblocking
        · exact Nat.succ_pos _
      · exact .inr (.inr hcovered)
  | marking held =>
    simp only [hp] at hknows
    refine .writes hd fun db' hw => markUserDeletionRequested_effect hd (fun _ w ho howner => ?_) hw
    obtain ⟨hheld, hcovered⟩ := hknows w ho howner
    exact ⟨by simpa [Process.held, DeletePhase.held, hp] using hheld, hcovered⟩
  | repeating =>
    exact .writes hd fun db' hw => markUserDeletionRequested_effect hd (fun ha => absurd ha (hrepeating hp)) hw

theorem cleaning_steps (hd : db.Ok) {c : Cleaning} (h : c.phase ≠ .finding → ¬ Active db c.userId) :
    Steps db (.cleaning c) (c.step db) := by
  unfold Cleaning.step
  cases hp : c.phase with
  | finding =>
    simp only
    cases hu : db.users.find? (·.id = c.userId) with
    | none => exact .answers hd _
    | some user =>
      refine .reads hd (fun _ hr _ ha => ?_) fun _ w hw => by cases hw
      obtain ⟨x, hx, hid, hactive⟩ := active_iff.mp ha
      obtain rfl : x = user := Option.some.inj (((find?_key_eq_some hd.users).mpr ⟨hx, hid⟩).symm.trans hu)
      simp [ProductUser.isActive, require_ok.mp hr] at hactive
  | listing => exact .goesTo hd (fun _ => h (by simp [hp])) fun w hw => by cases hw
  | removing shared =>
    have hclosed := h (by simp [hp])
    have heffect : Effect [] none db
      { db with memberships := deleteWhere (fun m => m.userId = c.userId ∧ m.workspaceId ∈ shared) db.memberships } :=
      removeMemberships_effect hd hclosed shared
    refine ⟨heffect, ?_⟩
    rintro _ ⟨⟩
    exact ⟨fun _ => hclosed, fun w hw => by cases hw⟩
  | deleting => exact .writes hd fun db' hw => deleteUser_effect hd (h (by simp [hp])) hw

theorem process_steps (hd : db.Ok) {t : Process} (h : t.Relies db) : Steps db t (t.step db) := by
  cases t with
  | creating u => exact .writes hd fun db' hw => createWorkspace_effect hd hw
  | adding a => exact adding_steps hd a
  | changing c => exact changing_steps hd h
  | deleting d => exact deleting_steps hd h
  | cleaning c => exact cleaning_steps hd h

end steps

def NoneMadeOwner (s : Pool Db Process) : Move Request WorkspaceDeletion → Prop
  | .advance pid => ∀ t ∈ s.at? pid, ∀ u ∈ t.makesOwner, ∀ q ∈ s.running, q.2.deletes ≠ some u
  | _ => True

/-- `kept` is a workspace that has an active owner while it is open. -/
def assertions (kept : Option WorkspaceId) : Assertions Db Process Answer where
  holds _ db := db.Ok ∧ ∀ w ∈ kept, w < db.fresh ∧ (Open db w → HasActiveOwner db w)
  relies _ db t := t.Relies db
  apart p q := ∀ w ∈ p.held, w ∉ q.held

theorem Effect.holds {held : List WorkspaceId} {made : Option UserId} {watched : Option WorkspaceId}
    (h : Effect held made db db') (hk : ∀ w ∈ watched, w < db.fresh ∧ (Open db w → HasActiveOwner db w)) :
    db'.Ok ∧ ∀ w ∈ watched, w < db'.fresh ∧ (Open db' w → HasActiveOwner db' w) := by
  refine ⟨h.ok, fun w hw => ?_⟩
  obtain ⟨hlt, hactive⟩ := hk w hw
  exact ⟨Nat.lt_of_lt_of_le hlt (h.quiet (fun _ => False) nofun).fresh, h.kept w hlt hactive⟩

theorem start_relies (request : Request) : (ownerSystem.start request).Relies db ∧ (ownerSystem.start request).held = [] := by
  cases request with
  | create | add | change => exact ⟨trivial, rfl⟩
  | delete => exact ⟨⟨by simp, fun _ _ _ => trivial⟩, rfl⟩
  | clean => exact ⟨fun h => absurd rfl h, rfl⟩

theorem owners_inductive (kept : Option WorkspaceId) : ownerSystem.Inductive (assertions kept) NoneMadeOwner where
  symm p q h w hw hw' := h w hw' hw
  start log s request _ _ := by
    obtain ⟨hrelies, hheld⟩ : (ownerSystem.start request).Relies s.store ∧ (ownerSystem.start request).held = [] :=
      start_relies request
    exact ⟨hrelies, fun q w hw => by rw [hheld] at hw; cases hw⟩
  step log s pid t hs hnone hat ht hothers := by
    obtain ⟨hd, hk⟩ := hs.holds
    have hsteps : Steps s.store t (t.step s.store) := process_steps hd ht
    refine ⟨⟨hsteps.effect.holds hk, ?_⟩, fun t' ht' => ?_⟩
    · rintro q ⟨hap, p, hp, rfl⟩ hq
      refine Process.Relies.mono hq hd (hsteps.effect.quiet _ fun w hw hw' => hap w hw' hw) fun u hu w howner => ?_
      exact (hsteps.effect.made w u howner).resolve_right fun hmade => hnone t hat u hmade p (mem_leave.mp hp).1 hu
    · obtain ⟨hrelies, hheld⟩ := hsteps.next t' ht'
      refine ⟨hrelies, fun q _ hap hblocks w hw hw' => ?_⟩
      rcases hheld w hw with hold | hnew
      · exact hap w hold hw'
      · exact hblocks ⟨w, hnew, hw'⟩
  env log s deletion hs _ := by
    obtain ⟨hd, hk⟩ := hs.holds
    have heffect : Effect [] none s.store (deletion.run s.store) := deletion_effect hd deletion
    refine ⟨heffect.holds hk, fun q _ hq => ?_⟩
    refine Process.Relies.mono hq hd (heffect.quiet _ fun _ _ h => by cases h) fun u _ w howner => ?_
    exact (heffect.made w u howner).resolve_right (by simp)

def ownerMachine : Machine (Pool Db Process) (Move Request WorkspaceDeletion) (Option Answer) :=
  ownerSystem.machine Db.Ok fun _ _ => True

/-- A Shared Workspace that has an active owner at some point keeps one until it is closed, as long as nobody
is made an owner whose account is being checked for its deletion. -/
theorem owners_stay {s₀ s₁ s₂ : Pool Db Process} {h₁ h₂ : List (Move Request WorkspaceDeletion × Option Answer)}
    (hi : ownerMachine.init s₀) (hr₁ : (ownerMachine.when NoneMadeOwner).Run s₀ h₁ s₁)
    (hr₂ : (ownerMachine.when NoneMadeOwner).Run s₁ h₂ s₂) (w : WorkspaceId)
    (hhad : HasActiveOwner s₁.store w) (hopen : Open s₂.store w) : HasActiveOwner s₂.store w := by
  obtain ⟨hd, hidle, _⟩ := hi
  have hstart : (assertions none).Ok [] s₀ := Assertions.Ok.of_idle hidle ⟨hd, by simp⟩
  have hmid := (owners_inductive none).run_ok (run_of_when _ hr₁) hstart
  have hlt : w < s₁.store.fresh := by
    obtain ⟨u, ho, _⟩ := hhad
    exact ho.lt hmid.holds.1
  have hmid' : (assertions (some w)).Ok [] s₁ := by
    refine ⟨⟨hmid.holds.1, ?_⟩, hmid.relies, hmid.apart, hmid.pids, hmid.started⟩
    rintro _ ⟨⟩
    exact ⟨hlt, fun _ => hhad⟩
  have hend := (owners_inductive (some w)).run_ok (run_of_when _ hr₂) hmid'
  exact (hend.holds.2 w rfl).2 hopen

instance : Decidable (Owner db w u) := inferInstanceAs (Decidable (_ ∈ _))

instance : Decidable (Active db u) := inferInstanceAs (Decidable (_ ∈ _))

instance : Decidable (Open db w) :=
  inferInstanceAs (Decidable (∃ x ∈ db.workspaces, x.id = w ∧ x.kind = .shared ∧ x.notInDeletion))

instance : Decidable (ownerSystem.blocks q t) := inferInstanceAs (Decidable (∃ w ∈ t.waitsFor, w ∈ q.held))

instance : Decidable (ownerMachine.enabled s a) := inferInstanceAs (Decidable (ownerSystem.Unblocked s a ∧ True))

instance : DecidablePred (NoneMadeOwner s)
  | .advance pid =>
    inferInstanceAs (Decidable (∀ t ∈ s.at? pid, ∀ u ∈ t.makesOwner, ∀ q ∈ s.running, q.2.deletes ≠ some u))
  | .start _ | .abort _ | .env _ => .isTrue trivial

instance : Decidable ((ownerMachine.when NoneMadeOwner).enabled s a) :=
  inferInstanceAs (Decidable (ownerMachine.enabled s a ∧ NoneMadeOwner s a))

namespace Example

/-- A workspace of `y`, in which `x` has this role. -/
def store (role : WorkspaceMembershipRole) : Db where
  users := [⟨"x", .active, false⟩, ⟨"y", .active, false⟩]
  workspaces := [⟨0, .shared, false⟩]
  memberships := [⟨0, "y", .owner⟩, ⟨0, "x", role⟩]
  fresh := 1

def ready (role : WorkspaceMembershipRole) : Pool Db Process := ⟨store role, [], 0⟩

abbrev Go := Move Request WorkspaceDeletion

def steps (pid n : Nat) : List Go := List.replicate n (.advance pid)

def change (userId : UserId) (command : MemberCommand) : Go := .start (.change ⟨userId, false⟩ 0 command)

/-- The deletion of `x` has locked nothing when `y` makes `x` an owner and leaves. -/
def promoted : List Go :=
  .start (.delete "x") :: steps 0 3 ++ change "y" (.changeMemberRole "x" .owner) :: steps 1 6 ++
    change "y" .leaveWorkspace :: steps 2 8 ++ steps 0 3

def inTurn : List Go := .start (.delete "y") :: steps 0 8 ++ change "x" .leaveWorkspace :: steps 1 7

theorem ready_init (role : WorkspaceMembershipRole) : ownerMachine.init (ready role) := by
  refine ⟨⟨by simp [ready, store], by simp [ready, store, WorkspaceMembership.key], ?_, ?_⟩, rfl, rfl⟩
  · simp [ready, store]
  · simp [ready, store]

end Example

/-- The workspace is left to a user whose account is being deleted. -/
theorem owner_is_deleted : ¬ ∀ (s₀ s₁ s₂ : Pool Db Process)
    (h₁ h₂ : List (Move Request WorkspaceDeletion × Option Answer)), ownerMachine.init s₀ → ownerMachine.Run s₀ h₁ s₁ →
    ownerMachine.Run s₁ h₂ s₂ → ∀ w, HasActiveOwner s₁.store w → Open s₂.store w → HasActiveOwner s₂.store w := by
  intro hall
  have hallows : ownerMachine.Allows (Example.ready .member) Example.promoted := by with_unfolding_all decide
  have hhad : HasActiveOwner (Example.ready .member).store 0 := ⟨"y", by decide, by decide⟩
  obtain ⟨u, ho, ha⟩ := hall _ _ _ [] _ (Example.ready_init .member) .nil hallows.run 0 hhad (by with_unfolding_all decide)
  have hnone : ∀ m ∈ (ownerMachine.after (Example.ready .member) Example.promoted).store.memberships,
      m.userId ∉ activeUserIds (ownerMachine.after (Example.ready .member) Example.promoted).store := by with_unfolding_all decide
  exact hnone _ ho ha

theorem owners_stay_in_turn :
    .ok () ∈ Processes.answers (ownerMachine.history (Example.ready .owner) Example.inTurn) ∧
      .error lastOwner ∈ Processes.answers (ownerMachine.history (Example.ready .owner) Example.inTurn) ∧
      HasActiveOwner (ownerMachine.after (Example.ready .owner) Example.inTurn).store 0 := by
  have hallows : (ownerMachine.when NoneMadeOwner).Allows (Example.ready .owner) Example.inTurn := by with_unfolding_all decide
  have hhad : HasActiveOwner (Example.ready .owner).store 0 := ⟨"y", by decide, by decide⟩
  exact ⟨by with_unfolding_all decide, by with_unfolding_all decide,
    owners_stay (Example.ready_init .owner) .nil hallows.run 0 hhad (by with_unfolding_all decide)⟩

end Catalyst.Workspaces
