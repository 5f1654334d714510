import Mathlib
import Catalyst.Workspaces.Keep

/-!
# The authority of Admins

An Admin may remove a regular Member. The target's role is read before the transaction of the removal,
and its lock does not cover that read, so the removal is within the Admin's authority as long as nobody
grants the target a role in between.
-/

namespace Catalyst.Workspaces

open Library Library.Check Library.Processes

/-- What a step does to the store: nothing, or one write. -/
inductive Written (db : Db) : Process → Db → Prop
  | unchanged : Written db t db
  | created : createWorkspace db u = .ok db' → Written db (.creating u) db'
  | added : insertMembership db a.workspaceId a.target .member = .ok db' → Written db (.adding a) db'
  | changed (c : Changing) (held : List WorkspaceId) : c.phase = .changing held → changeMembership db c.workspaceId c.target c.command.change = .ok db' →
      Written db (.changing c) db'
  | marked : markUserDeletionRequested db d.userId = .ok db' → Written db (.deleting d) db'
  | cleaned (shared : List WorkspaceId) : Written db (.cleaning c)
      { db with memberships := deleteWhere (fun m => m.userId = c.userId ∧ m.workspaceId ∈ shared) db.memberships }
  | deleted : deleteUser db c.userId = .ok db' → Written db (.cleaning c) db'

variable {db db' : Db} {w : WorkspaceId} {u : UserId}

theorem memberships_ok (hd : db.Ok) {ms : List WorkspaceMembership} (hkeys : (ms.map (·.key)).Nodup)
    (hmem : ∀ m ∈ ms, ∃ m' ∈ db.memberships, m'.key = m.key) : Db.Ok { db with memberships := ms } := by
  refine ⟨hd.users, hkeys, hd.workspace_lt, fun m hm => ?_⟩
  obtain ⟨m', hm', he⟩ := hmem m hm
  have hid : m'.workspaceId = m.workspaceId := congrArg Prod.fst he
  exact hid ▸ hd.membership_lt m' hm'

theorem changeMembership_ok (hd : db.Ok) (h : changeMembership db w u change = .ok db') : db'.Ok := by
  obtain ⟨_, -, h⟩ := bind_ok.mp h
  obtain ⟨_, -, h⟩ := bind_ok.mp h
  obtain ⟨_, -, h⟩ := bind_ok.mp h
  obtain rfl := pure_ok.mp h
  exact memberships_ok hd (on_keys hd.memberships) fun m hm => on_mem_key hm

theorem markUserDeletionRequested_ok (hd : db.Ok) (h : markUserDeletionRequested db u = .ok db') : db'.Ok := by
  obtain ⟨_, -, h⟩ := bind_ok.mp h
  obtain rfl := pure_ok.mp h
  have hids : (updateWhere (·.id = u) (fun user => { user with deletionRequested := true }) db.users).map ProductUser.id =
      db.users.map ProductUser.id := map_updateWhere ProductUser.id fun _ _ => rfl
  exact ⟨hids ▸ hd.users, hd.memberships, hd.workspace_lt, hd.membership_lt⟩

theorem deleteUser_ok (hd : db.Ok) (h : deleteUser db u = .ok db') : db'.Ok := by
  obtain ⟨_, -, h⟩ := bind_ok.mp h
  obtain ⟨_, -, h⟩ := bind_ok.mp h
  obtain rfl := pure_ok.mp h
  exact ⟨map_deleteWhere_nodup _ hd.users, hd.memberships, hd.workspace_lt, hd.membership_lt⟩

theorem reads_store (db : Db) (read : Except AppError α) (next : α → Process) : (reads db read next).2.2 = db := by
  cases read <;> rfl

theorem written_reads (read : Except AppError α) (next : α → Process) : Written db t (reads db read next).2.2 := by
  rw [reads_store]
  exact .unchanged

theorem written_writes {write : Except AppError Db} (h : ∀ db', write = .ok db' → Written db t db') :
    Written db t (writes db write).2.2 := by
  cases hw : write with
  | error e => exact .unchanged
  | ok db' => exact h db' hw

theorem step_written (t : Process) : Written db t (t.step db).2.2 := by
  cases t with
  | creating u => exact written_writes fun _ h => .created h
  | adding a =>
    simp only [Process.step, Adding.step]
    cases a.phase with
    | inserting => exact written_writes fun _ h => .added h
    | _ => exact written_reads _ _
  | changing c =>
    simp only [Process.step, Changing.step]
    cases hphase : c.phase with
    | locking => exact .unchanged
    | reading held =>
      simp only
      split <;> exact .unchanged
    | listing held active =>
      simp only
      split <;> exact .unchanged
    | changing held => exact written_writes fun _ h => .changed c held hphase h
    | _ => exact written_reads _ _
  | deleting d =>
    simp only [Process.step, Deleting.step]
    cases d.phase with
    | finding =>
      simp only
      split <;> exact .unchanged
    | snapshotting => exact .unchanged
    | acquiring waiting held =>
      cases waiting with
      | nil => exact .unchanged
      | cons v waiting => exact .unchanged
    | users held owned => exact .unchanged
    | checking held active owned blocking =>
      cases owned with
      | nil =>
        simp only
        split <;> exact .unchanged
      | cons v owned => exact written_reads _ _
    | marking held => exact written_writes fun _ h => .marked h
    | repeating => exact written_writes fun _ h => .marked h
  | cleaning c =>
    simp only [Process.step, Cleaning.step]
    cases c.phase with
    | finding =>
      simp only
      split
      · exact .unchanged
      · exact written_reads _ _
    | listing => exact .unchanged
    | removing shared => exact .cleaned shared
    | deleting => exact written_writes fun _ h => .deleted h

theorem Written.ok (hd : db.Ok) (h : Written db t db') : db'.Ok := by
  cases h with
  | unchanged => exact hd
  | @created u _ h =>
    have heffect : Effect [] (some u) db db' := createWorkspace_effect hd h
    exact heffect.ok
  | added h =>
    have heffect : Effect [] none db db' := insertMembership_effect hd h
    exact heffect.ok
  | changed c held hphase h => exact changeMembership_ok hd h
  | marked h => exact markUserDeletionRequested_ok hd h
  | cleaned shared =>
    exact memberships_ok hd (map_deleteWhere_nodup _ hd.memberships) fun m hm => ⟨m, (mem_deleteWhere.mp hm).1, rfl⟩
  | deleted h => exact deleteUser_ok hd h

theorem next_holds {I : Db → Prop} {s : Pool Db Process} (a : Move Request WorkspaceDeletion) (hs : I s.store)
    (hstep : ∀ pid t, a = .advance pid → s.at? pid = some t → I (t.step s.store).2.2)
    (henv : ∀ deletion : WorkspaceDeletion, I (deletion.run s.store)) : I (ownerMachine.next s a).store := by
  cases a with
  | start input => exact hs
  | abort pid => exact hs
  | env deletion => exact henv deletion
  | advance pid =>
    have hkept : I (ownerSystem.advance s pid).2.store := by
      unfold Processes.advance
      cases hat : s.at? pid with
      | none => exact hs
      | some t => exact hstep pid t rfl hat
    exact hkept

theorem reachable_ok {s : Pool Db Process} (h : ownerMachine.Reachable s) : s.store.Ok := by
  refine h.invariant (I := fun s : Pool Db Process => s.store.Ok) (fun s hs => ?_) fun s a hs _ => ?_
  · exact hs.1
  refine next_holds (I := Db.Ok) a hs (fun _ t _ _ => (step_written t).ok hs) fun (deletion : WorkspaceDeletion) => ?_
  have heffect : Effect [] none s.store (deletion.run s.store) := deletion_effect hs deletion
  exact heffect.ok

structure Regular (db : Db) (w : WorkspaceId) (u : UserId) : Prop where
  lt_fresh : w < db.fresh
  role : ∀ m ∈ db.memberships, m.workspaceId = w → m.userId = u → m.role = .member

def Process.grants : Process → Option (WorkspaceId × UserId)
  | changing ⟨_, w, .changeMemberRole u role, .changing _⟩ => if role = .member then none else some (w, u)
  | _ => none

def NotGranted (w : WorkspaceId) (u : UserId) (s : Pool Db Process) : Move Request WorkspaceDeletion → Prop
  | .advance pid => ∀ t ∈ s.at? pid, t.grants ≠ some (w, u)
  | .start _ | .abort _ | .env _ => True

theorem Regular.written (h : Regular db w u) (hw : Written db t db') (hgrants : t.grants ≠ some (w, u)) :
    Regular db' w u := by
  cases hw with
  | unchanged => exact h
  | created hc =>
    obtain ⟨_, -, hc⟩ := bind_ok.mp hc
    obtain rfl := pure_ok.mp hc
    refine ⟨Nat.lt_succ_of_lt h.lt_fresh, fun m hm hid hu => ?_⟩
    rcases List.mem_append.mp hm with hm | hm
    · exact h.role m hm hid hu
    · obtain rfl := List.mem_singleton.mp hm
      exact absurd h.lt_fresh (by simp [← hid])
  | added ha =>
    obtain ⟨_, -, ha⟩ := bind_ok.mp ha
    obtain ⟨_, -, ha⟩ := bind_ok.mp ha
    obtain rfl := pure_ok.mp ha
    refine ⟨h.lt_fresh, fun m hm hid hu => ?_⟩
    rcases List.mem_append.mp hm with hm | hm
    · exact h.role m hm hid hu
    · obtain rfl := List.mem_singleton.mp hm
      rfl
  | changed c held hphase hc =>
    obtain ⟨_, -, hc⟩ := bind_ok.mp hc
    obtain ⟨_, -, hc⟩ := bind_ok.mp hc
    obtain ⟨_, -, hc⟩ := bind_ok.mp hc
    obtain rfl := pure_ok.mp hc
    refine ⟨h.lt_fresh, fun m hm hid hu => ?_⟩
    obtain ⟨actor, v, command, phase⟩ := c
    obtain rfl : phase = .changing held := hphase
    cases command with
    | changeMemberRole target role =>
      have hwritten : m ∈ updateWhere (fun m : WorkspaceMembership => m.workspaceId = v ∧ m.userId = target)
        (fun m => { m with role := role }) db.memberships := hm
      obtain ⟨m', hm', rfl⟩ := mem_updateWhere.mp hwritten
      by_cases hkey : m'.workspaceId = v ∧ m'.userId = target
      · rw [if_pos hkey] at hid hu ⊢
        by_contra hrole
        refine hgrants ?_
        rw [Process.grants, if_neg hrole]
        exact congrArg some (Prod.ext (hkey.1.symm.trans hid) (hkey.2.symm.trans hu))
      · rw [if_neg hkey] at hid hu ⊢
        exact h.role m' hm' hid hu
    | removeMember target => exact h.role m (mem_deleteWhere.mp hm).1 hid hu
    | leaveWorkspace => exact h.role m (mem_deleteWhere.mp hm).1 hid hu
  | marked hc =>
    obtain ⟨_, -, hc⟩ := bind_ok.mp hc
    obtain rfl := pure_ok.mp hc
    exact ⟨h.lt_fresh, h.role⟩
  | cleaned shared => exact ⟨h.lt_fresh, fun m hm => h.role m (mem_deleteWhere.mp hm).1⟩
  | deleted hc =>
    obtain ⟨_, -, hc⟩ := bind_ok.mp hc
    obtain ⟨_, -, hc⟩ := bind_ok.mp hc
    obtain rfl := pure_ok.mp hc
    exact ⟨h.lt_fresh, h.role⟩

theorem Regular.deletion (h : Regular db w u) (deletion : WorkspaceDeletion) : Regular (deletion.run db) w u := by
  cases deletion with
  | requested v => exact ⟨h.lt_fresh, h.role⟩
  | completed v =>
    simp only [WorkspaceDeletion.run]
    split
    · exact h
    · exact ⟨h.lt_fresh, fun m hm => h.role m (mem_deleteWhere.mp hm).1⟩

theorem Regular.run (h : Regular s.store w u) (hr : (ownerMachine.when (NotGranted w u)).Run s hist t) :
    Regular t.store w u := by
  refine hr.preserves (I := fun s => Regular s.store w u) (fun s a hs he => ?_) h
  refine next_holds (I := fun db => Regular db w u) a hs (fun pid t ha hat => ?_) fun deletion => Regular.deletion hs deletion
  subst ha
  exact Regular.written hs (step_written t) (he.2 t hat)

theorem regular_of_requireTarget (hd : db.Ok) (hadmin : access.role = .admin) (hcommand : command ≠ .leaveWorkspace)
    (h : requireTarget db w access command = .ok ()) : ∃ u, command = .removeMember u ∧ Regular db w u := by
  cases command with
  | leaveWorkspace => exact absurd rfl hcommand
  | changeMemberRole u role =>
    obtain ⟨target, -, h⟩ := bind_ok.mp h
    obtain ⟨_, hregular, h⟩ := bind_ok.mp h
    obtain ⟨htarget, rfl⟩ := require_ok.mp hregular hadmin
    exact absurd htarget (require_ok.mp h)
  | removeMember u =>
    obtain ⟨target, htarget, h⟩ := bind_ok.mp h
    have hrole : target.role = .member := require_ok.mp h hadmin
    have hget := need_ok.mp htarget
    unfold getMembership at hget
    split at hget
    case isFalse => cases hget
    case isTrue =>
      have hmem := List.mem_of_find?_eq_some hget
      have hkey : target.workspaceId = w ∧ target.userId = u := by simpa using List.find?_some hget
      refine ⟨u, rfl, hkey.1 ▸ hd.membership_lt target hmem, fun m hm hid hu => ?_⟩
      have hsame : m = target := List.inj_on_of_nodup_map hd.memberships hm hmem
        (Prod.ext (hid.trans hkey.1.symm) (hu.trans hkey.2.symm))
      exact hsame ▸ hrole

/-- The memberships of Owners and Admins stay as they are, and nobody becomes an Owner. -/
structure Respects (db db' : Db) : Prop where
  kept : ∀ m ∈ db.memberships, m.role ≠ .member → m ∈ db'.memberships
  owners : ∀ m ∈ db'.memberships, m.role = .owner → m ∈ db.memberships

theorem Respects.refl (db : Db) : Respects db db := ⟨fun _ hm _ => hm, fun _ hm _ => hm⟩

theorem adding_respects (a : Adding) : Respects db (a.step db).2.2 := by
  have hw : Written db (.adding a) (a.step db).2.2 := step_written (.adding a)
  generalize (a.step db).2.2 = db' at hw
  cases hw with
  | unchanged => exact .refl db
  | added h =>
    obtain ⟨_, -, h⟩ := bind_ok.mp h
    obtain ⟨_, -, h⟩ := bind_ok.mp h
    obtain rfl := pure_ok.mp h
    refine ⟨fun m hm _ => List.mem_append_left _ hm, fun m hm howner => ?_⟩
    rcases List.mem_append.mp hm with hm | hm
    · exact hm
    · obtain rfl := List.mem_singleton.mp hm
      cases howner

theorem removal_respects (h : Regular db w u) (actor : Actor) (phase : ChangePhase) :
    Respects db (Changing.step db ⟨actor, w, .removeMember u, phase⟩).2.2 := by
  have hw : Written db (.changing ⟨actor, w, .removeMember u, phase⟩)
    (Changing.step db ⟨actor, w, .removeMember u, phase⟩).2.2 := step_written (.changing _)
  generalize (Changing.step db ⟨actor, w, .removeMember u, phase⟩).2.2 = db' at hw
  cases hw with
  | unchanged => exact .refl db
  | changed _ _ _ hc =>
    obtain ⟨_, -, hc⟩ := bind_ok.mp hc
    obtain ⟨_, -, hc⟩ := bind_ok.mp hc
    obtain ⟨_, -, hc⟩ := bind_ok.mp hc
    obtain rfl := pure_ok.mp hc
    refine ⟨fun m hm hrole => ?_, fun m hm _ => (mem_deleteWhere.mp hm).1⟩
    exact mem_deleteWhere.mpr ⟨hm, fun hkey => hrole (h.role m hm hkey.1 hkey.2)⟩

theorem next_store {s : Pool Db Process} (hat : s.at? pid = some t) :
    (ownerMachine.next s (.advance pid)).store = (t.step s.store).2.2 := by
  have hnext : (ownerSystem.advance s pid).2.store = (t.step s.store).2.2 := by
    simp only [Processes.advance, hat]
    rfl
  exact hnext

/-- In every run: the adding of a member changes no membership of an Owner or Admin and makes no Owner; nor does
a change of another member that an Admin's access allows, where between its read of that member and its write
nobody writes Owner or Admin as the member's role. -/
theorem admin_authority (hs : ownerMachine.Reachable s) :
    (∀ pid a, s.at? pid = some (.adding a) → Respects s.store (ownerMachine.next s (.advance pid)).store) ∧
    ∀ pid actor w command access hist t held, s.at? pid = some (.changing ⟨actor, w, command, .targeting access⟩) →
      access.role = .admin → command ≠ .leaveWorkspace → requireTarget s.store w access command = .ok () →
      (ownerMachine.when (NotGranted w (command.target actor))).Run (ownerMachine.next s (.advance pid)) hist t →
      t.at? pid = some (.changing ⟨actor, w, command, .changing held⟩) →
      Respects t.store (ownerMachine.next t (.advance pid)).store := by
  refine ⟨fun pid a hat => ?_, fun pid actor w command access hist t held hat hadmin hcommand hread hr hwrite => ?_⟩
  · rw [next_store hat]
    exact adding_respects a
  · obtain ⟨u, rfl, hregular⟩ := regular_of_requireTarget (reachable_ok hs) hadmin hcommand hread
    have hsame : (ownerMachine.next s (.advance pid)).store = s.store := by
      rw [next_store hat]
      exact reads_store _ _ _
    have hlater : Regular t.store w u := Regular.run (hsame ▸ hregular) hr
    rw [next_store hwrite]
    exact removal_respects hlater actor _

namespace Example

/-- A workspace of `y` with the Admin `x` and the Member `z`. -/
def staffed : Pool Db Process where
  store :=
    { users := [⟨"x", .active, false⟩, ⟨"y", .active, false⟩, ⟨"z", .active, false⟩]
      workspaces := [⟨0, .shared, false⟩]
      memberships := [⟨0, "y", .owner⟩, ⟨0, "x", .admin⟩, ⟨0, "z", .member⟩]
      fresh := 1 }
  running := []
  started := 0

/-- `x` has access, and reads `z` next. -/
def begins : List Go := change "x" (.removeMember "z") :: steps 0 2

/-- `x` stands before the write. -/
def locks : List Go := steps 0 2

/-- Meanwhile `y` makes `z` an Admin. -/
def promotes : List Go := change "y" (.changeMemberRole "z" .admin) :: steps 1 6

def removal (phase : ChangePhase) : Process := .changing ⟨⟨"x", false⟩, 0, .removeMember "z", phase⟩

def targeting : Pool Db Process := ownerMachine.after staffed begins

def read : Pool Db Process := ownerMachine.next targeting (.advance 0)

theorem staffed_init : ownerMachine.init staffed := by
  refine ⟨⟨by simp [staffed], by simp [staffed, WorkspaceMembership.key], ?_, ?_⟩, rfl, rfl⟩
  · simp [staffed]
  · simp [staffed]

theorem targeting_reachable : ownerMachine.Reachable targeting := by
  have hallows : ownerMachine.Allows staffed begins := by decide
  exact ⟨staffed, _, staffed_init, hallows.run⟩

end Example

instance : DecidablePred (NotGranted w u s)
  | .advance pid => inferInstanceAs (Decidable (∀ t ∈ s.at? pid, t.grants ≠ some (w, u)))
  | .start _ | .abort _ | .env _ => .isTrue trivial

instance : Decidable ((ownerMachine.when (NotGranted w u)).enabled s a) :=
  inferInstanceAs (Decidable (ownerMachine.enabled s a ∧ NotGranted w u s a))

open Example

/-- The Member is made an Admin behind the Admin's read, and is removed. -/
theorem admin_removes_admin :
    ownerMachine.Reachable (ownerMachine.after staffed (begins ++ [.advance 0] ++ promotes ++ locks)) ∧
      targeting.at? 0 = some (removal (.targeting ⟨.admin, some .admin⟩)) ∧
      (ownerMachine.after staffed (begins ++ [.advance 0] ++ promotes ++ locks)).at? 0 = some (removal (.changing [0])) ∧
      ¬Respects (ownerMachine.after staffed (begins ++ [.advance 0] ++ promotes ++ locks)).store
        (ownerMachine.next (ownerMachine.after staffed (begins ++ [.advance 0] ++ promotes ++ locks)) (.advance 0)).store := by
  have hallows : ownerMachine.Allows staffed (begins ++ [.advance 0] ++ promotes ++ locks) := by decide
  refine ⟨⟨staffed, _, staffed_init, hallows.run⟩, by decide, by decide, fun h => ?_⟩
  have hlost : (⟨0, "z", .admin⟩ : WorkspaceMembership) ∉ (ownerMachine.next (ownerMachine.after staffed
    (begins ++ [.advance 0] ++ promotes ++ locks)) (.advance 0)).store.memberships := by decide
  exact hlost (h.kept _ (by decide) (by decide))

theorem admin_authority_removed :
    Respects (ownerMachine.after read locks).store
        (ownerMachine.next (ownerMachine.after read locks) (.advance 0)).store ∧
      (ownerMachine.next (ownerMachine.after read locks) (.advance 0)).store.memberships
        = [⟨0, "y", .owner⟩, ⟨0, "x", .admin⟩] := by
  have hallows : (ownerMachine.when (NotGranted 0 "z")).Allows read locks := by decide
  have hrespects := (admin_authority targeting_reachable).2 0 ⟨"x", false⟩ 0 (.removeMember "z") ⟨.admin, some .admin⟩
    _ (ownerMachine.after read locks) [0] (by decide) rfl (by decide) (by decide) hallows.run
    (by decide)
  exact ⟨hrespects, by decide⟩

end Catalyst.Workspaces
