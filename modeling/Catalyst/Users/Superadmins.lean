import Mathlib
import Catalyst.Core
import Catalyst.Library.Check
import Catalyst.Library.Processes
import Catalyst.Library.Table

/-!
# Administration of users

Administrators create, change and delete users, and users delete their own accounts. A request
authenticates its caller, reads the user it is about and then writes; between two statements the
others go. Only the deletion by an administrator looks for another superadmin, before its write.
-/

namespace Catalyst.Superadmins

open Library Library.Check

abbrev UserId := String

abbrev UserRole := String

def isSuperadmin (roles : List UserRole) : Prop := "superadmin" ∈ roles

instance : DecidablePred isSuperadmin := fun _ => inferInstanceAs (Decidable (_ ∈ _))

inductive UserStatus
  | active | disabled
  deriving DecidableEq

inductive UserRecordStatus
  | active | disabled | deleting
  deriving DecidableEq

structure ProductUser where
  id : UserId
  roles : List UserRole
  status : UserStatus
  deletionRequested : Bool
  deriving DecidableEq

/-- A user whose deletion was requested reads `deleting`, whatever was set before. -/
def ProductUser.recordStatus (user : ProductUser) : UserRecordStatus :=
  if user.deletionRequested then .deleting
  else match user.status with
    | .active => .active
    | .disabled => .disabled

abbrev Db := List ProductUser

def ProductUser.isActiveSuperadmin (user : ProductUser) : Prop := user.recordStatus = .active ∧ isSuperadmin user.roles

instance : DecidablePred ProductUser.isActiveSuperadmin := fun _ => inferInstanceAs (Decidable (_ ∧ _))

structure Actor where
  id : UserId
  roles : List UserRole
  deriving DecidableEq

inductive Command
  /-- Under an id that is drawn for it. -/
  | createUser (userId : UserId) (roles : Option (List UserRole)) (status : Option UserStatus)
  | updateUser (userId : UserId) (roles : Option (List UserRole)) (status : Option UserStatus)
  | deleteUser (userId : UserId)
  | deleteCurrentUser
  deriving DecidableEq

inductive Phase
  | authenticating
  | finding (actor : Actor)
  | counting
  | writing
  deriving DecidableEq

structure Request where
  actorId : UserId
  command : Command
  phase : Phase
  deriving DecidableEq

def userNotFound : AppError := ⟨.notFound, "User not found"⟩

def userInDeletionError : AppError := ⟨.conflict, "User account is being deleted"⟩

def authenticate (db : Db) (actorId : UserId) : Except AppError Actor := do
  let user ← need (db.find? (·.id = actorId)) ⟨.unauthenticated, "User is not available"⟩
  require (user.recordStatus = .active) ⟨.forbidden, "User account is not active"⟩
  return ⟨user.id, user.roles⟩

def requireAssignableRoles (actor : Actor) (roles : Option (List UserRole)) : Except AppError Unit :=
  require (roles.any (fun roles => isSuperadmin roles) → isSuperadmin actor.roles)
    ⟨.forbidden, "Only superadmins can assign superadmin access"⟩

def requireManageableUser (actor : Actor) (user : ProductUser) : Except AppError Unit :=
  require (isSuperadmin user.roles → isSuperadmin actor.roles) ⟨.forbidden, "Only superadmins can manage superadmin users"⟩

/-- What the command asks of its caller before it reads the user. -/
def requireCaller (actor : Actor) : Command → Except AppError Unit
  | .createUser _ roles _ => requireAssignableRoles actor roles
  | .updateUser .. => .ok ()
  | .deleteUser userId => do
    require (isSuperadmin actor.roles) ⟨.forbidden, "User deletion requires a superadmin role"⟩
    require (userId ≠ actor.id) ⟨.validationFailed, "Superadmins cannot delete their own user account"⟩
  | .deleteCurrentUser => .ok ()

/-- What it asks of the user that it reads, and whether it then counts superadmins. -/
def requireUser (db : Db) (actor : Actor) : Command → Except AppError Phase
  | .createUser .. => .ok .writing
  | .updateUser userId roles _ => do
    let existing ← need (db.find? (·.id = userId)) userNotFound
    requireManageableUser actor existing
    require (existing.recordStatus ≠ .deleting) userInDeletionError
    requireAssignableRoles actor roles
    return .writing
  | .deleteUser userId => do
    let existing ← need (db.find? (·.id = userId)) userNotFound
    return if isSuperadmin existing.roles then .counting else .writing
  | .deleteCurrentUser => do
    let _ ← need (db.find? (·.id = actor.id)) ⟨.notFound, "User account is not available"⟩
    return .writing

def Request.userId (t : Request) : UserId :=
  match t.command with
  | .createUser userId _ _ | .updateUser userId _ _ | .deleteUser userId => userId
  | .deleteCurrentUser => t.actorId

/-- `remainingActiveSuperadmin` -/
def AnotherSuperadmin (db : Db) (u : UserId) : Prop := ∃ user ∈ db, user.id ≠ u ∧ user.isActiveSuperadmin

instance : Decidable (AnotherSuperadmin db u) := inferInstanceAs (Decidable (∃ user ∈ db, _))

def requireAtLeastOneRemainingSuperadmin (db : Db) (u : UserId) : Except AppError Unit :=
  require (AnotherSuperadmin db u) ⟨.validationFailed, "At least one active superadmin must remain"⟩

def ProductUser.set (user : ProductUser) (roles : Option (List UserRole)) (status : Option UserStatus) : ProductUser :=
  { user with roles := roles.getD user.roles, status := status.getD user.status }

def createUser (db : Db) (userId : UserId) (roles : Option (List UserRole)) (status : Option UserStatus) :
    Except AppError Db := do
  require (∀ user ∈ db, user.id ≠ userId) ⟨.internal, "duplicate key value violates unique constraint"⟩
  return db ++ [⟨userId, roles.getD ["user"], status.getD .active, false⟩]

def requireUserRecord (db : Db) (userId : UserId) : Except AppError Unit :=
  require (∃ user ∈ db, user.id = userId) ⟨.notFound, "User is not available"⟩

def updateUser (db : Db) (userId : UserId) (roles : Option (List UserRole)) (status : Option UserStatus) :
    Except AppError Db := do
  requireUserRecord db userId
  require (∃ user ∈ db, user.id = userId ∧ user.deletionRequested = false) userInDeletionError
  return updateWhere (fun user => user.id = userId ∧ user.deletionRequested = false) (·.set roles status) db

def markUserDeletionRequested (db : Db) (userId : UserId) : Except AppError Db := do
  requireUserRecord db userId
  return updateWhere (·.id = userId) (fun user => { user with deletionRequested := true }) db

def Request.write (t : Request) (db : Db) : Except AppError Db :=
  match t.command with
  | .createUser userId roles status => createUser db userId roles status
  | .updateUser userId roles status => updateUser db userId roles status
  | .deleteUser _ | .deleteCurrentUser => markUserDeletionRequested db t.userId

abbrev Answer := Except AppError Unit

abbrev StepResult := Option Answer × Option Request × Db

def reads (db : Db) (read : Except AppError Request) : StepResult :=
  match read with
  | .error e => (some (.error e), none, db)
  | .ok t => (none, some t, db)

def writes (db : Db) (write : Except AppError Db) : StepResult :=
  match write with
  | .error e => (some (.error e), none, db)
  | .ok db' => (some (.ok ()), none, db')

def Request.step (db : Db) (t : Request) : StepResult :=
  match t.phase with
  | .authenticating => reads db do
      let actor ← authenticate db t.actorId
      requireCaller actor t.command
      return { t with phase := .finding actor }
  | .finding actor => reads db do
      let phase ← requireUser db actor t.command
      return { t with phase }
  | .counting => reads db do
      requireAtLeastOneRemainingSuperadmin db t.userId
      return { t with phase := .writing }
  | .writing => writes db (t.write db)

def removeUser (db : Db) (userId : UserId) : Db := deleteWhere (fun user => user.id = userId ∧ user.deletionRequested) db

def administration : Processes Db (UserId × Command) Request UserId Answer where
  start input := ⟨input.1, input.2, .authenticating⟩
  blocks _ _ := False
  step db t := t.step db
  env db userId := (none, removeUser db userId)

instance (q t : Request) : Decidable (administration.blocks q t) := .isFalse id

abbrev machine := administration.machine (fun db => (db.map (·.id)).Nodup) fun _ _ => True

def HasActiveSuperadmin (db : Db) : Prop := ∃ user ∈ db, user.isActiveSuperadmin

instance : Decidable (HasActiveSuperadmin db) := inferInstanceAs (Decidable (∃ user ∈ db, _))

/-- The user who is no active superadmin once the request has written. -/
def Request.unseats (t : Request) : Option UserId :=
  match t.command with
  | .createUser .. => none
  | .updateUser userId roles status =>
    if roles.any (fun roles => ¬isSuperadmin roles) ∨ status = some .disabled then some userId else none
  | .deleteUser userId => some userId
  | .deleteCurrentUser => some t.actorId

def Spares (s : Pool Db Request) : Move (UserId × Command) UserId → Prop
  | .advance pid => ∀ t ∈ s.at? pid, t.phase = .writing → ∀ u ∈ t.unseats,
      (∃ user ∈ s.store, user.id = u ∧ user.isActiveSuperadmin) → AnotherSuperadmin s.store u
  | .start _ | .abort _ | .env _ => True

theorem isActiveSuperadmin_iff (user : ProductUser) :
    user.isActiveSuperadmin ↔ user.deletionRequested = false ∧ user.status = .active ∧ isSuperadmin user.roles := by
  unfold ProductUser.isActiveSuperadmin ProductUser.recordStatus
  cases user.deletionRequested <;> cases user.status <;> simp

instance : DecidablePred (Spares s)
  | .advance pid => inferInstanceAs (Decidable (∀ t ∈ s.at? pid, t.phase = .writing → ∀ u ∈ t.unseats,
      (∃ user ∈ s.store, user.id = u ∧ user.isActiveSuperadmin) → AnotherSuperadmin s.store u))
  | .start _ | .abort _ | .env _ => .isTrue trivial

instance : Decidable ((machine.when Spares).enabled s a) := inferInstanceAs (Decidable (machine.enabled s a ∧ Spares s a))

theorem write_mem (h : Request.write t db = .ok db') (hmem : user ∈ db) (hne : user.id ≠ t.userId) : user ∈ db' := by
  obtain ⟨actorId, command, phase⟩ := t
  cases command with
  | createUser userId roles status =>
    obtain ⟨-, -, h⟩ := bind_ok.mp h
    obtain rfl := pure_ok.mp h
    exact List.mem_append_left _ hmem
  | updateUser userId roles status =>
    obtain ⟨-, -, h⟩ := bind_ok.mp h
    obtain ⟨-, -, h⟩ := bind_ok.mp h
    obtain rfl := pure_ok.mp h
    exact mem_updateWhere_of_not hmem fun hu => hne hu.1
  | deleteUser userId =>
    obtain ⟨-, -, h⟩ := bind_ok.mp h
    obtain rfl := pure_ok.mp h
    exact mem_updateWhere_of_not hmem hne
  | deleteCurrentUser =>
    obtain ⟨-, -, h⟩ := bind_ok.mp h
    obtain rfl := pure_ok.mp h
    exact mem_updateWhere_of_not hmem hne

theorem write_keeps (h : Request.write t db = .ok db') (hmem : user ∈ db) (hactive : user.isActiveSuperadmin)
    (hseat : t.unseats ≠ some user.id) : HasActiveSuperadmin db' := by
  by_cases hne : user.id = t.userId
  · obtain ⟨actorId, command, phase⟩ := t
    cases command with
    | createUser userId roles status =>
      obtain ⟨-, -, h⟩ := bind_ok.mp h
      obtain rfl := pure_ok.mp h
      exact ⟨user, List.mem_append_left _ hmem, hactive⟩
    | updateUser userId roles status =>
      obtain ⟨-, -, h⟩ := bind_ok.mp h
      obtain ⟨-, -, h⟩ := bind_ok.mp h
      obtain rfl := pure_ok.mp h
      obtain ⟨hopen, hstatus, hroles⟩ := (isActiveSuperadmin_iff user).mp hactive
      refine ⟨user.set roles status, mem_updateWhere_of_mem hmem ⟨hne, hopen⟩, ?_⟩
      unfold Request.unseats at hseat
      simp only [hne, Request.userId] at hseat
      split at hseat
      case isTrue => exact absurd rfl hseat
      case isFalse hkept =>
        rw [not_or] at hkept
        refine (isActiveSuperadmin_iff _).mpr ⟨hopen, ?_, ?_⟩
        · cases status with
          | none => exact hstatus
          | some status =>
            cases status with
            | active => rfl
            | disabled => exact absurd rfl hkept.2
        · cases roles with
          | none => exact hroles
          | some roles => simpa [ProductUser.set] using hkept.1
    | deleteUser userId => exact absurd (congrArg some hne.symm) hseat
    | deleteCurrentUser => exact absurd (congrArg some hne.symm) hseat
  · exact ⟨user, write_mem h hmem hne, hactive⟩

theorem removeUser_keeps (h : HasActiveSuperadmin db) (userId : UserId) : HasActiveSuperadmin (removeUser db userId) := by
  obtain ⟨user, hmem, hactive⟩ := h
  have hopen : user.deletionRequested = false := ((isActiveSuperadmin_iff user).mp hactive).1
  exact ⟨user, mem_deleteWhere.mpr ⟨hmem, fun hd => by simp [hopen] at hd⟩, hactive⟩

theorem reads_store (db : Db) (read : Except AppError Request) : (reads db read).2.2 = db := by
  cases read <;> rfl

/-- A step of a request keeps an active superadmin, where a write spares the only one. -/
theorem step_keeps (t : Request) (h : HasActiveSuperadmin db)
    (hspares : t.phase = .writing → ∀ u ∈ t.unseats,
      (∃ user ∈ db, user.id = u ∧ user.isActiveSuperadmin) → AnotherSuperadmin db u) :
    HasActiveSuperadmin (t.step db).2.2 := by
  unfold Request.step
  cases hphase : t.phase with
  | authenticating =>
    simp only [reads_store]
    exact h
  | finding actor =>
    simp only [reads_store]
    exact h
  | counting =>
    simp only [reads_store]
    exact h
  | writing =>
    cases hw : t.write db with
    | error e => exact h
    | ok db' =>
      obtain ⟨user, hmem, hactive⟩ := h
      by_cases hseat : t.unseats = some user.id
      · obtain ⟨other, hother, hne, hkept⟩ := hspares hphase user.id hseat ⟨user, hmem, rfl, hactive⟩
        exact write_keeps hw hother hkept fun hu => hne (Option.some.inj (hu.symm.trans hseat))
      · exact write_keeps hw hmem hactive hseat

theorem preserves : (machine.when Spares).Preserves fun s => HasActiveSuperadmin s.store := by
  rintro s a h ⟨-, hspares⟩
  cases a with
  | start input => exact h
  | abort pid => exact h
  | env userId => exact removeUser_keeps h userId
  | advance pid =>
    have hkept : HasActiveSuperadmin (administration.advance s pid).2.store := by
      unfold Processes.advance
      cases ht : s.at? pid with
      | none => exact h
      | some t => exact step_keeps t h (hspares t ht)
    exact hkept

/-- In every run whose writes spare the only active superadmin there is one in every state. -/
theorem active_superadmin_stays (hr : (machine.when Spares).Run s h t) (hs : HasActiveSuperadmin s.store) :
    HasActiveSuperadmin t.store :=
  hr.preserves (I := fun s => HasActiveSuperadmin s.store) preserves hs

namespace Example

def root : ProductUser := ⟨"root", ["superadmin"], .active, false⟩

def second : ProductUser := ⟨"second", ["superadmin"], .active, false⟩

def pool (users : List ProductUser) : Pool Db Request := ⟨users, [], 0⟩

def request (pid : Nat) (actorId : UserId) (command : Command) (steps : Nat) : List (Move (UserId × Command) UserId) :=
  .start (actorId, command) :: List.replicate steps (.advance pid)

def ownRoles : List (Move (UserId × Command) UserId) := request 0 "root" (.updateUser "root" (some ["user"]) none) 3

def ownAccount : List (Move (UserId × Command) UserId) := request 0 "root" .deleteCurrentUser 3

def eachOther : List (Move (UserId × Command) UserId) :=
  request 0 "root" (.deleteUser "second") 3 ++ request 1 "second" (.deleteUser "root") 3 ++ [.advance 0, .advance 1]

def deletesSecond : List (Move (UserId × Command) UserId) := request 0 "root" (.deleteUser "second") 4

end Example

open Example

/-- The only superadmin takes the own role away, or deletes the own account; two delete each other. -/
theorem last_superadmin_lost :
    (machine.Reachable (machine.after (pool [root]) ownRoles) ∧ HasActiveSuperadmin (pool [root]).store ∧
      ¬HasActiveSuperadmin (machine.after (pool [root]) ownRoles).store) ∧
    (machine.Reachable (machine.after (pool [root]) ownAccount) ∧
      ¬HasActiveSuperadmin (machine.after (pool [root]) ownAccount).store) ∧
    machine.Reachable (machine.after (pool [root, second]) eachOther) ∧
      ¬HasActiveSuperadmin (machine.after (pool [root, second]) eachOther).store := by
  have hrole : machine.Allows (pool [root]) ownRoles := by decide
  have haccount : machine.Allows (pool [root]) ownAccount := by decide
  have hother : machine.Allows (pool [root, second]) eachOther := by decide
  have hone : machine.init (pool [root]) := ⟨by decide, rfl, rfl⟩
  have htwo : machine.init (pool [root, second]) := ⟨by decide, rfl, rfl⟩
  exact ⟨⟨⟨_, _, hone, hrole.run⟩, by decide, by decide⟩,
    ⟨⟨_, _, hone, haccount.run⟩, by decide⟩, ⟨_, _, htwo, hother.run⟩, by decide⟩

theorem active_superadmin_stays_deleted :
    HasActiveSuperadmin (machine.after (pool [root, second]) deletesSecond).store := by
  have hallows : (machine.when Spares).Allows (pool [root, second]) deletesSecond := by decide
  exact active_superadmin_stays hallows.run (by decide)

end Catalyst.Superadmins
