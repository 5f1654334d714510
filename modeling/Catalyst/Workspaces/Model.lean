import Catalyst.Core
import Catalyst.Library.Check
import Catalyst.Library.Processes
import Catalyst.Library.Table

/-!
# Owners of workspaces

Memberships of Shared Workspaces change while accounts are deleted. A change of a membership
and the request to delete an account are transactions that lock workspace rows first; each
of their statements sees what is committed when it runs, and what they write is committed
with their last one.
-/

namespace Catalyst.Workspaces

open Library

abbrev UserId := String

abbrev WorkspaceId := Nat

inductive UserStatus
  | active | disabled
  deriving DecidableEq

structure ProductUser where
  id : UserId
  status : UserStatus
  deletionRequested : Bool
  deriving DecidableEq

inductive WorkspaceKind
  | personal | shared
  deriving DecidableEq

structure CollaborationWorkspace where
  id : WorkspaceId
  kind : WorkspaceKind
  deletionRequested : Bool
  deriving DecidableEq

inductive WorkspaceMembershipRole
  | owner | admin | member
  deriving DecidableEq

structure WorkspaceMembership where
  workspaceId : WorkspaceId
  userId : UserId
  role : WorkspaceMembershipRole
  deriving DecidableEq

structure Db where
  users : List ProductUser
  workspaces : List CollaborationWorkspace
  memberships : List WorkspaceMembership
  /-- The next id of a workspace. -/
  fresh : WorkspaceId
  deriving DecidableEq

def workspaceNotFound : AppError := ⟨.notFound, "Collaboration Workspace is not available"⟩

def CollaborationWorkspace.notInDeletion (workspace : CollaborationWorkspace) : Prop := workspace.deletionRequested = false

instance : DecidablePred CollaborationWorkspace.notInDeletion := fun _ => inferInstanceAs (Decidable (_ = _))

def getWorkspace (db : Db) (w : WorkspaceId) : Option CollaborationWorkspace :=
  db.workspaces.find? fun workspace => workspace.id = w ∧ workspace.notInDeletion

def requireWorkspace (db : Db) (w : WorkspaceId) : Except AppError CollaborationWorkspace :=
  Check.need (getWorkspace db w) workspaceNotFound

def getMembership (db : Db) (w : WorkspaceId) (u : UserId) : Option WorkspaceMembership :=
  if (getWorkspace db w).isSome then db.memberships.find? fun m => m.workspaceId = w ∧ m.userId = u else none

def membershipsOf (db : Db) (w : WorkspaceId) : List WorkspaceMembership := db.memberships.filter (·.workspaceId = w)

def listMemberships (db : Db) (w : WorkspaceId) : Except AppError (List WorkspaceMembership) := do
  let _ ← requireWorkspace db w
  return membershipsOf db w

/-- A user reads `active` until its deletion is requested. -/
def ProductUser.isActive (user : ProductUser) : Prop := user.status = .active ∧ user.deletionRequested = false

instance : DecidablePred ProductUser.isActive := fun _ => inferInstanceAs (Decidable (_ ∧ _))

def activeUserIds (db : Db) : List UserId := (db.users.filter (·.isActive)).map (·.id)

/-- The ids of the Shared Workspaces among `listWorkspacesForUser` that the user owns. -/
def ownedWorkspaces (db : Db) (u : UserId) : List WorkspaceId :=
  (db.workspaces.filter fun workspace => workspace.kind = .shared ∧ workspace.notInDeletion ∧
    ⟨workspace.id, u, .owner⟩ ∈ db.memberships).map (·.id)

/-- The rows `lockWorkspacesForOwnerChange` locks for one workspace. -/
def lockableWorkspace (db : Db) (w : WorkspaceId) : List WorkspaceId :=
  (db.workspaces.filter fun workspace => workspace.id = w ∧ workspace.kind = .shared).map (·.id)

def lockableWorkspaces (db : Db) (ownedByUserId : UserId) : List WorkspaceId :=
  ((db.workspaces.filter fun workspace => workspace.kind = .shared ∧
    ⟨workspace.id, ownedByUserId, .owner⟩ ∈ db.memberships).map (·.id)).mergeSort

def hasAnotherActiveOwner (memberships : List WorkspaceMembership) (active : List UserId) (u : UserId) : Prop :=
  ∃ m ∈ memberships, m.role = .owner ∧ m.userId ≠ u ∧ m.userId ∈ active

instance : Decidable (hasAnotherActiveOwner memberships active u) :=
  inferInstanceAs (Decidable (∃ m ∈ memberships, m.role = .owner ∧ m.userId ≠ u ∧ m.userId ∈ active))

inductive MembershipChange
  | role (role : WorkspaceMembershipRole)
  | remove
  deriving DecidableEq

def personalRefusal : MembershipChange → AppError
  | .role _ => ⟨.validationFailed, "A Personal Workspace membership cannot change"⟩
  | .remove => ⟨.validationFailed, "A Personal Workspace membership cannot be removed"⟩

def MembershipChange.on (w : WorkspaceId) (u : UserId) (memberships : List WorkspaceMembership) :
    MembershipChange → List WorkspaceMembership
  | .role newRole => updateWhere (fun m => m.workspaceId = w ∧ m.userId = u) (fun m => { m with role := newRole }) memberships
  | .remove => deleteWhere (fun m => m.workspaceId = w ∧ m.userId = u) memberships

/-- `updateMembershipRole` and `removeMembership` -/
def changeMembership (db : Db) (w : WorkspaceId) (u : UserId) (change : MembershipChange) : Except AppError Db := do
  let workspace ← requireWorkspace db w
  Check.require (workspace.kind ≠ .personal) (personalRefusal change)
  Check.require (∃ m ∈ db.memberships, m.workspaceId = w ∧ m.userId = u)
    ⟨.notFound, "Workspace Membership is not available"⟩
  return { db with memberships := change.on w u db.memberships }

/-- The reads of `addMembership`. -/
def requireAddable (db : Db) (w : WorkspaceId) (u : UserId) : Except AppError Unit := do
  let workspace ← requireWorkspace db w
  Check.require (workspace.kind ≠ .personal) ⟨.validationFailed, "A Personal Workspace cannot gain members"⟩
  Check.require ((getMembership db w u).isNone) ⟨.conflict, "Workspace Membership already exists"⟩

def insertMembership (db : Db) (w : WorkspaceId) (u : UserId) (role : WorkspaceMembershipRole) : Except AppError Db := do
  Check.require (∀ m ∈ db.memberships, ¬ (m.workspaceId = w ∧ m.userId = u))
    ⟨.internal, "duplicate key value violates unique constraint"⟩
  Check.require ((∃ workspace ∈ db.workspaces, workspace.id = w) ∧ ∃ user ∈ db.users, user.id = u)
    ⟨.internal, "insert or update violates foreign key constraint"⟩
  return { db with memberships := db.memberships ++ [⟨w, u, role⟩] }

/-- The transaction that creates a Shared Workspace with its first owner. -/
def createWorkspace (db : Db) (creatorUserId : UserId) : Except AppError Db := do
  Check.require (∃ user ∈ db.users, user.id = creatorUserId) ⟨.notFound, "User is not available"⟩
  return { db with
    workspaces := db.workspaces ++ [⟨db.fresh, .shared, false⟩]
    memberships := db.memberships ++ [⟨db.fresh, creatorUserId, .owner⟩]
    fresh := db.fresh + 1 }

def markUserDeletionRequested (db : Db) (u : UserId) : Except AppError Db := do
  Check.require (∃ user ∈ db.users, user.id = u) ⟨.notFound, "User is not available"⟩
  return { db with users := updateWhere (·.id = u) (fun user => { user with deletionRequested := true }) db.users }

def deleteUser (db : Db) (u : UserId) : Except AppError Db := do
  Check.require (∃ user ∈ db.users, user.id = u) ⟨.notFound, "User is not available"⟩
  Check.require (∀ m ∈ db.memberships, m.userId ≠ u) ⟨.internal, "update or delete violates foreign key constraint"⟩
  return { db with users := deleteWhere (·.id = u) db.users }

structure Actor where
  userId : UserId
  superadmin : Bool
  deriving DecidableEq

structure WorkspaceAccess where
  role : WorkspaceMembershipRole
  membershipRole : Option WorkspaceMembershipRole
  deriving DecidableEq

def requireWorkspaceAccess (db : Db) (actor : Actor) (w : WorkspaceId) : Except AppError WorkspaceAccess := do
  let membershipRole := (getMembership db w actor.userId).map (·.role)
  let ownsAll := actor.superadmin && (getWorkspace db w).any (·.kind = .shared)
  let role ← Check.need (if ownsAll then some .owner else membershipRole) workspaceNotFound
  return ⟨role, membershipRole⟩

def requireSharedWorkspace (db : Db) (w : WorkspaceId) : Except AppError Unit := do
  let workspace ← requireWorkspace db w
  Check.require (workspace.kind = .shared) ⟨.validationFailed, "This action requires a Shared Workspace"⟩

inductive MemberCommand
  | changeMemberRole (userId : UserId) (role : WorkspaceMembershipRole)
  | removeMember (userId : UserId)
  | leaveWorkspace
  deriving DecidableEq

def MemberCommand.target (actor : Actor) : MemberCommand → UserId
  | changeMemberRole u _ => u
  | removeMember u => u
  | leaveWorkspace => actor.userId

def MemberCommand.change : MemberCommand → MembershipChange
  | changeMemberRole _ role => .role role
  | removeMember _ | leaveWorkspace => .remove

def forbidden (message : String) : AppError := ⟨.forbidden, message⟩

/-- What the command asks of the caller's access, before it reads the target. -/
def requireCommandAccess (access : WorkspaceAccess) : MemberCommand → Except AppError Unit
  | .changeMemberRole _ _ =>
    Check.require (access.role ≠ .member) (forbidden "Workspace Owner access is required")
  | .removeMember _ =>
    Check.require (access.role ≠ .member) (forbidden "Workspace Owner or Admin access is required")
  | .leaveWorkspace => .ok ()

def requireTarget (db : Db) (w : WorkspaceId) (access : WorkspaceAccess) : MemberCommand → Except AppError Unit
  | .changeMemberRole u role => do
    let target ← Check.need (getMembership db w u) ⟨.notFound, "Workspace member is not available"⟩
    Check.require (access.role = .admin → target.role = .member ∧ role = .member)
      (forbidden "Workspace Admins may manage regular Members only")
    Check.require (target.role ≠ role) ⟨.conflict, "Workspace role is unchanged"⟩
  | .removeMember u => do
    let target ← Check.need (getMembership db w u) ⟨.notFound, "Workspace member is not available"⟩
    Check.require (access.role = .admin → target.role = .member)
      (forbidden "Workspace Admins may remove regular Members only")
  | .leaveWorkspace =>
    Check.require access.membershipRole.isSome ⟨.conflict, "User is not a workspace member"⟩

/-- Where `underOwnerLock` and the checks before it stand; the rows it locked are held from then on. -/
inductive ChangePhase
  | accessing
  | sharing (access : WorkspaceAccess)
  | targeting (access : WorkspaceAccess)
  | locking
  | reading (held : List WorkspaceId)
  | users (held : List WorkspaceId)
  | listing (held : List WorkspaceId) (active : List UserId)
  | changing (held : List WorkspaceId)
  deriving DecidableEq

structure Changing where
  actor : Actor
  workspaceId : WorkspaceId
  command : MemberCommand
  phase : ChangePhase
  deriving DecidableEq

def Changing.target (c : Changing) : UserId := c.command.target c.actor

inductive AddPhase
  | accessing | sharing | targeting | requiring | inserting
  deriving DecidableEq

/-- `approveAccessRequest`, or `addMemberByEmail` once it knows whom. -/
structure Adding where
  approves : Bool
  actor : Actor
  workspaceId : WorkspaceId
  target : UserId
  phase : AddPhase
  deriving DecidableEq

inductive DeletePhase
  | finding
  | snapshotting
  | acquiring (waiting held : List WorkspaceId)
  | users (held owned : List WorkspaceId)
  | checking (held : List WorkspaceId) (active : List UserId) (owned : List WorkspaceId) (blocking : Nat)
  | marking (held : List WorkspaceId)
  /-- The deletion was requested before: nothing is checked again. -/
  | repeating
  deriving DecidableEq

/-- `requestAccountDeletion` -/
structure Deleting where
  userId : UserId
  phase : DeletePhase
  deriving DecidableEq

inductive CleanPhase
  | finding
  | listing
  | removing (shared : List WorkspaceId)
  | deleting
  deriving DecidableEq

/-- One pass of `completeAccountDeletion`, by the request or its job. -/
structure Cleaning where
  userId : UserId
  phase : CleanPhase
  deriving DecidableEq

def cannotAddMember (approves : Bool) : AppError :=
  ⟨if approves then .conflict else .validationFailed,
    "This user cannot be added. Invitations for people without an eligible account are not available yet."⟩

def requireCandidate (db : Db) (approves : Bool) (w : WorkspaceId) (u : UserId) : Except AppError Unit := do
  Check.require (u ∈ activeUserIds db) (cannotAddMember approves)
  Check.require (approves = false → (getMembership db w u).isNone) ⟨.conflict, "User is already a workspace member"⟩

def soleOwner (blocking : Nat) : AppError :=
  let plural := if blocking = 1 then "" else "s"
  ⟨.conflict, s!"User is the last active owner of {blocking} Shared Workspace{plural}"⟩

def lastOwner : AppError := ⟨.conflict, "A Shared Workspace must retain at least one active owner"⟩

inductive Request
  | create (creatorUserId : UserId)
  | add (approves : Bool) (actor : Actor) (workspaceId : WorkspaceId) (target : UserId)
  | change (actor : Actor) (workspaceId : WorkspaceId) (command : MemberCommand)
  | delete (userId : UserId)
  | clean (userId : UserId)
  deriving DecidableEq

inductive Process
  | creating (creatorUserId : UserId)
  | adding (a : Adding)
  | changing (c : Changing)
  | deleting (d : Deleting)
  | cleaning (c : Cleaning)
  deriving DecidableEq

abbrev Answer := Except AppError Unit

abbrev StepResult := Option Answer × Option Process × Db

def answers (db : Db) (answer : Answer) : StepResult := (some answer, none, db)

def goesTo (db : Db) (t : Process) : StepResult := (none, some t, db)

def reads (db : Db) (read : Except AppError α) (next : α → Process) : StepResult :=
  match read with
  | .error e => answers db (.error e)
  | .ok a => goesTo db (next a)

def writes (db : Db) (write : Except AppError Db) : StepResult :=
  match write with
  | .error e => answers db (.error e)
  | .ok db' => answers db' (.ok ())

def Adding.step (db : Db) (a : Adding) : StepResult :=
  let next (phase : AddPhase) : Process := .adding { a with phase }
  match a.phase with
  | .accessing =>
    reads db (do
      let access ← requireWorkspaceAccess db a.actor a.workspaceId
      Check.require (access.role ≠ .member) (forbidden "Workspace Owner or Admin access is required"))
      fun _ => next .sharing
  | .sharing => reads db (requireSharedWorkspace db a.workspaceId) fun _ => next .targeting
  | .targeting => reads db (requireCandidate db a.approves a.workspaceId a.target) fun _ => next .requiring
  | .requiring => reads db (requireAddable db a.workspaceId a.target) fun _ => next .inserting
  | .inserting => writes db (insertMembership db a.workspaceId a.target .member)

def Changing.step (db : Db) (c : Changing) : StepResult :=
  let next (phase : ChangePhase) : Process := .changing { c with phase }
  match c.phase with
  | .accessing =>
    reads db (do
      let access ← requireWorkspaceAccess db c.actor c.workspaceId
      requireCommandAccess access c.command
      return access) fun access => next (.sharing access)
  | .sharing access => reads db (requireSharedWorkspace db c.workspaceId) fun _ => next (.targeting access)
  | .targeting access => reads db (requireTarget db c.workspaceId access c.command) fun _ => next .locking
  | .locking => goesTo db (next (.reading (lockableWorkspace db c.workspaceId)))
  | .reading held =>
    if (getMembership db c.workspaceId c.target).any (·.role = .owner) then goesTo db (next (.users held))
    else goesTo db (next (.changing held))
  -- The two reads are sent together: the users come before the memberships.
  | .users held => reads db (requireWorkspace db c.workspaceId) fun _ => next (.listing held (activeUserIds db))
  | .listing held active =>
    if hasAnotherActiveOwner (membershipsOf db c.workspaceId) active c.target then goesTo db (next (.changing held))
    else answers db (.error lastOwner)
  | .changing _ => writes db (changeMembership db c.workspaceId c.target c.command.change)

def Deleting.step (db : Db) (d : Deleting) : StepResult :=
  let next (phase : DeletePhase) : Process := .deleting { d with phase }
  match d.phase with
  | .finding =>
    match db.users.find? (·.id = d.userId) with
    | none => answers db (.error ⟨.notFound, "User account is not available"⟩)
    | some user => goesTo db (next (if user.deletionRequested then .repeating else .snapshotting))
  | .snapshotting => goesTo db (next (.acquiring (lockableWorkspaces db d.userId) []))
  | .acquiring (w :: waiting) held => goesTo db (next (.acquiring waiting (lockableWorkspace db w ++ held)))
  | .acquiring [] held => goesTo db (next (.users held (ownedWorkspaces db d.userId)))
  | .users held owned => goesTo db (next (.checking held (activeUserIds db) owned 0))
  | .checking held active (w :: owned) blocking =>
    reads db (listMemberships db w) fun memberships => next (.checking held active owned
      (if hasAnotherActiveOwner memberships active d.userId then blocking else blocking + 1))
  | .checking held _ [] blocking =>
    if blocking > 0 then answers db (.error (soleOwner blocking)) else goesTo db (next (.marking held))
  | .marking _ | .repeating => writes db (markUserDeletionRequested db d.userId)

def Cleaning.step (db : Db) (c : Cleaning) : StepResult :=
  let next (phase : CleanPhase) : Process := .cleaning { c with phase }
  match c.phase with
  | .finding =>
    match db.users.find? (·.id = c.userId) with
    | none => answers db (.ok ())
    | some user =>
      reads db (Check.require user.deletionRequested ⟨.internal, "The deletion of this user was not requested"⟩)
        fun _ => next .listing
  | .listing => goesTo db (next (.removing ((db.workspaces.filter (·.kind = .shared)).map (·.id))))
  | .removing shared =>
    goesTo { db with memberships := deleteWhere (fun m => m.userId = c.userId ∧ m.workspaceId ∈ shared) db.memberships }
      (next .deleting)
  | .deleting => writes db (deleteUser db c.userId)

def Process.step (db : Db) : Process → StepResult
  | creating creatorUserId => writes db (createWorkspace db creatorUserId)
  | adding a => a.step db
  | changing c => c.step db
  | deleting d => d.step db
  | cleaning c => c.step db

def ChangePhase.held : ChangePhase → List WorkspaceId
  | reading held | users held | listing held _ | changing held => held
  | accessing | sharing _ | targeting _ | locking => []

def DeletePhase.held : DeletePhase → List WorkspaceId
  | acquiring _ held | users held _ | checking held _ _ _ | marking held => held
  | finding | snapshotting | repeating => []

def Process.held : Process → List WorkspaceId
  | changing c => c.phase.held
  | deleting d => d.phase.held
  | creating _ | adding _ | cleaning _ => []

def Process.waitsFor : Process → Option WorkspaceId
  | changing c => if c.phase = .locking then some c.workspaceId else none
  | deleting d =>
    match d.phase with
    | .acquiring (w :: _) _ => some w
    | _ => none
  | creating _ | adding _ | cleaning _ => none

inductive WorkspaceDeletion
  | requested (w : WorkspaceId)
  | completed (w : WorkspaceId)
  deriving DecidableEq

def WorkspaceDeletion.run (db : Db) : WorkspaceDeletion → Db
  | requested w =>
    let closed := updateWhere (fun workspace : CollaborationWorkspace => workspace.id = w ∧ workspace.kind = .shared)
      (fun workspace => { workspace with deletionRequested := true }) db.workspaces
    { db with workspaces := closed }
  | completed w =>
    if (getWorkspace db w).isSome then db
    else
      let workspaces := deleteWhere (fun workspace : CollaborationWorkspace => workspace.id = w) db.workspaces
      let memberships := deleteWhere (fun m : WorkspaceMembership => m.workspaceId = w) db.memberships
      { db with workspaces, memberships }

def ownerSystem : Processes Db Request Process WorkspaceDeletion Answer where
  start
    | .create creatorUserId => .creating creatorUserId
    | .add approves actor w target => .adding ⟨approves, actor, w, target, .accessing⟩
    | .change actor w command => .changing ⟨actor, w, command, .accessing⟩
    | .delete userId => .deleting ⟨userId, .finding⟩
    | .clean userId => .cleaning ⟨userId, .finding⟩
  blocks q t := ∃ w ∈ t.waitsFor, w ∈ q.held
  step db t := t.step db
  env db deletion := (none, deletion.run db)

end Catalyst.Workspaces
