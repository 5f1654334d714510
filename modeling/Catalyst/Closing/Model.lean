import Catalyst.Library.RowLocks
import Catalyst.Library.Table
import Mathlib.Data.List.Dedup
import Mathlib.Data.List.Sort
import Mathlib.Data.Prod.Lex
import Mathlib.Order.Lattice

/-!
# Writes into a conversation and the marks that close it

The transactions that write into a conversation under its lock, that move it, and that mark a
user or a workspace for deletion, statement by statement. A statement that waited for a row
reads the row again as it was committed meanwhile. A transaction that fails otherwise or whose
process ends changes nothing and gives its locks back; what else a write looks at is such an end.

The rows that a write inserts or updates beside these are rows of its conversation, which none
of these transactions touches without the conversation's lock. Ids are compared as the database
sorts them.
-/

namespace Catalyst.Closing

open Library

variable {Id : Type}

inductive ConversationVisibility
  | workspace | «private»
  deriving DecidableEq

structure Conversation (Id : Type) where
  id : Id
  collaborationWorkspaceId : Id
  createdByUserId : Id
  visibility : ConversationVisibility
  active : Bool
  deriving DecidableEq

inductive WorkspaceKind (Id : Type)
  | shared
  | personal (personalUserId : Id)
  deriving DecidableEq

structure CollaborationWorkspace (Id : Type) where
  id : Id
  kind : WorkspaceKind Id
  deletionRequested : Bool
  deriving DecidableEq

structure ProductUser (Id : Type) where
  id : Id
  deactivated : Bool
  deletionRequested : Bool
  deriving DecidableEq

inductive MembershipRole
  | owner | member
  deriving DecidableEq

structure Membership (Id : Type) where
  collaborationWorkspaceId : Id
  userId : Id
  role : MembershipRole
  deriving DecidableEq

structure AgentRun (Id : Type) where
  id : Id
  conversationId : Id
  ownerUserId : Id
  leaseToken : Option Id
  deriving DecidableEq

structure Job (Id : Type) where
  id : Id
  leaseToken : Id
  deriving DecidableEq

structure Written (Id : Type) where
  conversationId : Id
  madeFor : Option Id
  content : String
  deriving DecidableEq

structure Db (Id : Type) where
  conversations : List (Conversation Id)
  workspaces : List (CollaborationWorkspace Id)
  users : List (ProductUser Id)
  memberships : List (Membership Id)
  runs : List (AgentRun Id)
  jobs : List (Job Id)
  written : List (Written Id)
  deriving DecidableEq

variable [LinearOrder Id]

def Db.conversation? (db : Db Id) (c : Id) : Option (Conversation Id) := db.conversations.find? (·.id = c)

def Db.workspace? (db : Db Id) (w : Id) : Option (CollaborationWorkspace Id) := db.workspaces.find? (·.id = w)

def Db.user? (db : Db Id) (u : Id) : Option (ProductUser Id) := db.users.find? (·.id = u)

def Db.UserMarked (db : Db Id) (u : Id) : Prop := ∃ user ∈ db.user? u, user.deletionRequested = true

def Db.WorkspaceMarked (db : Db Id) (w : Id) : Prop := ∃ workspace ∈ db.workspace? w, workspace.deletionRequested = true

instance (db : Db Id) (u : Id) : Decidable (db.UserMarked u) :=
  inferInstanceAs (Decidable (∃ user ∈ db.user? u, user.deletionRequested = true))

def Db.write (db : Db Id) (w : Written Id) : Db Id := { db with written := db.written ++ [w] }

def Db.move (db : Db Id) (c toWorkspace : Id) (visibility : ConversationVisibility) : Db Id :=
  { db with
    conversations := updateWhere (·.id = c)
      (fun r => { r with collaborationWorkspaceId := toWorkspace, visibility := visibility }) db.conversations }

def Db.markUser (db : Db Id) (u : Id) : Db Id :=
  { db with users := updateWhere (·.id = u) (fun r => { r with deletionRequested := true }) db.users }

def Db.markWorkspace (db : Db Id) (w : Id) : Db Id :=
  { db with workspaces := updateWhere (·.id = w) (fun r => { r with deletionRequested := true }) db.workspaces }

inductive Row (Id : Type)
  | job (id : Id)
  | run (id : Id)
  | conversation (id : Id)
  | workspace (id : Id)
  | user (id : Id)
  deriving DecidableEq

/-- The order in which every transaction takes its rows: by table, then by id. -/
def Row.key : Row Id → ℕ ×ₗ Id
  | job id => toLex (0, id)
  | run id => toLex (1, id)
  | conversation id => toLex (2, id)
  | workspace id => toLex (3, id)
  | user id => toLex (4, id)

instance : Preorder (Row Id) := .lift Row.key

structure ClaimedRun (Id : Type) where
  jobId : Id
  runId : Id
  leaseToken : Id
  deriving DecidableEq

/-- A write that is under way: `runOwnerUserId` is what it names, `madeFor` the user whose run makes it. -/
structure Writing (Id : Type) where
  claim : Option (ClaimedRun Id)
  conversationId : Id
  runOwnerUserId : Option Id
  madeFor : Option Id
  content : String
  deriving DecidableEq

structure Moving (Id : Type) where
  conversationId : Id
  fromCollaborationWorkspaceId : Id
  toCollaborationWorkspaceId : Id
  visibility : ConversationVisibility
  deriving DecidableEq

inductive Call (Id : Type)
  /-- createManagedArtifact, ensureManagedArtifact, upsertWorkspaceFile, appendMessage, appendAssistantMessage -/
  | write (conversationId : Id) (madeFor : Option Id) (content : String)
  /-- appendClaimedAgentRunMessage, and appendClaimedAgentRunEnd with a message -/
  | writeClaimed (claim : ClaimedRun Id) (conversationId : Id) (content : String)
  | moveConversation (m : Moving Id)
  | requestAccountDeletion (userId : Id) (alreadyRequested : Bool)
  | requestWorkspaceDeletion (workspaceId : Id)
  deriving DecidableEq

inductive ErrorCode
  | notFound | conflict | validationFailed
  deriving DecidableEq

inductive Refusal (Id : Type)
  | conversationNotAvailable
  | noLongerAccepts
  | jobLeaseLost (jobId : Id)
  | runEnded
  | anotherConversation
  | workspaceChanged
  | noSuchWorkspace
  | lastActiveOwner (blockingWorkspaceCount : Nat)
  | userNotAvailable
  | workspaceNotAvailable
  | personalWorkspace
  deriving DecidableEq

def Refusal.error [ToString Id] : Refusal Id → Option (ErrorCode × String)
  | conversationNotAvailable => some (.notFound, "Conversation is not available")
  | noLongerAccepts => some (.conflict, "Conversation no longer accepts messages")
  | jobLeaseLost jobId => some (.conflict, s!"Job {jobId} is no longer leased to this attempt")
  | runEnded => some (.conflict, "Agent run has ended")
  | anotherConversation => some (.conflict, "Agent run message belongs to another conversation")
  | workspaceChanged => some (.conflict, "Conversation workspace changed during the move")
  | noSuchWorkspace => none
  | lastActiveOwner n =>
    some (.conflict, s!"User is the last active owner of {n} Shared Workspace" ++ if n = 1 then "" else "s")
  | userNotAvailable => some (.notFound, "User is not available")
  | workspaceNotAvailable => some (.notFound, "Collaboration Workspace is not available")
  | personalWorkspace => some (.validationFailed, "A Personal Workspace cannot be deleted")

inductive Answer (Id : Type)
  | written
  | moved
  | marked (newly : Bool)
  | refused (why : Refusal Id)
  deriving DecidableEq

structure Place (Id : Type) where
  conversation : Conversation Id
  workspace : CollaborationWorkspace Id
  deriving DecidableEq

/-- Where a transaction stands: its next statement. -/
inductive Going (Id : Type)
  | lockingJob (claim : ClaimedRun Id) (conversationId : Id) (content : String)
  | lockingRun (claim : ClaimedRun Id) (conversationId : Id) (content : String)
  | lockingConversation (w : Writing Id)
  -- the conversation is locked, so its row cannot change any more
  | lockingWorkspace (w : Writing Id) (c : Conversation Id)
  | lockingUsers (w : Writing Id) (place : Place Id) (locked : List Id) (marked : Bool) (rest : List Id)
  | writing (w : Writing Id) (place : Place Id) (locked : List Id)
  | updatingConversation (m : Moving Id)
  | checkingWorkspace (m : Moving Id)
  | committingMove (m : Moving Id)
  | listingOwned (userId : Id)
  | lockingOwned (userId : Id) (locked : List Id) (rest : List Id)
  | checkingOwners (userId : Id) (locked : List Id)
  | updatingUser (userId : Id) (locked : List Id)
  | committingUser (userId : Id) (locked : List Id)
  | updatingWorkspace (workspaceId : Id)
  | committingWorkspace (workspaceId : Id)
  deriving DecidableEq

def start : Call Id → Going Id
  | .write c madeFor content => .lockingConversation ⟨none, c, none, madeFor, content⟩
  | .writeClaimed claim c content => .lockingJob claim c content
  | .moveConversation m => .updatingConversation m
  | .requestAccountDeletion u alreadyRequested => if alreadyRequested then .updatingUser u [] else .listingOwned u
  | .requestWorkspaceDeletion w => .updatingWorkspace w

def claimLocks : Option (ClaimedRun Id) → List (RowLock (Row Id))
  | none => []
  | some claim => [⟨.job claim.jobId, .share⟩, ⟨.run claim.runId, .update⟩]

def Writing.locks (w : Writing Id) : List (RowLock (Row Id)) :=
  claimLocks w.claim ++ [⟨.conversation w.conversationId, .update⟩]

def Place.locks (place : Place Id) (w : Writing Id) (users : List Id) : List (RowLock (Row Id)) :=
  w.locks ++ ⟨.workspace place.conversation.collaborationWorkspaceId, .share⟩ :: users.map fun u => ⟨.user u, .share⟩

def ownedLocks (workspaces : List Id) : List (RowLock (Row Id)) := workspaces.map fun w => ⟨.workspace w, .update⟩

def Going.holds : Going Id → List (RowLock (Row Id))
  | lockingJob _ _ _ | updatingConversation _ | listingOwned _ | updatingWorkspace _ => []
  | lockingRun claim _ _ => [⟨.job claim.jobId, .share⟩]
  | lockingConversation w => claimLocks w.claim
  | lockingWorkspace w _ => w.locks
  | lockingUsers w place locked _ _ | writing w place locked => place.locks w locked
  | checkingWorkspace m => [⟨.conversation m.conversationId, .noKeyUpdate⟩]
  | committingMove m =>
    [⟨.conversation m.conversationId, .noKeyUpdate⟩, ⟨.workspace m.toCollaborationWorkspaceId, .keyShare⟩]
  | lockingOwned _ locked _ | checkingOwners _ locked | updatingUser _ locked => ownedLocks locked
  | committingUser u locked => ownedLocks locked ++ [⟨.user u, .noKeyUpdate⟩]
  | committingWorkspace w => [⟨.workspace w, .noKeyUpdate⟩]

def Going.wants : Going Id → Option (RowLock (Row Id))
  | lockingJob claim _ _ => some ⟨.job claim.jobId, .share⟩
  | lockingRun claim _ _ => some ⟨.run claim.runId, .update⟩
  | lockingConversation w => some ⟨.conversation w.conversationId, .update⟩
  | lockingWorkspace _ c => some ⟨.workspace c.collaborationWorkspaceId, .share⟩
  | lockingUsers _ _ _ _ rest => rest.head?.map fun u => ⟨.user u, .share⟩
  | updatingConversation m => some ⟨.conversation m.conversationId, .noKeyUpdate⟩
  | checkingWorkspace m => some ⟨.workspace m.toCollaborationWorkspaceId, .keyShare⟩
  | lockingOwned _ _ rest => rest.head?.map fun w => ⟨.workspace w, .update⟩
  | updatingUser u _ => some ⟨.user u, .noKeyUpdate⟩
  | updatingWorkspace w => some ⟨.workspace w, .noKeyUpdate⟩
  | writing _ _ _ | committingMove _ | listingOwned _ | checkingOwners _ _ | committingUser _ _
  | committingWorkspace _ => none

def rowLocking : Locking (Going Id) (Row Id) := ⟨Going.holds, Going.wants⟩

abbrev StepResult (Id : Type) := Option (Answer Id) × Option (Going Id) × Db Id

def goesTo (db : Db Id) (g : Going Id) : StepResult Id := (none, some g, db)

def ends (db : Db Id) (answer : Answer Id) : StepResult Id := (some answer, none, db)

def refuses (db : Db Id) (why : Refusal Id) : StepResult Id := ends db (.refused why)

/-- requireJobLease -/
def locksJob (db : Db Id) (claim : ClaimedRun Id) (c : Id) (content : String) : StepResult Id :=
  if ∃ job ∈ db.jobs, job.id = claim.jobId ∧ job.leaseToken = claim.leaseToken then
    goesTo db (.lockingRun claim c content)
  else refuses db (.jobLeaseLost claim.jobId)

def locksRun (db : Db Id) (claim : ClaimedRun Id) (c : Id) (content : String) : StepResult Id :=
  match db.runs.find? fun run => run.id = claim.runId ∧ run.leaseToken = some claim.leaseToken with
  | none => refuses db .runEnded
  | some run =>
    if c ≠ run.conversationId then refuses db .anotherConversation
    else goesTo db (.lockingConversation ⟨some claim, c, some run.ownerUserId, some run.ownerUserId, content⟩)

def lockActiveConversation (db : Db Id) (w : Writing Id) : StepResult Id :=
  match db.conversation? w.conversationId with
  | none => refuses db .conversationNotAvailable
  | some c => if c.active then goesTo db (.lockingWorkspace w c) else refuses db .conversationNotAvailable

def Place.ownerUserId (place : Place Id) : Option Id :=
  if place.conversation.visibility = .private ∨ place.workspace.kind ≠ .shared then
    some place.conversation.createdByUserId
  else none

def Place.userIds (place : Place Id) (runOwnerUserId : Option Id) : List Id :=
  (place.ownerUserId.toList ++ runOwnerUserId.toList).dedup.mergeSort (· ≤ ·)

def readPlace (db : Db Id) (w : Writing Id) (c : Conversation Id) : StepResult Id :=
  match db.workspace? c.collaborationWorkspaceId with
  | none => refuses db .conversationNotAvailable
  | some workspace =>
    if workspace.deletionRequested then refuses db .noLongerAccepts
    else
      let place : Place Id := ⟨c, workspace⟩
      goesTo db (.lockingUsers w place [] false (place.userIds w.runOwnerUserId))

def locksUsers (db : Db Id) (w : Writing Id) (place : Place Id) (locked : List Id) (marked : Bool) :
    List Id → StepResult Id
  | [] => if marked then refuses db .noLongerAccepts else goesTo db (.writing w place locked)
  | u :: rest =>
    match db.user? u with
    | none => goesTo db (.lockingUsers w place locked marked rest)
    | some user => goesTo db (.lockingUsers w place (locked ++ [u]) (marked || user.deletionRequested) rest)

def updatesConversation (db : Db Id) (m : Moving Id) : StepResult Id :=
  match db.conversation? m.conversationId with
  | none => refuses db .workspaceChanged
  | some c =>
    if c.active ∧ c.collaborationWorkspaceId = m.fromCollaborationWorkspaceId then goesTo db (.checkingWorkspace m)
    else refuses db .workspaceChanged

def checksWorkspace (db : Db Id) (m : Moving Id) : StepResult Id :=
  match db.workspace? m.toCollaborationWorkspaceId with
  | none => refuses db .noSuchWorkspace
  | some _ => goesTo db (.committingMove m)

def Db.Owns (db : Db Id) (u w : Id) : Prop := ⟨w, u, .owner⟩ ∈ db.memberships

instance (db : Db Id) (u w : Id) : Decidable (db.Owns u w) := inferInstanceAs (Decidable (_ ∈ _))

def Db.ownedShared (db : Db Id) (u : Id) : List Id :=
  ((db.workspaces.filter fun w => w.kind = .shared ∧ db.Owns u w.id).map (·.id)).dedup.mergeSort (· ≤ ·)

def Db.HasAnotherActiveOwner (db : Db Id) (u w : Id) : Prop :=
  ∃ m ∈ db.memberships, m.collaborationWorkspaceId = w ∧ m.role = .owner ∧ m.userId ≠ u ∧
    ∃ user ∈ db.users, user.id = m.userId ∧ user.deactivated = false ∧ user.deletionRequested = false

instance (db : Db Id) (u w : Id) : Decidable (db.HasAnotherActiveOwner u w) := by
  unfold Db.HasAnotherActiveOwner
  infer_instance

/-- listWorkspacesForUser leaves out a workspace whose deletion was requested. -/
def Db.blockingWorkspaceCount (db : Db Id) (u : Id) : Nat :=
  (db.workspaces.filter fun w =>
    w.kind = .shared ∧ w.deletionRequested = false ∧ db.Owns u w.id ∧ ¬ db.HasAnotherActiveOwner u w.id).length

def updatesUser (db : Db Id) (u : Id) (locked : List Id) : StepResult Id :=
  match db.user? u with
  | none => refuses db .userNotAvailable
  | some user => if user.deletionRequested then ends db (.marked false) else goesTo db (.committingUser u locked)

def updatesWorkspace (db : Db Id) (w : Id) : StepResult Id :=
  match db.workspace? w with
  | none => refuses db .workspaceNotAvailable
  | some workspace =>
    if workspace.kind ≠ .shared then refuses db .personalWorkspace
    else if workspace.deletionRequested then ends db (.marked false)
    else goesTo db (.committingWorkspace w)

def step (db : Db Id) : Going Id → StepResult Id
  | .lockingJob claim c content => locksJob db claim c content
  | .lockingRun claim c content => locksRun db claim c content
  | .lockingConversation w => lockActiveConversation db w
  | .lockingWorkspace w c => readPlace db w c
  | .lockingUsers w place locked marked rest => locksUsers db w place locked marked rest
  | .writing w _ _ => ends (db.write ⟨w.conversationId, w.madeFor, w.content⟩) .written
  | .updatingConversation m => updatesConversation db m
  | .checkingWorkspace m => checksWorkspace db m
  | .committingMove m => ends (db.move m.conversationId m.toCollaborationWorkspaceId m.visibility) .moved
  | .listingOwned u => goesTo db (.lockingOwned u [] (db.ownedShared u))
  | .lockingOwned u locked [] => goesTo db (.checkingOwners u locked)
  | .lockingOwned u locked (w :: rest) =>
    if (db.workspace? w).isSome then goesTo db (.lockingOwned u (locked ++ [w]) rest)
    else goesTo db (.lockingOwned u locked rest)
  | .checkingOwners u locked =>
    let n := db.blockingWorkspaceCount u
    if 0 < n then refuses db (.lastActiveOwner n) else goesTo db (.updatingUser u locked)
  | .updatingUser u locked => updatesUser db u locked
  | .committingUser u _ => ends (db.markUser u) (.marked true)
  | .updatingWorkspace w => updatesWorkspace db w
  | .committingWorkspace w => ends (db.markWorkspace w) (.marked true)

def closingCalls : Processes (Db Id) (Call Id) (Going Id) Empty (Answer Id) where
  start := start
  blocks := rowLocking.Blocks
  step := step
  env _ e := e.elim

abbrev ClosingPool (Id : Type) := Pool (Db Id) (Going Id)

abbrev ClosingMove (Id : Type) := Move (Call Id) Empty

def closingSystem : Machine (ClosingPool Id) (ClosingMove Id) (Option (Answer Id)) :=
  closingCalls.machine (fun _ => True) fun _ _ => True

end Catalyst.Closing
