import Catalyst.Core
import Catalyst.Library.Check
import Catalyst.Library.Ordered
import Catalyst.Library.Processes
import Catalyst.Library.Table

/-!
# Signing in

The users and external identities of one client instance, the statements of
`resolveUserIdentity` one by one, and the changes administrators make. A
transaction sees what is committed at each of its statements. Its writes hold
their rows until it commits, so they count as one step with the commit.
-/

namespace Catalyst.Users

open Library Library.Check

abbrev UserId := Nat

inductive UserStatus
  | active | disabled
  deriving DecidableEq

structure ProductUser where
  id : UserId
  email : Option String
  status : UserStatus
  deletionRequested : Bool
  deriving DecidableEq

structure IdentityKey where
  authSource : String
  externalUserId : String
  deriving DecidableEq

structure UserIdentity where
  key : IdentityKey
  userId : UserId
  email : Option String
  emailVerified : Bool
  deriving DecidableEq

structure Db where
  users : List ProductUser
  identities : List UserIdentity
  /-- The next id `createUserId` gives. -/
  fresh : UserId
  deriving DecidableEq

/-- `email.trim().toLowerCase()` of the server and `lower(email)` of the database. -/
structure EmailText where
  normalize : String → String
  lower : String → String

structure ResolveUserIdentityInput where
  key : IdentityKey
  sourceUserId : Option UserId
  email : Option String
  emailVerified : Bool
  linkByVerifiedEmail : Bool
  deriving DecidableEq

/-- The normalized e-mail where `emailLinkingEnabled`. -/
def ResolveUserIdentityInput.linkingEmail (text : EmailText) (input : ResolveUserIdentityInput) :
    Option String :=
  if input.linkByVerifiedEmail ∧ input.emailVerified then
    (input.email.map text.normalize).filter (· ≠ "")
  else none

def Db.userOf (db : Db) (id : UserId) : Option ProductUser := db.users.find? (·.id = id)

def Db.identityOf (db : Db) (key : IdentityKey) : Option UserIdentity :=
  db.identities.find? (·.key = key)

def requireUsableUser (user : ProductUser) : Except AppError Unit := do
  require (user.deletionRequested = false) ⟨.unauthenticated, "User account is being deleted"⟩
  require (user.status = .active) ⟨.forbidden, "User is disabled"⟩

/-- The first query of `findSingleUserByVerifiedEmail`. -/
def identityMatches (text : EmailText) (db : Db) (email : String) : List UserId :=
  (db.identities.filter fun r => r.emailVerified ∧ r.email.map text.lower = some email).map (·.userId)

/-- The second query of `findSingleUserByVerifiedEmail`. -/
def userMatches (text : EmailText) (db : Db) (email : String) : List ProductUser :=
  db.users.filter fun u => u.email.map text.lower = some email

def upsertIdentity (row : UserIdentity) (identities : List UserIdentity) : List UserIdentity :=
  upsert (·.key) row identities

/-- Where a sign-in stands: what it holds and what it has read. -/
inductive Phase
  | begun
  | identityLocked
  | locked
  /-- An identity row of this user was read. -/
  | existing (userId : UserId)
  | updating (userId : UserId)
  /-- No identity row was read. -/
  | unknown
  | unmatched (email : String)
  | identityMatched (email : String) (ids : List UserId)
  /-- The only candidate, whose row is still to be read. -/
  | candidate (id : UserId)
  | resolved (user : Option UserId) (linkedByVerifiedEmail : Bool)
  | committed (userId : UserId)
  deriving DecidableEq

structure SignIn where
  input : ResolveUserIdentityInput
  phase : Phase
  deriving DecidableEq

def found (user : ProductUser) (linked : Bool) : Except AppError Phase := do
  requireUsableUser user
  return .resolved (some user.id) linked

/-- The statements up to the writes. -/
def SignIn.read (text : EmailText) (db : Db) (t : SignIn) : Except AppError Phase :=
  match t.phase with
  | .begun => .ok .identityLocked
  | .identityLocked => .ok .locked
  | .locked =>
    match db.identityOf t.input.key with
    | some r => .ok (.existing r.userId)
    | none => .ok .unknown
  | .existing userId => do
    let user ← need (db.userOf userId)
      ⟨.internal, "User identity mapping points to a missing user"⟩
    requireUsableUser user
    return .updating userId
  | .unknown =>
    match t.input.sourceUserId.bind db.userOf, t.input.linkingEmail text with
    | some user, _ => found user false
    | none, some email => .ok (.unmatched email)
    | none, none => .ok (.resolved none false)
  | .unmatched email => .ok (.identityMatched email (identityMatches text db email))
  | .identityMatched email ids =>
    let matched := userMatches text db email
    match (ids ++ matched.map (·.id)).eraseDups with
    | [id] =>
      match matched.find? (·.id = id) with
      | some user => found user true
      | none => .ok (.candidate id)
    | _ => .ok (.resolved none false)
  | .candidate id =>
    match db.userOf id with
    | some user => found user true
    | none => .ok (.resolved none false)
  | phase => .ok phase

structure Written where
  userId : UserId
  identity : UserIdentity
  linked : Bool
  created : Bool
  db : Db
  deriving DecidableEq

def ResolveUserIdentityInput.touch (input : ResolveUserIdentityInput) (row : UserIdentity) :
    UserIdentity :=
  { row with email := input.email, emailVerified := input.emailVerified }

def SignIn.identityRow (t : SignIn) (userId : UserId) : UserIdentity :=
  ⟨t.input.key, userId, t.input.email, t.input.emailVerified⟩

/-- The writes and the commit. -/
def SignIn.write (db : Db) (t : SignIn) : Except AppError Written :=
  match t.phase with
  | .updating userId => do
    let row ← need (db.identityOf t.input.key) ⟨.internal, "Expected user identity row"⟩
    return {
      userId, linked := false, created := false
      identity := t.input.touch row
      db := { db with
        identities := updateWhere (·.key = t.input.key) t.input.touch db.identities } }
  | .resolved (some userId) linked => do
    let _ ← need (db.userOf userId) ⟨.internal, "Failed to resolve user identity"⟩
    return {
      userId, linked, created := false
      identity := t.identityRow userId
      db := { db with identities := upsertIdentity (t.identityRow userId) db.identities } }
  | .resolved none linked =>
    .ok {
      userId := db.fresh, linked, created := true
      identity := t.identityRow db.fresh
      db := {
        users := ⟨db.fresh, t.input.email, .active, false⟩ :: db.users
        identities := upsertIdentity (t.identityRow db.fresh) db.identities
        fresh := db.fresh + 1 } }
  | _ => .error ⟨.internal, "Failed to resolve user identity"⟩

def authenticatedUser (db : Db) (userId : UserId) : Except AppError Unit := do
  let user ← need (db.userOf userId) ⟨.internal, "Resolved user is not available"⟩
  requireUsableUser user

inductive Answer
  /-- A sign-in committed, with its identity row. -/
  | signedIn (input : ResolveUserIdentityInput) (userId : UserId) (identity : UserIdentity)
      (linked created : Bool)
  | authenticated (userId : UserId)
  | refused (error : AppError)
  | createdUser (userId : UserId) (email : Option String)
  | updatedEmail (userId : UserId) (email : Option String)
  | mappedIdentity (identity : UserIdentity)
  | done
  deriving DecidableEq

def SignIn.step (text : EmailText) (db : Db) (t : SignIn) :
    Option Answer × Option SignIn × Db :=
  match t.phase with
  | .updating _ | .resolved _ _ =>
    match t.write db with
    | .ok w => (some (.signedIn t.input w.userId w.identity w.linked w.created),
        some { t with phase := .committed w.userId }, w.db)
    | .error e => (some (.refused e), none, db)
  | .committed userId =>
    match authenticatedUser db userId with
    | .ok _ => (some (.authenticated userId), none, db)
    | .error e => (some (.refused e), none, db)
  | _ =>
    match t.read text db with
    | .ok phase => (none, some { t with phase := phase }, db)
    | .error e => (some (.refused e), none, db)

inductive AdminChange
  | createUser (email : Option String) (status : UserStatus)
  | updateUser (userId : UserId) (email : Option (Option String)) (status : Option UserStatus)
  | upsertUserIdentity (identity : UserIdentity)
  | deleteUserIdentity (userId : UserId) (key : IdentityKey)
  | markUserDeletionRequested (userId : UserId)
  | deleteUser (userId : UserId)
  deriving DecidableEq

def userMissing : AppError := ⟨.notFound, "User is not available"⟩

/-- `lockUserNotInDeletion` -/
def lockUserNotInDeletion (db : Db) (userId : UserId) : Except AppError Unit := do
  let user ← need (db.userOf userId) userMissing
  require (user.deletionRequested = false) ⟨.conflict, "User account is being deleted"⟩

def changeUser (userId : UserId) (f : ProductUser → ProductUser) (db : Db) : Db :=
  { db with users := updateWhere (·.id = userId) f db.users }

def AdminChange.run (db : Db) : AdminChange → Except AppError (Answer × Db)
  | .createUser email status =>
    .ok (.createdUser db.fresh email,
      { db with users := ⟨db.fresh, email, status, false⟩ :: db.users, fresh := db.fresh + 1 })
  | .updateUser userId email status => do
    lockUserNotInDeletion db userId
    let db := changeUser userId
      (fun u => { u with email := email.getD u.email, status := status.getD u.status }) db
    return (match email with
      | some email => .updatedEmail userId email
      | none => .done, db)
  | .upsertUserIdentity identity => do
    lockUserNotInDeletion db identity.userId
    return (.mappedIdentity identity,
      { db with identities := upsertIdentity identity db.identities })
  | .deleteUserIdentity userId key => do
    lockUserNotInDeletion db userId
    require (∃ r ∈ db.identities, r.userId = userId ∧ r.key = key)
      ⟨.notFound, "User identity mapping is not available"⟩
    return (.done, { db with
      identities := deleteWhere (fun r => r.userId = userId ∧ r.key = key) db.identities })
  | .markUserDeletionRequested userId => do
    let _ ← need (db.userOf userId) userMissing
    return (.done, changeUser userId (fun u => { u with deletionRequested := true }) db)
  | .deleteUser userId => do
    let _ ← need (db.userOf userId) userMissing
    -- The identities of the user go with the row.
    return (.done, { db with
      users := deleteWhere (·.id = userId) db.users
      identities := deleteWhere (·.userId = userId) db.identities })

def adminChange (db : Db) (change : AdminChange) : Option Answer × Db :=
  match change.run db with
  | .ok (answer, db') => (some answer, db')
  | .error e => (some (.refused e), db)

def SignIn.HoldsIdentity (t : SignIn) : Prop :=
  t.phase ≠ .begun ∧ ∀ u, t.phase ≠ .committed u

def SignIn.HoldsEmail (t : SignIn) : Prop := t.HoldsIdentity ∧ t.phase ≠ .identityLocked

instance : DecidablePred SignIn.HoldsIdentity := fun t =>
  match h : t.phase with
  | .begun => .isFalse fun ⟨hb, _⟩ => hb h
  | .committed u => .isFalse fun ⟨_, hc⟩ => hc u h
  | .identityLocked | .locked | .existing _ | .updating _ | .unknown | .unmatched _
  | .identityMatched _ _ | .candidate _ | .resolved _ _ =>
    .isTrue ⟨by simp [h], by simp [h]⟩

instance : DecidablePred SignIn.HoldsEmail := fun t =>
  inferInstanceAs (Decidable (t.HoldsIdentity ∧ t.phase ≠ .identityLocked))

def SignIn.blocks (text : EmailText) (q t : SignIn) : Prop :=
  (t.phase = .begun ∧ q.HoldsIdentity ∧ q.input.key = t.input.key) ∨
  (t.phase = .identityLocked ∧ q.HoldsEmail ∧ t.input.linkingEmail text ≠ none ∧
    q.input.linkingEmail text = t.input.linkingEmail text)

instance : Decidable (SignIn.blocks text q t) :=
  inferInstanceAs (Decidable ((t.phase = .begun ∧ q.HoldsIdentity ∧ q.input.key = t.input.key) ∨
    (t.phase = .identityLocked ∧ q.HoldsEmail ∧ t.input.linkingEmail text ≠ none ∧
      q.input.linkingEmail text = t.input.linkingEmail text)))

def signIns (text : EmailText) : Processes Db ResolveUserIdentityInput SignIn AdminChange Answer where
  start input := ⟨input, .begun⟩
  blocks := SignIn.blocks text
  step := SignIn.step text
  env := adminChange

def Db.Empty (db : Db) : Prop := db.users = [] ∧ db.identities = []

def userSystem (text : EmailText) :
    Machine (Pool Db SignIn) (Move ResolveUserIdentityInput AdminChange) (Option Answer) :=
  (signIns text).machine Db.Empty fun _ _ => True

end Catalyst.Users
