import Catalyst.Core
import Catalyst.Library.Processes

/-!
# Password credentials and links

The sign-in of one user: its password, the links by which it may be set, and its sessions.
Statements outside a transaction take effect one by one. In a transaction each statement reads
what is committed when it runs, waits for the rows that another one has written, and locks its
own; what it writes is committed with its last one. A DELETE of several rows finds them in one
step and removes them in a later one, so that it misses what was inserted while it waited.

Hashing is the sign-in library's, and so is a call that signs in: it verifies the password and
then stores a session. A link's token is a random value of which only the hash is stored; the
tokens are numbered in the order they are stored.
-/

namespace Catalyst.Passwords

open Library

abbrev Token := Nat

abbrev Hash := String

structure Link where
  token : Token
  expiresAt : Time
  deriving DecidableEq

/-- The user's rows: whether the profile of this instance, those of other instances and the auth
user exist, and the password of the credential account. -/
structure Db where
  now : Time
  profile : Bool
  otherProfiles : Bool
  user : Bool
  password : Option Hash
  links : List Link
  sessions : List Nat
  nextToken : Token
  nextSession : Nat
  /-- How many passwords were written by statements of their own, and which of them have yet to
  delete the links. No statement reads either. -/
  writes : Nat
  owed : List Nat
  deriving DecidableEq

def Db.tokens (db : Db) : List Token := db.links.map (·.token)

def Db.link? (db : Db) (token : Token) : Option Link := db.links.find? (·.token = token)

inductive Call
  | createPasswordSetupToken (ttlMs : Nat)
  | completePasswordSetup (token : Token) (passwordHash : Hash)
  | setPassword (passwordHash : Hash)
  | changePassword (currentPassword : String) (passwordHash : Hash)
  | signIn (password : String)
  | deletePasswordSignIn
  deriving DecidableEq

/-- Where `createPasswordSetupToken` stands: what it does next. -/
inductive IssuePhase
  | starting
  | listing (now : Time)
  | deleting (now : Time) (tokens : List Token)
  | inserting (now : Time) (tokens : List Token)
  deriving DecidableEq

structure Taken where
  link : Link
  checkedAt : Time
  deriving DecidableEq

inductive CompletionPhase
  | starting
  | taking
  | taken (taken : Taken)
  | profiled (taken : Taken)
  | written (taken : Taken)
  | revoking (taken : Taken) (tokens : List Token)
  | revoked (taken : Taken) (tokens : List Token)
  | committing (taken : Taken) (tokens : List Token) (sessions : List Nat)
  deriving DecidableEq

/-- `setPassword` and `changePassword` -/
inductive PasswordChange
  | set
  | change (currentPassword : String)
  deriving DecidableEq

inductive WritePhase
  | starting
  | reading (currentPassword : String)
  | writing (verified : Option Hash)
  | outdating (write : Nat)
  | erasing (write : Nat) (tokens : List Token)
  | signingOut (write : Nat)
  deriving DecidableEq

inductive Going
  | issuing (ttlMs : Nat) (phase : IssuePhase)
  | completing (token : Token) (passwordHash : Hash) (phase : CompletionPhase)
  | changing (change : PasswordChange) (passwordHash : Hash) (phase : WritePhase)
  | signingIn (password : String) (verified : Bool)
  | leaving (profiled : Bool)
  deriving DecidableEq

def Call.starts : Call → Going
  | createPasswordSetupToken ttlMs => .issuing ttlMs .starting
  | completePasswordSetup token passwordHash => .completing token passwordHash .starting
  | setPassword passwordHash => .changing .set passwordHash .starting
  | changePassword currentPassword passwordHash => .changing (.change currentPassword) passwordHash .starting
  | signIn password => .signingIn password false
  | deletePasswordSignIn => .leaving false

inductive Answer
  | issued (token : Token) (expiresAt : Time)
  | completed (token : Token) (expiresAt checkedAt : Time)
  /-- `setPassword` or `changePassword` replaced a password, which the second had verified. -/
  | wrote (write : Nat) (verified replaced : Option Hash)
  | passwordSet (write : Nat)
  | done
  | refused (error : AppError)
  deriving DecidableEq

def noAccount : AppError := ⟨.notFound, "No standalone auth account exists for this user"⟩

def invalidLink : AppError := ⟨.validationFailed, "This link is invalid or has expired"⟩

def noUser : AppError := ⟨.internal, "insert or update violates foreign key constraint"⟩

abbrev StepResult := Option Answer × Option Going × Db

def answered (db : Db) (answer : Answer) : StepResult := (some answer, none, db)

def goesTo (db : Db) (g : Going) : StepResult := (none, some g, db)

def issueStep (db : Db) (ttlMs : Nat) : IssuePhase → StepResult
  | .starting => if db.profile then goesTo db (.issuing ttlMs (.listing db.now)) else answered db (.refused noAccount)
  | .listing now => goesTo db (.issuing ttlMs (.deleting now db.tokens))
  | .deleting now tokens => goesTo db (.issuing ttlMs (.inserting now (db.tokens.filter (· ∈ tokens))))
  | .inserting now tokens =>
    (some (.issued db.nextToken (now + ttlMs)), none,
      { db with
        links := db.links.filter (·.token ∉ tokens) ++ [⟨db.nextToken, now + ttlMs⟩]
        nextToken := db.nextToken + 1 })

/-- The DELETE of the one row of a token, under whose lock it is looked at again. -/
def take (db : Db) (token : Token) (passwordHash : Hash) : StepResult :=
  match db.link? token with
  | some link =>
    if db.now < link.expiresAt then goesTo db (.completing token passwordHash (.taken ⟨link, db.now⟩))
    else answered db (.refused invalidLink)
  | none => answered db (.refused invalidLink)

def complete (db : Db) (taken : Taken) (tokens : List Token) (sessions : List Nat) (passwordHash : Hash) : Db :=
  { db with
    links := db.links.filter fun l => l.token ≠ taken.link.token ∧ l.token ∉ tokens
    password := some passwordHash
    sessions := db.sessions.filter (· ∉ sessions) }

def completionStep (db : Db) (token : Token) (passwordHash : Hash) : CompletionPhase → StepResult
  | .starting =>
    match db.link? token with
    | some link =>
      if link.expiresAt ≤ db.now then answered db (.refused invalidLink)
      else goesTo db (.completing token passwordHash .taking)
    | none => answered db (.refused invalidLink)
  | .taking => take db token passwordHash
  | .taken taken =>
    if db.profile then goesTo db (.completing token passwordHash (.profiled taken))
    else answered db (.refused invalidLink)
  | .profiled taken =>
    if db.user then goesTo db (.completing token passwordHash (.written taken)) else answered db (.refused noUser)
  | .written taken =>
    goesTo db (.completing token passwordHash (.revoking taken (db.tokens.filter (· ≠ taken.link.token))))
  | .revoking taken tokens =>
    goesTo db (.completing token passwordHash (.revoked taken (db.tokens.filter (· ∈ tokens))))
  | .revoked taken tokens => goesTo db (.completing token passwordHash (.committing taken tokens db.sessions))
  | .committing taken tokens sessions =>
    (some (.completed taken.link.token taken.link.expiresAt taken.checkedAt), none,
      complete db taken tokens sessions passwordHash)

variable (verifyPassword : Hash → String → Bool)

def read (db : Db) (change : PasswordChange) (currentPassword : String) (passwordHash : Hash) : StepResult :=
  match db.password with
  | none => answered db (.refused ⟨.validationFailed, "No credential password exists for this user"⟩)
  | some hash =>
    if verifyPassword hash currentPassword then goesTo db (.changing change passwordHash (.writing (some hash)))
    else answered db (.refused ⟨.forbidden, "Current password is incorrect"⟩)

def Db.written (db : Db) (passwordHash : Hash) : Db :=
  { db with password := some passwordHash, writes := db.writes + 1, owed := db.writes :: db.owed }

def Db.erased (db : Db) (write : Nat) (tokens : List Token) : Db :=
  { db with links := db.links.filter (·.token ∉ tokens), owed := db.owed.filter (· ≠ write) }

def writeStep (db : Db) (change : PasswordChange) (passwordHash : Hash) : WritePhase → StepResult
  | .starting =>
    if db.profile then
      match change with
      | .set => goesTo db (.changing change passwordHash (.writing none))
      | .change currentPassword => goesTo db (.changing change passwordHash (.reading currentPassword))
    else answered db (.refused noAccount)
  | .reading currentPassword => read verifyPassword db change currentPassword passwordHash
  | .writing verified =>
    if db.user then
      (some (.wrote db.writes verified db.password), some (.changing change passwordHash (.outdating db.writes)),
        db.written passwordHash)
    else answered db (.refused noUser)
  | .outdating write => goesTo db (.changing change passwordHash (.erasing write db.tokens))
  | .erasing write tokens =>
    match change with
    | .set => goesTo (db.erased write tokens) (.changing change passwordHash (.signingOut write))
    | .change _ => answered (db.erased write tokens) .done
  | .signingOut write => answered { db with sessions := [] } (.passwordSet write)

def signInStep (db : Db) (password : String) (verified : Bool) : StepResult :=
  if verified then
    if db.user then
      answered { db with sessions := db.nextSession :: db.sessions, nextSession := db.nextSession + 1 } .done
    else answered db (.refused noUser)
  else if db.password.any (verifyPassword · password) then goesTo db (.signingIn password true)
  else answered db (.refused ⟨.unauthenticated, "Invalid email or password"⟩)

/-- The transaction of `deletePasswordSignIn`: nothing of it is seen before its end. -/
def Db.left (db : Db) : Db :=
  { db with
    profile := false
    sessions := []
    user := db.user && db.otherProfiles
    password := if db.otherProfiles then db.password else none }

def leaveStep (db : Db) (profiled : Bool) : StepResult :=
  if profiled then answered db.left .done
  else if db.profile then goesTo db (.leaving true)
  else answered db .done

def step (db : Db) : Going → StepResult
  | .issuing ttlMs phase => issueStep db ttlMs phase
  | .completing token passwordHash phase => completionStep db token passwordHash phase
  | .changing change passwordHash phase => writeStep verifyPassword db change passwordHash phase
  | .signingIn password verified => signInStep verifyPassword db password verified
  | .leaving profiled => leaveStep db profiled

inductive Row
  | link (token : Token)
  | account
  deriving DecidableEq

def Going.locks : Going → List Row
  | issuing _ (.inserting _ tokens) => tokens.map .link
  | completing _ _ (.taken t) | completing _ _ (.profiled t) => [.link t.link.token]
  | completing _ _ (.written t) | completing _ _ (.revoking t _) => [.link t.link.token, .account]
  | completing _ _ (.revoked t tokens) | completing _ _ (.committing t tokens _) =>
    .link t.link.token :: .account :: tokens.map .link
  | _ => []

def Going.wants : Going → List Row
  | issuing _ (.deleting _ tokens) | completing _ _ (.revoking _ tokens) | changing _ _ (.erasing _ tokens) =>
    tokens.map .link
  | completing token _ .taking => [.link token]
  | completing _ _ (.profiled _) | changing _ _ (.writing _) | leaving true => [.account]
  | _ => []

def passwordCalls (verifyPassword : Hash → String → Bool) : Processes Db Call Going Time Answer where
  start := Call.starts
  blocks p q := ∃ row ∈ p.locks, row ∈ q.wants
  step := step verifyPassword
  env db later := (none, { db with now := max db.now later })

abbrev PasswordPool := Pool Db Going

abbrev PasswordMove := Move Call Time

end Catalyst.Passwords
