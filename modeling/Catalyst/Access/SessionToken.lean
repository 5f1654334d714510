import Catalyst.Access.ServiceToken
import Mathlib

/-!
# Chat session tokens

A session token carries the claims of a user under the same kind of signature as a service access
token. Both kinds may be signed with one secret.
-/

namespace Catalyst.Access

open Library Library.Check

structure DelegatedActor where
  id : String
  displayLabel : Option String
  authSource : String
  deriving DecidableEq

structure SessionTokenInput where
  externalUserId : String
  displayLabel : String
  email : Option String
  emailVerified : Option Bool
  roles : Option (List String)
  permissionRefs : Option (List String)
  permissions : Option (List String)
  correlationId : Option String
  scopes : Option (List String)
  delegatedActor : Option DelegatedActor

structure SessionTokenClaims where
  sub : String
  displayLabel : String
  email : Option String
  emailVerified : Option Bool
  roles : List String
  permissionRefs : List String
  permissions : List String
  clientInstanceId : ClientInstanceId
  authSource : String
  iss : String
  iat : Nat
  exp : Nat
  correlationId : Option String
  scopes : List String
  delegatedActor : Option DelegatedActor
  deriving DecidableEq

inductive PayloadClaims
  | session (claims : SessionTokenClaims)
  | service (claims : ServiceAccessTokenClaims)
  deriving DecidableEq

/-- What the runtime computes for both kinds: JSON text in base64url and back, HMAC-SHA-256 of a
payload under a secret, SHA-256 of an API key. What no claims were written as is not read. -/
structure BearerPlatform where
  encode : PayloadClaims → List Char
  decode : List Char → Option PayloadClaims
  signatureFor : List Char → String → List Char
  hashApiCredentialSecret : List Char → String

def PayloadClaims.service? : PayloadClaims → Option ServiceAccessTokenClaims
  | .session _ => none
  | .service claims => some claims

def BearerPlatform.service (P : BearerPlatform) : TokenPlatform where
  encode claims := P.encode (.service claims)
  decode payload := (P.decode payload).bind PayloadClaims.service?
  signatureFor := P.signatureFor
  hashApiCredentialSecret := P.hashApiCredentialSecret

structure HmacSessionTokenOptions where
  secret : String
  clientInstanceId : ClientInstanceId
  issuer : String
  ttlSeconds : Nat
  authSource : Option String
  secret_long : 24 ≤ secret.length
  clientInstanceId_ne : clientInstanceId ≠ ""

def chatSessionAuthScopes : List String :=
  ["me:read", "me:delete", "config:read", "conversation:read", "conversation:write", "run:start", "run:observe",
    "run:cancel", "run:command"]

def firstPartyAuthScopes : List String :=
  "*" :: chatSessionAuthScopes ++
    ["collaboration_workspace:read", "collaboration_workspace:manage", "me:write", "governance:read",
      "governance:write", "user_admin:read", "user_admin:write", "api_access:read", "api_access:write",
      "config_assets:read", "config_assets:write", "config_assets:release"]

def normalizeSessionTokenScopes (scopes : Option (List String)) (delegatedActor : Option DelegatedActor) :
    Except AppError (List String) := do
  let normalizedScopes := scopes.getD chatSessionAuthScopes
  if delegatedActor.isSome then
    require (∀ scope ∈ normalizedScopes, scope ≠ "*" ∧ scope ∈ firstPartyAuthScopes) ⟨.validationFailed,
      "Service session token scopes must be limited to explicit first-party API operations"⟩
    return normalizedScopes.eraseDups
  else
    require (∀ scope ∈ normalizedScopes, scope ∈ chatSessionAuthScopes) ⟨.validationFailed,
      "Chat session token scopes must be limited to chat API operations"⟩
    return normalizedScopes.eraseDups

def sessionClaims (options : HmacSessionTokenOptions) (input : SessionTokenInput) (now : Time) :
    Except AppError SessionTokenClaims := do
  let scopes ← normalizeSessionTokenScopes input.scopes input.delegatedActor
  return {
    sub := input.externalUserId
    displayLabel := input.displayLabel
    email := input.email
    emailVerified := input.emailVerified
    roles := input.roles.getD ["user"]
    permissionRefs := input.permissionRefs.getD []
    permissions := input.permissions.getD []
    clientInstanceId := options.clientInstanceId
    authSource := options.authSource.getD "session-token"
    iss := options.issuer
    iat := now / 1000
    exp := now / 1000 + options.ttlSeconds
    correlationId := input.correlationId
    scopes
    delegatedActor := input.delegatedActor }

def signSessionClaims (P : BearerPlatform) (claims : SessionTokenClaims) (secret : String) : List Char :=
  P.encode (.session claims) ++ '.' :: P.signatureFor (P.encode (.session claims)) secret

def issue (P : BearerPlatform) (options : HmacSessionTokenOptions) (input : SessionTokenInput) (now : Time) :
    Except AppError (List Char × Time) := do
  let claims ← sessionClaims options input now
  return (signSessionClaims P claims options.secret, claims.exp * 1000)

inductive AuthPrincipalKind
  | user | service
  deriving DecidableEq

structure AuthPrincipal where
  kind : AuthPrincipalKind
  id : String
  externalUserId : Option String
  displayLabel : String
  clientInstanceId : ClientInstanceId
  authSource : String
  deriving DecidableEq

structure AuthenticatedUser where
  id : String
  externalUserId : String
  displayLabel : String
  email : Option String
  emailVerified : Option Bool
  roles : List String
  permissionRefs : List String
  permissions : List String
  clientInstanceId : ClientInstanceId
  authSource : String
  correlationId : Option String
  subjectUserId : String
  principal : AuthPrincipal
  delegatedActor : Option DelegatedActor
  scopes : List String
  deriving DecidableEq

/-- The segments behind the second one are not looked at. A payload that is no JSON throws, and a
service's claims have no label. -/
def verifySessionClaims (P : BearerPlatform) (token : List Char) (secret : String) :
    Except AppError SessionTokenClaims :=
  match token.splitOn '.' with
  | payload :: signature :: _ => do
    require (payload ≠ [] ∧ signature ≠ []) ⟨.unauthenticated, "Malformed chat session token"⟩
    require (signature = P.signatureFor payload secret)
      ⟨.unauthenticated, "Invalid chat session token signature"⟩
    match P.decode payload with
    | none => .error ⟨.internal, "SyntaxError"⟩
    | some (.service _) => .error ⟨.unauthenticated, "Malformed chat session token claims"⟩
    | some (.session claims) => do
      require (claims.sub ≠ "" ∧ claims.displayLabel ≠ "" ∧ claims.clientInstanceId ≠ "")
        ⟨.unauthenticated, "Malformed chat session token claims"⟩
      return claims
  | _ => .error ⟨.unauthenticated, "Malformed chat session token"⟩

def sessionPrincipal (claims : SessionTokenClaims) : AuthPrincipal :=
  match claims.delegatedActor with
  | some actor =>
    ⟨.service, actor.id, none, actor.displayLabel.getD actor.id, claims.clientInstanceId, actor.authSource⟩
  | none =>
    ⟨.user, s!"{claims.clientInstanceId}:{claims.sub}", some claims.sub, claims.displayLabel,
      claims.clientInstanceId, claims.authSource⟩

/-- The user that the claims stand for, with the given scopes. -/
def sessionUser (claims : SessionTokenClaims) (correlationId : Option String) (scopes : List String) :
    AuthenticatedUser where
  id := s!"{claims.clientInstanceId}:{claims.sub}"
  externalUserId := claims.sub
  displayLabel := claims.displayLabel
  email := claims.email
  emailVerified := claims.emailVerified
  roles := claims.roles
  permissionRefs := claims.permissionRefs
  permissions := claims.permissions
  clientInstanceId := claims.clientInstanceId
  authSource := claims.authSource
  correlationId := claims.correlationId.or correlationId
  subjectUserId := s!"{claims.clientInstanceId}:{claims.sub}"
  principal := sessionPrincipal claims
  delegatedActor := claims.delegatedActor
  scopes := scopes

def authenticateSession (P : BearerPlatform) (options : HmacSessionTokenOptions) (now : Time)
    (request : AuthRequest) : Except AppError AuthenticatedUser := do
  let token ← need (extractBearerToken request) ⟨.unauthenticated, "Missing bearer token"⟩
  let claims ← verifySessionClaims P token options.secret
  require (claims.iss = options.issuer) ⟨.unauthenticated, "Invalid token issuer"⟩
  require (claims.clientInstanceId = options.clientInstanceId)
    ⟨.forbidden, "Token was issued for another client instance"⟩
  require (now / 1000 < claims.exp) ⟨.unauthenticated, "Chat session token is expired"⟩
  let scopes ← normalizeSessionTokenScopes (some claims.scopes) claims.delegatedActor
  return sessionUser claims request.correlationId scopes

theorem nodup_eraseDups (scopes : List String) : scopes.eraseDups.Nodup := by
  induction hn : scopes.length using Nat.strong_induction_on generalizing scopes with
  | _ n ih =>
    cases scopes with
    | nil => simp
    | cons scope scopes =>
      rw [List.eraseDups_cons, List.nodup_cons, List.mem_eraseDups]
      refine ⟨by simp, ih _ ?_ _ rfl⟩
      rw [← hn]
      exact Nat.lt_succ_of_le (List.length_filter_le _ _)

theorem eraseDups_of_nodup {scopes : List String} (h : scopes.Nodup) : scopes.eraseDups = scopes := by
  induction scopes with
  | nil => rfl
  | cons scope scopes ih =>
    obtain ⟨hscope, hscopes⟩ := List.nodup_cons.mp h
    have hself : scopes.filter (fun other => !other == scope) = scopes :=
      List.filter_eq_self.mpr fun other hother => by simpa using ne_of_mem_of_not_mem hother hscope
    rw [List.eraseDups_cons, hself, ih hscopes]

theorem normalizeSessionTokenScopes_again {given : Option (List String)} {actor : Option DelegatedActor}
    {scopes : List String} (h : normalizeSessionTokenScopes given actor = .ok scopes) :
    normalizeSessionTokenScopes (some scopes) actor = .ok scopes := by
  have hself : (given.getD chatSessionAuthScopes).eraseDups.eraseDups =
      (given.getD chatSessionAuthScopes).eraseDups := eraseDups_of_nodup (nodup_eraseDups _)
  unfold normalizeSessionTokenScopes at h ⊢
  split at h
  · rename_i hactor
    obtain ⟨_, hallowed, h⟩ := bind_ok.mp h
    obtain rfl := pure_ok.mp h
    rw [if_pos hactor]
    refine bind_ok.mpr ⟨(), require_ok.mpr fun scope hscope => ?_, pure_ok.mpr hself⟩
    exact require_ok.mp hallowed scope (List.mem_eraseDups.mp hscope)
  · rename_i hactor
    obtain ⟨_, hallowed, h⟩ := bind_ok.mp h
    obtain rfl := pure_ok.mp h
    rw [if_neg hactor]
    refine bind_ok.mpr ⟨(), require_ok.mpr fun scope hscope => ?_, pure_ok.mpr hself⟩
    exact require_ok.mp hallowed scope (List.mem_eraseDups.mp hscope)

end Catalyst.Access
