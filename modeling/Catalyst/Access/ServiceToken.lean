import Catalyst.Library.Check
import Catalyst.Library.Ordered
import Catalyst.Access.Permissions

/-!
# Service access tokens

An API key is exchanged for a signed token that carries scopes; each use of the
token reads the credential again, cuts the scopes down to those it still has and
turns them back into permissions.
-/

namespace Catalyst.Access

open Library Library.Check

inductive ServicePrincipalStatus
  | active | disabled
  deriving DecidableEq

structure ServicePrincipal where
  id : String
  clientInstanceId : ClientInstanceId
  displayLabel : String
  status : ServicePrincipalStatus
  permissionRefs : List String
  permissions : List String
  deriving DecidableEq

structure ApiCredential where
  id : String
  scopes : Option (List String)
  expiresAt : Option Time
  revokedAt : Option Time
  deriving DecidableEq

structure ResolvedApiCredential where
  credential : ApiCredential
  servicePrincipal : ServicePrincipal
  secretHash : String
  deriving DecidableEq

/-- `resolveApiCredential`, on what is stored at one moment. -/
abbrev ApiAccessStore := ClientInstanceId → String → Option ResolvedApiCredential

structure ServiceAccessTokenClaims where
  typ : String
  aud : String
  sub : String
  credentialId : String
  clientInstanceId : ClientInstanceId
  scopes : List String
  iss : String
  iat : Nat
  exp : Nat
  deriving DecidableEq

/-- What the runtime computes: JSON text in base64url and back, HMAC-SHA-256 of a
payload under a secret, SHA-256 of an API key. -/
structure TokenPlatform where
  encode : ServiceAccessTokenClaims → List Char
  decode : List Char → Option ServiceAccessTokenClaims
  signatureFor : List Char → String → List Char
  hashApiCredentialSecret : List Char → String

structure TokenPlatform.Carries (platform : TokenPlatform) (secret : String)
    (claims : ServiceAccessTokenClaims) : Prop where
  decodes : platform.decode (platform.encode claims) = some claims
  payload_no_dot : '.' ∉ platform.encode claims
  signature_no_dot : '.' ∉ platform.signatureFor (platform.encode claims) secret

structure ServiceAccessTokenOptions where
  secret : String
  clientInstanceId : ClientInstanceId
  issuer : String
  ttlSeconds : Nat
  secret_long : 32 ≤ secret.length
  ttl_range : 600 ≤ ttlSeconds ∧ ttlSeconds ≤ 900

/-- `validateOptions` and `withDefaults` -/
def serviceAccessTokenOptions (secret : String) (clientInstanceId : ClientInstanceId)
    (issuer : Option String) (ttlSeconds : Option Nat) : Except AppError ServiceAccessTokenOptions :=
  if hs : 32 ≤ secret.length then
    if ht : 600 ≤ ttlSeconds.getD 900 ∧ ttlSeconds.getD 900 ≤ 900 then
      .ok {
        secret, clientInstanceId
        issuer := issuer.getD "vivd-catalyst"
        ttlSeconds := ttlSeconds.getD 900
        secret_long := hs
        ttl_range := ht }
    else
      .error ⟨.validationFailed, "Service access token TTL must be between 10 and 15 minutes"⟩
  else
    .error ⟨.validationFailed, "Service access token secret must be at least 32 characters"⟩

def serviceAccessTokenType := "catalyst-service-access"

def serviceAccessTokenAudience := "catalyst-service-api"

structure AuthenticatedServicePrincipal where
  id : String
  credentialId : String
  displayLabel : String
  permissionRefs : List String
  permissions : List Permission
  clientInstanceId : ClientInstanceId
  authSource : String
  correlationId : Option String
  scopes : List String
  deriving DecidableEq

structure EffectiveServiceGrants where
  scopes : List String
  permissions : List Permission
  deriving DecidableEq

def ServicePrincipal.effective (principal : ServicePrincipal) : List Permission :=
  resolveEffectivePermissions [] principal.permissions

def ServicePrincipal.principalScopes (principal : ServicePrincipal) : OrderedMap String Permission :=
  OrderedMap.setAll authScopeForPermission (fun p => p) principal.effective []

def restrictionScope (entry : String) : String :=
  match permission? entry with
  | some p => (authScopeForPermission p).getD entry
  | none => entry

def selectedScopes (resolved : ResolvedApiCredential) : List String :=
  match resolved.credential.scopes with
  | some entries => entries.map restrictionScope
  | none => resolved.servicePrincipal.principalScopes.keys

def deriveEffectiveServiceGrants (resolved : ResolvedApiCredential) : EffectiveServiceGrants :=
  let principalScopes := resolved.servicePrincipal.principalScopes
  let scopes := (selectedScopes resolved).eraseDups.filter fun scope =>
    scope ≠ "*" ∧ principalScopes.has scope
  ⟨scopes, scopes.filterMap principalScopes.get?⟩

def assertCredentialUsable (resolved : ResolvedApiCredential) (now : Time) :
    Except AppError Unit := do
  require (resolved.servicePrincipal.status = .active)
    ⟨.unauthenticated, "Service principal is disabled"⟩
  require (resolved.credential.revokedAt = none) ⟨.unauthenticated, "API credential is revoked"⟩
  require (∀ expiresAt ∈ resolved.credential.expiresAt, now < expiresAt)
    ⟨.unauthenticated, "API credential is expired"⟩

def toAuthenticatedServicePrincipal (resolved : ResolvedApiCredential)
    (grants : EffectiveServiceGrants) (correlationId : Option String) :
    AuthenticatedServicePrincipal where
  id := resolved.servicePrincipal.id
  credentialId := resolved.credential.id
  displayLabel := resolved.servicePrincipal.displayLabel
  permissionRefs := resolved.servicePrincipal.permissionRefs
  permissions := grants.permissions
  clientInstanceId := resolved.servicePrincipal.clientInstanceId
  authSource := "service-access-token"
  correlationId := correlationId
  scopes := grants.scopes

def isLowerHex (c : Char) : Bool := c ∈ "0123456789abcdef".toList

def parseApiCredentialSecret (secret : List Char) : Option String :=
  match secret.splitOn '.' with
  | [kind, credentialId, random] =>
    if kind = "cat".toList ∧ "apic_".toList <+: credentialId ∧ random.length = 64 ∧
        random.all isLowerHex then
      some (String.ofList credentialId)
    else none
  | _ => none

def signClaims (platform : TokenPlatform) (claims : ServiceAccessTokenClaims) (secret : String) :
    List Char :=
  platform.encode claims ++ '.' :: platform.signatureFor (platform.encode claims) secret

structure ExchangedToken where
  accessToken : List Char
  expiresAt : Time
  principal : AuthenticatedServicePrincipal
  deriving DecidableEq

def issuedClaims (options : ServiceAccessTokenOptions) (resolved : ResolvedApiCredential)
    (now : Time) : ServiceAccessTokenClaims where
  typ := serviceAccessTokenType
  aud := serviceAccessTokenAudience
  sub := resolved.servicePrincipal.id
  credentialId := resolved.credential.id
  clientInstanceId := resolved.servicePrincipal.clientInstanceId
  scopes := (deriveEffectiveServiceGrants resolved).scopes
  iss := options.issuer
  iat := now / 1000
  exp := now / 1000 + options.ttlSeconds

def exchange (platform : TokenPlatform) (options : ServiceAccessTokenOptions)
    (store : ApiAccessStore) (now : Time) (apiKey : List Char) : Except AppError ExchangedToken := do
  let credentialId ← need (parseApiCredentialSecret apiKey) ⟨.unauthenticated, "Invalid API key"⟩
  let resolved ← need (store options.clientInstanceId credentialId)
    ⟨.unauthenticated, "Invalid API key"⟩
  require (platform.hashApiCredentialSecret apiKey = resolved.secretHash)
    ⟨.unauthenticated, "Invalid API key"⟩
  assertCredentialUsable resolved now
  let claims := issuedClaims options resolved now
  return {
    accessToken := signClaims platform claims options.secret
    expiresAt := claims.exp * 1000
    principal := toAuthenticatedServicePrincipal resolved
      (deriveEffectiveServiceGrants resolved) none }

inductive HeaderValue
  | text (value : List Char)
  | texts (values : List (List Char))

structure AuthRequest where
  authorization : Option HeaderValue
  Authorization : Option HeaderValue
  correlationId : Option String

def HeaderValue.first : HeaderValue → Option (List Char)
  | text value => some value
  | texts values => values.head?

/-- White space and line terminators, as `trim` takes them off. -/
def whiteSpace : List Char :=
  "\t\n\x0b\x0c\x0d \u00a0\u1680\u2000\u2001\u2002\u2003\u2004\u2005\u2006\u2007\u2008\u2009\u200a\u2028\u2029\u202f\u205f\u3000\ufeff".toList

def trim (text : List Char) : List Char :=
  ((text.dropWhile (· ∈ whiteSpace)).reverse.dropWhile (· ∈ whiteSpace)).reverse

def extractBearerToken (request : AuthRequest) : Option (List Char) := do
  let value ← (request.authorization.or request.Authorization).bind HeaderValue.first
  guard ("Bearer ".toList <+: value)
  let token := trim (value.drop "Bearer ".length)
  guard (token ≠ [])
  return token

def verifyClaims (platform : TokenPlatform) (token : List Char) (secret : String) :
    Except AppError ServiceAccessTokenClaims :=
  match token.splitOn '.' with
  | [payload, signature] => do
    require (payload ≠ [] ∧ signature ≠ [] ∧ signature = platform.signatureFor payload secret)
      ⟨.unauthenticated, "Invalid service access token signature"⟩
    let malformed := ⟨.unauthenticated, "Malformed service access token claims"⟩
    let claims ← need (platform.decode payload) malformed
    require (claims.sub ≠ "" ∧ claims.credentialId ≠ "" ∧ claims.clientInstanceId ≠ "") malformed
    return claims
  | _ => .error ⟨.unauthenticated, "Malformed service access token"⟩

def authenticate (platform : TokenPlatform) (options : ServiceAccessTokenOptions)
    (store : ApiAccessStore) (now : Time) (request : AuthRequest) :
    Except AppError AuthenticatedServicePrincipal := do
  let token ← need (extractBearerToken request) ⟨.unauthenticated, "Missing bearer token"⟩
  let claims ← verifyClaims platform token options.secret
  require (claims.typ = serviceAccessTokenType ∧ claims.aud = serviceAccessTokenAudience ∧
      claims.iss = options.issuer) ⟨.unauthenticated, "Invalid service access token"⟩
  require (claims.clientInstanceId = options.clientInstanceId)
    ⟨.forbidden, "Token was issued for another client instance"⟩
  require (now / 1000 < claims.exp) ⟨.unauthenticated, "Service access token is expired"⟩
  let invalid := ⟨.unauthenticated, "Service access token is no longer valid"⟩
  let resolved ← need (store claims.clientInstanceId claims.credentialId) invalid
  require (resolved.servicePrincipal.id = claims.sub) invalid
  assertCredentialUsable resolved now
  let scopes := (deriveEffectiveServiceGrants resolved).scopes.filter (· ∈ claims.scopes)
  return toAuthenticatedServicePrincipal resolved
    ⟨scopes, scopes.filterMap permissionForAuthScope⟩ request.correlationId

end Catalyst.Access
