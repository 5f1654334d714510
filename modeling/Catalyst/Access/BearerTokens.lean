import Catalyst.Access.SessionToken
import Catalyst.Library.Base64Url
import Catalyst.Library.Literal

/-!
# Which bearer tokens are accepted

Under a MAC that nobody forges a service token is accepted exactly as it was issued. A session
token is accepted with anything behind a further dot, too.
-/

namespace Catalyst.Access

open Library Library.Check

-- -----------------
-- What was signed
-- -----------------

/-- The claims come back from their encoding, and neither segment is empty or holds the dot. -/
structure BearerPlatform.Carries (P : BearerPlatform) (secret : String) (claims : PayloadClaims) : Prop where
  decodes : P.decode (P.encode claims) = some claims
  payload_ne : P.encode claims ≠ []
  payload_no_dot : '.' ∉ P.encode claims
  signature_ne : P.signatureFor (P.encode claims) secret ≠ []
  signature_no_dot : '.' ∉ P.signatureFor (P.encode claims) secret

/-- The tokens that were issued under one secret. The ids of principals and credentials are made
by the product and never empty. -/
structure Issued (P : BearerPlatform) (secret : String) where
  sessions : List SessionTokenClaims
  services : List ServiceAccessTokenClaims
  session_issued : ∀ claims ∈ sessions, ∃ options input now, options.secret = secret ∧
    sessionClaims options input now = .ok claims
  service_issued : ∀ claims ∈ services, ∃ options resolved now, options.secret = secret ∧
    resolved.servicePrincipal.id ≠ "" ∧ resolved.credential.id ≠ "" ∧
    resolved.servicePrincipal.clientInstanceId ≠ "" ∧ claims = issuedClaims options resolved now
  session_carried : ∀ claims ∈ sessions, P.Carries secret (.session claims)
  service_carried : ∀ claims ∈ services, P.Carries secret (.service claims)

section

variable {P : BearerPlatform} {secret : String} {options : HmacSessionTokenOptions}
  {serviceOptions : ServiceAccessTokenOptions} {store : ApiAccessStore} {now : Time} {request : AuthRequest}

def Issued.Unforged (issued : Issued P secret) (token : List Char) : Prop :=
  ∀ payload more, token.splitOn '.' = payload :: P.signatureFor payload secret :: more →
    (∃ claims ∈ issued.sessions, payload = P.encode (.session claims)) ∨
      ∃ claims ∈ issued.services, payload = P.encode (.service claims)

structure SessionGood (options : HmacSessionTokenOptions) (now : Time) (claims : SessionTokenClaims) : Prop where
  sub_ne : claims.sub ≠ ""
  label_ne : claims.displayLabel ≠ ""
  issuer : claims.iss = options.issuer
  instance_eq : claims.clientInstanceId = options.clientInstanceId
  unexpired : now / 1000 < claims.exp

/-- The claims are good for the service adapter, under the record that is stored now. -/
structure ServiceGood (options : ServiceAccessTokenOptions) (store : ApiAccessStore) (now : Time)
    (claims : ServiceAccessTokenClaims) (resolved : ResolvedApiCredential) : Prop where
  issuer : claims.iss = options.issuer
  instance_eq : claims.clientInstanceId = options.clientInstanceId
  unexpired : now / 1000 < claims.exp
  found : store claims.clientInstanceId claims.credentialId = some resolved
  principal : resolved.servicePrincipal.id = claims.sub
  usable : assertCredentialUsable resolved now = .ok ()

def keptScopes (claims : ServiceAccessTokenClaims) (resolved : ResolvedApiCredential) : List String :=
  (deriveEffectiveServiceGrants resolved).scopes.filter (· ∈ claims.scopes)

/-- What both adapters answer to a request whose bearer string is presented. -/
structure BearerExact (issued : Issued P secret) (options : HmacSessionTokenOptions)
    (serviceOptions : ServiceAccessTokenOptions) (store : ApiAccessStore) (now : Time) (request : AuthRequest) : Prop where
  session : ∀ user, authenticateSession P options now request = .ok user ↔
    ∃ claims ∈ issued.sessions, SessionGood options now claims ∧
      extractBearerToken request = some (signSessionClaims P claims secret) ∧
      user = sessionUser claims request.correlationId claims.scopes
  service : ∀ caller, authenticate P.service serviceOptions store now request = .ok caller ↔
    ∃ claims ∈ issued.services, ∃ resolved, ServiceGood serviceOptions store now claims resolved ∧
      extractBearerToken request = some (signClaims P.service claims secret) ∧
      caller = toAuthenticatedServicePrincipal resolved
        ⟨keptScopes claims resolved, (keptScopes claims resolved).filterMap permissionForAuthScope⟩ request.correlationId
  apart : (∀ claims ∈ issued.services, extractBearerToken request = some (signClaims P.service claims secret) →
      ∀ user, authenticateSession P options now request ≠ .ok user) ∧
    ∀ claims ∈ issued.sessions, extractBearerToken request = some (signSessionClaims P claims secret) →
      ∀ caller, authenticate P.service serviceOptions store now request ≠ .ok caller
  scopes : (∀ user, authenticateSession P options now request = .ok user →
      ∃ claims ∈ issued.sessions, user.scopes ⊆ claims.scopes) ∧
    ∀ caller, authenticate P.service serviceOptions store now request = .ok caller →
      ∃ claims ∈ issued.services, caller.scopes ⊆ claims.scopes

def Unextended (issued : Issued P secret) (options : HmacSessionTokenOptions) (now : Time) (request : AuthRequest) : Prop :=
  ∀ claims ∈ issued.sessions, SessionGood options now claims → ∀ more,
    extractBearerToken request ≠ some (signSessionClaims P claims secret ++ '.' :: more)

theorem splitOn_two {payload signature : List Char} (hp : '.' ∉ payload) (hs : '.' ∉ signature) :
    (payload ++ '.' :: signature).splitOn '.' = [payload, signature] := by
  rw [List.splitOn_append_cons_self_of_not_mem hp, List.splitOn_eq_singleton hs]

theorem splitOn_more {payload signature more : List Char} (hp : '.' ∉ payload) (hs : '.' ∉ signature) :
    (payload ++ '.' :: signature ++ '.' :: more).splitOn '.' = payload :: signature :: more.splitOn '.' := by
  rw [List.append_assoc, List.cons_append, List.splitOn_append_cons_self_of_not_mem hp,
    List.splitOn_append_cons_self_of_not_mem hs]

/-- A text with two segments or more is its first two segments, with a dot and more behind them or not. -/
theorem splitOn_cons_cons {token payload signature : List Char} {segments : List (List Char)}
    (h : token.splitOn '.' = payload :: signature :: segments) :
    '.' ∉ payload ∧ '.' ∉ signature ∧ ((token = payload ++ '.' :: signature ∧ segments = []) ∨
      ∃ more, token = payload ++ '.' :: signature ++ '.' :: more ∧ segments = more.splitOn '.') := by
  by_cases hdot : '.' ∈ token
  · obtain ⟨first, rest, rfl, hfirst⟩ := List.eq_append_cons_of_mem hdot
    rw [List.splitOn_append_cons_self_of_not_mem hfirst] at h
    obtain ⟨rfl, hrest⟩ := List.cons.inj h
    refine ⟨hfirst, ?_⟩
    by_cases hdot' : '.' ∈ rest
    · obtain ⟨second, more, rfl, hsecond⟩ := List.eq_append_cons_of_mem hdot'
      rw [List.splitOn_append_cons_self_of_not_mem hsecond] at hrest
      obtain ⟨rfl, hmore⟩ := List.cons.inj hrest
      exact ⟨hsecond, .inr ⟨more, by simp, hmore.symm⟩⟩
    · rw [List.splitOn_eq_singleton hdot'] at hrest
      obtain ⟨rfl, hnil⟩ := List.cons.inj hrest
      exact ⟨hdot', .inl ⟨rfl, hnil.symm⟩⟩
  · rw [List.splitOn_eq_singleton hdot] at h
    cases h

theorem verifySessionClaims_ok {token : List Char} {claims : SessionTokenClaims} :
    verifySessionClaims P token secret = .ok claims ↔
      ∃ payload more, token.splitOn '.' = payload :: P.signatureFor payload secret :: more ∧
        (payload ≠ [] ∧ P.signatureFor payload secret ≠ []) ∧ P.decode payload = some (.session claims) ∧
        claims.sub ≠ "" ∧ claims.displayLabel ≠ "" ∧ claims.clientInstanceId ≠ "" := by
  constructor
  · intro h
    unfold verifySessionClaims at h
    split at h
    · rename_i payload signature more hsplit
      simp only [bind_ok, require_ok] at h
      obtain ⟨_, hne, _, rfl, h⟩ := h
      split at h
      · cases h
      · cases h
      · rename_i hdecode
        simp only [bind_ok, require_ok, pure_ok] at h
        obtain ⟨_, hclaims, rfl⟩ := h
        exact ⟨payload, more, hsplit, hne, hdecode, hclaims⟩
    · cases h
  · rintro ⟨payload, more, hsplit, hne, hdecode, hclaims⟩
    simp only [verifySessionClaims, hsplit, hdecode, bind_ok, require_ok]
    exact ⟨(), hne, (), trivial, (), hclaims, rfl⟩

theorem verifyClaims_ok {T : TokenPlatform} {token : List Char} {claims : ServiceAccessTokenClaims} :
    verifyClaims T token secret = .ok claims ↔
      ∃ payload, token.splitOn '.' = [payload, T.signatureFor payload secret] ∧
        (payload ≠ [] ∧ T.signatureFor payload secret ≠ []) ∧ T.decode payload = some claims ∧
        claims.sub ≠ "" ∧ claims.credentialId ≠ "" ∧ claims.clientInstanceId ≠ "" := by
  constructor
  · intro h
    unfold verifyClaims at h
    split at h
    · rename_i payload signature hsplit
      simp only [bind_ok, require_ok, need_ok, pure_ok] at h
      obtain ⟨_, ⟨hpayload, hsignature, rfl⟩, _, hdecode, _, hclaims, rfl⟩ := h
      exact ⟨payload, hsplit, ⟨hpayload, hsignature⟩, hdecode, hclaims⟩
    · cases h
  · rintro ⟨payload, hsplit, ⟨hpayload, hsignature⟩, hdecode, hclaims⟩
    simp only [verifyClaims, hsplit, bind_ok, require_ok, need_ok]
    exact ⟨(), ⟨hpayload, hsignature, trivial⟩, claims, hdecode, (), hclaims, rfl⟩

theorem scopes_of_issued {claims : SessionTokenClaims} (h : sessionClaims options input now = .ok claims) :
    normalizeSessionTokenScopes (some claims.scopes) claims.delegatedActor = .ok claims.scopes := by
  obtain ⟨scopes, hscopes, h⟩ := bind_ok.mp h
  obtain rfl := pure_ok.mp h
  exact normalizeSessionTokenScopes_again hscopes

theorem authenticateSession_ok {user : AuthenticatedUser} : authenticateSession P options now request = .ok user ↔
    ∃ token, extractBearerToken request = some token ∧ ∃ claims,
      verifySessionClaims P token options.secret = .ok claims ∧ claims.iss = options.issuer ∧
      claims.clientInstanceId = options.clientInstanceId ∧ now / 1000 < claims.exp ∧
      ∃ scopes, normalizeSessionTokenScopes (some claims.scopes) claims.delegatedActor = .ok scopes ∧
        user = sessionUser claims request.correlationId scopes := by
  simp only [authenticateSession, bind_ok, need_ok, require_ok, pure_ok, exists_and_left, exists_const,
    eq_comm (a := user)]

variable {issued : Issued P options.secret}

/-- A session token is accepted as it was issued, and so is each text that goes on behind it with a dot. -/
theorem session_accepts {user : AuthenticatedUser}
    (hideal : ∀ token ∈ extractBearerToken request, issued.Unforged token) :
    authenticateSession P options now request = .ok user ↔
      ∃ claims ∈ issued.sessions, SessionGood options now claims ∧
        (extractBearerToken request = some (signSessionClaims P claims options.secret) ∨
          ∃ more, extractBearerToken request = some (signSessionClaims P claims options.secret ++ '.' :: more)) ∧
        user = sessionUser claims request.correlationId claims.scopes := by
  rw [authenticateSession_ok]
  constructor
  · rintro ⟨token, htoken, claims, hverify, hissuer, hinstance, hexp, scopes, hscopes, rfl⟩
    obtain ⟨payload, segments, hsplit, _, hdecode, hsub, hlabel, _⟩ := verifySessionClaims_ok.mp hverify
    obtain ⟨signed, hsigned, hpayload⟩ | ⟨signed, hsigned, hpayload⟩ := hideal token htoken payload segments hsplit
    · have hcarried := issued.session_carried signed hsigned
      rw [hpayload, hcarried.decodes] at hdecode
      obtain rfl : signed = claims := by injection hdecode with h; injection h
      obtain ⟨input, options', now', _, hclaims⟩ := issued.session_issued signed hsigned
      rw [scopes_of_issued hclaims] at hscopes
      obtain rfl := Except.ok.inj hscopes
      refine ⟨signed, hsigned, ⟨hsub, hlabel, hissuer, hinstance, hexp⟩, ?_, rfl⟩
      obtain ⟨_, _, ⟨heq, _⟩ | ⟨more, heq, _⟩⟩ := splitOn_cons_cons hsplit
      · exact .inl (htoken.trans (by rw [heq, hpayload, signSessionClaims]))
      · exact .inr ⟨more, htoken.trans (by rw [heq, hpayload, signSessionClaims])⟩
    · have hcarried := issued.service_carried signed hsigned
      rw [hpayload, hcarried.decodes] at hdecode
      injection hdecode with h
      injection h
  · rintro ⟨claims, hclaims, hgood, htoken, rfl⟩
    have hcarried := issued.session_carried claims hclaims
    obtain ⟨token, htoken, segments, hsplit⟩ : ∃ token, extractBearerToken request = some token ∧ ∃ segments,
        token.splitOn '.' = P.encode (.session claims) ::
          P.signatureFor (P.encode (.session claims)) options.secret :: segments := by
      obtain htoken | ⟨more, htoken⟩ := htoken
      · exact ⟨_, htoken, [], splitOn_two hcarried.payload_no_dot hcarried.signature_no_dot⟩
      · exact ⟨_, htoken, _, splitOn_more hcarried.payload_no_dot hcarried.signature_no_dot⟩
    obtain ⟨_, _, _, _, hissued⟩ := issued.session_issued claims hclaims
    have hinstance : claims.clientInstanceId ≠ "" := hgood.instance_eq ▸ options.clientInstanceId_ne
    refine ⟨token, htoken, claims, verifySessionClaims_ok.mpr ⟨_, segments, hsplit, ?_, hcarried.decodes, ?_⟩,
      hgood.issuer, hgood.instance_eq, hgood.unexpired, claims.scopes, scopes_of_issued hissued, rfl⟩
    · exact ⟨hcarried.payload_ne, hcarried.signature_ne⟩
    · exact ⟨hgood.sub_ne, hgood.label_ne, hinstance⟩

theorem authenticateService_ok {T : TokenPlatform} {caller : AuthenticatedServicePrincipal} :
    authenticate T serviceOptions store now request = .ok caller ↔
      ∃ token, extractBearerToken request = some token ∧ ∃ claims, verifyClaims T token serviceOptions.secret = .ok claims ∧
        (claims.typ = serviceAccessTokenType ∧ claims.aud = serviceAccessTokenAudience ∧
          claims.iss = serviceOptions.issuer) ∧
        claims.clientInstanceId = serviceOptions.clientInstanceId ∧ now / 1000 < claims.exp ∧
        ∃ resolved, store claims.clientInstanceId claims.credentialId = some resolved ∧
          resolved.servicePrincipal.id = claims.sub ∧ assertCredentialUsable resolved now = .ok () ∧
          caller = toAuthenticatedServicePrincipal resolved
            ⟨keptScopes claims resolved, (keptScopes claims resolved).filterMap permissionForAuthScope⟩
            request.correlationId := by
  simp only [authenticate, bind_ok, need_ok, require_ok, pure_ok, keptScopes,
    eq_comm (a := caller), Unique.exists_iff, PUnit.default_eq_unit]

theorem service_accepts {caller : AuthenticatedServicePrincipal} (hshared : serviceOptions.secret = options.secret)
    (hideal : ∀ token ∈ extractBearerToken request, issued.Unforged token) :
    authenticate P.service serviceOptions store now request = .ok caller ↔
      ∃ claims ∈ issued.services, ∃ resolved, ServiceGood serviceOptions store now claims resolved ∧
        extractBearerToken request = some (signClaims P.service claims options.secret) ∧
        caller = toAuthenticatedServicePrincipal resolved
          ⟨keptScopes claims resolved, (keptScopes claims resolved).filterMap permissionForAuthScope⟩
          request.correlationId := by
  rw [authenticateService_ok, hshared]
  constructor
  · rintro ⟨token, htoken, claims, hverify, ⟨_, _, hissuer⟩, hinstance, hexp, resolved, hfound, hprincipal, husable, rfl⟩
    obtain ⟨payload, hsplit, _, hdecode, _⟩ := verifyClaims_ok.mp hverify
    obtain ⟨decoded, hdecoded, hservice⟩ := Option.bind_eq_some_iff.mp hdecode
    obtain ⟨signed, hsigned, hpayload⟩ | ⟨signed, hsigned, hpayload⟩ := hideal token htoken payload [] hsplit
    · rw [hpayload, (issued.session_carried signed hsigned).decodes] at hdecoded
      obtain rfl := Option.some.inj hdecoded
      cases hservice
    · rw [hpayload, (issued.service_carried signed hsigned).decodes] at hdecoded
      obtain rfl := Option.some.inj hdecoded
      obtain rfl : signed = claims := Option.some.inj hservice
      refine ⟨signed, hsigned, resolved, ⟨hissuer, hinstance, hexp, hfound, hprincipal, husable⟩, ?_, rfl⟩
      obtain ⟨_, _, ⟨heq, _⟩ | ⟨more, _, hmore⟩⟩ := splitOn_cons_cons hsplit
      · exact htoken.trans (by rw [heq, hpayload]; rfl)
      · exact absurd hmore.symm (List.splitOn_ne_nil _ _)
  · rintro ⟨claims, hclaims, resolved, hgood, htoken, rfl⟩
    have hcarried := issued.service_carried claims hclaims
    obtain ⟨issuer, record, issuedAt, _, hid, hcredential, hinstance, rfl⟩ := issued.service_issued claims hclaims
    have hverify : verifyClaims P.service (signClaims P.service (issuedClaims issuer record issuedAt) options.secret)
        options.secret = .ok (issuedClaims issuer record issuedAt) :=
      verifyClaims_ok.mpr ⟨P.encode (.service (issuedClaims issuer record issuedAt)),
        splitOn_two hcarried.payload_no_dot hcarried.signature_no_dot, ⟨hcarried.payload_ne, hcarried.signature_ne⟩,
        Option.bind_eq_some_iff.mpr ⟨_, hcarried.decodes, rfl⟩, hid, hcredential, hinstance⟩
    exact ⟨_, htoken, _, hverify, ⟨rfl, rfl, hgood.issuer⟩, hgood.instance_eq, hgood.unexpired, resolved, hgood.found, hgood.principal, hgood.usable, rfl⟩

theorem signatures_apart {claims : SessionTokenClaims} {service : ServiceAccessTokenClaims} (more : List Char)
    (hclaims : P.Carries secret (.session claims)) (hservice : P.Carries secret (.service service)) :
    signSessionClaims P claims secret ≠ signClaims P.service service secret ∧
      signSessionClaims P claims secret ++ '.' :: more ≠ signClaims P.service service secret := by
  have hpayloads : P.encode (.session claims) ≠ P.encode (.service service) := fun he => by
    have hdecoded := hclaims.decodes
    rw [he, hservice.decodes] at hdecoded
    injection hdecoded with h
    injection h
  have hsplit : (signClaims P.service service secret).splitOn '.' = [P.encode (.service service), _] :=
    splitOn_two hservice.payload_no_dot hservice.signature_no_dot
  constructor
  · intro he
    rw [← he, signSessionClaims, splitOn_two hclaims.payload_no_dot hclaims.signature_no_dot] at hsplit
    exact hpayloads (List.cons.inj hsplit).1
  · intro he
    rw [← he, signSessionClaims, splitOn_more hclaims.payload_no_dot hclaims.signature_no_dot] at hsplit
    exact hpayloads (List.cons.inj hsplit).1

/-- Bearer strings are accepted exactly as they were issued, the kinds stay apart and no scope is
added, if and only if nothing is presented behind a good session token and a dot. -/
theorem bearer_tokens_exact_iff (hshared : serviceOptions.secret = options.secret)
    (hideal : ∀ token ∈ extractBearerToken request, issued.Unforged token) :
    BearerExact issued options serviceOptions store now request ↔ Unextended issued options now request := by
  constructor
  · intro hexact claims hclaims hgood more htoken
    have haccepted := (session_accepts hideal).mpr ⟨claims, hclaims, hgood, .inr ⟨more, htoken⟩, rfl⟩
    obtain ⟨other, hother, _, hsigned, _⟩ := (hexact.session _).mp haccepted
    have hcarried := issued.session_carried claims hclaims
    have hcarried' := issued.session_carried other hother
    have hsplit : (signSessionClaims P claims options.secret ++ '.' :: more).splitOn '.' = _ :: _ :: more.splitOn '.' :=
      splitOn_more hcarried.payload_no_dot hcarried.signature_no_dot
    have heq := Option.some.inj (hsigned.symm.trans htoken)
    rw [← heq, signSessionClaims, splitOn_two hcarried'.payload_no_dot hcarried'.signature_no_dot] at hsplit
    exact List.splitOn_ne_nil _ _ (List.cons.inj (List.cons.inj hsplit).2).2.symm
  · intro hunextended
    have hsession (user : AuthenticatedUser) : authenticateSession P options now request = .ok user ↔
        ∃ claims ∈ issued.sessions, SessionGood options now claims ∧
          extractBearerToken request = some (signSessionClaims P claims options.secret) ∧
          user = sessionUser claims request.correlationId claims.scopes := by
      rw [session_accepts hideal]
      constructor
      · rintro ⟨claims, hclaims, hgood, htoken | ⟨more, htoken⟩, huser⟩
        · exact ⟨claims, hclaims, hgood, htoken, huser⟩
        · exact absurd htoken (hunextended claims hclaims hgood more)
      · rintro ⟨claims, hclaims, hgood, htoken, huser⟩
        exact ⟨claims, hclaims, hgood, .inl htoken, huser⟩
    refine ⟨hsession, fun caller => service_accepts hshared hideal, ⟨?_, ?_⟩, ?_, ?_⟩
    · intro service hservice htoken user haccepted
      obtain ⟨claims, hclaims, _, htoken', _⟩ := (hsession user).mp haccepted
      exact (signatures_apart [] (issued.session_carried claims hclaims)
        (issued.service_carried service hservice)).1 (Option.some.inj (htoken'.symm.trans htoken))
    · intro claims hclaims htoken caller haccepted
      obtain ⟨service, hservice, _, _, htoken', _⟩ := (service_accepts hshared hideal).mp haccepted
      exact (signatures_apart [] (issued.session_carried claims hclaims)
        (issued.service_carried service hservice)).1 (Option.some.inj (htoken.symm.trans htoken'))
    · intro user haccepted
      obtain ⟨claims, hclaims, _, _, rfl⟩ := (hsession user).mp haccepted
      exact ⟨claims, hclaims, List.Subset.refl _⟩
    · intro caller haccepted
      obtain ⟨claims, hclaims, resolved, _, _, rfl⟩ := (service_accepts hshared hideal).mp haccepted
      exact ⟨claims, hclaims, fun scope hscope => of_decide_eq_true (List.mem_filter.mp hscope).2⟩

end

namespace Bearer

def secret : String := "0123456789abcdef0123456789abcdef"

def adapter : HmacSessionTokenOptions where
  secret := secret
  clientInstanceId := "demo"
  issuer := "vivd-catalyst"
  ttlSeconds := 900
  authSource := none
  secret_long := by decide
  clientInstanceId_ne := by decide

theorem ttl_range : 600 ≤ 900 ∧ 900 ≤ 900 := by decide

def serviceAdapter : ServiceAccessTokenOptions where
  secret := secret
  clientInstanceId := "demo"
  issuer := "vivd-catalyst"
  ttlSeconds := 900
  secret_long := by decide
  ttl_range := ttl_range

def input : SessionTokenInput :=
  ⟨"u1", "Ada", none, none, none, none, none, none, some ["me:read"], none⟩

def claims : SessionTokenClaims where
  sub := "u1"
  displayLabel := "Ada"
  email := none
  emailVerified := none
  roles := ["user"]
  permissionRefs := []
  permissions := []
  clientInstanceId := "demo"
  authSource := "session-token"
  iss := "vivd-catalyst"
  iat := 1700000000
  exp := 1700000900
  correlationId := none
  scopes := ["me:read"]
  delegatedActor := none

def json : String :=
  "\"sub\":\"u1\",\"displayLabel\":\"Ada\",\"roles\":[\"user\"],\"permissionRefs\":[],\"permissions\":[]," ++
  "\"clientInstanceId\":\"demo\",\"authSource\":\"session-token\",\"iss\":\"vivd-catalyst\"," ++
  "\"iat\":1700000000,\"exp\":1700000900,\"scopes\":[\"me:read\"]\x7d"

@[irreducible] def payload : List Char := Base64Url.encode (('\x7b' :: json.toList).map fun c => .ofNat c.toNat)

@[irreducible] def signature : List Char := Base64Url.encode
  [124, 250, 115, 125, 12, 105, 141, 242, 185, 218, 216, 155, 198, 217, 59, 180, 145, 42, 33, 44, 141,
    133, 147, 80, 92, 2, 132, 170, 235, 58, 117, 203]

def platform : BearerPlatform where
  encode _ := payload
  decode _ := some (.session claims)
  signatureFor text _ := if text = payload then signature else ['.']
  hashApiCredentialSecret _ := ""

theorem signed : platform.signatureFor (platform.encode (.session claims)) secret = signature := if_pos rfl

theorem payload_ne : payload ≠ [] := by
  unfold payload
  exact Base64Url.encode_ne_nil (by simp)

theorem signature_ne : signature ≠ [] := by
  unfold signature
  exact Base64Url.encode_ne_nil (by simp)

theorem mem_payload {c : Char} (h : c ∈ payload) : c ∈ Base64Url.alphabet := by
  unfold payload at h
  exact Base64Url.mem_encode h

theorem mem_signature {c : Char} (h : c ∈ signature) : c ∈ Base64Url.alphabet := by
  unfold signature at h
  exact Base64Url.mem_encode h

theorem carries : platform.Carries secret (.session claims) where
  decodes := rfl
  payload_ne := payload_ne
  payload_no_dot h := absurd (mem_payload h) (by decide)
  signature_ne := by rw [signed]; exact signature_ne
  signature_no_dot h := absurd (mem_signature (signed ▸ h)) (by decide)

def issued : Issued platform adapter.secret where
  sessions := [claims]
  services := []
  session_issued _ h := by
    obtain rfl := List.mem_singleton.mp h
    exact ⟨adapter, input, 1700000000000, rfl, by decide⟩
  service_issued _ h := absurd h List.not_mem_nil
  session_carried _ h := by
    obtain rfl := List.mem_singleton.mp h
    exact carries
  service_carried _ h := absurd h List.not_mem_nil

theorem unforged (token : List Char) : issued.Unforged token := by
  intro text more hsplit
  obtain ⟨_, hdot, _⟩ := splitOn_cons_cons hsplit
  by_cases htext : text = payload
  · exact .inl ⟨claims, List.mem_singleton_self _, htext⟩
  · exact absurd (List.mem_singleton_self '.') (by simp [platform, htext] at hdot)

def token : List Char := signSessionClaims platform claims secret

/-- A request with a text behind `Bearer`. -/
def bearing (text : List Char) : AuthRequest := ⟨some (.text ("Bearer ".toList ++ text)), none, none⟩

theorem dropWhile_white {text : List Char} (h : ∀ c ∈ text, c ∉ whiteSpace) :
    text.dropWhile (· ∈ whiteSpace) = text := by
  cases text with
  | nil => rfl
  | cons c text => exact List.dropWhile_cons_of_neg (by simpa using h c List.mem_cons_self)

theorem extract_bearing {text : List Char} (hne : text ≠ []) (h : ∀ c ∈ text, c ∉ whiteSpace) :
    extractBearerToken (bearing text) = some text := by
  have hprefix : "Bearer ".toList <+: "Bearer ".toList ++ text := List.prefix_append _ _
  have hdrop : ("Bearer ".toList ++ text).drop "Bearer ".length = text := List.drop_left' rfl
  have htrim : trim text = text := by
    rw [trim, dropWhile_white h, dropWhile_white fun c hc => h c (List.mem_reverse.mp hc), List.reverse_reverse]
  unfold extractBearerToken
  rw [show ((bearing text).authorization.or (bearing text).Authorization).bind HeaderValue.first =
    some ("Bearer ".toList ++ text) from rfl]
  simp only [Option.bind_eq_bind, Option.bind_some, guard, hdrop, htrim, if_pos hprefix, if_pos hne]
  rfl

theorem white_range : ∀ c ∈ whiteSpace, c.toNat < 0x21 ∨ 0x7f < c.toNat :=
  of_literal (P := fun cs => ∀ c ∈ cs, c.toNat < 0x21 ∨ 0x7f < c.toNat) (by simp)

theorem letter_range : ∀ c ∈ Base64Url.alphabet, 0x21 ≤ c.toNat ∧ c.toNat ≤ 0x7f := by
  simp [Base64Url.alphabet]

theorem not_white {c : Char} (h : c = '.' ∨ c ∈ Base64Url.alphabet) : c ∉ whiteSpace := fun hc => by
  have hwhite := white_range c hc
  obtain rfl | h := h
  · exact absurd hwhite (by decide)
  · have := letter_range c h
    omega

theorem token_not_white : ∀ c ∈ token, c ∉ whiteSpace := by
  intro c hc
  refine not_white ?_
  obtain hc | hc := List.mem_append.mp hc
  · exact .inr (mem_payload hc)
  · rw [signed] at hc
    exact (List.mem_cons.mp hc).imp_right mem_signature

theorem good : SessionGood adapter 1700000300000 claims := ⟨by decide, by decide, rfl, rfl, by decide⟩

end Bearer

theorem bearer_tokens_exact_iff_presented :
    BearerExact Bearer.issued Bearer.adapter Bearer.serviceAdapter (fun _ _ => none) 1700000300000
      (Bearer.bearing Bearer.token) := by
  refine (bearer_tokens_exact_iff rfl fun token _ => Bearer.unforged token).mpr ?_
  intro claims hclaims _ more htoken
  obtain rfl := List.mem_singleton.mp hclaims
  have hpresented : extractBearerToken (Bearer.bearing Bearer.token) = some Bearer.token := Bearer.extract_bearing
    (List.append_ne_nil_of_right_ne_nil _ (List.cons_ne_nil _ _)) Bearer.token_not_white
  have htoken' : some Bearer.token = some (Bearer.token ++ '.' :: more) := hpresented.symm.trans htoken
  simpa using congrArg List.length (Option.some.inj htoken')

/-- A good token is accepted with a dot and an `x` behind it. -/
theorem extended_token_accepted :
    ¬ ∀ store request, BearerExact Bearer.issued Bearer.adapter Bearer.serviceAdapter store 1700000300000 request := by
  intro h
  have hwhite : ∀ c ∈ Bearer.token ++ ['.', 'x'], c ∉ whiteSpace := List.forall_mem_append.mpr
    ⟨Bearer.token_not_white, by simp [Bearer.not_white, (by decide : 'x' ∈ Base64Url.alphabet)]⟩
  have htoken := Bearer.extract_bearing (List.append_ne_nil_of_right_ne_nil _ (List.cons_ne_nil _ _)) hwhite
  have hunextended := (bearer_tokens_exact_iff rfl fun token _ => Bearer.unforged token).mp
    (h (fun _ _ => none) (Bearer.bearing (Bearer.token ++ ['.', 'x'])))
  exact hunextended Bearer.claims (List.mem_singleton_self _) Bearer.good ['x'] htoken

end Catalyst.Access
