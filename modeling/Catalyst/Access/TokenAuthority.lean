import Catalyst.Access.ServiceToken

/-!
# What authority a service token carries

The way from permissions to scopes and back is exact but for the one scope that
two permissions share: `governance:read` comes back as `usage.view`. A token
stays within what its principal holds exactly when that scope, where it is
granted, was granted for `usage.view`.
-/

namespace Catalyst.Access

open Library Library.Check

-- -----------------
-- The scopes of a credential
-- -----------------

def StandsFor (entry : String) (p : Permission) : Prop :=
  entry = p.key ∨ authScopeForPermission p = some entry

def RestrictionAllows (scopes : Option (List String)) (p : Permission) : Prop :=
  ∀ entries ∈ scopes, ∃ entry ∈ entries, StandsFor entry p

def Selects (scopes : Option (List String)) (scope : String) : Prop :=
  ∀ entries ∈ scopes, ∃ entry ∈ entries, restrictionScope entry = scope

theorem restrictionScope_key (h : authScopeForPermission p = some scope) :
    restrictionScope p.key = scope := by
  simp [restrictionScope, permission?_eq_some.mpr rfl, h]

theorem permission?_authScope (h : authScopeForPermission p = some scope) :
    permission? scope = none := by
  cases p <;> cases h <;> decide

theorem restrictionScope_self (h : authScopeForPermission p = some scope) :
    restrictionScope scope = scope := by
  simp [restrictionScope, permission?_authScope h]

/-- An entry becomes the scope of a permission only as that scope or as the key of a
permission that has it. -/
theorem restrictionScope_eq (hp : authScopeForPermission p = some scope) :
    restrictionScope entry = scope ↔
      entry = scope ∨ ∃ q, authScopeForPermission q = some scope ∧ entry = q.key := by
  constructor
  · intro h
    unfold restrictionScope at h
    cases hq : permission? entry with
    | none =>
      rw [hq] at h
      exact .inl h
    | some q =>
      rw [hq] at h
      cases hs : authScopeForPermission q with
      | none =>
        simp only [hs, Option.getD_none] at h
        exact .inl h
      | some scope' =>
        simp only [hs, Option.getD_some] at h
        exact .inr ⟨q, hs.trans (congrArg some h), (permission?_eq_some.mp hq).symm⟩
  · rintro (rfl | ⟨q, hq, rfl⟩)
    · exact restrictionScope_self hp
    · exact restrictionScope_key hq

theorem has_principalScopes {principal : ServicePrincipal} :
    principal.principalScopes.has scope ↔
      ∃ q ∈ principal.effective, authScopeForPermission q = some scope :=
  OrderedMap.has_setAll _ _ _

theorem get?_principalScopes (principal : ServicePrincipal) (scope : String) :
    principal.principalScopes.get? scope =
      (principal.effective.filter (authScopeForPermission · = some scope)).getLast? := by
  simp [ServicePrincipal.principalScopes, OrderedMap.get?_setAll]

theorem mem_scopes {resolved : ResolvedApiCredential} :
    scope ∈ (deriveEffectiveServiceGrants resolved).scopes ↔
      (∃ q ∈ resolved.servicePrincipal.effective, authScopeForPermission q = some scope) ∧
        Selects resolved.credential.scopes scope := by
  simp only [deriveEffectiveServiceGrants, List.mem_filter, List.mem_eraseDups,
    decide_eq_true_eq, has_principalScopes, selectedScopes, Selects]
  cases resolved.credential.scopes with
  | none =>
    simp only [OrderedMap.mem_keys_iff, has_principalScopes]
    constructor
    · intro h
      exact ⟨h.1, by simp⟩
    · rintro ⟨⟨q, hq, hs⟩, _⟩
      exact ⟨⟨q, hq, hs⟩, fun he => authScope_ne_wildcard (he ▸ hs), q, hq, hs⟩
  | some entries =>
    simp only [List.mem_map, Option.mem_def, Option.some.injEq, forall_eq']
    constructor
    · intro h
      exact ⟨h.2.2, h.1⟩
    · rintro ⟨⟨q, hq, hs⟩, hsel⟩
      exact ⟨hsel, fun he => authScope_ne_wildcard (he ▸ hs), q, hq, hs⟩

theorem exchange_ok (hx : exchange platform options store now apiKey = .ok granted)
    (hparse : parseApiCredentialSecret apiKey = some credentialId)
    (hstore : store options.clientInstanceId credentialId = some resolved) :
    granted.accessToken = signClaims platform (issuedClaims options resolved now) options.secret ∧
      granted.principal.permissions = (deriveEffectiveServiceGrants resolved).permissions := by
  simp only [exchange, bind_ok, need_ok, require_ok, pure_ok] at hx
  obtain ⟨_, hp, r, hr, _, _, _, _, rfl⟩ := hx
  obtain rfl := Option.some.inj (hp.symm.trans hparse)
  obtain rfl := Option.some.inj (hr.symm.trans hstore)
  exact ⟨rfl, rfl⟩

theorem verifyClaims_signClaims (hp : platform.Carries secret claims)
    (h : verifyClaims platform (signClaims platform claims secret) secret = .ok claims') :
    claims' = claims := by
  have hs : (signClaims platform claims secret).splitOn '.' =
      [platform.encode claims, platform.signatureFor (platform.encode claims) secret] := by
    rw [signClaims, List.splitOn_append_cons_self_of_not_mem hp.payload_no_dot,
      List.splitOn_eq_singleton hp.signature_no_dot]
  simp only [verifyClaims, hs, bind_ok, require_ok, need_ok, pure_ok] at h
  obtain ⟨_, _, c, hd, _, _, rfl⟩ := h
  exact Option.some.inj (hd.symm.trans hp.decodes)

theorem authenticate_ok (ha : authenticate platform options store now request = .ok caller)
    (hpresented : extractBearerToken request = some token)
    (hverify : ∀ claims', verifyClaims platform token options.secret = .ok claims' → claims' = claims)
    (hstore : store claims.clientInstanceId claims.credentialId = some resolved) :
    caller.permissions = ((deriveEffectiveServiceGrants resolved).scopes.filter
      (· ∈ claims.scopes)).filterMap permissionForAuthScope := by
  simp only [authenticate, bind_ok, need_ok, require_ok, pure_ok] at ha
  obtain ⟨t, ht, c, hc, _, _, _, _, _, _, r, hr, _, _, _, _, rfl⟩ := ha
  obtain rfl := Option.some.inj (ht.symm.trans hpresented)
  obtain rfl := hverify c hc
  obtain rfl := Option.some.inj (hr.symm.trans hstore)
  rfl

/-- What a use of a token may give: `before` is the record it was exchanged under,
`now` the record at its use. -/
structure NeverWidens (before now : ResolvedApiCredential) (granted caller : List Permission) :
    Prop where
  current : ∀ p ∈ caller, p ∈ now.servicePrincipal.effective
  credential : ∀ p ∈ caller, RestrictionAllows now.credential.scopes p
  token : ∀ p ∈ caller, RestrictionAllows (deriveEffectiveServiceGrants before).scopes p
  exchanged : ∀ p ∈ caller, p ∈ before.servicePrincipal.effective
  unchanged : now = before → caller = granted

/-- The record grants the scope that `usage.view` and `audit.view` share. -/
def GrantsGovernance (resolved : ResolvedApiCredential) : Prop :=
  (.usageView ∈ resolved.servicePrincipal.effective ∨
      .auditView ∈ resolved.servicePrincipal.effective) ∧
    ∀ entries ∈ resolved.credential.scopes,
      "governance:read" ∈ entries ∨ "usage.view" ∈ entries ∨ "audit.view" ∈ entries
  deriving Decidable

/-- Where the shared scope is granted at the exchange and at the use, it is granted for
`usage.view`. -/
def GovernanceIsUsage (before now : ResolvedApiCredential) : Prop :=
  GrantsGovernance before → GrantsGovernance now →
    .usageView ∈ before.servicePrincipal.effective ∧
    .usageView ∈ now.servicePrincipal.effective ∧
    (∀ entries ∈ now.credential.scopes, "governance:read" ∈ entries ∨ "usage.view" ∈ entries) ∧
    (now = before → (now.servicePrincipal.effective.filter
      (authScopeForPermission · = some "governance:read")).getLast? = some .usageView)
  deriving Decidable

theorem mem_governance :
    "governance:read" ∈ (deriveEffectiveServiceGrants resolved).scopes ↔
      GrantsGovernance resolved := by
  rw [mem_scopes, GrantsGovernance]
  refine and_congr ?_ ?_
  · constructor
    · rintro ⟨q, hq, hs⟩
      rcases eq_of_authScope hs (show authScopeForPermission .usageView = _ from rfl) with
        rfl | ⟨rfl, _⟩ | ⟨rfl, _⟩
      · exact .inl hq
      · exact .inl hq
      · exact .inr hq
    · rintro (h | h)
      · exact ⟨_, h, rfl⟩
      · exact ⟨_, h, rfl⟩
  · simp only [Selects,
      restrictionScope_eq (show authScopeForPermission .usageView = some "governance:read" from rfl)]
    refine forall₂_congr fun entries _ => ⟨?_, ?_⟩
    · rintro ⟨entry, he, rfl | ⟨q, hq, rfl⟩⟩
      · exact .inl he
      · cases q with
        | usageView => exact .inr (.inl he)
        | auditView => exact .inr (.inr he)
        | agentSkillsApprove | agentModelsManage => cases hq
        | _ => exact absurd hq (by decide)
    · rintro (h | h | h)
      · exact ⟨_, h, .inl rfl⟩
      · exact ⟨_, h, .inr ⟨.usageView, rfl, rfl⟩⟩
      · exact ⟨_, h, .inr ⟨.auditView, rfl, rfl⟩⟩

def usedPermissions (before now : ResolvedApiCredential) : List Permission :=
  ((deriveEffectiveServiceGrants now).scopes.filter
    (· ∈ (deriveEffectiveServiceGrants before).scopes)).filterMap permissionForAuthScope

theorem mem_usedPermissions : p ∈ usedPermissions before now ↔
    p ≠ .auditView ∧ ∃ scope, authScopeForPermission p = some scope ∧
      scope ∈ (deriveEffectiveServiceGrants now).scopes ∧
      scope ∈ (deriveEffectiveServiceGrants before).scopes := by
  simp only [usedPermissions, List.mem_filterMap, List.mem_filter, decide_eq_true_eq,
    permissionForAuthScope_eq_some]
  constructor
  · rintro ⟨scope, ⟨hn, hb⟩, hs, hp⟩
    exact ⟨hp, scope, hs, hn, hb⟩
  · rintro ⟨hp, scope, hs, hn, hb⟩
    exact ⟨scope, ⟨hn, hb⟩, hs, hp⟩

theorem usageView_used : .usageView ∈ usedPermissions before now ↔
    GrantsGovernance before ∧ GrantsGovernance now := by
  rw [mem_usedPermissions, ← mem_governance, ← mem_governance]
  constructor
  · rintro ⟨_, _, ⟨⟩, hn, hb⟩
    exact ⟨hb, hn⟩
  · rintro ⟨hb, hn⟩
    exact ⟨by simp, _, rfl, hn, hb⟩

theorem effective_of_mem_scopes (hs : authScopeForPermission p = some scope)
    (hu : p ≠ .usageView) (ha : p ≠ .auditView)
    (h : scope ∈ (deriveEffectiveServiceGrants resolved).scopes) :
    p ∈ resolved.servicePrincipal.effective ∧ RestrictionAllows resolved.credential.scopes p := by
  obtain ⟨⟨q, hq, hqs⟩, hsel⟩ := mem_scopes.mp h
  have honly : ∀ q, authScopeForPermission q = some scope → q = p := by
    intro q hq
    rcases eq_of_authScope hq hs with h | ⟨_, h⟩ | ⟨_, h⟩
    · exact h
    · exact absurd h ha
    · exact absurd h hu
  refine ⟨honly q hqs ▸ hq, fun entries he => ?_⟩
  obtain ⟨entry, hentry, hr⟩ := hsel entries he
  refine ⟨entry, hentry, ?_⟩
  rcases (restrictionScope_eq hs).mp hr with rfl | ⟨q, hq, rfl⟩
  · exact .inr hs
  · exact .inl (by rw [honly q hq])

theorem RestrictionAllows.of_mem (hs : authScopeForPermission p = some scope)
    (h : scope ∈ scopes) : RestrictionAllows (some scopes) p := by
  intro entries he
  obtain rfl := Option.some.inj he
  exact ⟨scope, h, .inr hs⟩

theorem restrictionAllows_usageView : RestrictionAllows scopes .usageView ↔
    ∀ entries ∈ scopes, "governance:read" ∈ entries ∨ "usage.view" ∈ entries := by
  refine forall₂_congr fun entries _ => ⟨?_, ?_⟩
  · rintro ⟨entry, he, rfl | hs⟩
    · exact .inr he
    · exact .inl (Option.some.inj hs ▸ he)
  · rintro (h | h)
    · exact ⟨_, h, .inr rfl⟩
    · exact ⟨_, h, .inl rfl⟩

theorem usedPermissions_self (resolved : ResolvedApiCredential) :
    usedPermissions resolved resolved =
      (deriveEffectiveServiceGrants resolved).scopes.filterMap permissionForAuthScope := by
  rw [usedPermissions, List.filter_eq_self.mpr]
  simp

/-- The last of the effective permissions with a granted scope is the one its exchange grants. -/
theorem get?_principalScopes_eq (h : scope ∈ (deriveEffectiveServiceGrants resolved).scopes)
    (hne : scope ≠ "governance:read") :
    resolved.servicePrincipal.principalScopes.get? scope = permissionForAuthScope scope := by
  obtain ⟨⟨q, hq, hs⟩, _⟩ := mem_scopes.mp h
  have hu : q ≠ .auditView ∧ q ≠ .usageView := by
    refine ⟨?_, ?_⟩
    · rintro rfl
      exact hne (Option.some.inj hs).symm
    · rintro rfl
      exact hne (Option.some.inj hs).symm
  rw [permissionForAuthScope_eq_some.mpr ⟨hs, hu.1⟩, get?_principalScopes]
  cases hl : (resolved.servicePrincipal.effective.filter
      (authScopeForPermission · = some scope)).getLast? with
  | none =>
    rw [List.getLast?_eq_none_iff, List.filter_eq_nil_iff] at hl
    exact absurd (by simpa using hs) (hl q hq)
  | some q' =>
    have hq' := List.mem_of_getLast? hl
    simp only [List.mem_filter, decide_eq_true_eq] at hq'
    rcases eq_of_authScope hq'.2 hs with rfl | ⟨_, h⟩ | ⟨_, h⟩
    · rfl
    · exact absurd h hu.1
    · exact absurd h hu.2

/-- With nothing changed a use gives what the exchange granted exactly when the shared
scope, where it is granted, was last set for `usage.view`. -/
theorem unchanged_iff (resolved : ResolvedApiCredential) :
    usedPermissions resolved resolved = (deriveEffectiveServiceGrants resolved).permissions ↔
      (GrantsGovernance resolved → resolved.servicePrincipal.principalScopes.get?
        "governance:read" = some .usageView) := by
  rw [usedPermissions_self]
  have hperms : (deriveEffectiveServiceGrants resolved).permissions =
      (deriveEffectiveServiceGrants resolved).scopes.filterMap
        resolved.servicePrincipal.principalScopes.get? := rfl
  rw [hperms]
  constructor
  · intro heq hg
    have hmem := mem_governance.mpr hg
    have hu : Permission.usageView ∈ (deriveEffectiveServiceGrants resolved).scopes.filterMap
        permissionForAuthScope := List.mem_filterMap.mpr ⟨_, hmem, rfl⟩
    rw [heq] at hu
    obtain ⟨scope, hs, hget⟩ := List.mem_filterMap.mp hu
    by_cases hne : scope = "governance:read"
    · rwa [hne] at hget
    · rw [get?_principalScopes_eq hs hne, permissionForAuthScope_eq_some] at hget
      exact absurd (Option.some.inj hget.1).symm hne
  · intro h
    refine List.filterMap_congr fun scope hs => ?_
    by_cases hne : scope = "governance:read"
    · subst hne
      rw [h (mem_governance.mp hs)]
      rfl
    · exact (get?_principalScopes_eq hs hne).symm

theorem neverWidens_iff :
    NeverWidens before now (deriveEffectiveServiceGrants before).permissions
        (usedPermissions before now) ↔ GovernanceIsUsage before now := by
  constructor
  · intro h hb hn
    have hu := usageView_used.mpr ⟨hb, hn⟩
    refine ⟨h.exchanged _ hu, h.current _ hu, restrictionAllows_usageView.mp (h.credential _ hu), ?_⟩
    rintro rfl
    rw [← get?_principalScopes]
    exact (unchanged_iff now).mp (h.unchanged rfl) hn
  · intro h
    have hall : ∀ p ∈ usedPermissions before now,
        p ∈ now.servicePrincipal.effective ∧ RestrictionAllows now.credential.scopes p ∧
          p ∈ before.servicePrincipal.effective := by
      intro p hp
      by_cases hu : p = .usageView
      · subst hu
        obtain ⟨hb, hn⟩ := usageView_used.mp hp
        obtain ⟨hub, hun, hc, _⟩ := h hb hn
        exact ⟨hun, restrictionAllows_usageView.mpr hc, hub⟩
      · obtain ⟨ha, scope, hs, hn, hb⟩ := mem_usedPermissions.mp hp
        obtain ⟨hcur, hcred⟩ := effective_of_mem_scopes hs hu ha hn
        exact ⟨hcur, hcred, (effective_of_mem_scopes hs hu ha hb).1⟩
    refine ⟨fun p hp => (hall p hp).1, fun p hp => (hall p hp).2.1, fun p hp => ?_,
      fun p hp => (hall p hp).2.2, ?_⟩
    · obtain ⟨_, scope, hs, _, hb⟩ := mem_usedPermissions.mp hp
      exact .of_mem hs hb
    · rintro rfl
      refine (unchanged_iff now).mpr fun hg => ?_
      rw [get?_principalScopes]
      exact (h hg hg).2.2.2 rfl

theorem token_never_widens_iff
    (hparse : parseApiCredentialSecret apiKey = some credentialId)
    (hbefore : store options.clientInstanceId credentialId = some before)
    (hcarries : platform.Carries options.secret (issuedClaims options before time))
    (hexchange : exchange platform options store time apiKey = .ok granted)
    (hpresented : extractBearerToken request = some granted.accessToken)
    (hnow : store' before.servicePrincipal.clientInstanceId before.credential.id = some now)
    (hauthenticate : authenticate platform options store' time' request = .ok caller) :
    NeverWidens before now granted.principal.permissions caller.permissions ↔
      GovernanceIsUsage before now := by
  obtain ⟨htoken, hgranted⟩ := exchange_ok hexchange hparse hbefore
  have hverify : ∀ claims, verifyClaims platform granted.accessToken options.secret = .ok claims →
      claims = issuedClaims options before time := fun claims hv =>
    verifyClaims_signClaims hcarries (htoken ▸ hv)
  have hcaller : caller.permissions = usedPermissions before now :=
    authenticate_ok hauthenticate hpresented hverify hnow
  rw [hgranted, hcaller]
  exact neverWidens_iff

def sampleApiKey : List Char :=
  "cat.apic_1.0123456789abcdef0123456789abcdef0123456789abcdef0123456789abcdef".toList

def sampleOptions : ServiceAccessTokenOptions where
  secret := "0123456789abcdef0123456789abcdef"
  clientInstanceId := "demo"
  issuer := "vivd-catalyst"
  ttlSeconds := 900
  secret_long := by decide
  ttl_range := by decide

def sampleRecord (permissions : List String) : ResolvedApiCredential where
  credential := ⟨"apic_1", none, none, none⟩
  servicePrincipal := ⟨"spn_1", "demo", "Reports", .active, [], permissions⟩
  secretHash := "1ab0a07eeed89ba08f9afb7ccb4e30765262a2d979244c1a67b44cd0f3fbe25e"

def sampleStore (permissions : List String) : ApiAccessStore := fun clientInstanceId credentialId =>
  if clientInstanceId = "demo" ∧ credentialId = "apic_1" then some (sampleRecord permissions) else none

def sampleClaims : ServiceAccessTokenClaims where
  typ := "catalyst-service-access"
  aud := "catalyst-service-api"
  sub := "spn_1"
  credentialId := "apic_1"
  clientInstanceId := "demo"
  scopes := ["governance:read"]
  iss := "vivd-catalyst"
  iat := 1700000000
  exp := 1700000900

def samplePayload : List Char :=
  ['e', 'y', 'J', '0', 'e', 'X', 'A', 'i', 'O', 'i', 'J', 'j', 'Y', 'X', 'R', 'h', 'b', 'H', 'l',
    'z', 'd', 'C', '1', 'z', 'Z', 'X', 'J', '2', 'a', 'W', 'N', 'l', 'L', 'W', 'F', 'j', 'Y', '2',
    'V', 'z', 'c', 'y', 'I', 's', 'I', 'm', 'F', '1', 'Z', 'C', 'I', '6', 'I', 'm', 'N', 'h', 'd',
    'G', 'F', 's', 'e', 'X', 'N', '0', 'L', 'X', 'N', 'l', 'c', 'n', 'Z', 'p', 'Y', '2', 'U', 't',
    'Y', 'X', 'B', 'p', 'I', 'i', 'w', 'i', 'c', '3', 'V', 'i', 'I', 'j', 'o', 'i', 'c', '3', 'B',
    'u', 'X', 'z', 'E', 'i', 'L', 'C', 'J', 'j', 'c', 'm', 'V', 'k', 'Z', 'W', '5', '0', 'a', 'W',
    'F', 's', 'S', 'W', 'Q', 'i', 'O', 'i', 'J', 'h', 'c', 'G', 'l', 'j', 'X', 'z', 'E', 'i', 'L',
    'C', 'J', 'j', 'b', 'G', 'l', 'l', 'b', 'n', 'R', 'J', 'b', 'n', 'N', '0', 'Y', 'W', '5', 'j',
    'Z', 'U', 'l', 'k', 'I', 'j', 'o', 'i', 'Z', 'G', 'V', 't', 'b', 'y', 'I', 's', 'I', 'n', 'N',
    'j', 'b', '3', 'B', 'l', 'c', 'y', 'I', '6', 'W', 'y', 'J', 'n', 'b', '3', 'Z', 'l', 'c', 'm',
    '5', 'h', 'b', 'm', 'N', 'l', 'O', 'n', 'J', 'l', 'Y', 'W', 'Q', 'i', 'X', 'S', 'w', 'i', 'a',
    'X', 'N', 'z', 'I', 'j', 'o', 'i', 'd', 'm', 'l', '2', 'Z', 'C', '1', 'j', 'Y', 'X', 'R', 'h',
    'b', 'H', 'l', 'z', 'd', 'C', 'I', 's', 'I', 'm', 'l', 'h', 'd', 'C', 'I', '6', 'M', 'T', 'c',
    'w', 'M', 'D', 'A', 'w', 'M', 'D', 'A', 'w', 'M', 'C', 'w', 'i', 'Z', 'X', 'h', 'w', 'I', 'j',
    'o', 'x', 'N', 'z', 'A', 'w', 'M', 'D', 'A', 'w', 'O', 'T', 'A', 'w', 'f', 'Q']

def sampleSignature : List Char :=
  ['M', '8', 'V', 'M', 'y', 'q', 'C', 'O', 'z', 'Z', '2', 'f', 's', '-', 'J', 'o', 't', 'E', 'j',
    'H', 'y', 'q', '_', 'k', 'y', 'k', 'd', 'Y', 'g', 'n', 'g', 'b', 'u', 'Z', 'b', 'O', '5', 'N',
    '1', 'j', 'v', 'e', 'M']

/-- The runtime on the claims, the payload and the key of this section. -/
def samplePlatform : TokenPlatform where
  encode claims := if claims = sampleClaims then samplePayload else []
  decode payload := if payload = samplePayload then some sampleClaims else none
  signatureFor payload secret :=
    if payload = samplePayload ∧ secret = sampleOptions.secret then sampleSignature else []
  hashApiCredentialSecret apiKey :=
    if apiKey = sampleApiKey then (sampleRecord []).secretHash else ""

def sampleToken : List Char := samplePayload ++ '.' :: sampleSignature

def sampleRequest : AuthRequest where
  authorization := some (.text ("Bearer ".toList ++ sampleToken))
  Authorization := none
  correlationId := none

def sampleExchange (permissions : List String) : Except AppError ExchangedToken :=
  exchange samplePlatform sampleOptions (sampleStore permissions) 1700000000000 sampleApiKey

def sampleUse (permissions : List String) : Except AppError AuthenticatedServicePrincipal :=
  authenticate samplePlatform sampleOptions (sampleStore permissions) 1700000300000 sampleRequest

def sampleGranted (permissions : List String) : ExchangedToken where
  accessToken := sampleToken
  expiresAt := 1700000900000
  principal := toAuthenticatedServicePrincipal (sampleRecord permissions)
    (deriveEffectiveServiceGrants (sampleRecord permissions)) none

def sampleCaller (permissions : List String) : AuthenticatedServicePrincipal :=
  toAuthenticatedServicePrincipal (sampleRecord permissions) ⟨["governance:read"], [.usageView]⟩ none

theorem samplePlatform_carries : samplePlatform.Carries sampleOptions.secret sampleClaims where
  decodes := by simp [samplePlatform]
  payload_no_dot := by simpa [samplePlatform] using (by decide : '.' ∉ samplePayload)
  signature_no_dot := by simpa [samplePlatform] using (by decide : '.' ∉ sampleSignature)

theorem sampleApiKey_parses : parseApiCredentialSecret sampleApiKey = some "apic_1" := by decide

theorem sampleApiKey_hash (permissions : List String) :
    samplePlatform.hashApiCredentialSecret sampleApiKey = (sampleRecord permissions).secretHash := by
  simp only [samplePlatform, sampleRecord, if_true]

theorem sampleRequest_bearer : extractBearerToken sampleRequest = some sampleToken := by decide +kernel

theorem sampleStore_found (permissions : List String) :
    sampleStore permissions "demo" "apic_1" = some (sampleRecord permissions) := rfl

theorem sampleToken_verifies : verifyClaims samplePlatform sampleToken sampleOptions.secret = .ok sampleClaims := by
  decide +kernel

section

variable {permissions : List String}
  (hclaims : issuedClaims sampleOptions (sampleRecord permissions) 1700000000000 = sampleClaims)
  (hshared : (deriveEffectiveServiceGrants (sampleRecord permissions)).scopes = ["governance:read"])

include hclaims in
theorem sampleExchange_granted : sampleExchange permissions = .ok (sampleGranted permissions) := by
  refine bind_ok.mpr ⟨_, need_ok.mpr sampleApiKey_parses, bind_ok.mpr ⟨_, need_ok.mpr (sampleStore_found permissions),
    bind_ok.mpr ⟨(), require_ok.mpr (sampleApiKey_hash _), bind_ok.mpr ⟨(), rfl, ?_⟩⟩⟩⟩
  rw [hclaims]
  simp only [pure_ok, sampleGranted, sampleToken, signClaims, samplePlatform, if_pos, and_self]
  rfl

include hshared in
theorem sampleUse_caller : sampleUse permissions = .ok (sampleCaller permissions) := by
  refine bind_ok.mpr ⟨_, need_ok.mpr sampleRequest_bearer, bind_ok.mpr ⟨_, sampleToken_verifies, bind_ok.mpr ⟨(), rfl,
    bind_ok.mpr ⟨(), rfl, bind_ok.mpr ⟨(), rfl, bind_ok.mpr ⟨_, need_ok.mpr (sampleStore_found permissions),
      bind_ok.mpr ⟨(), rfl, bind_ok.mpr ⟨(), rfl, ?_⟩⟩⟩⟩⟩⟩⟩⟩
  rw [hshared]
  rfl

end

/-- A principal that may only read the audit trail is authenticated with `usage.view`,
though nothing changed since the exchange. -/
theorem audit_token_views_usage :
    sampleExchange ["audit.view"] = .ok (sampleGranted ["audit.view"]) ∧
      extractBearerToken sampleRequest = some (sampleGranted ["audit.view"]).accessToken ∧
      sampleUse ["audit.view"] = .ok (sampleCaller ["audit.view"]) ∧
      ¬ NeverWidens (sampleRecord ["audit.view"]) (sampleRecord ["audit.view"])
        (sampleGranted ["audit.view"]).principal.permissions
        (sampleCaller ["audit.view"]).permissions := by
  refine ⟨sampleExchange_granted (by decide), sampleRequest_bearer, sampleUse_caller (by decide), ?_⟩
  intro h
  have hu := h.current .usageView (by decide)
  exact absurd hu (by decide)

theorem token_never_widens_iff_usage_view :
    sampleExchange ["usage.view"] = .ok (sampleGranted ["usage.view"]) ∧
      sampleUse ["usage.view"] = .ok (sampleCaller ["usage.view"]) ∧
      NeverWidens (sampleRecord ["usage.view"]) (sampleRecord ["usage.view"])
        (sampleGranted ["usage.view"]).principal.permissions
        (sampleCaller ["usage.view"]).permissions := by
  have hc : issuedClaims sampleOptions (sampleRecord ["usage.view"]) 1700000000000 = sampleClaims := by
    decide
  have hx := sampleExchange_granted hc
  have ha : sampleUse ["usage.view"] = .ok (sampleCaller ["usage.view"]) := sampleUse_caller (by decide)
  exact ⟨hx, ha, (token_never_widens_iff sampleApiKey_parses (sampleStore_found _) (hc ▸ samplePlatform_carries) hx
    sampleRequest_bearer (sampleStore_found _) ha).mpr (by decide)⟩

end Catalyst.Access
