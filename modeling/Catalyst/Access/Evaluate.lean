import Catalyst.Access.Permissions

/-!
# Deciding a right

One evaluator decides every right from four sources: the defaults of the
holder's roles, the legacy keys of its record, its references and the stored
grants. Any covering deny refuses, any covering allow permits, and without one
nothing grants.
-/

namespace Catalyst.Access

def PlatformAction.text : PlatformAction → String
  | agentRead => "agent.read"
  | agentWrite => "agent.write"
  | agentDelete => "agent.delete"
  | skillRead => "skill.read"
  | skillWrite => "skill.write"
  | skillDelete => "skill.delete"
  | skillApprove => "skill.approve"
  | usersManage => "users.manage"
  | usageView => "usage.view"
  | auditView => "audit.view"
  | apiAccessManage => "api_access.manage"
  | agentModelsManage => "agent_models.manage"
  | assetsRelease => "assets.release"

def isPlatformAction (text : String) : Bool := actions.any (·.text = text)

inductive HolderKind
  | user | servicePrincipal
  deriving DecidableEq

inductive GrantHolderKind
  | user | servicePrincipal | role | group
  deriving DecidableEq

inductive GrantEffect
  | allow | deny
  deriving DecidableEq

inductive GrantScopeKind
  | ofInstance | workspace | ofNamespace | asset
  deriving DecidableEq

inductive AccessSource
  | role | legacy | legacyRef | grant
  deriving DecidableEq

/-- A grant row with the fields a decision reads. -/
structure PermissionGrant where
  clientInstanceId : ClientInstanceId
  holderKind : GrantHolderKind
  holderId : String
  action : String
  effect : GrantEffect
  scopeKind : GrantScopeKind
  scopeId : Option String
  inNamespace : Option String
  deriving DecidableEq

structure AccessResource where
  name : Option String := none
  assetId : Option String := none
  workspaceId : Option String := none
  deriving DecidableEq

structure AccessHolder where
  kind : HolderKind
  id : String
  clientInstanceId : ClientInstanceId
  roles : List String
  /-- Keys, and `!key` revocations. -/
  permissions : List String
  permissionRefs : List String
  deriving DecidableEq

structure PersistedAccess where
  holderActive : Bool
  grants : List PermissionGrant
  deriving DecidableEq

structure AccessEntry where
  action : String
  effect : GrantEffect
  scopeKind : GrantScopeKind
  scopeId : Option String := none
  inNamespace : Option String := none
  source : AccessSource
  deriving DecidableEq

inductive AccessRefusal
  | noGrant | denied | unknownAction | holderInactive
  deriving DecidableEq

inductive AccessDecision
  | allowed (source : AccessSource)
  | refused (reason : AccessRefusal)
  deriving DecidableEq

def AccessDecision.isAllowed : AccessDecision → Bool
  | .allowed _ => true
  | .refused _ => false

def roleEntries (role : String) : List AccessEntry :=
  (roleDefaultActions role).map fun a => ⟨a.text, .allow, .ofInstance, none, none, .role⟩

def legacyEntries (permission : String) : List AccessEntry :=
  match permission? (parseEntry permission).2 with
  | none => []
  | some p => (legacyPermissionActions p).map fun a =>
    ⟨a.text, if (parseEntry permission).1 then .deny else .allow, .ofInstance, none, none, .legacy⟩

/-- The free-text reference `x` is checked as the action `ref:x`. -/
def refAction (permissionRef : String) : String := "ref:" ++ permissionRef

def refEntry (permissionRef : String) : AccessEntry :=
  ⟨refAction permissionRef, .allow, .ofInstance, none, none, .legacyRef⟩

/-- A row of this instance that is not held directly by someone else; rows held through a role
or a group are the store's answer for this holder. -/
def PermissionGrant.applies (holder : AccessHolder) (grant : PermissionGrant) : Bool :=
  grant.clientInstanceId = holder.clientInstanceId &&
    match grant.holderKind with
    | .user => holder.kind = .user && grant.holderId = holder.id
    | .servicePrincipal => holder.kind = .servicePrincipal && grant.holderId = holder.id
    | .role | .group => true

def grantEntry (holder : AccessHolder) (grant : PermissionGrant) : Option AccessEntry :=
  if grant.applies holder && isPlatformAction grant.action then
    some ⟨grant.action, grant.effect, grant.scopeKind, grant.scopeId, grant.inNamespace, .grant⟩
  else none

def listAccessEntries (holder : AccessHolder) (grants : List PermissionGrant) : List AccessEntry :=
  holder.roles.flatMap roleEntries ++ holder.permissions.flatMap legacyEntries ++
    holder.permissionRefs.map refEntry ++ grants.filterMap (grantEntry holder)

def entryCovers (entry : AccessEntry) (resource : Option AccessResource) : Bool :=
  match entry.scopeKind with
  | .ofInstance => true
  -- a namespace is a prefix among the instance's own assets
  | .ofNamespace => entry.inNamespace.any fun ns => ns ≠ "" && resource.any fun r =>
      r.workspaceId.isNone && r.name.any fun name => ns.toList.isPrefixOf name.toList
  | .asset => entry.scopeId.any fun id => resource.any fun r => r.assetId = some id
  | .workspace => entry.scopeId.any fun id => resource.any fun r => r.workspaceId = some id

structure AccessExplanation where
  decision : AccessDecision
  entry : Option AccessEntry
  deriving DecidableEq

def explainAccessEntries (entries : List AccessEntry) (action : String)
    (resource : Option AccessResource) : AccessExplanation :=
  let covering := entries.filter fun e => e.action = action && entryCovers e resource
  match covering.find? (·.effect = .deny) with
  | some deny => ⟨.refused .denied, some deny⟩
  | none =>
    match covering.find? (·.effect = .allow) with
    | some allow => ⟨.allowed allow.source, some allow⟩
    | none => ⟨.refused .noGrant, none⟩

def evaluateRegisteredAction (entries : List AccessEntry) (action : String)
    (resource : Option AccessResource) : AccessDecision :=
  (explainAccessEntries entries action resource).decision

/-- The loop over a legacy key's actions: a deny ends it, else a refusal outweighs an allowance. -/
def evaluateLegacy (entries : List AccessEntry) (allowed refused : Option AccessDecision) :
    List PlatformAction → AccessDecision
  | [] => (refused.or allowed).getD (.refused .noGrant)
  | target :: targets =>
    match evaluateRegisteredAction entries target.text none with
    | .allowed source => evaluateLegacy entries (allowed.or (some (.allowed source))) refused targets
    | .refused .denied => .refused .denied
    | .refused reason => evaluateLegacy entries allowed (refused.or (some (.refused reason))) targets

def isRefAction (action : String) : Bool := ['r', 'e', 'f', ':'].isPrefixOf action.toList

def evaluateAccess (holder : AccessHolder) (persisted : PersistedAccess) (action : String)
    (resource : Option AccessResource) : AccessDecision :=
  if !persisted.holderActive then .refused .holderInactive
  else
    let entries := listAccessEntries holder persisted.grants
    if isRefAction action then
      if entries.any fun e => e.source = .legacyRef && e.action = action then .allowed .legacyRef
      else .refused .noGrant
    else
      let granting := entries.filter (·.source ≠ .legacyRef)
      match permission? action with
      | some p => evaluateLegacy granting none none (legacyPermissionActions p)
      | none =>
        if isPlatformAction action then evaluateRegisteredAction granting action resource
        else .refused .unknownAction

inductive Applicable (holder : AccessHolder) (grants : List PermissionGrant) : AccessEntry → Prop
  | role : role ∈ holder.roles → a ∈ roleDefaultActions role →
      Applicable holder grants ⟨a.text, .allow, .ofInstance, none, none, .role⟩
  | legacy : entry ∈ holder.permissions → permission? (parseEntry entry).2 = some p →
      a ∈ legacyPermissionActions p → Applicable holder grants
        ⟨a.text, if (parseEntry entry).1 then .deny else .allow, .ofInstance, none, none, .legacy⟩
  | grant : g ∈ grants → g.applies holder → isPlatformAction g.action →
      Applicable holder grants ⟨g.action, g.effect, g.scopeKind, g.scopeId, g.inNamespace, .grant⟩

def Permits (entries : AccessEntry → Prop) (action : String) (resource : Option AccessResource) : Prop :=
  (∃ e, entries e ∧ e.effect = .allow ∧ e.action = action ∧ entryCovers e resource) ∧
    ∀ e, entries e → e.effect = .deny → e.action = action → ¬ entryCovers e resource

/-- A reference is the holder's own; a legacy key stands for its actions at instance scope. -/
def Allows (holder : AccessHolder) (persisted : PersistedAccess) (action : String)
    (resource : Option AccessResource) : Prop :=
  persisted.holderActive ∧
    if isRefAction action then ∃ ref ∈ holder.permissionRefs, refAction ref = action
    else match permission? action with
      | some p => ∀ target ∈ legacyPermissionActions p,
          Permits (Applicable holder persisted.grants) target.text none
      | none => isPlatformAction action ∧ Permits (Applicable holder persisted.grants) action resource

def covering (entries : List AccessEntry) (action : String) (resource : Option AccessResource) :
    List AccessEntry :=
  entries.filter fun e => e.action = action && entryCovers e resource

theorem mem_covering : e ∈ covering entries action resource ↔
    e ∈ entries ∧ e.action = action ∧ entryCovers e resource := by
  simp [covering]

theorem evaluateRegisteredAction_eq : evaluateRegisteredAction entries action resource =
    if ∃ e ∈ covering entries action resource, e.effect = .deny then .refused .denied
    else match (covering entries action resource).find? (·.effect = .allow) with
      | some allow => .allowed allow.source
      | none => .refused .noGrant := by
  simp only [evaluateRegisteredAction, explainAccessEntries]
  rw [← covering]
  cases hd : (covering entries action resource).find? (·.effect = .deny) with
  | some deny =>
    have hp : deny.effect = .deny := by simpa using List.find?_some hd
    rw [if_pos ⟨deny, List.mem_of_find?_eq_some hd, hp⟩]
  | none =>
    have hnone : ¬ ∃ e ∈ covering entries action resource, e.effect = .deny := by
      simpa [List.find?_eq_none] using hd
    rw [if_neg hnone]
    cases (covering entries action resource).find? (·.effect = .allow) <;> rfl

theorem evaluateRegisteredAction_allowed :
    (evaluateRegisteredAction entries action resource).isAllowed ↔
      Permits (· ∈ entries) action resource := by
  rw [evaluateRegisteredAction_eq]
  split
  · rename_i h
    obtain ⟨e, he, hd⟩ := h
    obtain ⟨he, ha, hc⟩ := mem_covering.mp he
    exact iff_of_false Bool.false_ne_true fun hp => hp.2 e he hd ha hc
  · rename_i h
    have hdeny : ∀ e, e ∈ entries → e.effect = .deny → e.action = action → ¬ entryCovers e resource :=
      fun e he hd ha hc => h ⟨e, mem_covering.mpr ⟨he, ha, hc⟩, hd⟩
    cases hf : (covering entries action resource).find? (·.effect = .allow) with
    | some e =>
      obtain ⟨he, ha, hc⟩ := mem_covering.mp (List.mem_of_find?_eq_some hf)
      have hallow : e.effect = .allow := by simpa using List.find?_some hf
      exact iff_of_true rfl ⟨⟨e, he, hallow, ha, hc⟩, hdeny⟩
    | none =>
      refine iff_of_false Bool.false_ne_true ?_
      rintro ⟨⟨e, he, hallow, ha, hc⟩, -⟩
      simpa [hallow] using List.find?_eq_none.mp hf e (mem_covering.mpr ⟨he, ha, hc⟩)

theorem evaluateRegisteredAction_congr {own gs gs' : List AccessEntry}
    (hg : ∀ e ∈ gs, e.source = .grant) (hmem : ∀ e, e ∈ gs' ↔ e ∈ gs) :
    evaluateRegisteredAction (own ++ gs') action resource =
      evaluateRegisteredAction (own ++ gs) action resource := by
  have hcov : ∀ e, e ∈ covering (own ++ gs') action resource ↔ e ∈ covering (own ++ gs) action resource := by
    intro e
    simp [mem_covering, hmem]
  have hsource : ∀ gs'' : List AccessEntry, (∀ e, e ∈ gs'' ↔ e ∈ gs) →
      ((covering gs'' action resource).find? (·.effect = .allow)).map AccessEntry.source =
        if ∃ e ∈ covering gs action resource, e.effect = .allow then some .grant else none := by
    intro gs'' hmem
    cases hf : (covering gs'' action resource).find? (·.effect = .allow) with
    | some e =>
      obtain ⟨he, ha⟩ := mem_covering.mp (List.mem_of_find?_eq_some hf)
      have hallow : e.effect = .allow := by simpa using List.find?_some hf
      rw [if_pos ⟨e, mem_covering.mpr ⟨(hmem e).mp he, ha⟩, hallow⟩]
      exact congrArg some (hg e ((hmem e).mp he))
    | none =>
      rw [if_neg]
      · rfl
      rintro ⟨e, he, hallow⟩
      obtain ⟨he, ha⟩ := mem_covering.mp he
      simpa [hallow] using List.find?_eq_none.mp hf e (mem_covering.mpr ⟨(hmem e).mpr he, ha⟩)
  have hfirst : ((covering (own ++ gs') action resource).find? (·.effect = .allow)).map AccessEntry.source =
      ((covering (own ++ gs) action resource).find? (·.effect = .allow)).map AccessEntry.source := by
    have happ : ∀ gs'', covering (own ++ gs'') action resource =
        covering own action resource ++ covering gs'' action resource := by
      intro gs''
      exact List.filter_append own gs''
    rw [happ, happ, List.find?_append, List.find?_append, Option.map_or, Option.map_or,
      hsource gs' hmem, hsource gs fun _ => Iff.rfl]
  simp only [evaluateRegisteredAction_eq, hcov]
  split
  · rfl
  · cases hf : (covering (own ++ gs') action resource).find? (·.effect = .allow) <;>
      cases hf' : (covering (own ++ gs) action resource).find? (·.effect = .allow) <;>
      simp_all

theorem evaluateLegacy_allowed (ha : ∀ d ∈ allowed, d.isAllowed) (hr : ∀ d ∈ refused, ¬ d.isAllowed) :
    (evaluateLegacy entries allowed refused targets).isAllowed ↔ refused = none ∧
      (∀ t ∈ targets, (evaluateRegisteredAction entries t.text none).isAllowed) ∧
      (targets = [] → allowed ≠ none) := by
  induction targets generalizing allowed refused with
  | nil =>
    cases refused with
    | some r => simpa [evaluateLegacy] using hr r rfl
    | none =>
      cases allowed with
      | some a => simpa [evaluateLegacy] using ha a rfl
      | none => simp [evaluateLegacy, AccessDecision.isAllowed]
  | cons t ts ih =>
    rw [evaluateLegacy]
    cases hd : evaluateRegisteredAction entries t.text none with
    | allowed source =>
      have ha' : ∀ d ∈ allowed.or (some (.allowed source)), d.isAllowed := by
        cases allowed with
        | none => simp [AccessDecision.isAllowed]
        | some a => exact ha
      rw [ih ha' hr]
      simp [hd, AccessDecision.isAllowed]
    | refused reason =>
      have hr' : ∀ d ∈ refused.or (some (.refused reason)), ¬ d.isAllowed := by
        cases refused with
        | none => simp [AccessDecision.isAllowed]
        | some r => exact hr
      have hor : refused.or (some (.refused reason)) ≠ none := by cases refused <;> simp
      cases reason with
      | denied => simp [hd, AccessDecision.isAllowed]
      | noGrant | unknownAction | holderInactive =>
        refine (ih ha hr').trans (iff_of_false (fun h => hor h.1) ?_)
        rintro ⟨-, hall, -⟩
        simpa [hd, AccessDecision.isAllowed] using hall t List.mem_cons_self

theorem evaluateLegacy_congr (h : ∀ t ∈ targets, evaluateRegisteredAction entries' t.text none =
    evaluateRegisteredAction entries t.text none) :
    evaluateLegacy entries' allowed refused targets = evaluateLegacy entries allowed refused targets := by
  induction targets generalizing allowed refused with
  | nil => rfl
  | cons t ts ih =>
    obtain ⟨ht, hts⟩ := List.forall_mem_cons.mp h
    simp only [evaluateLegacy, ht, ih hts]

end Catalyst.Access
