import Catalyst.Core
import Mathlib.Data.List.Basic

/-!
# Permissions and the scopes of a token

The legacy permission keys, the actions and roles behind them, and what a list
of entries comes to: a plain key grants, `!key` revokes. A permission may have
an auth scope; the way back takes the first permission with that scope.
-/

namespace Catalyst.Access

inductive PlatformAction
  | agentRead | agentWrite | agentDelete | skillRead | skillWrite | skillDelete | skillApprove
  | usersManage | usageView | auditView | apiAccessManage | agentModelsManage | assetsRelease
  deriving DecidableEq

/-- `ACTIONS` -/
def actions : List PlatformAction :=
  [.agentRead, .agentWrite, .agentDelete, .skillRead, .skillWrite, .skillDelete, .skillApprove,
    .usersManage, .usageView, .auditView, .apiAccessManage, .agentModelsManage, .assetsRelease]

inductive Permission
  | agentSkillsApprove | configAssetsRead | configAssetsWrite | configAssetsRelease | usageView
  | usersManage | apiAccessManage | agentModelsManage | auditView
  deriving DecidableEq

/-- `PERMISSIONS` -/
def permissions : List Permission :=
  [.agentSkillsApprove, .configAssetsRead, .configAssetsWrite, .configAssetsRelease, .usageView,
    .usersManage, .apiAccessManage, .agentModelsManage, .auditView]

def Permission.key : Permission → String
  | agentSkillsApprove => "agent_skills.approve"
  | configAssetsRead => "config_assets.read"
  | configAssetsWrite => "config_assets.write"
  | configAssetsRelease => "config_assets.release"
  | usageView => "usage.view"
  | usersManage => "users.manage"
  | apiAccessManage => "api_access.manage"
  | agentModelsManage => "agent_models.manage"
  | auditView => "audit.view"

/-- The permission a text is the key of, for `isPermission`. -/
def permission? (text : String) : Option Permission := permissions.find? (·.key = text)

/-- `LEGACY_PERMISSION_ACTIONS` -/
def legacyPermissionActions : Permission → List PlatformAction
  | .agentSkillsApprove => [.skillApprove]
  | .configAssetsRead => [.agentRead, .skillRead]
  | .configAssetsWrite => [.agentWrite, .agentDelete, .skillWrite, .skillDelete]
  | .configAssetsRelease => [.assetsRelease]
  | .usageView => [.usageView]
  | .usersManage => [.usersManage]
  | .apiAccessManage => [.apiAccessManage]
  | .agentModelsManage => [.agentModelsManage]
  | .auditView => [.auditView]

/-- `ROLE_DEFAULT_ACTIONS`: a role of another name has none. -/
def roleDefaultActions (role : String) : List PlatformAction :=
  if role = "admin" then
    actions.filter fun a => a ≠ .assetsRelease ∧ a ≠ .apiAccessManage ∧ a ≠ .agentModelsManage
  else if role = "superadmin" then actions.filter (· ≠ .assetsRelease)
  else []

def legacyPermissionsFor (held : List PlatformAction) : List Permission :=
  permissions.filter fun p => (legacyPermissionActions p).all (· ∈ held)

/-- `ROLE_DEFAULT_PERMISSIONS` -/
def roleDefaultPermissions (role : String) : List Permission :=
  legacyPermissionsFor (roleDefaultActions role)

/-- An entry is a revocation when it begins with `!`. -/
def parseEntry (entry : String) : Bool × String :=
  match entry.toList with
  | '!' :: rest => (true, String.ofList rest)
  | _ => (false, entry)

def grantedBy (entry : String) : Option Permission :=
  if (parseEntry entry).1 then none else permission? (parseEntry entry).2

def revokedBy (entry : String) : Option Permission :=
  if (parseEntry entry).1 then permission? (parseEntry entry).2 else none

def resolveEffectivePermissions (roles entries : List String) : List Permission :=
  (roles.flatMap roleDefaultPermissions ++ entries.filterMap grantedBy).eraseDups.filter
    (· ∉ entries.filterMap revokedBy)

/-- `PERMISSION_AUTH_SCOPES` -/
def authScopeForPermission : Permission → Option String
  | .configAssetsRead => some "config_assets:read"
  | .configAssetsWrite => some "config_assets:write"
  | .configAssetsRelease => some "config_assets:release"
  | .usageView => some "governance:read"
  | .usersManage => some "user_admin:write"
  | .apiAccessManage => some "api_access:write"
  | .auditView => some "governance:read"
  | .agentSkillsApprove => none
  | .agentModelsManage => none

def permissionForAuthScope (scope : String) : Option Permission :=
  permissions.find? (authScopeForPermission · = some scope)

theorem mem_permissions (p : Permission) : p ∈ permissions := by
  cases p <;> decide

theorem permission?_eq_some : permission? text = some p ↔ p.key = text := by
  constructor
  · intro h
    simpa using List.find?_some h
  · rintro rfl
    cases p <;> decide

/-- Only `audit.view` is not the first permission with its scope. -/
theorem permissionForAuthScope_eq_some :
    permissionForAuthScope scope = some p ↔ authScopeForPermission p = some scope ∧ p ≠ .auditView := by
  constructor
  · intro h
    have hs : authScopeForPermission p = some scope := by simpa using List.find?_some h
    refine ⟨hs, ?_⟩
    rintro rfl
    cases hs
    exact absurd h (by decide)
  · rintro ⟨hs, hne⟩
    cases p with
    | auditView => exact absurd rfl hne
    | agentSkillsApprove | agentModelsManage => cases hs
    | _ =>
      cases hs
      decide

/-- Two permissions share a scope only as `usage.view` and `audit.view`. -/
theorem eq_of_authScope (hp : authScopeForPermission p = some scope)
    (hq : authScopeForPermission q = some scope) :
    p = q ∨ (p = .usageView ∧ q = .auditView) ∨ (p = .auditView ∧ q = .usageView) := by
  have hall : ∀ p ∈ permissions, ∀ q ∈ permissions,
      authScopeForPermission p ≠ none → authScopeForPermission p = authScopeForPermission q →
      p = q ∨ (p = .usageView ∧ q = .auditView) ∨ (p = .auditView ∧ q = .usageView) := by decide
  exact hall p (mem_permissions p) q (mem_permissions q) (by simp [hp]) (hp.trans hq.symm)

theorem authScope_ne_wildcard : authScopeForPermission p ≠ some "*" := by
  cases p <;> decide

end Catalyst.Access
