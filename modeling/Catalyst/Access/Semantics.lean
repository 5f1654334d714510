import Catalyst.Access.Evaluate

/-!
# What a decision means

The evaluator allows exactly what `Allows` says, so a decision does not depend on
the order of the grants, grows with allows, shrinks with denies and ignores the
grants of others. Without grants it agrees with the effective permissions.
-/

namespace Catalyst.Access

def ownEntries (holder : AccessHolder) : List AccessEntry :=
  holder.roles.flatMap roleEntries ++ holder.permissions.flatMap legacyEntries

def grantEntries (holder : AccessHolder) (grants : List PermissionGrant) : List AccessEntry :=
  grants.filterMap (grantEntry holder)

theorem grantEntry_eq_some : grantEntry holder g = some e ↔
    (g.applies holder ∧ isPlatformAction g.action) ∧
      e = ⟨g.action, g.effect, g.scopeKind, g.scopeId, g.inNamespace, .grant⟩ := by
  unfold grantEntry
  split
  · rename_i h
    simp only [Bool.and_eq_true] at h
    simp [h, @eq_comm _ _ e]
  · rename_i h
    simp only [Bool.and_eq_true] at h
    simp [h]

theorem mem_roleEntries : e ∈ roleEntries role ↔
    ∃ a ∈ roleDefaultActions role, e = ⟨a.text, .allow, .ofInstance, none, none, .role⟩ := by
  simp [roleEntries, @eq_comm _ _ e]

theorem mem_legacyEntries : e ∈ legacyEntries entry ↔
    ∃ p, permission? (parseEntry entry).2 = some p ∧ ∃ a ∈ legacyPermissionActions p,
      e = ⟨a.text, if (parseEntry entry).1 then .deny else .allow, .ofInstance, none, none, .legacy⟩ := by
  unfold legacyEntries
  cases permission? (parseEntry entry).2 <;> simp [@eq_comm _ _ e]

theorem source_of_mem_grantEntries (h : e ∈ grantEntries holder grants) : e.source = .grant := by
  obtain ⟨g, -, hg⟩ := List.mem_filterMap.mp h
  rw [(grantEntry_eq_some.mp hg).2]

theorem source_of_mem_ownEntries (h : e ∈ ownEntries holder) : e.source ≠ .legacyRef := by
  simp only [ownEntries, List.mem_append, List.mem_flatMap] at h
  obtain ⟨role, -, hrole⟩ | ⟨entry, -, hentry⟩ := h
  · obtain ⟨a, -, rfl⟩ := mem_roleEntries.mp hrole
    simp
  · obtain ⟨p, -, a, -, rfl⟩ := mem_legacyEntries.mp hentry
    simp

theorem listAccessEntries_eq : listAccessEntries holder grants =
    ownEntries holder ++ holder.permissionRefs.map refEntry ++ grantEntries holder grants := rfl

theorem granting_eq : (listAccessEntries holder grants).filter (·.source ≠ .legacyRef) =
    ownEntries holder ++ grantEntries holder grants := by
  have hown : (ownEntries holder).filter (·.source ≠ .legacyRef) = ownEntries holder :=
    List.filter_eq_self.mpr fun e he => by simpa using source_of_mem_ownEntries he
  have hgrants : (grantEntries holder grants).filter (·.source ≠ .legacyRef) = grantEntries holder grants :=
    List.filter_eq_self.mpr fun e he => by simp [source_of_mem_grantEntries he]
  have hrefs : (holder.permissionRefs.map refEntry).filter (·.source ≠ .legacyRef) = [] := by
    simp [refEntry]
  rw [listAccessEntries_eq, List.filter_append, List.filter_append, hown, hgrants, hrefs, List.append_nil]

theorem mem_granting : e ∈ ownEntries holder ++ grantEntries holder grants ↔ Applicable holder grants e := by
  simp only [ownEntries, grantEntries, List.mem_append, List.mem_flatMap, List.mem_filterMap,
    mem_roleEntries, mem_legacyEntries, grantEntry_eq_some]
  constructor
  · rintro ((⟨role, hrole, a, ha, rfl⟩ | ⟨entry, hentry, p, hp, a, ha, rfl⟩) | ⟨g, hg, ⟨happ, hact⟩, rfl⟩)
    · exact .role hrole ha
    · exact .legacy hentry hp ha
    · exact .grant hg happ hact
  · rintro (⟨hrole, ha⟩ | ⟨hentry, hp, ha⟩ | ⟨hg, happ, hact⟩)
    · exact .inl (.inl ⟨_, hrole, _, ha, rfl⟩)
    · exact .inl (.inr ⟨_, hentry, _, hp, _, ha, rfl⟩)
    · exact .inr ⟨_, hg, ⟨happ, hact⟩, rfl⟩

theorem any_ref_iff : ((listAccessEntries holder grants).any fun e => e.source = .legacyRef && e.action = action) ↔
    ∃ ref ∈ holder.permissionRefs, refAction ref = action := by
  simp only [listAccessEntries_eq, List.any_eq_true, List.mem_append, List.mem_map,
    Bool.and_eq_true, decide_eq_true_eq]
  constructor
  · rintro ⟨e, (hown | ⟨ref, href, rfl⟩) | hgrant, hsource, haction⟩
    · exact absurd hsource (source_of_mem_ownEntries hown)
    · exact ⟨ref, href, haction⟩
    · exact absurd hsource (by simp [source_of_mem_grantEntries hgrant])
  · rintro ⟨ref, href, haction⟩
    exact ⟨refEntry ref, .inl (.inr ⟨ref, href, rfl⟩), rfl, haction⟩

theorem evaluateAccess_ref (h : isRefAction action) : evaluateAccess holder ⟨true, grants⟩ action resource =
    if ∃ ref ∈ holder.permissionRefs, refAction ref = action then .allowed .legacyRef
    else .refused .noGrant := by
  simp only [evaluateAccess, h, any_ref_iff, Bool.not_true, Bool.false_eq_true, if_false, if_true]

theorem evaluateAccess_permission (h : ¬ isRefAction action) (hp : permission? action = some p) :
    evaluateAccess holder ⟨true, grants⟩ action resource =
      evaluateLegacy (ownEntries holder ++ grantEntries holder grants) none none (legacyPermissionActions p) := by
  simp only [evaluateAccess, h, granting_eq, hp, Bool.not_true, Bool.false_eq_true, if_false]

theorem evaluateAccess_action (h : ¬ isRefAction action) (hp : permission? action = none) :
    evaluateAccess holder ⟨true, grants⟩ action resource =
      if isPlatformAction action then
        evaluateRegisteredAction (ownEntries holder ++ grantEntries holder grants) action resource
      else .refused .unknownAction := by
  simp only [evaluateAccess, h, granting_eq, hp, Bool.not_true, Bool.false_eq_true, if_false]

theorem evaluateAccess_inactive :
    evaluateAccess holder ⟨false, grants⟩ action resource = .refused .holderInactive := rfl

theorem legacyPermissionActions_ne_nil (p : Permission) : legacyPermissionActions p ≠ [] := by
  cases p <;> simp [legacyPermissionActions]

theorem evaluateAccess_allowed : (evaluateAccess holder ⟨active, grants⟩ action resource).isAllowed ↔
    Allows holder ⟨active, grants⟩ action resource := by
  have hpermits : ∀ {action resource}, (evaluateRegisteredAction
      (ownEntries holder ++ grantEntries holder grants) action resource).isAllowed ↔
        Permits (Applicable holder grants) action resource := by
    intro action resource
    rw [evaluateRegisteredAction_allowed]
    simp only [mem_granting]
  cases active with
  | false => simp [evaluateAccess_inactive, Allows, AccessDecision.isAllowed]
  | true =>
    by_cases href : isRefAction action
    · rw [evaluateAccess_ref href]
      split <;> simp_all [Allows, AccessDecision.isAllowed]
    · cases hp : permission? action with
      | some p =>
        rw [evaluateAccess_permission href hp, evaluateLegacy_allowed (by simp) (by simp)]
        simp [Allows, href, hp, hpermits, legacyPermissionActions_ne_nil]
      | none =>
        rw [evaluateAccess_action href hp]
        split
        · rename_i hact
          simp [Allows, href, hp, hpermits, hact]
        · rename_i hact
          simp [Allows, href, hp, hact, AccessDecision.isAllowed]

def PermissionGrant.OfOther (holder : AccessHolder) (grant : PermissionGrant) : Prop :=
  grant.clientInstanceId ≠ holder.clientInstanceId ∨
    (grant.holderKind = .user ∧ ¬ (holder.kind = .user ∧ grant.holderId = holder.id)) ∨
    (grant.holderKind = .servicePrincipal ∧
      ¬ (holder.kind = .servicePrincipal ∧ grant.holderId = holder.id))

theorem applies_of_ofOther {g : PermissionGrant} (h : g.OfOther holder) : ¬ g.applies holder := by
  obtain hne | ⟨hk, hne⟩ | ⟨hk, hne⟩ := h
  · simp [PermissionGrant.applies, hne]
  all_goals simpa [PermissionGrant.applies, hk] using fun _ hkind => not_and.mp hne hkind

theorem grantEntries_append_of_other (h : ∀ g ∈ gs, g.OfOther holder) :
    grantEntries holder (grants ++ gs) = grantEntries holder grants := by
  have hnone : gs.filterMap (grantEntry holder) = [] := by
    refine List.filterMap_eq_nil_iff.mpr fun g hg => ?_
    simp [grantEntry, applies_of_ofOther (h g hg)]
  simp [grantEntries, hnone]

theorem evaluateAccess_congr (h : ∀ e, e ∈ grantEntries holder grants' ↔ e ∈ grantEntries holder grants) :
    evaluateAccess holder ⟨active, grants'⟩ action resource =
      evaluateAccess holder ⟨active, grants⟩ action resource := by
  have hone : ∀ {action resource}, evaluateRegisteredAction
      (ownEntries holder ++ grantEntries holder grants') action resource =
        evaluateRegisteredAction (ownEntries holder ++ grantEntries holder grants) action resource :=
    evaluateRegisteredAction_congr (fun _ => source_of_mem_grantEntries) h
  cases active with
  | false => rfl
  | true =>
    by_cases href : isRefAction action
    · rw [evaluateAccess_ref href, evaluateAccess_ref href]
    · cases hp : permission? action with
      | some p =>
        rw [evaluateAccess_permission href hp, evaluateAccess_permission href hp]
        exact evaluateLegacy_congr fun t _ => hone
      | none => rw [evaluateAccess_action href hp, evaluateAccess_action href hp, hone]

theorem applicable_append_left (h : Applicable holder grants e) : Applicable holder (grants ++ gs) e := by
  obtain ⟨hrole, ha⟩ | ⟨hentry, hp, ha⟩ | ⟨hg, happ, hact⟩ := h
  · exact .role hrole ha
  · exact .legacy hentry hp ha
  · exact .grant (List.mem_append_left _ hg) happ hact

theorem applicable_of_append (h : Applicable holder (grants ++ gs) e) :
    Applicable holder grants e ∨ ∃ g ∈ gs, e.effect = g.effect := by
  obtain ⟨hrole, ha⟩ | ⟨hentry, hp, ha⟩ | ⟨hg, happ, hact⟩ := h
  · exact .inl (.role hrole ha)
  · exact .inl (.legacy hentry hp ha)
  · exact (List.mem_append.mp hg).elim (fun hg => .inl (.grant hg happ hact)) fun hg => .inr ⟨_, hg, rfl⟩

theorem Permits.of_append_deny (hgs : ∀ g ∈ gs, g.effect = .deny)
    (h : Permits (Applicable holder (grants ++ gs)) action resource) :
    Permits (Applicable holder grants) action resource := by
  obtain ⟨⟨e, he, hallow, hcovers⟩, hdeny⟩ := h
  refine ⟨⟨e, ?_, hallow, hcovers⟩, fun e he => hdeny e (applicable_append_left he)⟩
  obtain he | ⟨g, hg, heq⟩ := applicable_of_append he
  · exact he
  · simp [hallow, hgs g hg] at heq

theorem Permits.append_allow (hgs : ∀ g ∈ gs, g.effect = .allow)
    (h : Permits (Applicable holder grants) action resource) :
    Permits (Applicable holder (grants ++ gs)) action resource := by
  obtain ⟨⟨e, he, hallow⟩, hdeny⟩ := h
  refine ⟨⟨e, applicable_append_left he, hallow⟩, fun e he heff => ?_⟩
  obtain he | ⟨g, hg, heq⟩ := applicable_of_append he
  · exact hdeny e he heff
  · simp [heff, hgs g hg] at heq

theorem Allows.of_permits (hperm : ∀ {action resource}, Permits (Applicable holder grants) action resource →
      Permits (Applicable holder grants') action resource)
    (h : Allows holder ⟨active, grants⟩ action resource) : Allows holder ⟨active, grants'⟩ action resource := by
  obtain ⟨hactive, h⟩ := h
  refine ⟨hactive, ?_⟩
  by_cases href : isRefAction action
  · rw [if_pos href] at h ⊢
    exact h
  · rw [if_neg href] at h ⊢
    cases hp : permission? action with
    | some p =>
      simp only [hp] at h ⊢
      exact fun target ht => hperm (h target ht)
    | none =>
      simp only [hp] at h ⊢
      exact ⟨h.1, hperm h.2⟩

/-- What a decision is, and how it moves with the grants. -/
structure DecisionSemantics (holder : AccessHolder) (active : Bool) (grants : List PermissionGrant)
    (action : String) (resource : Option AccessResource) : Prop where
  meaning : (evaluateAccess holder ⟨active, grants⟩ action resource).isAllowed ↔
    Allows holder ⟨active, grants⟩ action resource
  reorder : ∀ grants', (∀ g, g ∈ grants' ↔ g ∈ grants) →
    evaluateAccess holder ⟨active, grants'⟩ action resource =
      evaluateAccess holder ⟨active, grants⟩ action resource
  deny : ∀ gs, (∀ g ∈ gs, g.effect = .deny) →
    (evaluateAccess holder ⟨active, grants ++ gs⟩ action resource).isAllowed →
      (evaluateAccess holder ⟨active, grants⟩ action resource).isAllowed
  allow : ∀ gs, (∀ g ∈ gs, g.effect = .allow) →
    (evaluateAccess holder ⟨active, grants⟩ action resource).isAllowed →
      (evaluateAccess holder ⟨active, grants ++ gs⟩ action resource).isAllowed
  others : ∀ gs, (∀ g ∈ gs, g.OfOther holder) →
    evaluateAccess holder ⟨active, grants ++ gs⟩ action resource =
      evaluateAccess holder ⟨active, grants⟩ action resource

theorem evaluateAccess_ok (holder : AccessHolder) (active : Bool) (grants : List PermissionGrant)
    (action : String) (resource : Option AccessResource) :
    DecisionSemantics holder active grants action resource where
  meaning := evaluateAccess_allowed
  reorder grants' h := evaluateAccess_congr fun e => by simp [grantEntries, h]
  deny gs hgs h := by
    rw [evaluateAccess_allowed] at h ⊢
    exact h.of_permits (Permits.of_append_deny hgs)
  allow gs hgs h := by
    rw [evaluateAccess_allowed] at h ⊢
    exact h.of_permits (Permits.append_allow hgs)
  others gs hgs := evaluateAccess_congr fun e => by rw [grantEntries_append_of_other hgs]

/-- A deny by a namespace outweighs the allow of the role, on the instance's own asset only. -/
example :
    let holder : AccessHolder := ⟨.user, "u", "main", ["admin"], [], []⟩
    let deny : PermissionGrant := ⟨"main", .user, "u", "agent.read", .deny, .ofNamespace, none, some "hr-"⟩
    evaluateAccess holder ⟨true, [deny]⟩ "agent.read" (some { name := some "hr-bot" }) = .refused .denied ∧
      evaluateAccess holder ⟨true, [deny]⟩ "agent.read" (some { name := some "bot" }) = .allowed .role := by
  decide

theorem mem_actions (a : PlatformAction) : a ∈ actions := by
  cases a <;> decide

theorem PlatformAction.text_injective (h : PlatformAction.text a = PlatformAction.text b) : a = b := by
  have hall : ∀ a ∈ actions, ∀ b ∈ actions, a.text = b.text → a = b := by decide
  exact hall a (mem_actions a) b (mem_actions b) h

theorem eq_of_legacyPermissionActions (hp : a ∈ legacyPermissionActions p)
    (hq : a ∈ legacyPermissionActions q) : p = q := by
  have hall : ∀ p ∈ permissions, ∀ q ∈ permissions, ∀ a ∈ legacyPermissionActions p,
      a ∈ legacyPermissionActions q → p = q := by decide
  exact hall p (mem_permissions p) q (mem_permissions q) a hp hq

theorem mem_roleDefaultPermissions (ha : a ∈ legacyPermissionActions p) :
    p ∈ roleDefaultPermissions role ↔ a ∈ roleDefaultActions role := by
  have hall : ∀ role ∈ ["admin", "superadmin"], ∀ p ∈ permissions, ∀ a ∈ legacyPermissionActions p,
      (p ∈ roleDefaultPermissions role ↔ a ∈ roleDefaultActions role) := by decide
  by_cases hadmin : role = "admin"
  · exact hall role (by simp [hadmin]) p (mem_permissions p) a ha
  by_cases hsuper : role = "superadmin"
  · exact hall role (by simp [hsuper]) p (mem_permissions p) a ha
  have hnone : roleDefaultActions role = [] := by simp [roleDefaultActions, hadmin, hsuper]
  simp only [roleDefaultPermissions, legacyPermissionsFor, hnone, List.mem_filter, List.all_eq_true,
    List.not_mem_nil, decide_false, iff_false]
  exact fun h => Bool.false_ne_true (h.2 a ha)

theorem permits_own (ha : a ∈ legacyPermissionActions p) :
    Permits (Applicable holder []) a.text none ↔
      ((∃ role ∈ holder.roles, p ∈ roleDefaultPermissions role) ∨
        ∃ entry ∈ holder.permissions, grantedBy entry = some p) ∧
      ¬ ∃ entry ∈ holder.permissions, revokedBy entry = some p := by
  have hkey : ∀ {entry q b}, permission? (parseEntry entry).2 = some q → b ∈ legacyPermissionActions q →
      b.text = a.text → permission? (parseEntry entry).2 = some p := by
    intro entry q b hq hb htext
    obtain rfl := PlatformAction.text_injective htext
    rw [hq, eq_of_legacyPermissionActions hb ha]
  unfold Permits
  refine and_congr ⟨?_, ?_⟩ ⟨?_, ?_⟩
  · rintro ⟨e, ⟨hrole, hb⟩ | ⟨hentry, hq, hb⟩ | ⟨hg, -, -⟩, heff, htext, -⟩
    · obtain rfl := PlatformAction.text_injective htext
      exact .inl ⟨_, hrole, (mem_roleDefaultPermissions ha).mpr hb⟩
    · refine .inr ⟨_, hentry, ?_⟩
      simp_all [grantedBy, hkey hq hb htext]
    · cases hg
  · rintro (⟨role, hrole, hp⟩ | ⟨entry, hentry, hgranted⟩)
    · exact ⟨_, .role hrole ((mem_roleDefaultPermissions ha).mp hp), rfl, rfl, rfl⟩
    · simp only [grantedBy] at hgranted
      split at hgranted
      · cases hgranted
      · rename_i hrev
        exact ⟨_, .legacy hentry hgranted ha, if_neg hrev, rfl, rfl⟩
  · rintro hdeny ⟨entry, hentry, hrevoked⟩
    simp only [revokedBy] at hrevoked
    split at hrevoked
    · rename_i hrev
      exact hdeny _ (.legacy hentry hrevoked ha) (if_pos hrev) rfl rfl
    · cases hrevoked
  · rintro hnone e (⟨hrole, hb⟩ | ⟨hentry, hq, hb⟩ | ⟨hg, -, -⟩) heff htext -
    · cases heff
    · refine hnone ⟨_, hentry, ?_⟩
      simp_all [revokedBy, hkey hq hb htext]
    · cases hg

theorem resolveEffectivePermissions_iff (holder : AccessHolder) (p : Permission)
    (resource : Option AccessResource) :
    p ∈ resolveEffectivePermissions holder.roles holder.permissions ↔
      (evaluateAccess holder ⟨true, []⟩ p.key resource).isAllowed := by
  have href : ¬ isRefAction p.key := by cases p <;> decide
  have hkey : permission? p.key = some p := permission?_eq_some.mpr rfl
  have hallows : Allows holder ⟨true, []⟩ p.key resource ↔
      ∀ a ∈ legacyPermissionActions p, Permits (Applicable holder []) a.text none := by
    simp [Allows, href, hkey]
  have hown : (∀ a ∈ legacyPermissionActions p, Permits (Applicable holder []) a.text none) ↔
      ((∃ role ∈ holder.roles, p ∈ roleDefaultPermissions role) ∨
        ∃ entry ∈ holder.permissions, grantedBy entry = some p) ∧
      ¬ ∃ entry ∈ holder.permissions, revokedBy entry = some p := by
    obtain ⟨a, ha⟩ := List.exists_mem_of_ne_nil _ (legacyPermissionActions_ne_nil p)
    exact ⟨fun h => (permits_own ha).mp (h a ha), fun h b hb => (permits_own hb).mpr h⟩
  rw [evaluateAccess_allowed, hallows, hown]
  simp [resolveEffectivePermissions]

end Catalyst.Access
