import Mathlib
import Catalyst.Operations.Model

/-!
# What the policy asks of a call

`resolvePolicy` says how a call goes on: from the defaults, the central settings that match its
targets, what the guardrails answered, and what the surface is able to do. The origin of the call
and a person's own setting are not read.

The values are ordered by strictness, and so are the decisions. Each part of the resolution is the
greatest of some set of values, or a monotone function of it.
-/

namespace Catalyst.Policies

open Operations (OperationEffect EventOutcome strictestOutcome)

-- -----------------
-- Values and decisions
-- -----------------

inductive PolicyValue
  | allow | confirm | approval | deny
  deriving DecidableEq

/-- The place in `POLICY_VALUES`. -/
def PolicyValue.index : PolicyValue → Nat
  | allow => 0
  | confirm => 1
  | approval => 2
  | deny => 3

theorem PolicyValue.index_injective : Function.Injective PolicyValue.index := by
  intro v w h
  cases v <;> cases w <;> first | rfl | cases h

instance : LinearOrder PolicyValue := LinearOrder.lift' PolicyValue.index PolicyValue.index_injective

theorem PolicyValue.allow_le (v : PolicyValue) : .allow ≤ v := Nat.zero_le v.index

theorem PolicyValue.le_deny (v : PolicyValue) : v ≤ .deny := by
  cases v <;> decide

def stricter (left right : PolicyValue) : PolicyValue :=
  if right.index ≤ left.index then left else right

theorem stricter_eq (v w : PolicyValue) : stricter v w = max v w := by
  cases v <;> cases w <;> rfl

inductive PolicySource
  | instanceDefault | declaredDefault | centralSetting | guardrail | surfaceCannotPause
  deriving DecidableEq

/-- How a call goes on. `runConfirmed` is the run whose decision mode is `direct`. -/
inductive Decision
  | run | runConfirmed | awaitConfirmation | awaitApproval | refuse
  deriving DecidableEq

def Decision.value : Decision → PolicyValue
  | run => .allow
  | runConfirmed => .confirm
  | awaitConfirmation => .confirm
  | awaitApproval => .approval
  | refuse => .deny

def Decision.rank : Decision → Nat
  | run => 0
  | runConfirmed => 1
  | awaitConfirmation => 2
  | awaitApproval => 3
  | refuse => 4

theorem Decision.rank_injective : Function.Injective Decision.rank := by
  intro d e h
  cases d <;> cases e <;> first | rfl | cases h

instance : LinearOrder Decision := LinearOrder.lift' Decision.rank Decision.rank_injective

structure PolicyResolution where
  source : PolicySource
  decision : Decision
  deriving DecidableEq

structure PolicyTarget where
  workspaceId : Option String
  assetKind : Option String
  ns : Option String
  deriving DecidableEq

structure CentralPolicySetting where
  operation : String
  value : PolicyValue
  workspaceId : Option String
  assetKind : Option String
  ns : Option String
  deriving DecidableEq

structure PolicyInput where
  name : String
  effect : OperationEffect
  defaultPolicy : Option PolicyValue
  instanceDefaults : OperationEffect → PolicyValue
  centralSettings : List CentralPolicySetting
  targets : Option (List PolicyTarget)
  guardrailOutcome : Option EventOutcome
  callerCanConfirm : Bool
  canPause : Bool

def narrowed (wanted found : Option String) : Bool := wanted.isNone || wanted == found

def named (pattern operation : String) : Bool :=
  if ".*".toList.isSuffixOf pattern.toList then
    pattern.toList.dropLast.isPrefixOf operation.toList
  else pattern == operation

/-- `matches` of the source. -/
def CentralPolicySetting.fits (setting : CentralPolicySetting) (operation : String)
    (target : PolicyTarget) : Bool :=
  named setting.operation operation && narrowed setting.workspaceId target.workspaceId &&
    narrowed setting.assetKind target.assetKind && narrowed setting.ns target.ns

def applies (effect : OperationEffect) (value : PolicyValue) : Bool :=
  effect == .changing || value == .allow || value == .deny

structure Sourced where
  value : PolicyValue
  source : PolicySource
  deriving DecidableEq

def baseOf (input : PolicyInput) : Sourced :=
  let value := input.instanceDefaults input.effect
  let base : Sourced :=
    -- An instance default that names a waiting value for reads leaves them allowed.
    ⟨if applies input.effect value then value else .allow, .instanceDefault⟩
  match input.defaultPolicy with
  | some declared => if applies input.effect declared then ⟨declared, .declaredDefault⟩ else base
  | none => base

def callTargets (input : PolicyInput) : List PolicyTarget :=
  match input.targets with
  | some (target :: targets) => target :: targets
  | _ => [⟨none, none, none⟩]

def centralOf (input : PolicyInput) (target : PolicyTarget) : List PolicyValue :=
  ((input.centralSettings.filter (·.fits input.name target)).map (·.value)).filter
    (applies input.effect)

def targetOf (input : PolicyInput) (target : PolicyTarget) : Sourced :=
  match centralOf input target with
  | value :: values => ⟨values.foldl stricter value, .centralSetting⟩
  | [] => baseOf input

def stricterOf (left right : Sourced) : Sourced :=
  if stricter left.value right.value = left.value then left else right

def strictestOf (base : Sourced) : List Sourced → Sourced
  | first :: rest => rest.foldl stricterOf first
  -- never reached: a call has at least one target
  | [] => base

def strictestTarget (input : PolicyInput) : Sourced :=
  strictestOf (baseOf input) ((callTargets input).map (targetOf input))

def guarded (effect : OperationEffect) (outcome : Option EventOutcome) (resolved : Sourced) :
    Sourced :=
  match outcome with
  | some .block => ⟨.deny, .guardrail⟩
  | some .requireApproval =>
    let asked := if effect = .changing then .approval else .deny
    if stricter resolved.value asked ≠ resolved.value then ⟨asked, .guardrail⟩ else resolved
  | _ => resolved

def onSurface (callerCanConfirm canPause : Bool) (resolved : Sourced) : PolicyResolution :=
  match resolved.value with
  | .allow => ⟨resolved.source, .run⟩
  | .deny => ⟨resolved.source, .refuse⟩
  | .confirm =>
    if callerCanConfirm then ⟨resolved.source, .runConfirmed⟩
    else if canPause then ⟨resolved.source, .awaitConfirmation⟩
    else ⟨.surfaceCannotPause, .refuse⟩
  | .approval =>
    if callerCanConfirm || canPause then ⟨resolved.source, .awaitApproval⟩
    else ⟨.surfaceCannotPause, .refuse⟩

def resolvePolicy (input : PolicyInput) : PolicyResolution :=
  onSurface input.callerCanConfirm input.canPause
    (guarded input.effect input.guardrailOutcome (strictestTarget input))

theorem foldl_stricter_greatest (v : PolicyValue) (vs : List PolicyValue) :
    IsGreatest {w | w ∈ v :: vs} (vs.foldl stricter v) := by
  induction vs generalizing v with
  | nil => exact ⟨List.mem_cons_self, fun w h => (List.mem_singleton.mp h).le⟩
  | cons u vs ih =>
    rw [List.foldl_cons, stricter_eq]
    obtain ⟨hmem, hle⟩ := ih (max v u)
    constructor
    · rcases List.mem_cons.mp hmem with h | h
      · rcases max_choice v u with hm | hm
        · exact List.mem_cons.mpr (.inl (h.trans hm))
        · exact List.mem_cons_of_mem _ (List.mem_cons.mpr (.inl (h.trans hm)))
      · exact List.mem_cons_of_mem _ (List.mem_cons_of_mem _ h)
    · intro w h
      have hmax : max v u ≤ List.foldl stricter (max v u) vs := hle List.mem_cons_self
      rcases List.mem_cons.mp h with rfl | h
      · exact (le_max_left w u).trans hmax
      · rcases List.mem_cons.mp h with rfl | h
        · exact (le_max_right v w).trans hmax
        · exact hle (List.mem_cons_of_mem _ h)

theorem stricterOf_value (r s : Sourced) : (stricterOf r s).value = stricter r.value s.value := by
  rw [stricterOf, stricter_eq]
  split
  next h => exact h.symm
  next h => exact ((max_choice r.value s.value).resolve_left h).symm

theorem foldl_stricterOf_value (r : Sourced) (rs : List Sourced) :
    (rs.foldl stricterOf r).value = (rs.map (·.value)).foldl stricter r.value := by
  induction rs generalizing r with
  | nil => rfl
  | cons s rs ih => rw [List.foldl_cons, ih, stricterOf_value]; rfl

theorem callTargets_ne (input : PolicyInput) : callTargets input ≠ [] := by
  simp only [callTargets]
  split <;> exact List.cons_ne_nil _ _

def targetValues (input : PolicyInput) : Set PolicyValue :=
  {v | ∃ target ∈ callTargets input, (targetOf input target).value = v}

theorem strictestTarget_greatest (input : PolicyInput) :
    IsGreatest (targetValues input) (strictestTarget input).value := by
  simp only [strictestTarget]
  cases h : (callTargets input).map (targetOf input) with
  | nil => exact absurd (List.map_eq_nil_iff.mp h) (callTargets_ne input)
  | cons first rest =>
    have hset : targetValues input = {w | w ∈ first.value :: rest.map (·.value)} := by
      have hmap : first.value :: rest.map Sourced.value =
          (callTargets input).map fun target => (targetOf input target).value := by
        exact (congrArg (List.map Sourced.value) h).symm.trans List.map_map
      rw [hmap]
      ext w
      exact List.mem_map.symm
    rw [hset]
    rw [strictestOf, foldl_stricterOf_value]
    exact foldl_stricter_greatest _ _

def outcomeAsks (effect : OperationEffect) : Option EventOutcome → PolicyValue
  | some .block => .deny
  | some .requireApproval => if effect = .changing then .approval else .deny
  | _ => .allow

theorem guarded_value (effect : OperationEffect) (outcome : Option EventOutcome) (r : Sourced) :
    (guarded effect outcome r).value = max r.value (outcomeAsks effect outcome) := by
  have hallow : max r.value .allow = r.value := max_eq_left r.value.allow_le
  cases outcome with
  | none => exact hallow.symm
  | some o =>
    cases o with
    | allow => exact hallow.symm
    | warn => exact hallow.symm
    | block => exact (max_eq_right r.value.le_deny).symm
    | requireApproval =>
      simp only [guarded, outcomeAsks, stricter_eq]
      generalize (if effect = .changing then PolicyValue.approval else .deny) = asked
      by_cases h : max r.value asked = r.value
      · rw [if_neg (not_not.mpr h), h]
      · rw [if_pos h, (max_choice r.value asked).resolve_left h]

def decisionOn (callerCanConfirm canPause : Bool) (v : PolicyValue) : Decision :=
  (onSurface callerCanConfirm canPause ⟨v, .instanceDefault⟩).decision

theorem onSurface_decision (c p : Bool) (r : Sourced) :
    (onSurface c p r).decision = decisionOn c p r.value := by
  obtain ⟨v, s⟩ := r
  cases v <;> cases c <;> cases p <;> rfl

theorem decisionOn_mono (c p : Bool) : Monotone (decisionOn c p) := by
  intro v w h
  cases v <;> cases w <;> cases c <;> cases p <;> revert h <;> decide

def decided (input : PolicyInput) (v : PolicyValue) : Decision :=
  decisionOn input.callerCanConfirm input.canPause
    (max v (outcomeAsks input.effect input.guardrailOutcome))

theorem decided_mono (input : PolicyInput) : Monotone (decided input) :=
  fun _ _ h => decisionOn_mono _ _ (max_le_max_right _ h)

theorem resolvePolicy_decision (input : PolicyInput) :
    (resolvePolicy input).decision = decided input (strictestTarget input).value := by
  rw [resolvePolicy, onSurface_decision, guarded_value, decided]

theorem mem_centralOf {input : PolicyInput} {target : PolicyTarget} {v : PolicyValue} :
    v ∈ centralOf input target ↔ ∃ setting ∈ input.centralSettings,
      setting.fits input.name target = true ∧ applies input.effect setting.value = true ∧
        setting.value = v := by
  simp only [centralOf, List.mem_filter, List.mem_map]
  constructor
  · rintro ⟨⟨s, ⟨hs, hfits⟩, rfl⟩, happ⟩
    exact ⟨s, hs, hfits, happ, rfl⟩
  · rintro ⟨s, hs, hfits, happ, rfl⟩
    exact ⟨⟨s, ⟨hs, hfits⟩, rfl⟩, happ⟩

theorem targetOf_nil {input : PolicyInput} {target : PolicyTarget}
    (h : centralOf input target = []) : targetOf input target = baseOf input := by
  rw [targetOf, h]

theorem targetOf_greatest {input : PolicyInput} {target : PolicyTarget}
    (h : centralOf input target ≠ []) :
    IsGreatest {v | v ∈ centralOf input target} (targetOf input target).value := by
  simp only [targetOf]
  cases hc : centralOf input target with
  | nil => exact absurd hc h
  | cons v vs => exact foldl_stricter_greatest v vs

theorem targetOf_source {input : PolicyInput} {target : PolicyTarget}
    (h : centralOf input target ≠ []) : (targetOf input target).source = .centralSetting := by
  simp only [targetOf]
  cases hc : centralOf input target with
  | nil => exact absurd hc h
  | cons v vs => rfl

theorem baseOf_applies (input : PolicyInput) : applies input.effect (baseOf input).value = true := by
  have hallow : applies input.effect .allow = true := by
    cases input.effect <;> rfl
  have hdefault : applies input.effect (if applies input.effect (input.instanceDefaults input.effect)
      then input.instanceDefaults input.effect else .allow) = true := by
    split
    next h => exact h
    next => exact hallow
  simp only [baseOf]
  cases input.defaultPolicy with
  | none => exact hdefault
  | some declared =>
    simp only
    split
    next h => exact h
    next => exact hdefault

theorem targetOf_applies (input : PolicyInput) (target : PolicyTarget) :
    applies input.effect (targetOf input target).value = true := by
  by_cases h : centralOf input target = []
  · rw [targetOf_nil h]
    exact baseOf_applies input
  · obtain ⟨s, _, _, happ, heq⟩ := mem_centralOf.mp (targetOf_greatest h).1
    exact heq ▸ happ

theorem strictestTarget_le {input input' : PolicyInput}
    (h : ∀ v ∈ targetValues input, ∃ w ∈ targetValues input', v ≤ w) :
    (strictestTarget input).value ≤ (strictestTarget input').value := by
  obtain ⟨w, hw, hle⟩ := h _ (strictestTarget_greatest input).1
  exact hle.trans ((strictestTarget_greatest input').2 hw)

theorem strictestTarget_congr {input input' : PolicyInput}
    (h : targetValues input = targetValues input') :
    (strictestTarget input).value = (strictestTarget input').value :=
  (strictestTarget_greatest input).unique (h ▸ strictestTarget_greatest input')

theorem targetOf_le {input input' : PolicyInput} {target : PolicyTarget}
    (hsome : ∀ v ∈ centralOf input target, v ≤ (targetOf input' target).value)
    (hnone : centralOf input target = [] → (baseOf input).value ≤ (targetOf input' target).value) :
    (targetOf input target).value ≤ (targetOf input' target).value := by
  by_cases h : centralOf input target = []
  · rw [targetOf_nil h]
    exact hnone h
  · exact hsome _ (targetOf_greatest h).1

theorem le_targetOf {input : PolicyInput} {target : PolicyTarget} {v : PolicyValue}
    (h : v ∈ centralOf input target) : v ≤ (targetOf input target).value :=
  (targetOf_greatest (List.ne_nil_of_mem h)).2 h

theorem resolvePolicy_settings_le {input : PolicyInput} {settings : List CentralPolicySetting}
    (h : ∀ target ∈ callTargets input, (targetOf input target).value ≤
      (targetOf { input with centralSettings := settings } target).value) :
    (resolvePolicy input).decision ≤
      (resolvePolicy { input with centralSettings := settings }).decision := by
  rw [resolvePolicy_decision, resolvePolicy_decision]
  refine decided_mono input (strictestTarget_le ?_)
  rintro v ⟨target, ht, rfl⟩
  exact ⟨_, ⟨target, ht, rfl⟩, h target ht⟩

-- -----------------
-- The order of settings and of targets
-- -----------------

theorem targetOf_perm {input : PolicyInput} {settings : List CentralPolicySetting}
    (h : settings.Perm input.centralSettings) (target : PolicyTarget) :
    targetOf { input with centralSettings := settings } target = targetOf input target := by
  have hperm : (centralOf { input with centralSettings := settings } target).Perm
      (centralOf input target) := ((h.filter _).map _).filter _
  by_cases hnil : centralOf input target = []
  · rw [targetOf_nil hnil, targetOf_nil (hnil ▸ hperm).eq_nil]
    rfl
  · have hnil' : centralOf { input with centralSettings := settings } target ≠ [] :=
      fun he => hnil (he ▸ hperm).symm.eq_nil
    have hset : {v | v ∈ centralOf { input with centralSettings := settings } target} =
        {v | v ∈ centralOf input target} := Set.ext fun _ => hperm.mem_iff
    have hvalue := (targetOf_greatest hnil').unique (hset ▸ targetOf_greatest hnil)
    have hsource := (targetOf_source hnil').trans (targetOf_source hnil).symm
    generalize targetOf { input with centralSettings := settings } target = r at *
    generalize targetOf input target = r' at *
    cases r
    cases r'
    cases hvalue
    cases hsource
    rfl

theorem resolvePolicy_settings_perm {input : PolicyInput} {settings : List CentralPolicySetting}
    (h : settings.Perm input.centralSettings) :
    resolvePolicy { input with centralSettings := settings } = resolvePolicy input := by
  have hmap : (callTargets input).map (targetOf { input with centralSettings := settings }) =
      (callTargets input).map (targetOf input) :=
    List.map_congr_left fun target _ => targetOf_perm h target
  have htarget : strictestTarget { input with centralSettings := settings } =
      strictestTarget input := congrArg (strictestOf (baseOf input)) hmap
  rw [resolvePolicy, htarget]
  rfl

def decisionFor (input : PolicyInput) (targets : List PolicyTarget) : Decision :=
  (resolvePolicy { input with targets := some targets }).decision

theorem callTargets_some {input : PolicyInput} {targets : List PolicyTarget} (h : targets ≠ []) :
    callTargets { input with targets := some targets } = targets := by
  cases targets with
  | nil => exact absurd rfl h
  | cons => rfl

theorem mem_callTargets_perm {input : PolicyInput} {targets targets' : List PolicyTarget}
    (h : targets'.Perm targets) (target : PolicyTarget) :
    target ∈ callTargets { input with targets := some targets' } ↔
      target ∈ callTargets { input with targets := some targets } := by
  by_cases hnil : targets = []
  · subst hnil
    rw [h.eq_nil]
  · rw [callTargets_some hnil, callTargets_some fun he => hnil (he ▸ h).symm.eq_nil, h.mem_iff]

theorem decisionFor_perm {input : PolicyInput} {targets targets' : List PolicyTarget}
    (h : targets'.Perm targets) : decisionFor input targets' = decisionFor input targets := by
  rw [decisionFor, decisionFor, resolvePolicy_decision, resolvePolicy_decision]
  refine congrArg (decided input) (strictestTarget_congr ?_)
  ext v
  exact exists_congr fun target => and_congr_left fun _ => mem_callTargets_perm h target

theorem decisionFor_greatest {input : PolicyInput} {targets : List PolicyTarget}
    (h : targets ≠ []) :
    IsGreatest {d | ∃ target ∈ targets, decisionFor input [target] = d}
      (decisionFor input targets) := by
  have halone (target : PolicyTarget) :
      decisionFor input [target] = decided input (targetOf input target).value :=
    resolvePolicy_decision _
  have hset : {d | ∃ target ∈ targets, decisionFor input [target] = d} =
      decided input '' targetValues { input with targets := some targets } := by
    ext d
    simp only [targetValues, callTargets_some h, Set.mem_image]
    constructor
    · rintro ⟨target, ht, rfl⟩
      exact ⟨_, ⟨target, ht, rfl⟩, (halone target).symm⟩
    · rintro ⟨_, ⟨target, ht, rfl⟩, rfl⟩
      exact ⟨target, ht, halone target⟩
  rw [hset, decisionFor, resolvePolicy_decision]
  exact (decided_mono input).map_isGreatest (strictestTarget_greatest _)

theorem decisionFor_mono {input : PolicyInput} {targets targets' : List PolicyTarget}
    (h : targets ≠ []) (hsub : targets ⊆ targets') :
    decisionFor input targets ≤ decisionFor input targets' := by
  have h' : targets' ≠ [] := fun he => h (List.subset_nil.mp (he ▸ hsub))
  refine (decisionFor_greatest h).mono (decisionFor_greatest h') ?_
  rintro d ⟨target, ht, rfl⟩
  exact ⟨target, hsub ht, rfl⟩

theorem outcomeAsks_mono (effect : OperationEffect) {o o' : EventOutcome}
    (h : o.order ≤ o'.order) : outcomeAsks effect (some o) ≤ outcomeAsks effect (some o') := by
  cases effect <;> cases o <;> cases o' <;> revert h <;> decide

theorem resolvePolicy_outcome_le {input : PolicyInput} {outcome outcome' : Option EventOutcome}
    (h : outcomeAsks input.effect outcome ≤ outcomeAsks input.effect outcome') :
    (resolvePolicy { input with guardrailOutcome := outcome }).decision ≤
      (resolvePolicy { input with guardrailOutcome := outcome' }).decision := by
  rw [resolvePolicy_decision, resolvePolicy_decision]
  exact decisionOn_mono _ _ (max_le_max_left _ h)

theorem foldl_order_le (o : EventOutcome) (os : List EventOutcome) :
    ∀ o' ∈ o :: os, o'.order ≤ (os.foldl
      (fun left right => if right.order ≤ left.order then left else right) o).order := by
  induction os generalizing o with
  | nil =>
    intro o' h
    exact (congrArg EventOutcome.order (List.mem_singleton.mp h)).le
  | cons p os ih =>
    intro o' h
    rw [List.foldl_cons]
    have hstep := ih (if p.order ≤ o.order then o else p)
    have hfirst := hstep _ List.mem_cons_self
    rcases List.mem_cons.mp h with rfl | h
    · refine le_trans ?_ hfirst
      split <;> omega
    · rcases List.mem_cons.mp h with rfl | h
      · refine le_trans ?_ hfirst
        split <;> omega
      · exact hstep o' (List.mem_cons_of_mem _ h)

theorem foldl_order_mem (o : EventOutcome) (os : List EventOutcome) :
    os.foldl (fun left right => if right.order ≤ left.order then left else right) o ∈ o :: os := by
  induction os generalizing o with
  | nil => exact List.mem_cons_self
  | cons p os ih =>
    rw [List.foldl_cons]
    rcases List.mem_cons.mp (ih (if p.order ≤ o.order then o else p)) with h | h
    · rw [h]
      split
      · exact List.mem_cons_self
      · exact List.mem_cons_of_mem _ List.mem_cons_self
    · exact List.mem_cons_of_mem _ (List.mem_cons_of_mem _ h)

theorem strictestOutcome_mono {outcomes outcomes' : List EventOutcome}
    (h : outcomes ⊆ outcomes') :
    (strictestOutcome outcomes).order ≤ (strictestOutcome outcomes').order := by
  refine foldl_order_le .allow outcomes' _ ?_
  rcases List.mem_cons.mp (foldl_order_mem .allow outcomes) with h' | h'
  · exact List.mem_cons.mpr (.inl h')
  · exact List.mem_cons_of_mem _ (h h')

/-- A value above one that applies applies too, unless that one was `allow`. -/
theorem applies_of_le {effect : OperationEffect} {v w : PolicyValue} (h : v ≤ w)
    (hv : applies effect v = true) : applies effect w = true ∨ v = .allow := by
  cases effect <;> cases v <;> cases w <;> revert h hv <;> decide

/-- A value that does not apply has only `deny` above it that does. -/
theorem eq_deny_of_le {effect : OperationEffect} {v w : PolicyValue} (h : v ≤ w)
    (hv : applies effect v = false) (hw : applies effect w = true) : w = .deny := by
  cases effect <;> cases v <;> cases w <;> revert h hv hw <;> decide

theorem stricter_setting {input : PolicyInput} {setting : CentralPolicySetting}
    {before after : List CentralPolicySetting} {v : PolicyValue}
    (hs : input.centralSettings = before ++ setting :: after) (h : setting.value ≤ v) :
    (resolvePolicy input).decision ≤ (resolvePolicy { input with
      centralSettings := before ++ { setting with value := v } :: after }).decision := by
  refine resolvePolicy_settings_le fun target _ => targetOf_le ?_ ?_
  · intro u hu
    obtain ⟨s, hmem, hfits, happ, rfl⟩ := mem_centralOf.mp hu
    rw [hs, List.mem_append, List.mem_cons] at hmem
    have hkept (hin : s ∈ before ∨ s ∈ after) : s.value ≤ (targetOf { input with
        centralSettings := before ++ { setting with value := v } :: after } target).value := by
      refine le_targetOf (mem_centralOf.mpr ⟨s, ?_, hfits, happ, rfl⟩)
      exact List.mem_append.mpr (hin.imp_right (List.mem_cons_of_mem _))
    rcases hmem with hmem | rfl | hmem
    · exact hkept (.inl hmem)
    · rcases applies_of_le h happ with hv | hallow
      · refine h.trans (le_targetOf (mem_centralOf.mpr ⟨{ s with value := v }, ?_, hfits, hv, rfl⟩))
        exact List.mem_append.mpr (.inr List.mem_cons_self)
      · rw [hallow]
        exact PolicyValue.allow_le _
    · exact hkept (.inr hmem)
  · intro hnil
    by_cases hnil' : centralOf { input with
        centralSettings := before ++ { setting with value := v } :: after } target = []
    · rw [targetOf_nil hnil']
      exact le_of_eq rfl
    · -- a value the new settings give is the changed setting's, which did not apply before
      obtain ⟨s, hmem, hfits, happ, heq⟩ := mem_centralOf.mp (targetOf_greatest hnil').1
      have hnone : ∀ s' ∈ input.centralSettings, s'.fits input.name target = true →
          ¬ applies input.effect s'.value = true := fun s' hs' hfits' happ' =>
        List.ne_nil_of_mem (mem_centralOf.mpr ⟨s', hs', hfits', happ', rfl⟩) hnil
      rw [hs] at hnone
      rw [← heq]
      rcases List.mem_append.mp hmem with hin | hin
      · exact absurd happ (hnone s (List.mem_append_left _ hin) hfits)
      · rcases List.mem_cons.mp hin with rfl | hin
        · have hold := hnone setting (List.mem_append.mpr (.inr List.mem_cons_self)) hfits
          have hdeny : v = .deny := eq_deny_of_le h (Bool.not_eq_true _ ▸ hold) happ
          exact hdeny ▸ PolicyValue.le_deny _
        · exact absurd happ
            (hnone s (List.mem_append_right _ (List.mem_cons_of_mem _ hin)) hfits)

def Accompanied (input : PolicyInput) (setting : CentralPolicySetting) : Prop :=
  ∀ target ∈ callTargets input, setting.fits input.name target = true →
    ∃ s ∈ input.centralSettings,
      s.fits input.name target = true ∧ applies input.effect s.value = true

instance (input : PolicyInput) (setting : CentralPolicySetting) :
    Decidable (Accompanied input setting) :=
  inferInstanceAs (Decidable (∀ target ∈ callTargets input, _ → ∃ s ∈ input.centralSettings, _))

theorem added_setting {input : PolicyInput} {setting : CentralPolicySetting}
    (h : Accompanied input setting) :
    (resolvePolicy input).decision ≤ (resolvePolicy { input with
      centralSettings := setting :: input.centralSettings }).decision := by
  refine resolvePolicy_settings_le fun target ht => targetOf_le ?_ ?_
  · intro u hu
    obtain ⟨s, hmem, hfits, happ, rfl⟩ := mem_centralOf.mp hu
    exact le_targetOf (mem_centralOf.mpr ⟨s, List.mem_cons_of_mem _ hmem, hfits, happ, rfl⟩)
  · intro hnil
    by_cases hnil' : centralOf { input with
        centralSettings := setting :: input.centralSettings } target = []
    · rw [targetOf_nil hnil']
      exact le_of_eq rfl
    · have hnone : ∀ s ∈ input.centralSettings, s.fits input.name target = true →
          ¬ applies input.effect s.value = true := fun s hs hfits happ =>
        List.ne_nil_of_mem (mem_centralOf.mpr ⟨s, hs, hfits, happ, rfl⟩) hnil
      obtain ⟨s, hmem, hfits, happ, -⟩ := mem_centralOf.mp (targetOf_greatest hnil').1
      rcases List.mem_cons.mp hmem with rfl | hmem
      · obtain ⟨s', hs', hfits', happ'⟩ := h target ht hfits
        exact absurd happ' (hnone s' hs' hfits')
      · exact absurd happ (hnone s hmem hfits)

theorem decision_of_reading {input : PolicyInput} (h : input.effect = .reading) :
    (resolvePolicy input).decision = .run ∨ (resolvePolicy input).decision = .refuse := by
  obtain ⟨target, -, hvalue⟩ := (strictestTarget_greatest input).1
  have happ := hvalue ▸ targetOf_applies input target
  rw [resolvePolicy_decision, decided]
  rw [h] at happ ⊢
  generalize (strictestTarget input).value = v at happ ⊢
  generalize input.guardrailOutcome = outcome
  generalize input.callerCanConfirm = c
  generalize input.canPause = p
  cases outcome with
  | none => cases v <;> cases c <;> cases p <;> revert happ <;> decide
  | some o => cases v <;> cases o <;> cases c <;> cases p <;> revert happ <;> decide

theorem decision_cannot_wait {input : PolicyInput} (hc : input.callerCanConfirm = false)
    (hp : input.canPause = false) :
    (resolvePolicy input).decision = .refuse ∨ ∀ c p, (resolvePolicy { input with
      callerCanConfirm := c, canPause := p }).decision = .run := by
  simp only [resolvePolicy_decision, decided, hc, hp]
  show _ ∨ ∀ c p, decisionOn c p (max (strictestTarget input).value _) = .run
  generalize max (strictestTarget input).value _ = v
  cases v with
  | allow => exact .inr fun _ _ => rfl
  | confirm => exact .inl rfl
  | approval => exact .inl rfl
  | deny => exact .inl rfl

/-- The order of settings and of targets decides nothing, each target alone is resolved no
stricter than the call, and whatever is added makes the decision no looser. -/
theorem resolvePolicy_ordered (input : PolicyInput) :
    (∀ settings : List CentralPolicySetting, settings.Perm input.centralSettings →
      resolvePolicy { input with centralSettings := settings } = resolvePolicy input) ∧
    (∀ targets targets' : List PolicyTarget, targets'.Perm targets →
      decisionFor input targets' = decisionFor input targets) ∧
    (∀ targets : List PolicyTarget, targets ≠ [] →
      IsGreatest {d | ∃ target ∈ targets, decisionFor input [target] = d}
        (decisionFor input targets)) ∧
    (∀ (targets : List PolicyTarget) (target : PolicyTarget), targets ≠ [] →
      decisionFor input targets ≤ decisionFor input (target :: targets)) ∧
    (∀ outcome : EventOutcome,
      (resolvePolicy { input with guardrailOutcome := none }).decision ≤
        (resolvePolicy { input with guardrailOutcome := some outcome }).decision) ∧
    (∀ outcomes outcomes' : List EventOutcome, outcomes ⊆ outcomes' →
      (resolvePolicy { input with
          guardrailOutcome := some (strictestOutcome outcomes) }).decision ≤
        (resolvePolicy { input with
          guardrailOutcome := some (strictestOutcome outcomes') }).decision) ∧
    (∀ before setting after v, input.centralSettings = before ++ setting :: after →
      setting.value ≤ v → (resolvePolicy input).decision ≤ (resolvePolicy { input with
        centralSettings := before ++ { setting with value := v } :: after }).decision) ∧
    (∀ setting : CentralPolicySetting, Accompanied input setting →
      (resolvePolicy input).decision ≤ (resolvePolicy { input with
        centralSettings := setting :: input.centralSettings }).decision) ∧
    (input.effect = .reading →
      (resolvePolicy input).decision = .run ∨ (resolvePolicy input).decision = .refuse) ∧
    (input.callerCanConfirm = false → input.canPause = false →
      (resolvePolicy input).decision = .refuse ∨ ∀ c p, (resolvePolicy { input with
        callerCanConfirm := c, canPause := p }).decision = .run) := by
  refine ⟨?settings, ?targets, ?strictest, ?target, ?guardrail, ?guardrails, ?stricter, ?added,
    ?reading, ?surface⟩
  case settings => exact fun _ h => resolvePolicy_settings_perm h
  case targets => exact fun _ _ h => decisionFor_perm h
  case strictest => exact fun _ h => decisionFor_greatest h
  case target => exact fun _ _ h => decisionFor_mono h (List.subset_cons_self _ _)
  case guardrail => exact fun _ => resolvePolicy_outcome_le (PolicyValue.allow_le _)
  case guardrails =>
    exact fun _ _ h => resolvePolicy_outcome_le (outcomeAsks_mono _ (strictestOutcome_mono h))
  case stricter => exact fun _ _ _ _ hs h => stricter_setting hs h
  case added => exact fun _ h => added_setting h
  case reading => exact decision_of_reading
  case surface => exact decision_cannot_wait

namespace Example

/-- A read that is denied unless a setting says otherwise, and a setting that asks for a
confirmation of it. -/
def read : PolicyInput where
  name := "files.read"
  effect := .reading
  defaultPolicy := some .deny
  instanceDefaults := fun _ => .allow
  centralSettings := [⟨"files.*", .confirm, none, none, none⟩]
  targets := none
  guardrailOutcome := none
  callerCanConfirm := false
  canPause := false

def allowed : CentralPolicySetting := ⟨"files.read", .allow, none, none, none⟩

def write : PolicyInput := { read with
  effect := .changing
  targets := some [⟨some "w", none, none⟩] }

end Example

/-- The setting that matches a read and does not apply to it leaves its base, which the next one
replaces. -/
theorem resolvePolicy_loosened :
    (∀ target ∈ callTargets Example.read, Example.allowed.fits Example.read.name target = true ∧
      ∃ s ∈ Example.read.centralSettings, s.fits Example.read.name target = true) ∧
    (resolvePolicy Example.read).decision = .refuse ∧
    (resolvePolicy { Example.read with
      centralSettings := Example.allowed :: Example.read.centralSettings }).decision = .run := by
  decide

theorem resolvePolicy_ordered_write :
    Accompanied Example.write Example.allowed ∧
    (resolvePolicy Example.write).decision ≤ (resolvePolicy { Example.write with
      centralSettings := Example.allowed :: Example.write.centralSettings }).decision ∧
    decisionFor Example.write [⟨none, none, none⟩] ≤
      decisionFor Example.write [⟨some "w", none, none⟩, ⟨none, none, none⟩] := by
  have hacc : Accompanied Example.write Example.allowed := by decide
  obtain ⟨-, -, -, htarget, -, -, -, hadded, -, -⟩ := resolvePolicy_ordered Example.write
  exact ⟨hacc, hadded _ hacc, htarget _ _ (List.cons_ne_nil _ _)⟩

end Catalyst.Policies
