import Catalyst.Assets.Model

/-!
# What a set without issues is

A set has no issue exactly if every definition is accepted, every name is there
once, the default is one of the agents, and every reference of an agent leads to
something. None of this depends on the order of the definitions.
-/

namespace Catalyst.Assets

open Library

namespace AssetKindSchema

variable {J α : Type} {readName : J → Option String} {name : α → String}
variable {schema : AssetKindSchema J α readName name} {rule : AssetNameRule}

theorem readOne_name (h : schema.readOne rule d = .ok a) : readName d = some (name a) := by
  unfold readOne at h
  split at h
  · cases h
  · rename_i parsed hp
    split at h
    · cases h
    · cases h
      exact schema.keeps_name hp

theorem readOne_error (h : schema.readOne rule d = .error (n, issues)) : issues ≠ [] := by
  unfold readOne at h
  split at h
  · rename_i hp
    cases h
    exact schema.says_why hp
  · split at h
    · cases h
      simp
    · cases h

theorem mem_accepted : a ∈ schema.accepted rule inputs ↔ ∃ d ∈ inputs, schema.readOne rule d = .ok a := by
  rw [accepted, List.mem_filterMap]
  refine exists_congr fun d => and_congr_right fun _ => ?_
  cases schema.readOne rule d <;> simp [Except.toOption]

theorem refused_issues_eq_nil {β : Type} {f : RefusedAssetDefinition → AssetValidationIssue → β} :
    ((schema.refused rule inputs).flatMap fun r => r.issues.map (f r)) = [] ↔
      ∀ d ∈ inputs, ∃ a, schema.readOne rule d = .ok a := by
  simp only [List.flatMap_eq_nil_iff, List.map_eq_nil_iff, refused, List.mem_filterMap]
  constructor
  · intro h d hd
    cases hr : schema.readOne rule d with
    | ok a => exact ⟨a, rfl⟩
    | error e =>
      obtain ⟨index, hi⟩ := List.mem_iff_getElem?.mp hd
      refine absurd (h ⟨index, e.1, e.2⟩ ⟨(d, index), ?_, by simp [hr]⟩) (readOne_error hr)
      exact List.mem_zipIdx_iff_getElem?.mpr hi
  · rintro h r ⟨⟨d, index⟩, hd, hr⟩
    obtain ⟨a, ha⟩ := h d (List.mem_zipIdx_iff_getElem?.mp hd |> List.mem_of_getElem?)
    simp [ha] at hr

theorem accepted_names (h : ∀ d ∈ inputs, ∃ a, schema.readOne rule d = .ok a) :
    (schema.accepted rule inputs).map (some ∘ name) = inputs.map readName := by
  induction inputs with
  | nil => rfl
  | cons d inputs ih =>
    obtain ⟨a, ha⟩ := h d List.mem_cons_self
    have ih := ih fun d hd => h d (List.mem_cons_of_mem _ hd)
    have hs : schema.accepted rule (d :: inputs) = a :: schema.accepted rule inputs := by
      rw [accepted, List.filterMap_cons_some (b := a)]
      · rfl
      · simp [ha, Except.toOption]
    rw [hs, List.map_cons, List.map_cons, ih, readOne_name ha]
    rfl

end AssetKindSchema

theorem collectDuplicates_eq_nil : collectDuplicates seen duplicates values = [] ↔
    duplicates = [] ∧ values.Nodup ∧ ∀ v ∈ values, v ∉ seen := by
  induction values generalizing seen duplicates with
  | nil => simp [collectDuplicates]
  | cons value values ih =>
    rw [collectDuplicates, ih]
    by_cases hs : value ∈ seen
    · refine iff_of_false ?_ fun h => h.2.2 value List.mem_cons_self hs
      rintro ⟨h, -⟩
      split at h
      · simp at h
      · rename_i hc
        exact hc ⟨hs, by simp [h]⟩
    · simp only [hs, false_and, if_false, List.nodup_cons, List.mem_cons, not_or, forall_eq_or_imp,
        not_false_eq_true, true_and]
      refine and_congr_right fun _ => ?_
      constructor
      · rintro ⟨hn, h⟩
        exact ⟨⟨fun hv => (h value hv).1 rfl, hn⟩, fun v hv => (h v hv).2⟩
      · rintro ⟨⟨hv, hn⟩, h⟩
        exact ⟨hn, fun v hm => ⟨fun he => hv (he ▸ hm), h v hm⟩⟩

theorem findDuplicates_eq_nil : findDuplicates values = [] ↔ values.Nodup := by
  simp [findDuplicates, collectDuplicates_eq_nil]

def HoldsDefault (agentNames : List String) : Option String → Prop
  | none => agentNames = []
  | some name => name ∈ agentNames

theorem findDefaultAgentReferenceIssues_eq_nil :
    findDefaultAgentReferenceIssues agentNames name? = [] ↔ HoldsDefault agentNames name? := by
  cases agentNames with
  | nil => cases name? <;> simp [findDefaultAgentReferenceIssues, HoldsDefault]
  | cons first agentNames =>
    cases name? with
    | none => simp [findDefaultAgentReferenceIssues, HoldsDefault]
    | some name =>
      simp only [findDefaultAgentReferenceIssues, HoldsDefault]
      by_cases h : name ∈ first :: agentNames
      · rw [if_pos h]
        exact iff_of_true rfl h
      · rw [if_neg h]
        exact iff_of_false (List.cons_ne_nil _ _) h

structure AgentConfig.ModelsSound (refs : ConfigAssetValidationRefs) (agent : AgentConfig) : Prop where
  either : truthy agent.modelProviderId = none ∨ truthy agent.modelBindingId = none
  provider : ∀ id ∈ truthy agent.modelProviderId, id ∈ refs.modelProviderIds
  binding : ∀ id ∈ truthy agent.modelBindingId, id ∈ refs.modelBindingIds
  fastMode : agent.fastMode → ∃ id ∈ truthy agent.modelBindingId, id ∈ refs.fastModeModelBindingIds
  efforts : ∀ id ∈ agent.modelReasoningEfforts, id ∈ agent.userSelectableModelBindingIds

theorem issueWhen_eq_nil {c : Prop} [Decidable c] : issueWhen c message = [] ↔ ¬ c := by
  by_cases h : c <;> simp [issueWhen, h]

theorem findAgentModelReferenceIssues_eq_nil :
    findAgentModelReferenceIssues refs agent = [] ↔ agent.ModelsSound refs := by
  simp only [findAgentModelReferenceIssues, List.append_eq_nil_iff, issueWhen_eq_nil,
    List.map_eq_nil_iff]
  constructor
  · rintro ⟨⟨⟨⟨he, hp⟩, hb⟩, hf⟩, hr⟩
    refine ⟨?_, ?_, ?_, ?_, ?_⟩
    · cases hx : truthy agent.modelProviderId <;> cases hy : truthy agent.modelBindingId <;>
        simp_all
    · intro id hid
      simpa [Option.mem_def.mp hid, Option.filter] using hp
    · intro id hid
      simpa [Option.mem_def.mp hid, Option.filter] using hb
    · intro hfast
      cases hy : truthy agent.modelBindingId with
      | none => simp [hy, issueWhen_eq_nil, hfast] at hf
      | some id => exact ⟨id, rfl, by simpa [hy, issueWhen_eq_nil, hfast] using hf⟩
    · simpa [List.filter_eq_nil_iff] using hr
  · intro h
    refine ⟨⟨⟨⟨?_, ?_⟩, ?_⟩, ?_⟩, ?_⟩
    · rcases h.either with he | he <;> simp [he]
    · cases hx : truthy agent.modelProviderId with
      | none => rfl
      | some id => simp [Option.filter, h.provider id hx]
    · cases hx : truthy agent.modelBindingId with
      | none => rfl
      | some id => simp [Option.filter, h.binding id hx]
    · by_cases hfast : agent.fastMode
      · obtain ⟨id, hid, hm⟩ := h.fastMode hfast
        rw [Option.mem_def.mp hid]
        simpa [issueWhen_eq_nil] using fun _ => hm
      · cases truthy agent.modelBindingId <;> simp [issueWhen_eq_nil, hfast]
    · simpa [List.filter_eq_nil_iff] using h.efforts

structure AgentConfig.Sound (refs : ConfigAssetValidationRefs) (skillNames : List String)
    (agent : AgentConfig) : Prop where
  models : agent.ModelsSound refs
  skills : ∀ name ∈ agent.skillNames, name ∈ skillNames
  tools : ∀ name ∈ agent.toolNames, name ∈ refs.enabledToolNames
  readsSkills : agent.skillNames ≠ [] → "read_skill" ∈ agent.toolNames

theorem findMissingAgentReferences_eq_nil :
    findMissingAgentReferences agents available select = [] ↔
      ∀ agent ∈ agents, ∀ name ∈ select agent, name ∈ available := by
  simp [findMissingAgentReferences, List.flatMap_eq_nil_iff, List.filter_eq_nil_iff]

theorem findAgentReferenceIssues_eq_nil :
    findAgentReferenceIssues refs agents skillNames = [] ↔
      ∀ agent ∈ agents, agent.Sound refs skillNames := by
  simp only [findAgentReferenceIssues, List.append_eq_nil_iff, List.map_eq_nil_iff,
    findMissingAgentReferences_eq_nil, List.flatMap_eq_nil_iff, List.filter_eq_nil_iff,
    findAgentModelReferenceIssues_eq_nil]
  constructor
  · rintro ⟨⟨⟨hm, hs⟩, ht⟩, hr⟩ agent ha
    exact ⟨hm agent ha, hs agent ha, ht agent ha, by simpa using hr agent ha⟩
  · intro h
    exact ⟨⟨⟨fun a ha => (h a ha).models, fun a ha => (h a ha).skills⟩, fun a ha => (h a ha).tools⟩,
      fun a ha => by simpa using (h a ha).readsSkills⟩

namespace AssetKindRegistry

variable {J : Type} {kinds : AssetKindRegistry J} {set : AssetSet J}

def Accepts (kinds : AssetKindRegistry J) (d : J) : AssetKindId → Prop
  | .agent => ∃ a, kinds.agent.readOne agentNameRule d = .ok a
  | .skill => ∃ a, kinds.skill.readOne skillNameRule d = .ok a

structure Sound (kinds : AssetKindRegistry J) (set : AssetSet J) : Prop where
  accepts : ∀ kind, ∀ d ∈ set.definitions kind, kinds.Accepts d kind
  names : ∀ kind, ((set.definitions kind).map kinds.readDefinitionName).Nodup
  default : HoldsDefault (kinds.names set .agent) set.defaultAgentName
  agents : ∀ agent ∈ kinds.agents set, agent.Sound kinds.validationRefs (kinds.names set .skill)

theorem names_map_some (h : ∀ d ∈ set.definitions kind, kinds.Accepts d kind) :
    (kinds.names set kind).map some = (set.definitions kind).map kinds.readDefinitionName := by
  cases kind with
  | agent => simpa [names, agents] using AssetKindSchema.accepted_names h
  | skill => simpa [names, skills] using AssetKindSchema.accepted_names h

theorem nodup_names (h : ∀ d ∈ set.definitions kind, kinds.Accepts d kind) :
    (kinds.names set kind).Nodup ↔ ((set.definitions kind).map kinds.readDefinitionName).Nodup := by
  rw [← names_map_some h]
  exact (List.nodup_map_iff fun _ _ => Option.some.inj).symm

theorem findAssetSetIssues_eq_nil : kinds.findAssetSetIssues set = [] ↔ kinds.Sound set := by
  have hrefused : ∀ kind, ((kinds.refused set kind).flatMap fun refused =>
      refused.issues.map fun issue => (⟨issue.message, some kind, refused.name, some refused.index,
        issue.path⟩ : AssetSetIssue)) = [] ↔
      ∀ d ∈ set.definitions kind, kinds.Accepts d kind := by
    intro kind
    cases kind <;> exact AssetKindSchema.refused_issues_eq_nil
  simp only [findAssetSetIssues, List.append_eq_nil_iff, List.map_eq_nil_iff,
    findDefaultAgentReferenceIssues_eq_nil, findAgentReferenceIssues_eq_nil,
    List.flatMap_eq_nil_iff (l := AssetKindId.all), AssetKindId.mem_all, true_implies,
    findDuplicates_eq_nil, hrefused]
  constructor
  · rintro ⟨⟨⟨ha, hn⟩, hd⟩, hr⟩
    exact ⟨ha, fun kind => (nodup_names (ha kind)).mp (hn kind), hd, hr⟩
  · intro h
    exact ⟨⟨⟨h.accepts, fun kind => (nodup_names (h.accepts kind)).mpr (h.names kind)⟩, h.default⟩,
      h.agents⟩

theorem Sound.skill_mem {agent : AgentConfig} (h : kinds.Sound set) (ha : agent ∈ kinds.agents set)
    (hn : name ∈ agent.skillNames) :
    ∃ d ∈ set.definitions .skill, kinds.readDefinitionName d = some name := by
  have hm := (h.agents agent ha).skills name hn
  obtain ⟨skill, hs, rfl⟩ := List.mem_map.mp hm
  obtain ⟨d, hd, hr⟩ := AssetKindSchema.mem_accepted.mp hs
  exact ⟨d, hd, AssetKindSchema.readOne_name hr⟩

end AssetKindRegistry

namespace AssetSet

variable {J : Type} {s t : AssetSet J} {kinds : AssetKindRegistry J}

structure Same (s t : AssetSet J) : Prop where
  default : s.defaultAgentName = t.defaultAgentName
  definitions : ∀ kind, (s.definitions kind).Perm (t.definitions kind)

theorem Same.names (h : s.Same t) (kind : AssetKindId) :
    (kinds.names s kind).Perm (kinds.names t kind) := by
  cases kind with
  | agent => exact ((h.definitions .agent).filterMap _).map _
  | skill => exact ((h.definitions .skill).filterMap _).map _

theorem Same.agents (h : s.Same t) : (kinds.agents s).Perm (kinds.agents t) :=
  (h.definitions .agent).filterMap _

theorem Same.sound (h : s.Same t) (hs : kinds.Sound s) : kinds.Sound t where
  accepts kind d hd := hs.accepts kind d ((h.definitions kind).mem_iff.mpr hd)
  names kind := ((h.definitions kind).map _).nodup_iff.mp (hs.names kind)
  default := by
    have hd := hs.default
    rw [h.default] at hd
    cases hc : t.defaultAgentName with
    | none =>
      rw [hc] at hd
      exact (List.perm_nil.mp (hd ▸ (h.names .agent).symm))
    | some name =>
      rw [hc] at hd
      exact (h.names .agent).mem_iff.mp hd
  agents agent ha := by
    have hs := hs.agents agent (h.agents.mem_iff.mpr ha)
    exact ⟨hs.models, fun n hn => (h.names .skill).mem_iff.mp (hs.skills n hn), hs.tools,
      hs.readsSkills⟩

end AssetSet

end Catalyst.Assets
