import Mathlib
import Catalyst.Assets.Bundle

/-!
# A change by a caller who reads a part

A caller's change is checked against a view of the stored set that leaves unread assets out, against the
readable part alone, and against the stored set as a whole. What the caller would not be refused for among
readable assets is told as one sentence that names nothing.
-/

namespace Catalyst.Assets

open Library

variable {J : Type}

-- -----------------
-- The view of a caller
-- -----------------

structure StoredAssets (J : Type) where
  assets : List (ConfigAssetRecord J)
  defaultAgentName : Option String

def StoredAssets.set (stored : StoredAssets J) : AssetSet J := assetSetOf stored.assets stored.defaultAgentName

structure ReferableAssets (J : Type) where
  /-- What a definition of the caller is resolved against. -/
  set : AssetSet J
  /-- The assets the caller may read, and no other. -/
  readable : AssetSet J
  /-- Nothing was left out of `set`. -/
  complete : Bool

structure WrittenAsset where
  scope : AssetScope
  name : Option String

/-- `findNamespaceOfAssetName`: the prefix of the first Namespace that the name begins with. -/
def namespaceOfName (namespaces : List String) (name : String) : Option String :=
  namespaces.find? fun start => start.toList.isPrefixOf name.toList

def loadReferableAssets (isReadable : ConfigAssetRecord J → Bool) (listNamespaceRecords : List String)
    (stored : StoredAssets J) (written : WrittenAsset) : ReferableAssets J :=
  if stored.assets.all isReadable then ⟨stored.set, stored.set, true⟩
  else
    let namespaces := if written.scope = .ofInstance then listNamespaceRecords else []
    let ofWritten := written.name.bind (namespaceOfName namespaces)
    let isNeighbour (asset : ConfigAssetRecord J) : Bool :=
      ofWritten.isSome ∧ asset.scope = written.scope ∧ namespaceOfName namespaces asset.key.2 = ofWritten
    let isInstanceDefault (asset : ConfigAssetRecord J) : Bool :=
      some asset.key.2 = stored.defaultAgentName ∧ asset.key.1 = .agent
    ⟨assetSetOf (stored.assets.filter fun asset => isReadable asset || isNeighbour asset || isInstanceDefault asset)
        stored.defaultAgentName,
      assetSetOf (stored.assets.filter isReadable) stored.defaultAgentName, false⟩

def withDefinition (readName : J → Option String) (set : AssetSet J) (key : AssetKey) (definition : J) : AssetSet J :=
  ⟨set.defaultAgentName, Function.update set.definitions key.1
    ((set.definitions key.1).filter (readName · ≠ some key.2) ++ [definition])⟩

/-- `JSON.stringify([message, path])`. An issue of the set as a whole has no path. -/
abbrev IssueKey := String × Option (List String)

def AssetSetIssue.stringKey (issue : AssetSetIssue) : IssueKey := (issue.message, issue.assetKind.map fun _ => issue.path)

def AssetSetIssue.assetKey? (issue : AssetSetIssue) : Option AssetKey :=
  issue.assetKind.bind fun kind => issue.assetName.map (kind, ·)

def unreadAssetIssue : AssetSetIssue := { message := "The change would break an asset the caller may not read" }

/-- The issues of a definition that the change writes, and of the others those that come on top of `before`. -/
def newIssues (changed : List AssetKey) (before : IssueKey → Int) : List AssetSetIssue → List AssetSetIssue
  | [] => []
  | issue :: issues =>
    match issue.assetKey? with
    | some key => if key ∈ changed then issue :: newIssues changed before issues else newIssues changed before issues
    | none =>
      let count := before issue.stringKey
      let rest := newIssues changed (Function.update before issue.stringKey (count - 1)) issues
      if count ≤ 0 then issue :: rest else rest

def countKeys (issues : List AssetSetIssue) (key : IssueKey) : Nat := issues.countP (·.stringKey = key)

namespace AssetKindRegistry

variable (kinds : AssetKindRegistry J)

def issuesOfChange (view : ReferableAssets J) (change : AssetSet J → AssetSet J) (changed : List AssetKey) :
    List AssetSetIssue :=
  newIssues changed (fun key => countKeys (kinds.findAssetSetIssues view.set) key) (kinds.findAssetSetIssues (change view.set))

def toldIssues (view : ReferableAssets J) (change : AssetSet J → AssetSet J) (changed : List AssetKey) : List AssetSetIssue :=
  let amongReadable := (kinds.findAssetSetIssues (change view.readable)).map AssetSetIssue.stringKey
  (kinds.issuesOfChange view change changed).filter (·.stringKey ∈ amongReadable)

def findIssuesOfChange (stored : AssetSet J) (view : ReferableAssets J) (change : AssetSet J → AssetSet J)
    (changed : List AssetKey) : List AssetSetIssue :=
  let told := kinds.toldIssues view change changed
  if told.length < (kinds.issuesOfChange view change changed).length ∨
      ∃ issue ∈ kinds.findAssetSetIssues (change stored), issue.stringKey ∉ told.map AssetSetIssue.stringKey then
    told ++ [unreadAssetIssue]
  else told

def RefusedFor (stored : AssetSet J) (view : ReferableAssets J) (change : AssetSet J → AssetSet J) (changed : List AssetKey)
    (key : IssueKey) : Prop :=
  (∃ issue ∈ kinds.issuesOfChange view change changed, issue.stringKey = key) ∨
    ∃ issue ∈ kinds.findAssetSetIssues (change stored), issue.stringKey = key

variable {kinds} {stored stored' : AssetSet J} {view view' : ReferableAssets J} {change : AssetSet J → AssetSet J}
  {changed : List AssetKey}

theorem findIssuesOfChange_nil : kinds.findIssuesOfChange stored view change changed = [] ↔
    kinds.issuesOfChange view change changed = [] ∧ kinds.findAssetSetIssues (change stored) = [] := by
  unfold findIssuesOfChange
  constructor
  · intro h
    dsimp only at h
    split_ifs at h with huntold
    · exact absurd h (List.append_ne_nil_of_right_ne_nil _ (List.cons_ne_nil _ _))
    · rw [h] at huntold
      push Not at huntold
      refine ⟨List.eq_nil_of_length_eq_zero (Nat.le_zero.mp huntold.1), List.eq_nil_iff_forall_not_mem.mpr fun issue hissue => ?_⟩
      exact List.not_mem_nil (huntold.2 issue hissue)
  · rintro ⟨hview, hstored⟩
    simp [toldIssues, hview, hstored]

theorem mem_findIssuesOfChange (h : issue ∈ kinds.findIssuesOfChange stored view change changed) :
    issue ∈ kinds.toldIssues view change changed ∨ issue = unreadAssetIssue := by
  unfold findIssuesOfChange at h
  dsimp only at h
  split_ifs at h
  · exact (List.mem_append.mp h).imp_right List.mem_singleton.mp
  · exact .inl h

theorem toldIssues_readable (h : issue ∈ kinds.toldIssues view change changed) :
    ∃ readable ∈ kinds.findAssetSetIssues (change view.readable), readable.stringKey = issue.stringKey :=
  List.mem_map.mp (of_decide_eq_true (List.mem_filter.mp h).2)

theorem findIssuesOfChange_told (stored : AssetSet J) (view : ReferableAssets J) (change : AssetSet J → AssetSet J)
    (changed : List AssetKey) : kinds.findIssuesOfChange stored view change changed = kinds.toldIssues view change changed ∨
      kinds.findIssuesOfChange stored view change changed = kinds.toldIssues view change changed ++ [unreadAssetIssue] := by
  unfold findIssuesOfChange
  dsimp only
  split_ifs
  · exact .inr rfl
  · exact .inl rfl

theorem toldIssues_congr (hset : view.set = view'.set) (hreadable : view.readable = view'.readable) :
    kinds.toldIssues view change changed = kinds.toldIssues view' change changed := by
  simp only [toldIssues, issuesOfChange, hset, hreadable]

end AssetKindRegistry

theorem exists_newIssues {changed : List AssetKey} {before : IssueKey → Int} {issues : List AssetSetIssue} (message : String) :
    (∃ issue ∈ newIssues changed before issues, issue.stringKey = (message, none)) ↔
      0 < countKeys issues (message, none) ∧ before (message, none) < countKeys issues (message, none) := by
  induction issues generalizing before with
  | nil => simp [newIssues, countKeys]
  | cons issue issues ih =>
    by_cases hkey : issue.stringKey = (message, none)
    · have hnone : issue.assetKey? = none := by
        have hkind : issue.assetKind = none := Option.map_eq_none_iff.mp (congrArg Prod.snd hkey)
        rw [AssetSetIssue.assetKey?, hkind, Option.bind_none]
      have hcount : countKeys (issue :: issues) (message, none) = countKeys issues (message, none) + 1 :=
        List.countP_cons_of_pos (by simpa using hkey)
      rw [newIssues, hnone, hcount]
      dsimp only
      rw [hkey]
      split_ifs with hle
      · refine iff_of_true ⟨issue, List.mem_cons_self, hkey⟩ ⟨Nat.succ_pos _, ?_⟩
        push_cast
        omega
      · rw [ih, Function.update_self]
        push_cast
        omega
    · have hcount : countKeys (issue :: issues) (message, none) = countKeys issues (message, none) :=
        List.countP_cons_of_neg (by simpa using hkey)
      rw [newIssues, hcount]
      cases hasset : issue.assetKey? with
      | some key =>
        dsimp only
        split_ifs
        · rw [← @ih before]
          simp [hkey]
        · exact ih
      | none =>
        dsimp only
        have hother : Function.update before issue.stringKey (before issue.stringKey - 1) (message, none) = before (message, none) :=
          Function.update_of_ne (Ne.symm hkey) _ _
        split_ifs
        · rw [← hother, ← ih]
          simp [hkey]
        · rw [← hother, ← ih]

inductive AgentReference where
  | skill (name : String)
  | tool (name : String)
  | provider (id : String)
  | binding (id : String)

def AgentReference.message (agentName : String) : AgentReference → String
  | .skill name => s!"Agent '{agentName}' references missing skill '{name}'"
  | .tool name => s!"Agent '{agentName}' references unavailable tool '{name}'"
  | .provider id => s!"Agent '{agentName}' references missing model provider '{id}'"
  | .binding id => s!"Agent '{agentName}' references missing model binding '{id}'"

def AgentReference.CarriedBy (agent : AgentConfig) : AgentReference → Prop
  | .skill name => name ∈ agent.skillNames
  | .tool name => name ∈ agent.toolNames
  | .provider id => id ∈ truthy agent.modelProviderId
  | .binding id => id ∈ truthy agent.modelBindingId

def AgentReference.Found (refs : ConfigAssetValidationRefs) (skillNames : List String) : AgentReference → Prop
  | .skill name => name ∈ skillNames
  | .tool name => name ∈ refs.enabledToolNames
  | .provider id => id ∈ refs.modelProviderIds
  | .binding id => id ∈ refs.modelBindingIds

variable {refs : ConfigAssetValidationRefs} {skillNames : List String} {agent : AgentConfig} {reference : AgentReference}

theorem AgentConfig.Sound.found (h : agent.Sound refs skillNames) (hcarried : reference.CarriedBy agent) :
    reference.Found refs skillNames := by
  cases reference with
  | skill name => exact h.skills name hcarried
  | tool name => exact h.tools name hcarried
  | provider id => exact h.models.provider id hcarried
  | binding id => exact h.models.binding id hcarried

theorem count_referenceIssues_append (message : String) (agents agents' : List AgentConfig) :
    (findAgentReferenceIssues refs (agents ++ agents') skillNames).count message =
      (findAgentReferenceIssues refs agents skillNames).count message +
        (findAgentReferenceIssues refs agents' skillNames).count message := by
  simp only [findAgentReferenceIssues, findMissingAgentReferences, List.flatMap_append, List.filter_append, List.map_append,
    List.count_append]
  omega

theorem count_referenceIssues_filter (message : String) (p : AgentConfig → Bool) (agents : List AgentConfig) :
    (findAgentReferenceIssues refs agents skillNames).count message =
      (findAgentReferenceIssues refs (agents.filter p) skillNames).count message +
        (findAgentReferenceIssues refs (agents.filter (!p ·)) skillNames).count message := by
  induction agents with
  | nil => rfl
  | cons agent agents ih =>
    rw [← List.singleton_append, List.filter_append, List.filter_append, count_referenceIssues_append,
      count_referenceIssues_append, count_referenceIssues_append, ih]
    cases hp : p agent
    · simp [hp, findAgentReferenceIssues, findMissingAgentReferences]
      omega
    · simp [hp, findAgentReferenceIssues, findMissingAgentReferences]
      omega

theorem mem_issueWhen {c : Prop} [Decidable c] {text message : String} : text ∈ issueWhen c message ↔ c ∧ text = message := by
  by_cases h : c <;> simp [issueWhen, h]

/-- The model settings of an agent are told of a reference only where it leads to nothing. -/
theorem message_mem_models (skillNames : List String)
    (h : reference.message agent.name ∈ findAgentModelReferenceIssues refs agent) : ¬reference.Found refs skillNames := by
  simp only [findAgentModelReferenceIssues, List.mem_append, mem_issueWhen, List.mem_map, Option.mem_toList,
    Option.filter_eq_some_iff, List.mem_filter, decide_eq_true_eq] at h
  obtain (((⟨-, h⟩ | ⟨id, ⟨-, hid⟩, h⟩) | ⟨id, ⟨-, hid⟩, h⟩) | h) | ⟨id, -, h⟩ := h
  · cases reference <;> simp [AgentReference.message, String.ext_iff, toString] at h
  · cases reference with
    | provider id' =>
      obtain rfl : id = id' := by simpa [AgentReference.message, String.ext_iff, toString] using h
      exact hid
    | _ => simp [AgentReference.message, String.ext_iff, toString] at h
  · cases reference with
    | binding id' =>
      obtain rfl : id = id' := by simpa [AgentReference.message, String.ext_iff, toString] using h
      exact hid
    | _ => simp [AgentReference.message, String.ext_iff, toString] at h
  · split at h
    · obtain ⟨-, h⟩ := mem_issueWhen.mp h
      cases reference <;> simp [AgentReference.message, String.ext_iff, toString] at h
    · obtain ⟨-, h⟩ := mem_issueWhen.mp h
      cases reference <;> simp [AgentReference.message, String.ext_iff, toString] at h
  · cases reference <;> simp [AgentReference.message, String.ext_iff, toString] at h

theorem message_mem (h : reference.message agent.name ∈ findAgentReferenceIssues refs [agent] skillNames) :
    ¬reference.Found refs skillNames := by
  simp only [findAgentReferenceIssues, findMissingAgentReferences, List.flatMap_singleton, List.mem_append, List.mem_map,
    List.mem_filter, decide_eq_true_eq, exists_exists_and_eq_and, List.mem_singleton] at h
  obtain ((h | ⟨name, ⟨-, hname⟩, h⟩) | ⟨name, ⟨-, hname⟩, h⟩) | ⟨agent, ⟨rfl, -⟩, h⟩ := h
  · exact message_mem_models skillNames h
  · cases reference with
    | skill name' =>
      obtain rfl : name = name' := by simpa [AgentReference.message, String.ext_iff, toString] using h
      exact hname
    | _ => simp [AgentReference.message, String.ext_iff, toString] at h
  · cases reference with
    | tool name' =>
      obtain rfl : name = name' := by simpa [AgentReference.message, String.ext_iff, toString] using h
      exact hname
    | _ => simp [AgentReference.message, String.ext_iff, toString] at h
  · cases reference <;> simp [AgentReference.message, String.ext_iff, toString] at h

theorem count_skill {name : String} (hmissing : name ∉ skillNames) :
    (findAgentReferenceIssues refs [agent] skillNames).count ((AgentReference.skill name).message agent.name) =
      agent.skillNames.count name := by
  have hmodels : (AgentReference.skill name).message agent.name ∉ findAgentModelReferenceIssues refs agent := fun h =>
    message_mem_models [name] h (List.mem_singleton_self name)
  have htools : (AgentReference.skill name).message agent.name ∉
      (agent.toolNames.filter (· ∉ refs.enabledToolNames)).map fun tool => s!"Agent '{agent.name}' references unavailable tool '{tool}'" := by
    simp [AgentReference.message, String.ext_iff, toString]
  have hreads : (AgentReference.skill name).message agent.name ∉ ([agent].filter fun agent =>
      agent.skillNames ≠ [] ∧ "read_skill" ∉ agent.toolNames).map fun agent =>
        s!"Agent '{agent.name}' references skills but does not allow 'read_skill'" := by
    simp [AgentReference.message, String.ext_iff, toString]
  have hskills : ((agent.skillNames.filter (· ∉ skillNames)).map fun skill =>
      s!"Agent '{agent.name}' references missing skill '{skill}'").count ((AgentReference.skill name).message agent.name) =
        agent.skillNames.count name := by
    have hinjective : Function.Injective fun skill : String => s!"Agent '{agent.name}' references missing skill '{skill}'" :=
      fun skill skill' he => by simpa [String.ext_iff, toString] using he
    rw [AgentReference.message, List.count_map_of_injective _ _ hinjective, List.count_filter (by simpa using hmissing)]
  simp only [findAgentReferenceIssues, findMissingAgentReferences, List.flatMap_singleton, List.map_map, List.count_append]
  rw [List.count_eq_zero_of_not_mem hmodels, List.count_eq_zero_of_not_mem hreads]
  simp only [Function.comp_def]
  rw [hskills, List.count_eq_zero_of_not_mem htools]
  simp

theorem count_skills {name agentName : String} {agents : List AgentConfig} (hmissing : name ∉ skillNames)
    (hname : ∀ agent ∈ agents, agent.name = agentName) :
    (findAgentReferenceIssues refs agents skillNames).count ((AgentReference.skill name).message agentName) =
      (agents.flatMap AgentConfig.skillNames).count name := by
  induction agents with
  | nil => rfl
  | cons agent agents ih =>
    obtain ⟨rfl, hagents⟩ := List.forall_mem_cons.mp hname
    rw [← List.singleton_append, count_referenceIssues_append, count_skill hmissing, ih hagents, List.flatMap_append,
      List.flatMap_singleton, List.count_append]

theorem count_found {agentName : String} {agents : List AgentConfig} (hfound : reference.Found refs skillNames)
    (hname : ∀ agent ∈ agents, agent.name = agentName) :
    (findAgentReferenceIssues refs agents skillNames).count (reference.message agentName) = 0 := by
  induction agents with
  | nil => rfl
  | cons agent agents ih =>
    obtain ⟨rfl, hagents⟩ := List.forall_mem_cons.mp hname
    rw [← List.singleton_append, count_referenceIssues_append, ih hagents, add_zero]
    exact List.count_eq_zero_of_not_mem fun h => message_mem h hfound

-- -----------------
-- The references of a written agent
-- -----------------

variable {kinds : AssetKindRegistry J} {set : AssetSet J} {definition : J} {written : AgentConfig}

/-- The issues of a set that name an agent and what it refers to are those of its agents. -/
theorem countKeys_reference (kinds : AssetKindRegistry J) (set : AssetSet J) (reference : AgentReference) (agentName : String) :
    countKeys (kinds.findAssetSetIssues set) (reference.message agentName, none) =
      (findAgentReferenceIssues kinds.validationRefs (kinds.agents set) (kinds.names set .skill)).count
        (reference.message agentName) := by
  have hrefused : countKeys (AssetKindId.all.flatMap fun kind => (kinds.refused set kind).flatMap fun refused =>
      refused.issues.map fun issue => (⟨issue.message, some kind, refused.name, some refused.index, issue.path⟩ : AssetSetIssue))
      (reference.message agentName, none) = 0 := by
    refine List.countP_eq_zero.mpr fun issue hissue => ?_
    simp only [List.mem_flatMap, List.mem_map] at hissue
    obtain ⟨kind, -, refused, -, issue, -, rfl⟩ := hissue
    simp [AssetSetIssue.stringKey]
  have hduplicates : countKeys (AssetKindId.all.flatMap fun kind => (findDuplicates (kinds.names set kind)).map fun duplicate =>
      ({ message := s!"Duplicate {kind.text} definitions: {duplicate}" } : AssetSetIssue)) (reference.message agentName, none) = 0 := by
    refine List.countP_eq_zero.mpr fun issue hissue => ?_
    simp only [List.mem_flatMap, List.mem_map] at hissue
    obtain ⟨kind, -, duplicate, -, rfl⟩ := hissue
    cases reference <;> simp [AssetSetIssue.stringKey, AgentReference.message, String.ext_iff, toString]
  have hdefault : countKeys ((findDefaultAgentReferenceIssues (kinds.names set .agent) set.defaultAgentName).map
      fun message => ({ message := message } : AssetSetIssue)) (reference.message agentName, none) = 0 := by
    refine List.countP_eq_zero.mpr fun issue hissue => ?_
    obtain ⟨message, hmessage, rfl⟩ := List.mem_map.mp hissue
    unfold findDefaultAgentReferenceIssues at hmessage
    split at hmessage
    · cases hmessage
    · obtain rfl := List.mem_singleton.mp hmessage
      cases reference <;> simp [AssetSetIssue.stringKey, AgentReference.message, String.ext_iff, toString]
    · obtain rfl := List.mem_singleton.mp hmessage
      cases reference <;> simp [AssetSetIssue.stringKey, AgentReference.message, String.ext_iff, toString]
    · split_ifs at hmessage
      · cases hmessage
      · obtain rfl := List.mem_singleton.mp hmessage
        cases reference <;> simp [AssetSetIssue.stringKey, AgentReference.message, String.ext_iff, toString]
  unfold countKeys at hrefused hduplicates hdefault ⊢
  rw [AssetKindRegistry.findAssetSetIssues, List.countP_append, List.countP_append, List.countP_append, hrefused, hduplicates,
    hdefault, List.countP_map, List.count]
  simp [AssetSetIssue.stringKey, Function.comp_def, beq_eq_decide]

theorem accepted_filter {α : Type} {readName : J → Option String} {name : α → String}
    (schema : AssetKindSchema J α readName name) (rule : AssetNameRule) (n : String) (inputs : List J) :
    schema.accepted rule (inputs.filter (readName · ≠ some n)) = (schema.accepted rule inputs).filter (name · ≠ n) := by
  rw [AssetKindSchema.accepted, AssetKindSchema.accepted, List.filterMap_filter, List.filter_filterMap]
  refine List.filterMap_congr fun d _ => ?_
  cases hread : schema.readOne rule d with
  | error e => simp [Except.toOption]
  | ok a =>
    rw [AssetKindSchema.readOne_name hread]
    by_cases hname : name a = n <;> simp [Except.toOption, Option.filter_some, hname]

theorem agents_withDefinition (hread : kinds.agent.readOne agentNameRule definition = .ok written) (agentName : String) :
    kinds.agents (withDefinition kinds.readDefinitionName set (.agent, agentName) definition) =
      (kinds.agents set).filter (·.name ≠ agentName) ++ [written] := by
  rw [AssetKindRegistry.agents, withDefinition]
  dsimp only
  rw [Function.update_self, AssetKindRegistry.agents, ← accepted_filter]
  simp [AssetKindSchema.accepted, hread, Except.toOption]

theorem skillNames_withDefinition (agentName : String) :
    kinds.names (withDefinition kinds.readDefinitionName set (.agent, agentName) definition) .skill = kinds.names set .skill := by
  simp only [AssetKindRegistry.names, AssetKindRegistry.skills, withDefinition]
  rw [Function.update_of_ne (by decide)]

def agentsNamed (kinds : AssetKindRegistry J) (set : AssetSet J) (agentName : String) : List AgentConfig :=
  (kinds.agents set).filter (·.name = agentName)

/-- How a reference that is written looks in the view: its skill is there, or the agent that is there names it as often. -/
def AgentReference.KeptIn (kinds : AssetKindRegistry J) (set : AssetSet J) (written : AgentConfig) : AgentReference → Prop
  | .skill name => name ∈ kinds.names set .skill ∨
      written.skillNames.count name ≤ ((agentsNamed kinds set written.name).flatMap AgentConfig.skillNames).count name
  | _ => True

def writtenAgent (kinds : AssetKindRegistry J) (agentName : String) (definition : J) (set : AssetSet J) : AssetSet J :=
  withDefinition kinds.readDefinitionName set (.agent, agentName) definition

theorem countKeys_written (hread : kinds.agent.readOne agentNameRule definition = .ok written) (set : AssetSet J)
    (reference : AgentReference) : ∃ others,
    countKeys (kinds.findAssetSetIssues set) (reference.message written.name, none) =
      (findAgentReferenceIssues kinds.validationRefs (agentsNamed kinds set written.name) (kinds.names set .skill)).count
        (reference.message written.name) + others ∧
    countKeys (kinds.findAssetSetIssues (writtenAgent kinds written.name definition set)) (reference.message written.name, none) =
      (findAgentReferenceIssues kinds.validationRefs [written] (kinds.names set .skill)).count
        (reference.message written.name) + others := by
  refine ⟨(findAgentReferenceIssues kinds.validationRefs ((kinds.agents set).filter fun agent => !decide (agent.name = written.name))
    (kinds.names set .skill)).count (reference.message written.name), ?_, ?_⟩
  · rw [countKeys_reference, count_referenceIssues_filter _ (·.name = written.name)]
    rfl
  · rw [countKeys_reference, writtenAgent, agents_withDefinition hread, skillNames_withDefinition,
      count_referenceIssues_append, add_comm]
    simp

theorem written_new (hread : kinds.agent.readOne agentNameRule definition = .ok written) (view : ReferableAssets J)
    (hfound : ∀ skillNames, (∀ name, reference ≠ .skill name) → reference.Found kinds.validationRefs skillNames) :
    (∃ issue ∈ kinds.issuesOfChange view (writtenAgent kinds written.name definition) [(.agent, written.name)],
      issue.stringKey = (reference.message written.name, none)) ↔ ¬reference.KeptIn kinds view.set written := by
  obtain ⟨others, hbefore, hafter⟩ := countKeys_written hread view.set reference
  rw [AssetKindRegistry.issuesOfChange, exists_newIssues, hbefore, hafter]
  have hnamed : ∀ agent ∈ agentsNamed kinds view.set written.name, agent.name = written.name := fun agent hagent =>
    of_decide_eq_true (List.mem_filter.mp hagent).2
  have hself : ∀ agent ∈ [written], agent.name = written.name := fun agent hagent => List.mem_singleton.mp hagent ▸ rfl
  by_cases hin : reference.Found kinds.validationRefs (kinds.names view.set .skill)
  · have hkept : reference.KeptIn kinds view.set written := by
      cases reference with
      | skill name => exact .inl hin
      | _ => trivial
    rw [count_found hin hnamed, count_found hin hself]
    exact iff_of_false (by omega) (not_not.mpr hkept)
  · cases reference with
    | skill name =>
      rw [count_skills hin hnamed, count_skill hin, AgentReference.KeptIn]
      simp only [not_or, not_le]
      have hmissing : name ∉ kinds.names view.set .skill := hin
      rw [and_iff_right hmissing]
      omega
    | _ => exact absurd (hfound _ fun name he => by cases he) hin

theorem written_stored {stored : AssetSet J} (hsound : kinds.Sound stored) (hagent : agent ∈ kinds.agents stored)
    (hcarried : reference.CarriedBy agent) (hread : kinds.agent.readOne agentNameRule definition = .ok written) :
    ¬∃ issue ∈ kinds.findAssetSetIssues (writtenAgent kinds written.name definition stored),
      issue.stringKey = (reference.message written.name, none) := by
  have hfound := (hsound.agents agent hagent).found hcarried
  have hcount : countKeys (kinds.findAssetSetIssues (writtenAgent kinds written.name definition stored))
      (reference.message written.name, none) = 0 := by
    have hnone : findAgentReferenceIssues kinds.validationRefs
        ((kinds.agents stored).filter (·.name ≠ written.name)) (kinds.names stored .skill) = [] :=
      findAgentReferenceIssues_eq_nil.mpr fun other hother => hsound.agents other (List.mem_of_mem_filter hother)
    have hself : ∀ agent ∈ [written], agent.name = written.name := fun agent hagent => List.mem_singleton.mp hagent ▸ rfl
    rw [countKeys_reference, writtenAgent, agents_withDefinition hread, skillNames_withDefinition,
      count_referenceIssues_append, hnone, count_found hfound hself]
    rfl
  rintro ⟨issue, hissue, hkey⟩
  exact (List.countP_eq_zero.mp hcount) issue hissue (decide_eq_true hkey)

/-- A change without an issue leaves a stored set without one; what is told, but for the one sentence, is an issue
among the readable assets; the answers over two stored sets with one view differ at most in that sentence; and on a
stored set without issues a written agent is not refused for a reference it carried exactly when the view has the
skill, or has the agent with the reference as often. -/
theorem findIssuesOfChange_iff (kinds : AssetKindRegistry J) (isReadable : ConfigAssetRecord J → Bool)
    (namespaces : List String) (stored : StoredAssets J) (written : WrittenAsset) :
    (∀ change changed,
      kinds.findIssuesOfChange stored.set (loadReferableAssets isReadable namespaces stored written) change changed = [] →
        kinds.findAssetSetIssues (change stored.set) = []) ∧
    (∀ change changed, ∀ issue ∈ kinds.findIssuesOfChange stored.set
        (loadReferableAssets isReadable namespaces stored written) change changed, issue = unreadAssetIssue ∨
      ∃ readable ∈ kinds.findAssetSetIssues (change (loadReferableAssets isReadable namespaces stored written).readable),
        readable.stringKey = issue.stringKey) ∧
    (∀ (isReadable' : ConfigAssetRecord J → Bool) (namespaces' : List String) (stored' : StoredAssets J)
        (written' : WrittenAsset) (change : AssetSet J → AssetSet J) (changed : List AssetKey),
      (loadReferableAssets isReadable namespaces stored written).set =
        (loadReferableAssets isReadable' namespaces' stored' written').set →
      (loadReferableAssets isReadable namespaces stored written).readable =
        (loadReferableAssets isReadable' namespaces' stored' written').readable →
      ∃ told, (kinds.findIssuesOfChange stored.set (loadReferableAssets isReadable namespaces stored written) change changed = told ∨
          kinds.findIssuesOfChange stored.set (loadReferableAssets isReadable namespaces stored written) change changed =
            told ++ [unreadAssetIssue]) ∧
        (kinds.findIssuesOfChange stored'.set (loadReferableAssets isReadable' namespaces' stored' written') change changed = told ∨
          kinds.findIssuesOfChange stored'.set (loadReferableAssets isReadable' namespaces' stored' written') change changed =
            told ++ [unreadAssetIssue])) ∧
    ∀ definition agent agent' reference, kinds.findAssetSetIssues stored.set = [] → agent ∈ kinds.agents stored.set →
      AgentReference.CarriedBy agent reference → kinds.agent.readOne agentNameRule definition = .ok agent' →
      (¬kinds.RefusedFor stored.set (loadReferableAssets isReadable namespaces stored written)
          (writtenAgent kinds agent'.name definition) [(.agent, agent'.name)] (reference.message agent'.name, none) ↔
        reference.KeptIn kinds (loadReferableAssets isReadable namespaces stored written).set agent') := by
  refine ⟨fun change changed h => (AssetKindRegistry.findIssuesOfChange_nil.mp h).2, fun change changed issue hissue => ?_,
    fun _ _ stored' _ change changed hset hreadable => ?_, fun definition agent agent' reference hnone hagent hcarried hread => ?_⟩
  · exact (AssetKindRegistry.mem_findIssuesOfChange hissue).symm.imp_right AssetKindRegistry.toldIssues_readable
  · refine ⟨_, AssetKindRegistry.findIssuesOfChange_told _ _ _ _, ?_⟩
    rw [AssetKindRegistry.toldIssues_congr hset hreadable]
    exact AssetKindRegistry.findIssuesOfChange_told _ _ _ _
  · have hsound := AssetKindRegistry.findAssetSetIssues_eq_nil.mp hnone
    have hfound (skillNames : List String) (hskill : ∀ name, reference ≠ .skill name) :
        reference.Found kinds.validationRefs skillNames := by
      have hin := (hsound.agents agent hagent).found hcarried
      cases reference with
      | skill name => exact absurd rfl (hskill name)
      | _ => exact hin
    rw [AssetKindRegistry.RefusedFor, written_new hread _ hfound, or_iff_left (written_stored hsound hagent hcarried hread),
      not_not]

namespace Example

/-- Two agents, of which `a` has the skill, and the skill. -/
def wired : StoredAssets Definition where
  assets := [⟨agentKey, .ofInstance, 1, some (Example.agent ["s"])⟩,
    ⟨(.agent, "b"), .ofInstance, 1, some (.inl ⟨"b", none, none, false, [], [], [], []⟩)⟩,
    ⟨skillKey, .ofInstance, 1, some skill⟩]
  defaultAgentName := some "b"

def allBut (keys : List AssetKey) (asset : ConfigAssetRecord Definition) : Bool := asset.key ∉ keys

end Example

/-- The stored set has no issue, and the agent is written as it is by a caller who may not read it, or with its
reference twice by one who may not read the skill: both are refused for the reference that the agent had. -/
theorem kept_reference_refused :
    Example.kinds.findAssetSetIssues Example.wired.set = [] ∧
    Example.kinds.findIssuesOfChange Example.wired.set
        (loadReferableAssets (Example.allBut [Example.agentKey, Example.skillKey]) [] Example.wired ⟨.ofInstance, some "a"⟩)
        (writtenAgent Example.kinds "a" (Example.agent ["s"])) [Example.agentKey] =
      [{ message := "Agent 'a' references missing skill 's'" }] ∧
    Example.kinds.findIssuesOfChange Example.wired.set
        (loadReferableAssets (Example.allBut [Example.skillKey]) [] Example.wired ⟨.ofInstance, some "a"⟩)
        (writtenAgent Example.kinds "a" (Example.agent ["s", "s"])) [Example.agentKey] =
      [{ message := "Agent 'a' references missing skill 's'" }] := by
  decide

end Catalyst.Assets
