import Catalyst.Core
import Catalyst.Library.Check
import Mathlib.Data.List.Nodup

/-!
# Sets of configuration assets

An asset set holds the active definitions of an instance, agents and skills, as
the store has them. `findAssetSetIssues` reads them with the kinds' schemas and
says what the set would have to change before it can be written.

What a schema accepts beyond the fields read here belongs to the schema library,
so the two schemas are parameters; an accepted definition keeps its name.
-/

namespace Catalyst.Assets

open Library

inductive AssetKindId
  | agent | skill
  deriving DecidableEq

def AssetKindId.text : AssetKindId → String
  | .agent => "agent"
  | .skill => "skill"

def AssetKindId.all : List AssetKindId := [.agent, .skill]

theorem AssetKindId.mem_all (kind : AssetKindId) : kind ∈ all := by cases kind <;> simp [all]

theorem AssetKindId.forall_iff {P : AssetKindId → Prop} : (∀ kind, P kind) ↔ P .agent ∧ P .skill :=
  ⟨fun h => ⟨h _, h _⟩, fun h kind => by cases kind <;> simp [h]⟩

/-- The fields of an agent that its checks read. -/
structure AgentConfig where
  name : String
  modelProviderId : Option String
  modelBindingId : Option String
  fastMode : Bool
  userSelectableModelBindingIds : List String
  /-- The bindings it sets an effort for. -/
  modelReasoningEfforts : List String
  toolNames : List String
  skillNames : List String
  deriving DecidableEq

structure SkillConfig where
  name : String
  deriving DecidableEq

structure AssetValidationIssue where
  message : String
  path : List String
  deriving DecidableEq

/-- A kind's schema over raw definitions `J`, of which `readName` reads the name. -/
structure AssetKindSchema (J α : Type) (readName : J → Option String) (name : α → String) where
  safeParse : J → Except (List AssetValidationIssue) α
  keeps_name : safeParse d = .ok a → readName d = some (name a)
  says_why : safeParse d = .error issues → issues ≠ []

structure AssetNameRule where
  pattern : List Char → Bool
  description : String

def isAsciiLetter (c : Char) : Bool := ('A' ≤ c && c ≤ 'Z') || ('a' ≤ c && c ≤ 'z')

def isSkillNameChar (c : Char) : Bool :=
  isAsciiLetter c || ('0' ≤ c && c ≤ '9') || c == '_' || c == '.' || c == '-'

def agentNameRule : AssetNameRule where
  pattern name := !name.isEmpty
  description := "Agent name must not be empty"

def skillNameRule : AssetNameRule where
  pattern
    | [] => false
    | c :: name => isAsciiLetter c && name.all isSkillNameChar
  description :=
    "Skill name must start with a letter and contain only letters, numbers, dots, underscores, or hyphens"

def assetNameIssue (rule : AssetNameRule) (name : String) : Option AssetValidationIssue :=
  if rule.pattern name.toList then none else some ⟨rule.description, ["name"]⟩

structure ConfigAssetValidationRefs where
  modelProviderIds : List String
  modelBindingIds : List String
  fastModeModelBindingIds : List String
  enabledToolNames : List String
  deriving DecidableEq

@[ext] structure AssetSet (J : Type) where
  defaultAgentName : Option String
  definitions : AssetKindId → List J

instance [DecidableEq J] : DecidableEq (AssetSet J) := fun s t =>
  decidable_of_iff (s.defaultAgentName = t.defaultAgentName ∧
    s.definitions .agent = t.definitions .agent ∧ s.definitions .skill = t.definitions .skill) <| by
    rw [AssetSet.ext_iff, funext_iff, AssetKindId.forall_iff]

structure AssetSetIssue where
  message : String
  assetKind : Option AssetKindId := none
  assetName : Option String := none
  index : Option Nat := none
  path : List String := []
  deriving DecidableEq

structure AssetKindRegistry (J : Type) where
  readDefinitionName : J → Option String
  agent : AssetKindSchema J AgentConfig readDefinitionName AgentConfig.name
  skill : AssetKindSchema J SkillConfig readDefinitionName SkillConfig.name
  validationRefs : ConfigAssetValidationRefs
  /-- The instance's own rules for a write: the set, and the one it replaces. -/
  validateWrite : AssetSet J → AssetSet J → Except AppError (List AssetSetIssue)

structure RefusedAssetDefinition where
  index : Nat
  name : Option String
  issues : List AssetValidationIssue
  deriving DecidableEq

namespace AssetKindSchema

variable {J α : Type} {readName : J → Option String} {name : α → String}
variable (schema : AssetKindSchema J α readName name) (rule : AssetNameRule)

def readOne (input : J) : Except (Option String × List AssetValidationIssue) α :=
  match schema.safeParse input with
  | .error issues => .error (readName input, issues)
  | .ok parsed =>
    match assetNameIssue rule (name parsed) with
    | some issue => .error (some (name parsed), [issue])
    | none => .ok parsed

def accepted (inputs : List J) : List α := inputs.filterMap fun d => (schema.readOne rule d).toOption

def refused (inputs : List J) : List RefusedAssetDefinition :=
  inputs.zipIdx.filterMap fun (d, index) =>
    match schema.readOne rule d with
    | .error (name, issues) => some ⟨index, name, issues⟩
    | .ok _ => none

end AssetKindSchema

/-- Adds the values that come again to `duplicates`, each once. -/
def collectDuplicates (seen duplicates : List String) : List String → List String
  | [] => duplicates
  | value :: values =>
    collectDuplicates (value :: seen)
      (if value ∈ seen ∧ value ∉ duplicates then duplicates ++ [value] else duplicates) values

def findDuplicates (values : List String) : List String := collectDuplicates [] [] values

def findDefaultAgentReferenceIssues (agentNames : List String) (defaultAgentName : Option String) :
    List String :=
  match agentNames, defaultAgentName with
  | [], none => []
  | [], some _ => ["defaultAgentName must be unset when no agents are defined"]
  | _ :: _, none => ["defaultAgentName must be set when agents are defined"]
  | _ :: _, some name =>
    if name ∈ agentNames then [] else [s!"Default agent '{name}' is not defined"]

def truthy (text : Option String) : Option String := text.filter (· ≠ "")

def issueWhen (c : Prop) [Decidable c] (message : String) : List String :=
  if c then [message] else []

def findAgentModelReferenceIssues (refs : ConfigAssetValidationRefs) (agent : AgentConfig) :
    List String :=
  let provider := truthy agent.modelProviderId
  let binding := truthy agent.modelBindingId
  issueWhen (provider.isSome ∧ binding.isSome)
      s!"Agent '{agent.name}' must use either modelProviderId or modelBindingId, not both" ++
  ((provider.filter (· ∉ refs.modelProviderIds)).toList.map fun id =>
    s!"Agent '{agent.name}' references missing model provider '{id}'") ++
  ((binding.filter (· ∉ refs.modelBindingIds)).toList.map fun id =>
    s!"Agent '{agent.name}' references missing model binding '{id}'") ++
  (match binding with
    | some id => issueWhen (agent.fastMode ∧ id ∉ refs.fastModeModelBindingIds)
        s!"Agent '{agent.name}' enables fastMode, but model binding '{id}' does not support fast mode"
    | none => issueWhen agent.fastMode
        s!"Agent '{agent.name}' enables fastMode without a model binding that supports fast mode") ++
  (agent.modelReasoningEfforts.filter (· ∉ agent.userSelectableModelBindingIds)).map fun id =>
    s!"Agent '{agent.name}' sets modelReasoningEfforts for '{id}', which is not in its userSelectableModelBindingIds"

def findMissingAgentReferences (agents : List AgentConfig) (availableNames : List String)
    (selectReferences : AgentConfig → List String) : List (AgentConfig × String) :=
  agents.flatMap fun agent =>
    ((selectReferences agent).filter (· ∉ availableNames)).map (agent, ·)

def findAgentReferenceIssues (refs : ConfigAssetValidationRefs) (agents : List AgentConfig)
    (skillNames : List String) : List String :=
  agents.flatMap (findAgentModelReferenceIssues refs) ++
  ((findMissingAgentReferences agents skillNames AgentConfig.skillNames).map fun (agent, name) =>
    s!"Agent '{agent.name}' references missing skill '{name}'") ++
  ((findMissingAgentReferences agents refs.enabledToolNames AgentConfig.toolNames).map
    fun (agent, name) => s!"Agent '{agent.name}' references unavailable tool '{name}'") ++
  (agents.filter fun agent => agent.skillNames ≠ [] ∧ "read_skill" ∉ agent.toolNames).map fun agent =>
    s!"Agent '{agent.name}' references skills but does not allow 'read_skill'"

namespace AssetKindRegistry

variable {J : Type} (kinds : AssetKindRegistry J)

def agents (set : AssetSet J) : List AgentConfig :=
  kinds.agent.accepted agentNameRule (set.definitions .agent)

def skills (set : AssetSet J) : List SkillConfig :=
  kinds.skill.accepted skillNameRule (set.definitions .skill)

def names (set : AssetSet J) : AssetKindId → List String
  | .agent => (kinds.agents set).map AgentConfig.name
  | .skill => (kinds.skills set).map SkillConfig.name

def refused (set : AssetSet J) : AssetKindId → List RefusedAssetDefinition
  | .agent => kinds.agent.refused agentNameRule (set.definitions .agent)
  | .skill => kinds.skill.refused skillNameRule (set.definitions .skill)

/-- Every kind's schema and name issues, then doubled names, then the instance default, then
the agents' references; a skill refers to nothing. -/
def findAssetSetIssues (set : AssetSet J) : List AssetSetIssue :=
  (AssetKindId.all.flatMap fun kind => (kinds.refused set kind).flatMap fun refused =>
    refused.issues.map fun issue =>
      ⟨issue.message, some kind, refused.name, some refused.index, issue.path⟩) ++
  (AssetKindId.all.flatMap fun kind => (findDuplicates (kinds.names set kind)).map fun duplicate =>
    { message := s!"Duplicate {kind.text} definitions: {duplicate}" }) ++
  (findDefaultAgentReferenceIssues (kinds.names set .agent) set.defaultAgentName).map
    (fun message => { message := message }) ++
  (findAgentReferenceIssues kinds.validationRefs (kinds.agents set) (kinds.names set .skill)).map
    fun message => { message := message }

def invalidAssetSet : AppError := ⟨.validationFailed, "Config asset bundle is invalid"⟩

def validateAssetSet (set stored : AssetSet J) : Except AppError Unit := do
  Check.require (kinds.findAssetSetIssues set = []) invalidAssetSet
  let writeIssues ← kinds.validateWrite set stored
  Check.require (writeIssues = []) invalidAssetSet

end AssetKindRegistry

end Catalyst.Assets
