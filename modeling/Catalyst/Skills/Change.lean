import Mathlib
import Catalyst.Library.JsText
import Catalyst.Skills.Headings

/-!
# Changes of a skill

A list of operations is applied to a copy of the skill, each to what the ones before it left, and
the preview says of each what it changes. The first operation that is refused refuses the list.
-/

namespace Catalyst.Skills

open Library

structure SkillResource where
  path : Text
  mediaType : Text
  content : Text
  deriving DecidableEq

structure SkillConfig where
  name : Text
  title : Text
  description : Text
  content : Text
  resources : Option (List SkillResource) := none
  deriving DecidableEq

inductive SkillChangeTarget
  | root
  | resource (path : Text)
  deriving DecidableEq

inductive SkillChangeOperation
  | replaceText (target : SkillChangeTarget) (oldText newText : Text)
  | appendText (target : SkillChangeTarget) (sectionHeading : Option Text) (text : Text)
  | createResource (resourcePath content : Text)
  | createSkill (name title description content : Text)
  deriving DecidableEq

inductive SkillChangePreviewChange
  | replace (target : SkillChangeTarget) (before after : Text)
  | add (target : SkillChangeTarget) (sectionHeading : Option Text) (after : Text)
  | newResource (target after : Text)
  deriving DecidableEq

structure NewSkill where
  name : Text
  title : Text
  description : Text
  content : Text
  deriving DecidableEq

structure SkillChangePreview where
  skillName : Text
  skillTitle : Text
  isNewSkill : Bool
  changes : List SkillChangePreviewChange
  newSkill : Option NewSkill
  deriving DecidableEq

/-- Why a list is refused. -/
inductive SkillChangeFailure
  | invalidOperations
  | alreadyExists (name : Text)
  | noTargetSkill
  | resourceExists (path : Text)
  | unsupportedExtension (path : Text)
  | noTargetResource (path : Text)
  | notExactlyOnce (target : SkillChangeTarget)
  | noHeading (heading : Text)
  | ambiguousHeading (heading : Text)
  | rootTooLong
  | tooManyResources
  | resourceTooLong (path : Text)
  | invalidSkill
  deriving DecidableEq

def maxOperationText : Nat := 20000

def maxContent : Nat := 60000

def maxResources : Nat := 30

/-- `text.length` -/
def unitLength (text : Text) : Nat := (Js.utf16 text).length

/-- `path.toLowerCase()` and the like. -/
abbrev LowerCase := Text → Text

def isAsciiLetter (c : Char) : Bool := ('A' ≤ c && c ≤ 'Z') || ('a' ≤ c && c ≤ 'z')

def skillNameOk : Text → Bool
  | [] => false
  | c :: name => isAsciiLetter c &&
      name.all fun c => isAsciiLetter c || ('0' ≤ c && c ≤ '9') || c ∈ ['_', '.', '-']

def isControl (c : Char) : Bool := c.toNat ≤ 0x1f || c.toNat = 0x7f

def skillMd : Text := "skill.md".toList

def resourcePathOk (lower : LowerCase) (path : Text) : Bool :=
  let segments := path.splitOn '/'
  path ≠ [] && path.head? ≠ some '/' && !(path.head?.any isAsciiLetter && path[1]? = some ':') &&
    '\\' ∉ path && !path.any isControl && segments.all (fun s => s ∉ [[], ['.'], ['.', '.']]) &&
    lower path ≠ skillMd && !('/' :: skillMd).isSuffixOf (lower path)

/-- `path.slice(path.lastIndexOf("."))`, which is the last character where there is no dot. -/
def extensionOf (path : Text) : Text :=
  if '.' ∈ path then '.' :: (path.reverse.takeWhile (· ≠ '.')).reverse else path.getLast?.toList

def skillResourceMediaTypeForPath (lower : LowerCase) (path : Text) : Option Text :=
  let extension := String.ofList (lower (extensionOf path))
  if extension = ".md" then some "text/markdown".toList
  else if extension = ".txt" then some "text/plain".toList
  else if extension = ".json" then some "application/json".toList
  else if extension = ".yaml" ∨ extension = ".yml" then some "application/yaml".toList
  else none

def textOk (text : Text) : Bool := unitLength text ≤ maxOperationText

def targetOk (lower : LowerCase) : SkillChangeTarget → Bool
  | .root => true
  | .resource path => resourcePathOk lower path

def operationOk (lower : LowerCase) : SkillChangeOperation → Bool
  | .replaceText target oldText newText =>
    targetOk lower target && oldText ≠ [] && textOk oldText && textOk newText
  | .appendText target heading text =>
    targetOk lower target && heading.all (fun h => h ≠ [] && textOk h) && text ≠ [] && textOk text
  | .createResource path content => resourcePathOk lower path && textOk content
  | .createSkill name title description content => skillNameOk name &&
      [title, description, content].all fun text => text ≠ [] && textOk text

def isCreateSkill : SkillChangeOperation → Bool
  | .createSkill _ _ _ _ => true
  | _ => false

def isCreateResource : SkillChangeOperation → Bool
  | .createResource _ _ => true
  | _ => false

/-- `skillChangeOperationsSchema`: a skill is created first, once, and with resources only. -/
def operationsOk (lower : LowerCase) (operations : List SkillChangeOperation) : Bool :=
  operations ≠ [] && operations.all (operationOk lower) &&
    (!operations.any isCreateSkill ||
      operations.head?.any isCreateSkill && operations.tail.all isCreateResource)

def resourceOk (lower : LowerCase) (resource : SkillResource) : Bool :=
  resourcePathOk lower resource.path && '\x00' ∉ resource.content &&
    skillResourceMediaTypeForPath lower resource.path = some resource.mediaType

/-- `skillConfigSchema` -/
def skillOk (lower : LowerCase) (skill : SkillConfig) : Bool :=
  let resources := skill.resources.getD []
  skillNameOk skill.name && skill.title ≠ [] && skill.description ≠ [] && skill.content ≠ [] &&
    resources.all (resourceOk lower) && decide (resources.map (lower ·.path)).Nodup

/-- `text.indexOf(needle)` -/
def indexOf (needle : Text) : Text → Option Nat
  | [] => if needle = [] then some 0 else none
  | c :: rest => if needle.isPrefixOf (c :: rest) then some 0 else (indexOf needle rest).map (· + 1)

/-- `text.indexOf(needle, from)` -/
def indexOfFrom (needle text : Text) (start : Nat) : Option Nat :=
  (indexOf needle (text.drop start)).map (· + start)

/-- `\r?\n` at the start of a text: what follows. -/
def lineEnd : Text → Option Text
  | '\n' :: rest => some rest
  | '\r' :: '\n' :: rest => some rest
  | _ => none

/-- `\r?\n[\t ]*\r?\n` at the start of a text: its length. -/
def breakLength (text : Text) : Option Nat :=
  ((lineEnd text).bind fun rest => lineEnd (rest.dropWhile fun c => c = '\t' ∨ c = ' ')).map
    fun rest => text.length - rest.length

/-- `content.matchAll(/\r?\n[\t ]*\r?\n/g)` from an index on: where the breaks begin and end. `skip`
characters are part of a break already. -/
def breaksFrom (index skip : Nat) : Text → List (Nat × Nat)
  | [] => []
  | c :: rest =>
    match skip, breakLength (c :: rest) with
    | 0, some length => (index, index + length) :: breaksFrom (index + 1) (length - 1) rest
    | _, _ => breaksFrom (index + 1) (skip - 1) rest

/-- The loop over the breaks: `found` is where the last break in front of `start` ends. -/
def boundsLoop (length start stop found : Nat) : List (Nat × Nat) → Nat × Nat
  | [] => (found, length)
  | (index, finish) :: breaks =>
    let found := if finish ≤ start then finish else found
    if stop ≤ index then (found, index) else boundsLoop length start stop found breaks

def paragraphBounds (content : Text) (start stop : Nat) : Nat × Nat :=
  boundsLoop content.length start stop 0 (breaksFrom 0 0 content)

def SkillConfig.textOf (skill : SkillConfig) : SkillChangeTarget → Option Text
  | .root => some skill.content
  | .resource path => ((skill.resources.getD []).find? (·.path = path)).map (·.content)

def setFirst (path content : Text) : List SkillResource → List SkillResource
  | [] => []
  | resource :: resources =>
    if resource.path = path then { resource with content := content } :: resources
    else resource :: setFirst path content resources

def SkillConfig.withText (skill : SkillConfig) (content : Text) : SkillChangeTarget → SkillConfig
  | .root => { skill with content := content }
  | .resource path => { skill with resources := skill.resources.map (setFirst path content) }

/-- `text.slice(start, stop)` -/
def sliceText (text : Text) (start stop : Nat) : Text := (text.take stop).drop start

def replaceIn (target : SkillChangeTarget) (oldText newText before : Text) :
    Except SkillChangeFailure (Text × SkillChangePreviewChange) :=
  match indexOf oldText before with
  | none => .error (.notExactlyOnce target)
  | some index =>
    if (indexOfFrom oldText before (index + 1)).isSome then .error (.notExactlyOnce target)
    else
      let after := before.take index ++ newText ++ before.drop (index + oldText.length)
      let bounds := paragraphBounds before index (index + oldText.length)
      .ok (after, .replace target (sliceText before bounds.1 bounds.2)
        (sliceText after bounds.1 (bounds.2 + newText.length - oldText.length)))

def appendIndex (heading : Option Text) (before : Text) : Except SkillChangeFailure Nat :=
  match heading with
  | none => .ok before.length
  | some heading => (sectionEnd before heading).mapError fun
    | .missing => .noHeading heading
    | .ambiguous => .ambiguousHeading heading

def endsWith (text suffix : Text) : Bool := suffix.isSuffixOf text

def gapBehind (front : Text) : Text :=
  if front ≠ [] ∧ ¬ endsWith front ['\n', '\n'] then
    if endsWith front ['\n'] then ['\n'] else ['\n', '\n']
  else []

def appendIn (target : SkillChangeTarget) (heading : Option Text) (text before : Text) :
    Except SkillChangeFailure (Text × SkillChangePreviewChange) := do
  let index ← appendIndex heading before
  let front := before.take index
  let behind := before.drop index
  return (front ++ gapBehind front ++ text ++ (if behind = [] then [] else ['\n', '\n']) ++ behind,
    .add target heading text)

def changeText (skill : SkillConfig) (target : SkillChangeTarget)
    (change : Text → Except SkillChangeFailure (Text × SkillChangePreviewChange)) :
    Except SkillChangeFailure (SkillConfig × List SkillChangePreviewChange) :=
  match skill.textOf target, target with
  | none, .resource path => .error (.noTargetResource path)
  | none, .root => .error .noTargetSkill
  | some before, target => do
    let (after, shown) ← change before
    return (skill.withText after target, [shown])

def applyOperation (lower : LowerCase) (skill : SkillConfig) :
    SkillChangeOperation → Except SkillChangeFailure (SkillConfig × List SkillChangePreviewChange)
  | .createSkill _ _ _ _ => .ok (skill, [])
  | .createResource path content =>
    if (skill.resources.getD []).any (fun resource => lower resource.path = lower path) then
      .error (.resourceExists path)
    else
      match skillResourceMediaTypeForPath lower path with
      | none => .error (.unsupportedExtension path)
      | some mediaType =>
        .ok ({ skill with resources := some (skill.resources.getD [] ++ [⟨path, mediaType, content⟩]) },
          [.newResource path content])
  | .replaceText target oldText newText => changeText skill target (replaceIn target oldText newText)
  | .appendText target heading text => changeText skill target (appendIn target heading text)

def checkLimits (skill : SkillConfig) : Except SkillChangeFailure Unit :=
  let resources := skill.resources.getD []
  if maxContent < unitLength skill.content then .error .rootTooLong
  else if maxResources < resources.length then .error .tooManyResources
  else
    match resources.find? (fun resource => maxContent < unitLength resource.content) with
    | some resource => .error (.resourceTooLong resource.path)
    | none => .ok ()

def stepOperation (lower : LowerCase) (skill : SkillConfig) (operation : SkillChangeOperation) :
    Except SkillChangeFailure (SkillConfig × List SkillChangePreviewChange) := do
  let (changed, shown) ← applyOperation lower skill operation
  checkLimits changed
  return (changed, shown)

def runOperations (lower : LowerCase) (skill : SkillConfig) :
    List SkillChangeOperation → Except SkillChangeFailure (SkillConfig × List SkillChangePreviewChange)
  | [] => .ok (skill, [])
  | operation :: operations => do
    let (changed, shown) ← stepOperation lower skill operation
    let (final, behind) ← runOperations lower changed operations
    return (final, shown ++ behind)

def startSkill (original : Option SkillConfig) (operations : List SkillChangeOperation) :
    Except SkillChangeFailure SkillConfig :=
  match operations.head?, original with
  | some (.createSkill _ _ _ _), some skill => .error (.alreadyExists skill.name)
  | some (.createSkill name title description content), none =>
    .ok { name := name, title := title, description := description, content := content }
  | _, some skill => .ok skill
  | _, none => .error .noTargetSkill

def evaluate (lower : LowerCase) (original : Option SkillConfig) (operations : List SkillChangeOperation) :
    Except SkillChangeFailure (SkillConfig × SkillChangePreview) := do
  if ¬ operationsOk lower operations then .error .invalidOperations
  else
    let skill ← startSkill original operations
    let (changed, changes) ← runOperations lower skill operations
    if ¬ skillOk lower changed then .error .invalidSkill
    else
      let isNew := operations.head?.any isCreateSkill
      return (changed,
        { skillName := skill.name
          skillTitle := skill.title
          isNewSkill := isNew
          changes := changes
          newSkill := if isNew then some ⟨skill.name, skill.title, skill.description, skill.content⟩ else none })

def applySkillChange (lower : LowerCase) (skill : Option SkillConfig) (operations : List SkillChangeOperation) :
    Except SkillChangeFailure SkillConfig :=
  (evaluate lower skill operations).map Prod.fst

def createSkillChangePreview (lower : LowerCase) (skill : Option SkillConfig)
    (operations : List SkillChangeOperation) : Except SkillChangeFailure SkillChangePreview :=
  (evaluate lower skill operations).map Prod.snd

end Catalyst.Skills
