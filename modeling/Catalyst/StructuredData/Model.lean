import Catalyst.Library.Check
import Catalyst.Library.Processes
import Mathlib

/-!
# Structured data of a conversation

`structured_data.publish` replaces or patches one resource. A patch is computed from the resource
as it was read, and a publication stores the whole state it is given as the next revision.
-/

namespace Catalyst.StructuredData

open Library Library.Check

inductive FieldValue
  | text (value : String)
  | number (value : String)
  | boolean (value : Bool)
  | null
  deriving DecidableEq

structure StructuredDataFieldSource where
  attachmentId : String
  page : Option Nat
  deriving DecidableEq

inductive AttentionReason
  | uncertain | conflicting
  deriving DecidableEq

structure StructuredDataFieldAttention where
  reason : AttentionReason
  message : Option String
  deriving DecidableEq

structure StructuredDataField where
  key : String
  label : String
  value : FieldValue
  sources : Option (List StructuredDataFieldSource)
  attention : Option StructuredDataFieldAttention
  deriving DecidableEq

structure StructuredDataSection where
  key : String
  label : String
  fields : List StructuredDataField
  deriving DecidableEq

structure StructuredDataState where
  title : String
  sections : List StructuredDataSection
  deriving DecidableEq

structure StructuredDataResourceRecord where
  title : String
  state : StructuredDataState
  revision : Nat
  deriving DecidableEq

structure KeysUnique (sections : List StructuredDataSection) : Prop where
  nodup : (sections.map (·.key)).Nodup
  fields_nodup : ∀ s ∈ sections, (s.fields.map (·.key)).Nodup

instance (sections : List StructuredDataSection) : Decidable (KeysUnique sections) :=
  decidable_of_iff ((sections.map (·.key)).Nodup ∧ ∀ s ∈ sections, (s.fields.map (·.key)).Nodup)
    ⟨fun h => ⟨h.1, h.2⟩, fun h => ⟨h.1, h.2⟩⟩

structure SourceInput where
  fileId : String
  page : Option Nat
  deriving DecidableEq

structure ReplaceField where
  key : String
  label : String
  value : FieldValue
  sources : Option (List SourceInput)
  attention : Option StructuredDataFieldAttention
  deriving DecidableEq

structure ReplaceSection where
  key : String
  label : String
  fields : List ReplaceField
  deriving DecidableEq

/-- `replaceInputSchema`, which takes each key of a section, and of a field in it, once. -/
structure ReplaceInput where
  title : String
  sections : List ReplaceSection
  sections_nodup : (sections.map (·.key)).Nodup
  fields_nodup : ∀ s ∈ sections, (s.fields.map (·.key)).Nodup
  deriving DecidableEq

/-- `attention` is absent, `null` or given. -/
structure PatchSet where
  sectionKey : String
  fieldKey : String
  value : FieldValue
  label : Option String
  sources : Option (List SourceInput)
  attention : Option (Option StructuredDataFieldAttention)
  deriving DecidableEq

structure PatchRemove where
  sectionKey : String
  fieldKey : String
  deriving DecidableEq

structure Patch where
  set : List PatchSet
  remove : List PatchRemove
  deriving DecidableEq

inductive PublishInput
  | replace (input : ReplaceInput)
  | patch (input : Patch)
  deriving DecidableEq

def PublishInput.sourceFileIds : PublishInput → List String
  | .replace input => (input.sections.flatMap fun s => s.fields.flatMap fun f => (f.sources.getD []).map (·.fileId)).dedup
  | .patch input => (input.set.flatMap fun set => (set.sources.getD []).map (·.fileId)).dedup

inductive Refusal
  | toolFailed (message : String)
  | thrown (message : String)
  deriving DecidableEq

abbrev AttachmentIds := List (String × String)

def AttachmentIds.get? (ids : AttachmentIds) (fileId : String) : Option String :=
  (ids.reverse.find? (·.1 = fileId)).map Prod.snd

def mapSource (ids : AttachmentIds) (source : SourceInput) : Except Refusal StructuredDataFieldSource := do
  let attachmentId ← need (ids.get? source.fileId) (.thrown s!"Source attachment {source.fileId} is missing")
  return ⟨attachmentId, source.page⟩

def mapSources (ids : AttachmentIds) :
    Option (List SourceInput) → Except Refusal (Option (List StructuredDataFieldSource))
  | none => .ok none
  | some sources => do return some (← sources.mapM (mapSource ids))

def replaceField (ids : AttachmentIds) (field : ReplaceField) : Except Refusal StructuredDataField := do
  let sources ← mapSources ids field.sources
  return ⟨field.key, field.label, field.value, sources, field.attention⟩

def replaceSection (ids : AttachmentIds) (s : ReplaceSection) : Except Refusal StructuredDataSection := do
  let fields ← s.fields.mapM (replaceField ids)
  return ⟨s.key, s.label, fields⟩

def replaced (ids : AttachmentIds) (input : ReplaceInput) : Except Refusal StructuredDataState := do
  let sections ← input.sections.mapM (replaceSection ids)
  return ⟨input.title, sections⟩

/-- What a `set` makes of the field it names. -/
def PatchSet.update (set : PatchSet) (sources : Option (List StructuredDataFieldSource)) (field : StructuredDataField) :
    StructuredDataField :=
  { field with
    value := set.value
    label := set.label.getD field.label
    sources := if set.sources.isSome then sources else field.sources
    attention := set.attention.getD field.attention }

def PatchSet.added (set : PatchSet) (sources : Option (List StructuredDataFieldSource)) : StructuredDataField :=
  ⟨set.fieldKey, set.label.getD set.fieldKey, set.value, sources, set.attention.getD none⟩

def setField (set : PatchSet) (sources : Option (List StructuredDataFieldSource)) :
    List StructuredDataField → List StructuredDataField
  | [] => [set.added sources]
  | field :: fields =>
    if field.key = set.fieldKey then set.update sources field :: fields else field :: setField set sources fields

/-- `sections.find` and a change of the fields of what it found. -/
def changeFirst (key : String) (change : List StructuredDataField → List StructuredDataField) :
    List StructuredDataSection → List StructuredDataSection
  | [] => []
  | s :: sections =>
    if s.key = key then { s with fields := change s.fields } :: sections else s :: changeFirst key change sections

def setIn (ids : AttachmentIds) (set : PatchSet) (sections : List StructuredDataSection) :
    Except Refusal (List StructuredDataSection) := do
  let _ ← need (sections.find? (·.key = set.sectionKey))
    (.toolFailed s!"Structured data section '{set.sectionKey}' does not exist")
  let sources ← mapSources ids set.sources
  return changeFirst set.sectionKey (setField set sources) sections

def removeIn (sections : List StructuredDataSection) (remove : PatchRemove) : List StructuredDataSection :=
  changeFirst remove.sectionKey (·.filter (·.key ≠ remove.fieldKey)) sections

def setAll (ids : AttachmentIds) :
    List PatchSet → List StructuredDataSection → Except Refusal (List StructuredDataSection)
  | [], sections => .ok sections
  | set :: sets, sections => do
    let sections ← setIn ids set sections
    setAll ids sets sections

def kept (sections : List StructuredDataSection) : List StructuredDataSection :=
  sections.filter fun s => 0 < s.fields.length

def patched (ids : AttachmentIds) (patch : Patch) (current : StructuredDataState) :
    Except Refusal StructuredDataState := do
  let sections ← setAll ids patch.set current.sections
  let sections := kept (patch.remove.foldl removeIn sections)
  require (¬ sections.any (64 < ·.fields.length))
    (.toolFailed "Structured data sections may contain at most 64 fields")
  return ⟨current.title, sections⟩

structure Db where
  resourceKey : String
  resource : Option StructuredDataResourceRecord
  sent : AttachmentIds
  deriving DecidableEq

/-- `publishStructuredDataResource` inserts the row or writes over it. -/
def Db.publish (db : Db) (title : String) (state : StructuredDataState) : StructuredDataResourceRecord :=
  match db.resource with
  | none => ⟨title, state, 1⟩
  | some resource => ⟨title, state, resource.revision + 1⟩

inductive Basis
  | replacement
  | patch (patch : Patch) (read : StructuredDataState)
  deriving DecidableEq

structure Publication where
  basis : Basis
  title : String
  state : StructuredDataState
  deriving DecidableEq

inductive Call
  | started (input : PublishInput)
  | reading (patch : Patch) (ids : AttachmentIds)
  | publishing (publication : Publication)
  deriving DecidableEq

inductive Answer
  | refused (refusal : Refusal)
  | published (basis : Basis) (revision : Nat)
  deriving DecidableEq

def sourceAttachmentIds (db : Db) (input : PublishInput) : Except Refusal AttachmentIds :=
  match input.sourceFileIds.find? fun fileId => (db.sent.get? fileId).isNone with
  | some fileId => .error (.toolFailed s!"File '{fileId}' is not a sent attachment of this conversation")
  | none => .ok (if input.sourceFileIds = [] then [] else db.sent)

def prepared (db : Db) (input : PublishInput) : Except Refusal Call := do
  let ids ← sourceAttachmentIds db input
  match input with
  | .replace input => return .publishing ⟨.replacement, input.title, ← replaced ids input⟩
  | .patch patch => return .reading patch ids

def patchedCurrent (db : Db) (patch : Patch) (ids : AttachmentIds) : Except Refusal Call := do
  let current ← need db.resource (.toolFailed
    s!"Structured data resource '{db.resourceKey}' does not exist; use operation \"replace\" first")
  return .publishing ⟨.patch patch current.state, current.title, ← patched ids patch current.state⟩

def goesOn (db : Db) : Except Refusal Call → Option Answer × Option Call × Db
  | .ok call => (none, some call, db)
  | .error refusal => (some (.refused refusal), none, db)

def step (db : Db) : Call → Option Answer × Option Call × Db
  | .started input => goesOn db (prepared db input)
  | .reading patch ids => goesOn db (patchedCurrent db patch ids)
  | .publishing w =>
    let resource := db.publish w.title w.state
    (some (.published w.basis resource.revision), none, { db with resource := some resource })

structure Sends where
  sent : AttachmentIds
  deriving DecidableEq

def calls : Processes Db PublishInput Call Sends Answer where
  start := .started
  blocks _ _ := False
  step := step
  env db e := (none, { db with sent := e.sent })

instance : ∀ p q, Decidable (calls.blocks p q) := fun _ _ => .isFalse id

def publishing (allowed : Pool Db Call → Move PublishInput Sends → Prop) :
    Machine (Pool Db Call) (Move PublishInput Sends) (Option Answer) :=
  calls.machine (fun db => ∀ r ∈ db.resource, KeysUnique r.state.sections) allowed

end Catalyst.StructuredData
