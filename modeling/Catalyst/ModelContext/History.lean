import Mathlib.Data.List.Dedup
import Catalyst.Library.JsText
import Catalyst.ModelContext.Messages

/-!
# Earlier messages as the model sees them

Decisions on approvals are moved to the next turn of the user. Each stored
message becomes one of the model's, and a last pass leaves out what is
incomplete of the tool protocol: calls without all their results, and results
without their call.
-/

namespace Catalyst.ModelContext

inductive DecisionStatus where
  | approved | rejected | changesRequested | superseded | withdrawn | reverted
  deriving DecidableEq

def DecisionStatus.text : DecisionStatus → String
  | .approved => "approved"
  | .rejected => "rejected"
  | .changesRequested => "changes_requested"
  | .superseded => "superseded"
  | .withdrawn => "withdrawn"
  | .reverted => "reverted"

structure ApprovalDecision where
  requestId : String
  requestKind : String
  status : DecisionStatus
  decidedBy : String
  decidedByLabel : String
  decidedAt : String
  summary : String
  comment : Option String
  requestedBy : Option String
  deriving DecidableEq

/-- What the model is told of an attachment: a text under a heading, and the type
of an image it may see. -/
structure AttachmentEntry where
  fileId : String
  filename : String
  mimeType : Option String
  modelVisibility : Option String
  modelContext : Option (String × String)
  deriving DecidableEq

inductive MessageMetadata where
  | approvalDecision (decision : ApprovalDecision)
  | userMessage (attachments : List AttachmentEntry)
  | assistantToolCalls (toolCalls : List ModelToolCall)
  | assistantFinal (cancelled : Bool)
  | toolResult (toolCallId result modelOutput : String)
  deriving DecidableEq

inductive ChatMessageRole where
  | user | assistant | system | tool
  deriving DecidableEq

structure ChatMessage where
  role : ChatMessageRole
  text : String
  metadata : Option MessageMetadata
  deriving DecidableEq

def ChatMessage.decision? (message : ChatMessage) : Option ApprovalDecision :=
  match message.metadata with
  | some (.approvalDecision decision) => some decision
  | _ => none

def ChatMessage.isDecision (message : ChatMessage) : Bool := message.decision?.isSome

abbrev FileReader := String → Option (List UInt8 × Option String)

/-- `toolResultText` is the model's text of a stored tool result, when the stored
value is a result at all. -/
structure ProjectionOptions where
  fileReader : Option FileReader
  toolResultText : String → Option String

def isSupportedImageMimeType (value : String) : Bool :=
  value ∈ ["image/png", "image/jpeg", "image/webp", "image/gif"]

def groupAttachmentModelContext (attachments : List AttachmentEntry) : List (String × List String) :=
  (attachments.filterMap (·.modelContext)).foldl (fun groups entry =>
    if groups.any (·.1 = entry.1) then
      groups.map fun group => if group.1 = entry.1 then (group.1, group.2 ++ [entry.2]) else group
    else groups ++ [(entry.1, [entry.2])]) []

def appendAttachmentManifestForModel (text : String) (attachments : List AttachmentEntry) : String :=
  if attachments = [] then text
  else "\n".intercalate (text ::
    (groupAttachmentModelContext attachments).flatMap fun group => "" :: s!"[{group.1}]" :: group.2)

def projectUserAttachmentImages (fileReader : Option FileReader) (attachments : List AttachmentEntry) :
    List ModelImage :=
  match fileReader with
  | none => []
  | some readFile => attachments.filterMap fun attachment => do
    let visible ← attachment.modelVisibility
    let (bytes, stored) ← readFile attachment.fileId
    let mimeType := (stored.or attachment.mimeType).getD visible
    if isSupportedImageMimeType mimeType ∧ mimeType = visible then
      some ⟨mimeType, bytes, some (.userAttachment attachment.filename)⟩
    else none

def createUserMessageContent (text : String) (attachments : List AttachmentEntry) (options : ProjectionOptions) :
    ModelContent :=
  let projectedText := appendAttachmentManifestForModel text attachments
  match projectUserAttachmentImages options.fileReader attachments with
  | [] => .text projectedText
  | images => .parts (.text projectedText :: images.map .image)

inductive RevisionOwner where
  | requester | reviewer
  deriving DecidableEq

def approvalRevisionOwner (event : ApprovalDecision) : Option RevisionOwner :=
  if event.status ≠ .changesRequested then none
  else if event.requestedBy.any (· ≠ event.decidedBy) then some .reviewer
  else some .requester

def jsonText (text : String) : String := String.ofList (Library.Js.stringify text.toList)

def approvalDecisionNote (event : ApprovalDecision) : String :=
  let outcome :=
    if event.status = .approved then " The change is now active."
    else match approvalRevisionOwner event with
      | some .reviewer =>
        " The reviewer has taken over the revision and submits the revised proposal themselves. " ++
          "Do NOT submit a revised proposal in this conversation unless the user explicitly asks for one."
      | some .requester =>
        " When the user continues, submit a revised proposal addressing the requested changes."
      | none => if event.status = .reverted then " The approved change has been reverted." else ""
  let comment := match event.comment.filter (· ≠ "") with
    | some comment => " Comment: " ++ jsonText comment
    | none => ""
  s!"Approval request {event.requestId} ({event.requestKind}: " ++ jsonText event.summary ++ ") was " ++
    event.status.text ++ " by " ++ jsonText event.decidedByLabel ++ s!" at {event.decidedAt}." ++ outcome ++ comment

def cancelledMarker : String :=
  "[Assistant response stopped by the user before completion. Treat the text above as incomplete.]"

def appendAssistantFinalStatusForModel (text : String) (metadata : Option MessageMetadata) : String :=
  if metadata ≠ some (.assistantFinal true) then text
  else if text.toList.any fun c => !Library.Js.isWhitespace c then s!"{text}\n\n{cancelledMarker}"
  else cancelledMarker

def readAssistantToolCalls (metadata : Option MessageMetadata) : Option (List ModelToolCall) :=
  match metadata with
  | some (.assistantToolCalls []) => none
  | some (.assistantToolCalls toolCalls) => some toolCalls
  | _ => none

def readUserAttachments (metadata : Option MessageMetadata) : List AttachmentEntry :=
  match metadata with
  | some (.userMessage attachments) => attachments
  | _ => []

def toModelHistoryMessage (options : ProjectionOptions) (message : ChatMessage) : Option ModelMessage :=
  match message.decision? with
  | some decision => some (.system (.text (approvalDecisionNote decision)))
  | none =>
    match message.role with
    | .user => some (.user (createUserMessageContent message.text (readUserAttachments message.metadata) options))
    | .system => some (.system (.text message.text))
    | .assistant => some (.assistant
        (.text (appendAssistantFinalStatusForModel message.text message.metadata))
        (readAssistantToolCalls message.metadata))
    | .tool =>
      match message.metadata with
      | some (.toolResult toolCallId result modelOutput) =>
        some (.tool (.text ((options.toolResultText result).getD modelOutput)) toolCallId)
      | _ => none

/-- The loop of `orderApprovalDecisionsForModel`, with the decisions that wait for
the next turn of the user. -/
def orderFrom (decisions : List ChatMessage) : List ChatMessage → List ChatMessage
  | [] => decisions
  | message :: rest =>
    if message.isDecision then orderFrom (decisions ++ [message]) rest
    else if message.role = .user then decisions ++ message :: orderFrom [] rest
    else message :: orderFrom decisions rest

def orderApprovalDecisionsForModel (messages : List ChatMessage) : List ChatMessage := orderFrom [] messages

/-- The results right behind a message with calls, each of another call of it, and
what follows them. The loop ends with the last call answered. -/
def takeResults (expected seen : List String) : List ModelMessage → List ModelMessage × List ModelMessage
  | .tool content toolCallId :: rest =>
    if toolCallId ∉ expected ∨ toolCallId ∈ seen then ([], .tool content toolCallId :: rest)
    else if (toolCallId :: seen).length = expected.length then ([.tool content toolCallId], rest)
    else
      let (results, after) := takeResults expected (toolCallId :: seen) rest
      (.tool content toolCallId :: results, after)
  | messages => ([], messages)

theorem length_takeResults_le : (takeResults expected seen messages).2.length ≤ messages.length := by
  induction messages generalizing seen with
  | nil => simp [takeResults]
  | cons message rest ih =>
    cases message with
    | tool content toolCallId =>
      rw [takeResults]
      split_ifs
      · exact Nat.le_refl _
      · exact Nat.le_succ _
      · exact Nat.le_succ_of_le ih
    | _ => simp [takeResults]

def removeIncompleteToolContext : List ModelMessage → List ModelMessage
  | [] => []
  | .tool _ _ :: rest => removeIncompleteToolContext rest
  | .assistant content (some (call :: calls)) :: rest =>
    let expected := ((call :: calls).map (·.toolCallId)).dedup
    let taken := takeResults expected [] rest
    if taken.1.length = expected.length then
      .assistant content (some (call :: calls)) :: taken.1 ++ removeIncompleteToolContext taken.2
    else (if hasTextContent content then [.assistant content none] else []) ++ removeIncompleteToolContext taken.2
  | message :: rest => message :: removeIncompleteToolContext rest
termination_by messages => messages.length
decreasing_by
  · exact Nat.lt_succ_self _
  · exact Nat.lt_succ_of_le length_takeResults_le
  · exact Nat.lt_succ_of_le length_takeResults_le
  · exact Nat.lt_succ_self _

def projectAgentVisibleHistory (options : ProjectionOptions) (messages : List ChatMessage) : List ModelMessage :=
  removeIncompleteToolContext ((orderApprovalDecisionsForModel messages).filterMap (toModelHistoryMessage options))

end Catalyst.ModelContext
