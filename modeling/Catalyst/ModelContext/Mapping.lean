import Catalyst.ModelContext.Messages

/-!
# Messages in the two formats of a provider

The chat format keeps one message for each of the model's; the responses format
has items, with a call as an item of its own. Neither takes an image in a tool
result, so the images follow as a message of the user, behind the last result of
a run of results.
-/

namespace Catalyst.ModelContext

structure Encoding where
  base64 : List UInt8 → String
  base64url : String → String

variable (encoding : Encoding)

/-- A part of a content of the user, `text` or `input_text` and `image_url` or
`input_image` by the format. -/
inductive WirePart where
  | text (text : String)
  | imageUrl (url : String)
  deriving DecidableEq

inductive WireContent where
  | text (text : String)
  | parts (parts : List WirePart)
  deriving DecidableEq

def openaiResponsesStringMaxChars : Nat := 20971520

structure ImageInputs where
  count : Nat
  dataUrls : List String
  omittedCount : Nat

def imageDataUrlPrefix (image : ModelImage) : String := s!"data:{image.mimeType};base64,"

def imageDataUrlLength (image : ModelImage) : Nat :=
  (imageDataUrlPrefix image).length + (image.data.length + 2) / 3 * 4

def imageToDataUrl (image : ModelImage) : String := imageDataUrlPrefix image ++ encoding.base64 image.data

def toImageInputs (images : List ModelImage) : ImageInputs :=
  let dataUrls := (images.filter fun image => imageDataUrlLength image ≤ openaiResponsesStringMaxChars).map
    (imageToDataUrl encoding)
  ⟨images.length, dataUrls, images.length - dataUrls.length⟩

def omittedImagesNote (omittedCount : Nat) : String :=
  if omittedCount = 1 then "[1 image was too large to include in the model input and was left out.]"
  else s!"[{omittedCount} images were too large to include in the model input and were left out.]"

def withOmittedImagesNote (text : String) (omittedCount : Nat) : String :=
  if omittedCount = 0 then text
  else if text = "" then omittedImagesNote omittedCount
  else text ++ "\n\n" ++ omittedImagesNote omittedCount

/-- `toOpenAiChatContent` and `toOpenAiResponsesContent` -/
def toOpenAiContent (content : ModelContent) : WireContent :=
  let images := toImageInputs encoding (modelContentImages content)
  if images.count = 0 then .text (modelContentText content)
  else
    let text := withOmittedImagesNote (modelContentText content) images.omittedCount
    .parts ((if text = "" then [] else [.text text]) ++ images.dataUrls.map .imageUrl)

def visualContent (toolCallId : String) (images : ImageInputs) : WireContent :=
  .parts (.text (withOmittedImagesNote s!"Visual output from tool call {toolCallId}." images.omittedCount) ::
    images.dataUrls.map .imageUrl)

def toProviderToolName (toolName : String) : Except AppError String :=
  let providerName := "tool_" ++ encoding.base64url toolName
  if 64 < providerName.length then
    .error ⟨.validationFailed, s!"Tool name '{toolName}' is too long for the OpenAI-compatible provider name limit"⟩
  else .ok providerName

def serializeToolInput (toolCall : ModelToolCall) : String := toolCall.rawInput.getD toolCall.input

/-- The loop over the messages, with the visual messages that wait for the end of
a run of results. -/
def mapMessages (items : ModelMessage → Except AppError (List α)) (visual : ModelMessage → List α) :
    List α → List ModelMessage → Except AppError (List α)
  | pending, [] => .ok pending
  | pending, message :: rest => do
    let flushed := if message.isTool then [] else pending
    let waiting := (if message.isTool then pending else []) ++ visual message
    let own ← items message
    if message.isTool ∧ ¬ rest.head?.any (·.isTool) then
      let later ← mapMessages items visual [] rest
      return flushed ++ own ++ waiting ++ later
    else
      let later ← mapMessages items visual waiting rest
      return flushed ++ own ++ later

def visualMessage (user : WireContent → α) : ModelMessage → List α
  | .tool content toolCallId =>
    let images := toImageInputs encoding (modelContentImages content)
    if 0 < images.count then [user (visualContent toolCallId images)] else []
  | _ => []

structure ChatToolCall where
  id : String
  name : String
  arguments : String
  deriving DecidableEq

/-- `OpenAiCompatibleMessage` -/
inductive ChatItem where
  | system (content : String)
  | user (content : WireContent)
  | assistant (content : Option String) (toolCalls : Option (List ChatToolCall))
  | tool (toolCallId content : String)
  deriving DecidableEq

def toChatToolCall (toolCall : ModelToolCall) : Except AppError ChatToolCall := do
  let name ← toProviderToolName encoding toolCall.toolName
  return ⟨toolCall.toolCallId, name, serializeToolInput toolCall⟩

def toOpenAiChatMessagesForOne : ModelMessage → Except AppError (List ChatItem)
  | .assistant content toolCalls => do
    let text := modelContentText content
    match toolCalls with
    | none => return [.assistant (if text = "" then none else some text) none]
    | some toolCalls =>
      let calls ← toolCalls.mapM (toChatToolCall encoding)
      return [.assistant (if text = "" then none else some text) (some calls)]
  | .tool content toolCallId => .ok [.tool toolCallId (modelContentText content)]
  | .system content => .ok [.system (modelContentText content)]
  | .user content => .ok [.user (toOpenAiContent encoding content)]

def toOpenAiChatMessages (messages : List ModelMessage) : Except AppError (List ChatItem) :=
  mapMessages (toOpenAiChatMessagesForOne encoding) (visualMessage encoding .user) [] messages

structure CompactionItem where
  id : String
  encryptedContent : String
  deriving DecidableEq

structure EncryptedReasoningItem where
  beforeToolCallId : String
  item : String
  deriving DecidableEq

/-- `OpenAiResponseInputItem` -/
inductive ResponseItem where
  | system (content : String)
  | user (content : WireContent)
  | assistant (content : String)
  | functionCall (callId name arguments : String)
  | functionCallOutput (callId output : String)
  | reasoning (item : String)
  | compaction (item : CompactionItem)
  deriving DecidableEq

def ResponseItem.isSystem : ResponseItem → Bool
  | .system _ => true
  | _ => false

variable (encryptedReasoningItems : List EncryptedReasoningItem)

def toFunctionCall (toolCall : ModelToolCall) : Except AppError (List ResponseItem) := do
  let name ← toProviderToolName encoding toolCall.toolName
  let reasoning := encryptedReasoningItems.filter (·.beforeToolCallId = toolCall.toolCallId)
  return reasoning.map (.reasoning ·.item) ++
    [.functionCall toolCall.toolCallId name (serializeToolInput toolCall)]

def ModelContent.present : ModelContent → Bool
  | .text shown => shown ≠ ""
  | .parts _ => true

def toOpenAiResponsesItems : ModelMessage → Except AppError (List ResponseItem)
  | .assistant content (some (call :: calls)) => do
    let said := if content.present then [.assistant (modelContentText content)] else []
    let items ← (call :: calls).mapM (toFunctionCall encoding encryptedReasoningItems)
    return said ++ items.flatten
  | .assistant content _ => .ok [.assistant (modelContentText content)]
  | .tool content toolCallId => .ok [.functionCallOutput toolCallId (modelContentText content)]
  | .system content => .ok [.system (modelContentText content)]
  | .user content => .ok [.user (toOpenAiContent encoding content)]

def toOpenAiResponsesInput (messages : List ModelMessage) (compactionItem : Option CompactionItem) :
    Except AppError (List ResponseItem) := do
  let input ← mapMessages (toOpenAiResponsesItems encoding encryptedReasoningItems)
    (visualMessage encoding .user) [] messages
  match compactionItem with
  | none => return input
  | some item =>
    let insertionIndex := input.findIdx (!·.isSystem)
    return input.take insertionIndex ++ .compaction item :: input.drop insertionIndex

end Catalyst.ModelContext
