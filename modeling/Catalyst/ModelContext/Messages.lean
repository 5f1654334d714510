import Catalyst.Core

/-!
# Messages of a model call

A message has a role and a content of texts, images and documents. A message of
the assistant may call tools, and a message of a tool answers one call.
-/

namespace Catalyst.ModelContext

inductive ImageSource where
  | toolResult (label : String)
  | userAttachment (label : String)
  deriving DecidableEq

structure ModelImage where
  mimeType : String
  data : List UInt8
  source : Option ImageSource
  deriving DecidableEq

inductive ModelContentPart where
  | text (text : String)
  | image (image : ModelImage)
  | document (mimeType : String) (data : List UInt8)
  deriving DecidableEq

inductive ModelContent where
  | text (text : String)
  | parts (parts : List ModelContentPart)
  deriving DecidableEq

structure ModelToolCall where
  toolCallId : String
  toolName : String
  input : String
  rawInput : Option String
  deriving DecidableEq

inductive ModelMessage where
  | system (content : ModelContent)
  | user (content : ModelContent)
  | assistant (content : ModelContent) (toolCalls : Option (List ModelToolCall))
  | tool (content : ModelContent) (toolCallId : String)
  deriving DecidableEq

def ModelContentPart.text? : ModelContentPart → Option String
  | .text t => some t
  | _ => none

def ModelContentPart.image? : ModelContentPart → Option ModelImage
  | .image shown => some shown
  | _ => none

def modelContentText : ModelContent → String
  | .text text => text
  | .parts parts => String.join (parts.filterMap ModelContentPart.text?)

def modelContentImages : ModelContent → List ModelImage
  | .text _ => []
  | .parts parts => parts.filterMap ModelContentPart.image?

def hasTextContent : ModelContent → Bool
  | .text text => text ≠ ""
  | .parts parts => parts.any fun part => part.text?.any (· ≠ "")

def ModelMessage.calls : ModelMessage → List ModelToolCall
  | .assistant _ (some toolCalls) => toolCalls
  | _ => []

def ModelMessage.callIds (message : ModelMessage) : List String := message.calls.map (·.toolCallId)

def ModelMessage.answers? : ModelMessage → Option String
  | .tool _ toolCallId => some toolCallId
  | _ => none

def ModelMessage.isTool (message : ModelMessage) : Bool := message.answers?.isSome

@[simp] theorem isTool_tool : (ModelMessage.tool content toolCallId).isTool = true := rfl

@[simp] theorem isTool_assistant : (ModelMessage.assistant content toolCalls).isTool = false := rfl

@[simp] theorem isTool_user : (ModelMessage.user content).isTool = false := rfl

@[simp] theorem isTool_system : (ModelMessage.system content).isTool = false := rfl

theorem ModelMessage.isTool_iff {message : ModelMessage} :
    message.isTool = true ↔ ∃ content toolCallId, message = .tool content toolCallId := by
  cases message <;> simp

theorem ModelMessage.calls_of_isTool {message : ModelMessage} (h : message.isTool = true) : message.calls = [] := by
  obtain ⟨content, toolCallId, rfl⟩ := isTool_iff.mp h
  rfl

def leadingResults : List ModelMessage → List String
  | .tool _ toolCallId :: rest => toolCallId :: leadingResults rest
  | _ => []

theorem split_behind (hx : x ∉ as) (h : as ++ bs = front ++ x :: back) :
    ∃ rest, front = as ++ rest ∧ bs = rest ++ x :: back := by
  obtain ⟨rest, hfront, hbs⟩ | ⟨rest, has, hback⟩ := List.append_eq_append_iff.mp h
  · exact ⟨rest, hfront, hbs⟩
  · cases rest with
    | nil => exact ⟨[], by simpa using has.symm, by simpa using hback.symm⟩
    | cons y rest =>
      obtain rfl : x = y := (List.cons.inj hback).1
      exact absurd (by simp [has]) hx

end Catalyst.ModelContext
