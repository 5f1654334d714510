import Mathlib
import Catalyst.Library.JsText

/-!
# Sections of a Markdown text

A section is named by its ATX heading and ends before the next heading of its level or a higher
one. The scanner goes line by line and keeps whether a fenced code block is open, in which no line
is a heading. CommonMark's own rules for fenced blocks are stated beside it: which lines the two
take for a fence is where they part.
-/

namespace Catalyst.Skills

open Library

abbrev Text := List Char

/-- `content.split(/(?<=\n)/u)`: each line with its break. The one line of an empty text is left
out, which is no fence and no heading. -/
def linesOf : Text → List Text
  | [] => []
  | c :: rest =>
    if c = '\n' then ['\n'] :: linesOf rest
    else
      match linesOf rest with
      | [] => [[c]]
      | line :: lines => (c :: line) :: lines

structure Fence where
  char : Char
  length : Nat
  deriving DecidableEq

def fenceRun (text : Text) : Option Fence :=
  match text with
  | [] => none
  | c :: _ =>
    let length := (text.takeWhile (· = c)).length
    if (c = '`' ∨ c = '~') ∧ 3 ≤ length then some ⟨c, length⟩ else none

def fenceMarker (line : Text) : Option Fence :=
  if (line.takeWhile Js.isWhitespace).length ≤ 3 then fenceRun (line.dropWhile Js.isWhitespace) else none

structure Heading where
  text : Text
  level : Nat
  index : Nat
  deriving DecidableEq

/-- What `.` matches in a pattern. -/
def isDot (c : Char) : Bool := c ∉ ['\n', '\r', '\u2028', '\u2029']

/-- `(?:\s+#+)?\s*$` -/
def closesHeading (rest : Text) : Bool :=
  let hashes := rest.dropWhile Js.isWhitespace
  let behind := hashes.dropWhile (· = '#')
  rest.all Js.isWhitespace ||
    hashes.length < rest.length && behind.length < hashes.length && behind.all Js.isWhitespace

/-- `(.+?)(?:\s+#+)?\s*$`: the shortest text that only such an end follows. -/
def headingBody (body : Text) : Option Text :=
  ((List.range body.length).map fun n => body.take (n + 1)).find? fun text =>
    text.all isDot && closesHeading (body.drop text.length)

/-- The text of a heading behind its marks. Of white space alone the last character that is not a
break is the text. -/
def headingText (rest : Text) : Option Text :=
  let body := rest.dropWhile Js.isWhitespace
  if body = [] then (rest.tail.reverse.find? isDot).map ([·]) else headingBody body

/-- `/^ {0,3}(#{1,6})\s+(.+?)(?:\s+#+)?\s*$/u`, with the heading's level. -/
def atxHeading (line : Text) : Option (Text × Nat) :=
  let marks := line.dropWhile (· = ' ')
  let rest := marks.dropWhile (· = '#')
  let level := marks.length - rest.length
  if (line.takeWhile (· = ' ')).length ≤ 3 ∧ 1 ≤ level ∧ level ≤ 6 ∧ (rest.head?.any Js.isWhitespace) then
    (headingText rest).map (·, level)
  else none

def scanFence (fence : Option Fence) (line : Text) : Option Fence :=
  match fenceMarker line, fence with
  | none, _ => fence
  | some marker, none => some marker
  | some marker, some opened =>
    if marker.char = opened.char ∧ opened.length ≤ marker.length then none else fence

def scanHeadings (offset : Nat) (fence : Option Fence) : List Text → List Heading
  | [] => []
  | line :: lines =>
    let rest := scanHeadings (offset + line.length) (scanFence fence line) lines
    if (fenceMarker line).isNone ∧ fence.isNone then
      match atxHeading line with
      | some (text, level) => ⟨text, level, offset⟩ :: rest
      | none => rest
    else rest

def headingsOf (content : Text) : List Heading := scanHeadings 0 none (linesOf content)

/-- `heading.replace(/^#{1,6}\s+/u, "").replace(/\s+#+$/u, "").trim()` -/
def headingLabel (heading : Text) : Text :=
  let marks := (heading.takeWhile (· = '#')).length
  let behind := heading.drop marks
  let opened := if 1 ≤ marks ∧ marks ≤ 6 ∧ (behind.head?.any Js.isWhitespace) then
      behind.dropWhile Js.isWhitespace else heading
  let reversed := opened.reverse.dropWhile (· = '#')
  let bare := reversed.dropWhile Js.isWhitespace
  Js.trim (if reversed.length < opened.length ∧ bare.length < reversed.length then bare.reverse else opened)

inductive SectionRefusal
  | missing
  | ambiguous
  deriving DecidableEq

def sectionEnd (content heading : Text) : Except SectionRefusal Nat :=
  let headings := headingsOf content
  match headings.filter (·.text = headingLabel heading) with
  | [] => .error .missing
  | [found] =>
    .ok (((headings.find? fun h => found.index < h.index ∧ h.level ≤ found.level).map (·.index)).getD
      content.length)
  | _ => .error .ambiguous

def opensBlock (line : Text) : Option Fence :=
  if (line.takeWhile (· = ' ')).length ≤ 3 then
    let text := line.dropWhile (· = ' ')
    (fenceRun text).filter fun fence => fence.char = '~' ∨ '`' ∉ text.drop fence.length
  else none

/-- A line of up to three spaces and a fence of the block's character, at least as long as the one
that opened the block and with no info string, closes it. -/
def closesBlock (opened : Fence) (line : Text) : Bool :=
  let text := line.dropWhile (· = ' ')
  let behind := text.dropWhile (· = opened.char)
  (line.takeWhile (· = ' ')).length ≤ 3 && opened.length ≤ text.length - behind.length &&
    behind.all (· ∈ [' ', '\t', '\r', '\n'])

def blockFence (fence : Option Fence) (line : Text) : Option Fence :=
  match fence with
  | none => opensBlock line
  | some opened => if closesBlock opened line then none else fence

def headingsOutside (offset : Nat) (fence : Option Fence) : List Text → List Heading
  | [] => []
  | line :: lines =>
    let rest := headingsOutside (offset + line.length) (blockFence fence line) lines
    match fence, atxHeading line with
    | none, some (text, level) => ⟨text, level, offset⟩ :: rest
    | _, _ => rest

def markdownHeadings (content : Text) : List Heading := headingsOutside 0 none (linesOf content)

end Catalyst.Skills
