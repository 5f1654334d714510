import Catalyst.Core
import Catalyst.Library.Check
import Catalyst.Library.JsText
import Catalyst.Library.Regex
import Mathlib.Data.List.DropRight

/-!
# The screens of SQL queries

Before a query is sent, a screen blanks out what it takes for literals, quoted identifiers and
comments, and looks at the rest: it must start a read, hold one statement, lock no rows, and
hold no word of a list. The data source and the connector each have their own scanner.

A query is a list of characters; where the source takes spans by their index, the scanners
here answer what follows the span.
-/

namespace Catalyst.Sql

open Library Library.Check

abbrev Text := List Char

def skipQuoted (quote : Char) : Text → Text
  | c :: d :: s =>
    if c ≠ quote then skipQuoted quote (d :: s)
    else if d = quote then skipQuoted quote s
    else d :: s
  | _ => []

/-- `[a-z_]` and `[a-z0-9_]`, both with the flags `i` and `u`. -/
def isTagStart (c : Char) : Bool := Regex.isWord c && !('0' ≤ c && c ≤ '9')

def isTagPart (c : Char) : Bool := Regex.isWord c

/-- The one match of `^\$[a-z_][a-z0-9_]*\$|^\$\$`. -/
def readDollarQuoteTag : Text → Option Text
  | '$' :: s =>
    let name := if s.head?.any isTagStart then s.takeWhile isTagPart else []
    if (s.drop name.length).head? = some '$' then some ('$' :: name ++ ['$']) else none
  | _ => none

def skipThrough (pattern : Text) : Text → Text
  | [] => []
  | c :: s => if pattern <+: c :: s then (c :: s).drop pattern.length else skipThrough pattern s

def skipLineComment (s : Text) : Text := s.dropWhile (· ≠ '\n')

def skipBlockComment (s : Text) : Text := skipThrough ['*', '/'] s

/-- What follows the span that the data source's scanner takes at the start of a text. -/
def maskedSpan : Text → Option Text
  | [] => none
  | c :: s =>
    if c = '\'' ∨ c = '"' then some (skipQuoted c s)
    else match readDollarQuoteTag (c :: s) with
      | some tag => some (skipThrough tag ((c :: s).drop tag.length))
      | none =>
        if c = '-' ∧ s.head? = some '-' then some (skipLineComment s.tail)
        else if c = '/' ∧ s.head? = some '*' then some (skipBlockComment s.tail)
        else none

def maskedSpanEnd : Text → Option Text
  | [] => none
  | c :: s =>
    if c = '\'' ∨ c = '"' then some (skipQuoted c s)
    else if c = '-' ∧ s.head? = some '-' then some (skipLineComment s.tail)
    else if c = '/' ∧ s.head? = some '*' then some (skipBlockComment s.tail)
    else (readDollarQuoteTag (c :: s)).map fun tag => skipThrough tag ((c :: s).drop tag.length)

/-- Blanks out `skip` characters, then every span that starts behind them. -/
def maskFrom (spanEnd : Text → Option Text) : Nat → Text → Text
  | _, [] => []
  | skip + 1, _ :: s => ' ' :: maskFrom spanEnd skip s
  | 0, c :: s =>
    match spanEnd (c :: s) with
    | some rest => ' ' :: maskFrom spanEnd (s.length - rest.length) s
    | none => c :: maskFrom spanEnd 0 s

def maskSqlLiteralsAndComments (sql : Text) : Text := maskFrom maskedSpan 0 sql

def maskLiteralsAndComments (sql : Text) : Text := maskFrom maskedSpanEnd 0 sql

open Regex in
/-- `^(select|with)\b` -/
def startsRead (s : Text) : Bool :=
  testStart (sequence [text "select".toList, boundary]) s || testStart (sequence [text "with".toList, boundary]) s

open Regex in
/-- `;\s*\S` -/
def severalStatements : Regex :=
  sequence [one (· = ';'), many Js.isWhitespace, one fun c => !Js.isWhitespace c]

/-- `\s+` -/
def blanks : Regex := .seq (.one Js.isWhitespace) (.many Js.isWhitespace)

open Regex in
/-- `\bfor\s+(?:no\s+key\s+)?update\b` -/
def forUpdate : Regex :=
  sequence [boundary, text "for".toList, blanks,
    optional (sequence [text "no".toList, blanks, text "key".toList, blanks]), text "update".toList, boundary]

open Regex in
/-- `\bfor\s+(?:key\s+)?share\b` -/
def forShare : Regex :=
  sequence [boundary, text "for".toList, blanks, optional (sequence [text "key".toList, blanks]),
    text "share".toList, boundary]

open Regex in
/-- `\bselect\b[\s\S]*\binto\b` -/
def selectInto : Regex :=
  sequence [boundary, text "select".toList, boundary, many fun _ => true, boundary, text "into".toList, boundary]

def disallowedTokens : List String :=
  ["alter", "analyze", "call", "copy", "create", "delete", "discard", "do", "drop", "execute", "grant", "insert",
    "listen", "lock", "merge", "notify", "refresh", "reset", "revoke", "set", "truncate", "update", "vacuum"]

/-- `toLowerCase` on a character of a word. -/
def toLowerCase (c : Char) : Char := if c = '\u212a' then 'k' else c.toLower

/-- The runs of word characters, the first of which has `run` before it. -/
def wordRuns (run : Text) : Text → List Text
  | [] => if run = [] then [] else [run]
  | c :: s =>
    if Regex.isWord c then wordRuns (run ++ [c]) s
    else if run = [] then wordRuns [] s
    else run :: wordRuns [] s

/-- A match of `\b[a-z_][a-z0-9_]*\b` is a run of word characters that does not start with a digit. -/
def isDisallowed (run : Text) : Bool :=
  run.head?.any isTagStart && String.ofList (run.map toLowerCase) ∈ disallowedTokens

def containsDisallowedToken (sql : Text) : Bool := (wordRuns [] sql).any isDisallowed || selectInto.test sql

/-- `.trim().replace(/;+$/u, "").trim()` -/
def normalized (masked : Text) : Text := Js.trim ((Js.trim masked).rdropWhile (· = ';'))

structure Messages where
  notRead : String
  several : String
  rowLocks : String
  disallowed : String

/-- The checks of both screens on the text that is left, and the message of the first that fails. -/
def refusal (messages : Messages) (normalized : Text) : Option String :=
  if !startsRead normalized then some messages.notRead
  else if severalStatements.test normalized then some messages.several
  else if forUpdate.test normalized || forShare.test normalized then some messages.rowLocks
  else if containsDisallowedToken normalized then some messages.disallowed
  else none

def dataSourceMessages : Messages where
  notRead := "Data source queries must be read-only SELECT or WITH statements"
  several := "Data source queries must contain a single statement"
  rowLocks := "Data source queries must not request row locks"
  disallowed := "Data source queries must not contain write, DDL, transaction, or session-control SQL"

def assertReadOnlyQuery (query : Text) : Except AppError Unit :=
  match refusal dataSourceMessages (normalized (maskSqlLiteralsAndComments query)) with
  | some message => .error ⟨.validationFailed, message⟩
  | none => .ok ()

/-- The `query_rejected` of the executor's one error. -/
structure QueryRejected where
  message : String
  deriving DecidableEq

def postgresQueryTextMaxChars : Nat := 20000

def connectorMessages : Messages where
  notRead := "Queries must be read-only SELECT or WITH statements"
  several := "Queries must contain a single statement"
  rowLocks := "Queries must not request row locks"
  disallowed := "Queries must not contain write, DDL, transaction, or session-control SQL"

def screenPostgresQuery (query : Text) : Except QueryRejected Unit := do
  require ((Js.utf16 query).length ≤ postgresQueryTextMaxChars)
    ⟨s!"Queries must not be longer than {postgresQueryTextMaxChars} characters"⟩
  match refusal connectorMessages (normalized (maskLiteralsAndComments query)) with
  | some message => .error ⟨message⟩
  | none => .ok ()

end Catalyst.Sql
