import IdlWorkbench.Settings.Json
import IdlWorkbench.Text.Position

/-!
# Diagnostics

A diagnostic marks a span of a file with a message. `toJson` gives the form in which editors exchange
diagnostics, and `ofJson?` reads it back.
-/

namespace IdlWorkbench

inductive Severity where
  | error
  | warning
  | info
  | hint
deriving DecidableEq, Repr, Inhabited

namespace Severity

/-- The number that stands for a severity on the wire. -/
def number : Severity → Nat
  | error => 1
  | warning => 2
  | info => 3
  | hint => 4

def ofNumber? : Nat → Option Severity
  | 1 => some error
  | 2 => some warning
  | 3 => some info
  | 4 => some hint
  | _ => none

end Severity

structure Diagnostic where
  span : Span
  severity : Severity
  code : String
  source : String
  message : String
deriving DecidableEq, Repr, Inhabited

inductive ErrorKind where
  | unknown
  /-- The package could not be listed. -/
  | list
  | parse
  | type
  | validate
deriving DecidableEq, Repr, Inhabited

def ErrorKind.code : ErrorKind → String
  | unknown | list => "error"
  | parse => "parse error"
  | type => "type error"
  | validate => "validate error"

namespace Diagnostic

def ownSource : String := "gunkls"

def error (kind : ErrorKind) (span : Span) (message : String) : Diagnostic :=
  ⟨span, .error, kind.code, ownSource, message⟩

def warning (code : String) (span : Span) (message : String) : Diagnostic :=
  ⟨span, .warning, code, ownSource, message⟩

/-! ## On the wire -/

def positionToJson (p : Position) : JsonValue :=
  .object [("line", .int p.line), ("character", .int p.character)]

def spanToJson (s : Span) : JsonValue :=
  .object [("start", positionToJson s.start), ("end", positionToJson s.stop)]

def toJson (d : Diagnostic) : JsonValue :=
  .object [("range", spanToJson d.span), ("severity", .int d.severity.number), ("code", .string d.code),
    ("source", .string d.source), ("message", .string d.message)]

def positionOfJson? (v : JsonValue) : Option Position := do
  match ← v.fields? ["line", "character"] with
  | [some line, some character] => return ⟨← line.uint32?, ← character.uint32?⟩
  | _ => none

def spanOfJson? (v : JsonValue) : Option Span := do
  match ← v.fields? ["start", "end"] with
  | [some start, some stop] => return ⟨← positionOfJson? start, ← positionOfJson? stop⟩
  | _ => none

/-- Read a diagnostic; every field must be there. -/
def ofJson? (v : JsonValue) : Option Diagnostic := do
  match ← v.fields? ["range", "severity", "code", "source", "message"] with
  | [some range, some severity, some code, some source, some message] =>
    return ⟨← spanOfJson? range, ← severity.uint32?.bind Severity.ofNumber?, ← code.string?,
      ← source.string?, ← message.string?⟩
  | _ => none

end Diagnostic

end IdlWorkbench
