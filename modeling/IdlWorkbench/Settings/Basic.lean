import IdlWorkbench.Settings.Json

/-!
# Settings

An editor may switch lint warnings on and say how files are formatted. Settings that do not have the
expected form are passed over as a whole.
-/

namespace IdlWorkbench

/-- The initialisms that are known when none are given. -/
def defaultInitialisms : List String :=
  ["ACL", "API", "ASCII", "CPU", "CSS", "DNS", "EOF", "GUID", "HTML", "HTTP", "HTTPS", "ID", "IP", "JSON",
    "LHS", "QPS", "RAM", "RHS", "RPC", "SLA", "SMTP", "SQL", "SSH", "TCP", "TLS", "TTL", "UDP", "UI",
    "UID", "UUID", "URI", "URL", "UTF8", "VM", "XML", "XMPP", "XSRF", "XSS"]

structure FormatSettings where
  /-- Initialisms in the case in which they are to be written. -/
  initialisms : List String := defaultInitialisms
  /-- Whether field names are to write them so. -/
  fixInitialisms : Bool := false
deriving DecidableEq, Repr, Inhabited

structure Settings where
  /-- Whether lint warnings are published with the errors. -/
  lint : Bool := false
  format : FormatSettings := {}
deriving DecidableEq, Repr, Inhabited

namespace FormatSettings

def ofJson? (v : JsonValue) : Option FormatSettings := do
  let default : FormatSettings := {}
  match ← v.fields? ["initialisms", "fixInitialisms"] with
  | [initialisms, fix] =>
    return ⟨← JsonValue.orDefault JsonValue.strings? default.initialisms initialisms,
      ← JsonValue.orDefault JsonValue.bool? default.fixInitialisms fix⟩
  | _ => none

/-- The settings that a value gives, or the default ones. -/
def ofOptions (options : Option JsonValue) : FormatSettings := (options.bind ofJson?).getD {}

end FormatSettings

namespace Settings

def ofJson? (v : JsonValue) : Option Settings := do
  let default : Settings := {}
  match ← v.fields? ["lint", "format"] with
  | [lint, format] =>
    return ⟨← JsonValue.orDefault JsonValue.bool? default.lint lint,
      ← JsonValue.orDefault FormatSettings.ofJson? default.format format⟩
  | _ => none

/-- The settings that a value gives, or the default ones. -/
def ofOptions (options : Option JsonValue) : Settings := (options.bind ofJson?).getD {}

end Settings

end IdlWorkbench
