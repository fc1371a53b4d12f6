import IdlWorkbench.Token.Basic
import IdlWorkbench.Text.Blank

/-!
# Values of string literals

A string between backquotes stands for itself, less carriage returns. Between double quotes a backslash
starts one of the escapes `\n`, `\t`, `\r`, `\\`, `\"` and `\'`.
-/

namespace IdlWorkbench.Token

/-- The character that a backslash and `c` stand for. -/
def escape? : Char → Option Char
  | 'n' => some '\n'
  | 't' => some '\t'
  | 'r' => some '\r'
  | '\\' => some '\\'
  | '"' => some '"'
  | '\'' => some '\''
  | _ => none

/-- Resolve the escapes of a text; `none` if one of them is unknown or cut off. -/
def unescape : List Char → Option (List Char)
  | [] => some []
  | '\\' :: c :: cs =>
    match escape? c with
    | some d => (unescape cs).map (d :: ·)
    | none => none
  | c :: cs => if c = '\\' then none else (unescape cs).map (c :: ·)

/-- What stands between the two quotes `q` at the ends of a text. -/
def between? (q : Char) : List Char → Option (List Char)
  | [] => none
  | c :: cs => if c = q ∧ cs.getLast? = some q then some cs.dropLast else none

def unquote (text : String) : Option String :=
  match between? '`' text.toList with
  | some raw => some (String.ofList (raw.filter (· ≠ '\r')))
  | none => ((between? '"' text.toList).bind unescape).map String.ofList

end IdlWorkbench.Token
