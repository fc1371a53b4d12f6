import IdlWorkbench.Token.Basic

/-!
# What a parse complains about

A complaint names what the grammar asked for and the significant token that stood there instead, `none`
at the end of the text.
-/

namespace IdlWorkbench

inductive Expected where
  | token (kind : TokenKind)
  | declaration
  | importPath
  | typeName
  | constantName
  | type
  | member
  | methodName
  | expression
deriving DecidableEq, Repr

def Expected.describe : Expected → String
  | token kind => kind.describe
  | declaration => "declaration"
  | importPath => "import path"
  | typeName => "type name"
  | constantName => "constant name"
  | type => "type"
  | member => "field name or embedded type"
  | methodName => "method name"
  | expression => "expression"

def Token.found : Option Token → String
  | none => "EOF"
  | some t =>
    if t.kind = .ident ∨ t.kind.isLiteral then t.kind.describe ++ " " ++ t.text
    else if t.kind = .error then "'" ++ t.text ++ "'"
    else t.kind.describe

inductive Complaint where
  | expected (what : Expected) (found : Option Token)
  | lateImport
  | leftOver (found : Option Token)
deriving Repr

def Complaint.message : Complaint → String
  | expected what found => "expected " ++ what.describe ++ ", found " ++ Token.found found
  | lateImport => "imports must appear before other declarations"
  | leftOver found => "unexpected " ++ Token.found found ++ " after expression"

structure ParseError where
  complaint : Complaint
  range : ByteRange
deriving Repr

def ParseError.message (e : ParseError) : String := e.complaint.message

end IdlWorkbench
