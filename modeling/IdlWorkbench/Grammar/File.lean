import IdlWorkbench.Grammar.Expr
import IdlWorkbench.Token.Scan

/-!
# Whole texts

`parse` reads a source file and `parseExpr` an expression that stands alone, as in a tag. Both always
answer with a tree of the whole text; what did not fit the grammar is listed beside it.
-/

namespace IdlWorkbench

/-- A tree and the complaints met while it was built, in order. -/
structure Parse where
  tree : Tree
  errors : List ParseError

def Parse.ok (p : Parse) : Bool := p.errors.isEmpty

namespace Grammar

open State

/-- One spec, or specs between parentheses. `spec true` parses a spec of a group. -/
def grouped (spec : Bool → Parser) (s : State) : State :=
  let s :=
    if s.sees .lParen then
      (s.bump.repeatWhile (fun s => !s.atEnd && !s.sees .rParen) (spec true) s.rest.length).expect
        .rParen
    else spec false s
  s.endLine .error

/-- A spec of kind `k`. In a group it has a doc and ends its line. -/
def specNode (k : NodeKind) (group : Bool) (body : Parser) (s : State) : State :=
  if group then s.item k fun s => (body s).endLine .rParen else s.nodeAtToken k body

def importSpec (group : Bool) (s : State) : State :=
  if s.seesAny [.ident, .dot, .string, .rawString] then
    specNode .importSpec group (fun s =>
      let s := if s.seesAny [.ident, .dot] then s.tokenNode .name else s
      if s.seesAny [.string, .rawString] then s.tokenNode .literal else s.expected .importPath) s
  else s.recoverLine .importPath .rParen

def typeSpec (group : Bool) (s : State) : State :=
  if s.sees .ident then specNode .typeSpec group (fun s => type (name s)) s
  else s.recoverLine .typeName .rParen

/-- A constant: its name, perhaps a type on the same line, perhaps a value. -/
def constSpec (group : Bool) (s : State) : State :=
  if s.sees .ident then
    specNode .constSpec group (fun s =>
      let s := name s
      let s := if !s.newlineBefore && !s.seesAny [.eq, .semicolon, .rParen] then type s else s
      if s.sees .eq then expr s.bump else s) s
  else s.recoverLine .constantName .rParen

def importDecl (s : State) : State := s.item .importDecl fun s => grouped importSpec s.bump

def typeDecl (s : State) : State := s.item .typeDecl fun s => grouped typeSpec s.bump

def constDecl (s : State) : State := s.item .constDecl fun s => grouped constSpec s.bump

def packageClause (s : State) : State :=
  if s.sees .packageKw then s.item .packageClause fun s => (name s.bump).endLine .error
  else s.expected (.token .packageKw)

def declaration (s : State) : State :=
  match s.peek.map Token.kind with
  | some .typeKw => typeDecl s
  | some .constKw => constDecl s
  | some .importKw => importDecl (s.complain .lateImport)
  | _ => s.recoverTo (.expected .declaration s.peek) [.typeKw, .constKw, .importKw]

def sourceFile (s : State) : State :=
  let s := packageClause s
  let s := s.repeatWhile (State.sees .importKw) importDecl s.rest.length
  let s := s.repeatWhile (fun s => !s.atEnd) declaration s.rest.length
  s.skipTrivia

def exprAlone (s : State) : State :=
  let s := expr s
  let s := if s.atEnd then s else s.recoverTo (.leftOver s.peek) []
  s.skipTrivia

/-- Run `body` over a whole text and take what it built as the children of a root of kind `k`. -/
def run (k : NodeKind) (body : Parser) (text : String) : Parse :=
  let s := body (.ofTokens (Token.tokenize text))
  ⟨.node k ⟨0, s.offset⟩ s.done.reverse, s.errors.reverse⟩

end Grammar

def parse (text : String) : Parse := Grammar.run .sourceFile Grammar.sourceFile text

def parseExpr (text : String) : Parse := Grammar.run .exprRoot Grammar.exprAlone text

end IdlWorkbench
