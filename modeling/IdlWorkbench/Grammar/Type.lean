import IdlWorkbench.Grammar.State

/-!
# Types

The rules around a type are written over the parser of the types inside it. `type` ties the knot: every
inner type comes after at least one token of the outer one, so the number of tokens left bounds the
nesting.
-/

namespace IdlWorkbench.Grammar

open State

def name (s : State) : State := if s.sees .ident then s.tokenNode .name else s.expected (.token .ident)

def typeStarts : List TokenKind :=
  [.ident, .lBracket, .mapKw, .star, .chanKw, .funcKw, .structKw, .interfaceKw]

/-- `Name` or `pkg.Name`. -/
def typeName (s : State) : State :=
  if s.secondIs [.dot] then s.nodeAtToken .selector fun s => s.bump.bump.expect .ident
  else s.tokenNode .nameRef

/-- Types between commas, each with a parameter name before it or without. -/
def typeList (type : Parser) : (fuel : Nat) → Parser
  | 0, s => s
  | n + 1, s =>
    if s.seesAny typeStarts then
      let named := s.sees .ident && !s.secondIs [.dot, .comma, .rParen]
      let s := type (if named then name s else s)
      if s.sees .comma then typeList type n s.bump else s
    else s

def typesInParens (type : Parser) (s : State) : State :=
  (typeList type s.rest.length s.bump).expect .rParen

/-- `(params)`, then one result type, results in parentheses, or nothing. -/
def signature (type : Parser) (s : State) : State :=
  let s := s.nodeAtToken .paramList fun s =>
    if s.sees .lParen then typesInParens type s else s.expected (.token .lParen)
  if s.newlineBefore || !(s.sees .lParen || s.seesAny typeStarts) then s
  else s.nodeAtToken .resultList fun s => if s.sees .lParen then typesInParens type s else type s

def members (member : Parser) (s : State) : State :=
  if s.sees .lBrace then
    s.nodeAtToken .fieldList fun s =>
      (s.bump.repeatWhile (fun s => !s.atEnd && !s.sees .rBrace) member s.rest.length).expect .rBrace
  else s.expected (.token .lBrace)

def fieldNames (s : State) : State :=
  (name s).repeatWhile (State.sees .comma) (fun s => name s.bump) s.rest.length

/-- A field of a struct: names and a type, or an embedded type; then perhaps a tag. -/
def field (type : Parser) (s : State) : State :=
  if s.seesAny [.ident, .star] then
    s.item .field fun s =>
      let embedded := s.sees .star || s.newlineBeforeSecond ||
        s.secondIs [.dot, .string, .rawString, .semicolon, .rBrace]
      let s := type (if embedded then s else fieldNames s)
      let s := if !s.newlineBefore && s.seesAny [.string, .rawString] then s.tokenNode .fieldTag else s
      s.endLine .rBrace
  else s.recoverLine .member .rBrace

def method (type : Parser) (s : State) : State :=
  if s.sees .ident then s.item .method fun s => (signature type (name s)).endLine .rBrace
  else s.recoverLine .methodName .rBrace

/-- One type, given a parser for the types inside it. -/
def typeWith (type : Parser) (s : State) : State :=
  match s.peek.map Token.kind with
  | some .ident => typeName s
  | some .lBracket => s.nodeAtToken .sliceType fun s => type (s.bump.expect .rBracket)
  | some .mapKw =>
    s.nodeAtToken .mapType fun s => type ((type (s.bump.expect .lBracket)).expect .rBracket)
  | some .star => s.nodeAtToken .pointerType fun s => type s.bump
  | some .chanKw => s.nodeAtToken .chanType fun s => type s.bump
  | some .funcKw => s.nodeAtToken .funcType fun s => signature type s.bump
  | some .structKw => s.nodeAtToken .structType fun s => members (field type) s.bump
  | some .interfaceKw => s.nodeAtToken .interfaceType fun s => members (method type) s.bump
  | _ => s.expected .type

/-- Types nested at most `fuel` deep. -/
def typeWithin : (fuel : Nat) → Parser
  | 0 => id
  | n + 1 => typeWith (typeWithin n)

def type (s : State) : State := typeWithin (s.rest.length + 1) s

end IdlWorkbench.Grammar
