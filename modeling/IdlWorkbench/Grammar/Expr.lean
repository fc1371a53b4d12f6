import IdlWorkbench.Grammar.Type

/-!
# Expressions

Constants and tags hold expressions: literals, names, signs, parentheses and composite literals. As for
types, every inner expression comes after at least one token of the outer one.
-/

namespace IdlWorkbench.Grammar

open State

/-- Elements between commas, up to the closing brace. -/
def elements (element : Parser) : (fuel : Nat) → Parser
  | 0, s => s
  | n + 1, s =>
    if s.atEnd || s.sees .rBrace then s
    else
      let s := element s
      if s.sees .comma then elements element n s.bump else s

/-- `value` or `key: value`. -/
def element (value : Parser) (s : State) : State :=
  let outer := s.skipTrivia
  let inner := value outer.opened
  if inner.sees .colon then close .keyedElement outer (value inner.bump)
  else close .element outer inner

def litBodyWith (value : Parser) (s : State) : State :=
  s.nodeAtToken .litBody fun s => (elements (element value) s.rest.length s.bump).expect .rBrace

/-- A type, and a composite literal if a brace follows it. -/
def composite (litBody : Parser) (s : State) : State :=
  let outer := s.skipTrivia
  let inner := type outer.opened
  if inner.sees .lBrace then close .compositeLit outer (litBody inner) else splice outer inner

/-- One expression, given parsers for the expressions and literal bodies inside it. -/
def exprWith (expr litBody : Parser) (s : State) : State :=
  match s.peek.map Token.kind with
  | some .minus | some .plus => s.nodeAtToken .unaryExpr fun s => expr s.bump
  | some .int | some .float | some .string | some .rawString => s.tokenNode .literal
  | some .lParen => s.nodeAtToken .parenExpr fun s => (expr s.bump).expect .rParen
  | some .ident | some .lBracket | some .mapKw => composite litBody s
  | none => s.expected .expression
  | some _ =>
    let s := s.expected .expression
    if s.seesAny [.rBrace, .rParen, .rBracket, .comma] then s else s.tokenNode .error

/-- A value between the braces of a literal: a body whose type is left out, or an expression. -/
def valueWith (expr litBody : Parser) (s : State) : State :=
  if s.sees .lBrace then litBody s else expr s

mutual

/-- Expressions nested at most `fuel` deep. -/
def exprWithin : (fuel : Nat) → Parser
  | 0 => id
  | n + 1 => exprWith (exprWithin n) (litBodyWithin n)

/-- Literal bodies nested at most `fuel` deep. -/
def litBodyWithin : (fuel : Nat) → Parser
  | 0 => id
  | n + 1 => litBodyWith (valueWith (exprWithin n) (litBodyWithin n))

end

def expr (s : State) : State := exprWithin (s.rest.length + 1) s

end IdlWorkbench.Grammar
