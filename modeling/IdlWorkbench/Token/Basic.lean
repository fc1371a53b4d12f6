import IdlWorkbench.Text.ByteRange

/-!
# Tokens

A source text is a sequence of tokens. Blanks and comments are tokens like any other, so that a text
is the concatenation of its tokens. A stretch that matches no rule is a token of kind `error`.
-/

namespace IdlWorkbench

inductive TokenKind where
  | whitespace
  | lineComment
  | blockComment
  | ident
  | int
  | float
  | string
  | rawString
  | lBrace
  | rBrace
  | lBracket
  | rBracket
  | lParen
  | rParen
  | semicolon
  | colon
  | dot
  | comma
  | eq
  | star
  | minus
  | plus
  | packageKw
  | importKw
  | typeKw
  | constKw
  | structKw
  | interfaceKw
  | mapKw
  | chanKw
  | funcKw
  | error
deriving DecidableEq, Repr, Inhabited

namespace TokenKind

def isComment : TokenKind → Bool
  | lineComment | blockComment => true
  | _ => false

/-- Trivia may stand between any two tokens. -/
def isTrivia (k : TokenKind) : Bool := k == whitespace || k.isComment

def isString : TokenKind → Bool
  | string | rawString => true
  | _ => false

def isLiteral : TokenKind → Bool
  | int | float | string | rawString => true
  | _ => false

def describe : TokenKind → String
  | ident => "identifier"
  | int | float => "number"
  | string | rawString => "string literal"
  | lBrace => "'\x7b'"
  | rBrace => "'\x7d'"
  | lBracket => "'['"
  | rBracket => "']'"
  | lParen => "'('"
  | rParen => "')'"
  | semicolon => "';'"
  | colon => "':'"
  | dot => "'.'"
  | comma => "','"
  | eq => "'='"
  | star => "'*'"
  | minus => "'-'"
  | plus => "'+'"
  | packageKw => "'package'"
  | importKw => "'import'"
  | typeKw => "'type'"
  | constKw => "'const'"
  | structKw => "'struct'"
  | interfaceKw => "'interface'"
  | mapKw => "'map'"
  | chanKw => "'chan'"
  | funcKw => "'func'"
  | whitespace | lineComment | blockComment | error => "token"

end TokenKind

structure Token where
  kind : TokenKind
  text : String
  /-- Where the token starts in its text. -/
  offset : Nat
deriving DecidableEq, Repr, Inhabited

namespace Token

def stop (t : Token) : Nat := t.offset + t.text.utf8ByteSize

def range (t : Token) : ByteRange := ⟨t.offset, t.stop⟩

def isTrivia (t : Token) : Bool := t.kind.isTrivia

def isComment (t : Token) : Bool := t.kind.isComment

def newlines (t : Token) : Nat := t.text.toList.count '\n'

/-- Whether the token spans a line break. A line comment stops before its break. -/
def hasNewline (t : Token) : Bool := t.kind != .lineComment && t.text.toList.contains '\n'

/-- Whether the next token stands on a later line than the start of this one. -/
def endsLine (t : Token) : Bool := t.kind == .lineComment || t.hasNewline

end Token

end IdlWorkbench
