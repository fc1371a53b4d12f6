import IdlWorkbench.Tree.Basic
import IdlWorkbench.Grammar.Error

/-!
# Parser states

A parser runs over the tokens of a text and grows the children of the node it is in. It never drops a
token: what leaves `rest` becomes a leaf of `done`, so the leaves built so far and the tokens still to
come always make up the whole text.

Trivia is skipped where a rule asks for the next significant token. Line breaks matter: they end
declarations, specs and members, and the comments on the lines right above an item become its doc.
-/

namespace IdlWorkbench.Grammar

structure State where
  /-- The token consumed last. -/
  before : Option Token
  rest : List Token
  /-- Where the next token starts. -/
  offset : Nat
  /-- Children of the node being built, last first. -/
  done : List Tree
  /-- Complaints so far, last first. -/
  errors : List ParseError

/-- A parser turns a state into one that has consumed some more tokens. -/
abbrev Parser := State → State

namespace State

def ofTokens (tokens : List Token) : State := ⟨none, tokens, 0, [], []⟩

/-! ## Looking ahead -/

/-- The blanks and comments before the next significant token. -/
def trivia (s : State) : List Token := s.rest.takeWhile Token.isTrivia

/-- The next token that is neither blank nor comment. -/
def peek (s : State) : Option Token := s.rest.find? (!·.isTrivia)

def peekSecond (s : State) : Option Token := (s.rest.filter (!·.isTrivia))[1]?

def atEnd (s : State) : Bool := s.peek.isNone

def sees (k : TokenKind) (s : State) : Bool := s.peek.any (·.kind == k)

def seesAny (ks : List TokenKind) (s : State) : Bool := s.peek.any (ks.contains ·.kind)

def secondIs (ks : List TokenKind) (s : State) : Bool := s.peekSecond.any (ks.contains ·.kind)

/-- Whether a line break precedes the next significant token. The end of the text is a line break. -/
def newlineBefore (s : State) : Bool := s.atEnd || s.trivia.any Token.endsLine

/-- Whether a line break precedes the significant token after the next one. -/
def newlineBeforeSecond (s : State) : Bool :=
  s.peekSecond.isNone ||
    ((s.rest.dropWhile Token.isTrivia).drop 1 |>.takeWhile Token.isTrivia).any Token.endsLine

def textEnd (s : State) : Nat := (s.rest.getLast?.map Token.stop).getD s.offset

/-! ## Consuming tokens -/

def advance : Nat → Parser
  | 0, s => s
  | n + 1, s =>
    match s.rest with
    | [] => s
    | t :: rest =>
      advance n { s with before := some t, rest, offset := t.stop, done := .leaf t :: s.done }

def skipTrivia (s : State) : State := s.advance s.trivia.length

/-- Consume the trivia and the significant token behind it. -/
def bump (s : State) : State := s.skipTrivia.advance 1

/-- Consume significant tokens as long as `go` holds, `fuel` of them at most. -/
def bumpWhile (go : State → Bool) : (fuel : Nat) → Parser
  | 0, s => s
  | n + 1, s => if go s then bumpWhile go n s.bump else s

/-- Repeat `body` as long as `go` holds, `fuel` times at most. -/
def repeatWhile (go : State → Bool) (body : Parser) : (fuel : Nat) → Parser
  | 0, s => s
  | n + 1, s => if go s then repeatWhile go body n (body s) else s

/-! ## Complaints -/

/-- Record a complaint about the next significant token. -/
def complain (c : Complaint) (s : State) : State :=
  let range := (s.peek.map Token.range).getD (.point s.textEnd)
  { s with errors := ⟨c, range⟩ :: s.errors }

/-- Complain that the next significant token is not what was asked for. -/
def expected (what : Expected) (s : State) : State := s.complain (.expected what s.peek)

def expect (k : TokenKind) (s : State) : State := if s.sees k then s.bump else s.expected (.token k)

/-! ## Building nodes -/

def opened (s : State) : State := { s with done := [] }

/-- Make the children of `inner` one node of kind `k` behind the children of `outer`. -/
def close (k : NodeKind) (outer inner : State) : State :=
  { inner with done := .node k ⟨outer.offset, inner.offset⟩ inner.done.reverse :: outer.done }

/-- Put the children of `inner` behind the children of `outer`. -/
def splice (outer inner : State) : State := { inner with done := inner.done ++ outer.done }

def node (k : NodeKind) (body : Parser) (s : State) : State := close k s (body s.opened)

/-- Build a node of kind `k` that starts at the next significant token. -/
def nodeAtToken (k : NodeKind) (body : Parser) (s : State) : State := s.skipTrivia.node k body

/-- A node of kind `k` around the next significant token. -/
def tokenNode (k : NodeKind) (s : State) : State := s.nodeAtToken k bump

/-! ## Doc comments -/

/-- Number of doc lines right above the next token, read from the last trivia token backwards: each is
a comment and a blank with one line break. -/
def docLines : List Token → Nat
  | blank :: comment :: earlier =>
    if blank.kind = .whitespace ∧ blank.newlines = 1 ∧ comment.isComment then docLines earlier + 1 else 0
  | _ => 0

/-- Whether the trivia token at index `i` stands at the start of a line. -/
def beginsLine (s : State) (i : Nat) : Bool :=
  match i with
  | 0 => s.before.all Token.hasNewline
  | i + 1 => (s.rest[i]?).any Token.hasNewline

/-- Index in the trivia of the first comment of the doc of the item that comes next. The comments of a
doc stand on lines of their own, with no empty line between them or below them. -/
def docStart? (s : State) : Option Nat :=
  let count := s.trivia.length
  let lines := docLines s.trivia.reverse
  ((List.range lines).map (count - 2 * lines + 2 * ·)).find? s.beginsLine

def item (k : NodeKind) (body : Parser) (s : State) : State :=
  let count := s.trivia.length
  match s.docStart? with
  | some start =>
    (s.advance start).node k fun s => body (s.node .doc (advance (count - start - 1)))
  | none => (s.advance count).node k body

/-! ## The end of a line -/

/-- A comment that begins on the line where an item ends, and ends there too. -/
def trailing (s : State) : State :=
  let gap :=
    match s.rest with
    | t :: _ => if t.kind = .whitespace ∧ !t.hasNewline then 1 else 0
    | [] => 0
  match s.rest[gap]? with
  | some t =>
    if t.isComment && !t.hasNewline then (s.advance gap).node .trailing (advance 1) else s
  | none => s

/-- Complain and put the significant tokens up to one that `stop` names into an `error` node, one token
at least. -/
def recoverTo (c : Complaint) (stop : List TokenKind) (s : State) : State :=
  (s.complain c).nodeAtToken .error fun s =>
    if s.atEnd then s else s.bump.bumpWhile (fun s => !s.atEnd && !s.seesAny stop) s.rest.length

/-- Complain and put the rest of the line, up to `closer`, into an `error` node, one token at least. -/
def recoverLine (what : Expected) (closer : TokenKind) (s : State) : State :=
  (s.expected what).nodeAtToken .error fun s =>
    if s.atEnd then s
    else if s.sees closer then s.bump
    else s.bump.bumpWhile (fun s => !s.newlineBefore && !s.sees closer) s.rest.length

/-- The end of an item: a semicolon if there is one, a trailing comment, then a line break or the token
that closes the list the item stands in. -/
def endLine (closer : TokenKind) (s : State) : State :=
  let s := if !s.newlineBefore && s.sees .semicolon then s.bump else s
  let s := s.trailing
  if !s.newlineBefore && !s.sees closer then (s.recoverLine (.token .semicolon) closer).trailing else s

end State

end IdlWorkbench.Grammar
