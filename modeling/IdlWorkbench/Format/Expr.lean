import IdlWorkbench.Ast.Basic

/-!
# Expressions in canonical layout

A literal body is written on one line, unless it held a line break: then each element has a line of its
own, and the values of neighbouring keyed elements are aligned.
-/

namespace IdlWorkbench.Format

def repeatText (n : Nat) (unit : String) : String := String.join (List.replicate n unit)

/-- Blanks that fill a text up to `width` characters. -/
def padding (width : Nat) (s : String) : String := repeatText (width - s.length) " "

def widest (xs : List String) : Nat := (xs.map String.length).foldl max 0

def tokenText (t : Option Token) : String := (t.map Token.text).getD ""

def selectorText (qualifier name : Option Token) : String := tokenText qualifier ++ "." ++ tokenText name

/-- A type inside an expression, written from its tokens. -/
def typeText (tokens : List Token) : String :=
  String.join (tokens.map fun t => if t.kind = .chanKw then t.text ++ " " else t.text)

def spansLines (s : String) : Bool := s.toList.contains '\n'

/-- A printed element: a key with its colon and a value, or a value alone. -/
inductive ElementText where
  | keyed (key value : String)
  | single (value : String)
deriving DecidableEq, Repr

def ElementText.oneLine : ElementText → String
  | keyed key value => key ++ " " ++ value
  | single value => value

/-- A line for each pair of a run of keyed elements, values aligned. -/
def keyedLines (indent : String) (pairs : List (String × String)) : List String :=
  let width := widest (pairs.map (·.1))
  pairs.map fun (key, value) => indent ++ key ++ padding width key ++ " " ++ value ++ ","

/-- A line for each element; `pending` is the run of keyed elements right before them, last first. -/
def elementLines (indent : String) : (pending : List (String × String)) → List ElementText → List String
  | pending, [] => keyedLines indent pending.reverse
  | pending, .keyed key value :: rest =>
    if spansLines value then
      keyedLines indent pending.reverse ++ (indent ++ key ++ " " ++ value ++ ",") ::
        elementLines indent [] rest
    else elementLines indent ((key, value) :: pending) rest
  | pending, .single value :: rest =>
    keyedLines indent pending.reverse ++ (indent ++ value ++ ",") :: elementLines indent [] rest

def bodyText (multiline : Bool) (depth : Nat) (unit : String) (elements : List ElementText) : String :=
  if elements.isEmpty then "\x7b\x7d"
  else if multiline then
    "\x7b\n" ++ "\n".intercalate (elementLines (repeatText (depth + 1) unit) [] elements) ++ "\n" ++
      repeatText depth unit ++ "\x7d"
  else "\x7b" ++ ", ".intercalate (elements.map ElementText.oneLine) ++ "\x7d"

mutual

/-- An expression at a depth of indentation, with `unit` for each step. -/
def exprText (depth : Nat) (unit : String) : Expr → String
  | .missing => ""
  | .literal token => token.text
  | .name id => id.text
  | .selector _ qualifier name => selectorText qualifier name
  | .paren _ inner => "(" ++ exprText depth unit inner ++ ")"
  | .unary _ op operand => op.text ++ exprText depth unit operand
  | .composite _ _ tokens body => typeText tokens ++ litBodyText depth unit body
  | .type _ tokens => typeText tokens

def litBodyText (depth : Nat) (unit : String) : LitBody → String
  | ⟨_, multiline, elements⟩ =>
    bodyText multiline depth unit (elementTexts (if multiline then depth + 1 else depth) unit elements)

def elementTexts (depth : Nat) (unit : String) : List Element → List ElementText
  | [] => []
  | .keyed _ key value :: rest =>
    .keyed (valueText depth unit key ++ ":") (valueText depth unit value) :: elementTexts depth unit rest
  | .positional _ value :: rest => .single (valueText depth unit value) :: elementTexts depth unit rest

def valueText (depth : Nat) (unit : String) : ElementValue → String
  | .missing => ""
  | .expr e => exprText depth unit e
  | .body b => litBodyText depth unit b

end

end IdlWorkbench.Format
