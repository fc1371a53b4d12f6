import IdlWorkbench.Ast.Basic
import IdlWorkbench.Text.Blank

/-!
# The lines of a doc

Doc comments lose their markers. `lines` also takes off one blank behind `//`, and remembers where in the
file each line begins.
-/

namespace IdlWorkbench

/-- What stands between the markers of a block comment. -/
def Token.blockInner? (t : Token) : Option String := (Text.strip? "/*" t.text).bind (Text.stripEnd? "*/")

structure DocLine where
  text : String
  /-- Where `text` begins in the file. -/
  origin : Nat
deriving DecidableEq, Repr

namespace Doc

def dropSlashes : List Char → List Char
  | '/' :: '/' :: cs => dropSlashes cs
  | cs => cs

/-- The text of a comment, line by line, with nothing but its markers removed. -/
def commentLines (t : Token) : List String :=
  match t.kind with
  | .lineComment => [String.ofList (dropSlashes t.text.toList)]
  | .blockComment => Text.lines (t.blockInner?.getD t.text)
  | _ => []

/-- The text of a doc, line by line, with nothing but its markers removed. -/
def plainLines (d : Doc) : List String := d.comments.flatMap commentLines

def dropReturns (s : String) : String := String.ofList (Text.dropEndWhile (· = '\r') s.toList)

/-- Place lines one below the other, the first one at `origin`. -/
def placeLines (origin : Nat) : List String → List DocLine
  | [] => []
  | line :: rest => ⟨dropReturns line, origin⟩ :: placeLines (origin + line.utf8ByteSize + 1) rest

def linesOfComment (t : Token) : List DocLine :=
  match t.kind with
  | .lineComment =>
    match t.text.toList.drop 2 with
    | ' ' :: body => [⟨dropReturns (String.ofList body), t.offset + 3⟩]
    | body => [⟨dropReturns (String.ofList body), t.offset + 2⟩]
  | .blockComment => placeLines (t.offset + 2) (Text.split (t.blockInner?.getD ""))
  | _ => []

def lines (d : Doc) : List DocLine := d.comments.flatMap linesOfComment

/-- The text of a doc, without empty lines at its start and end. -/
def text (d : Doc) : String :=
  let lines := d.lines.map fun line => Text.trimEnd line.text
  let body := (lines.dropWhile String.isEmpty).reverse.dropWhile String.isEmpty
  "\n".intercalate body.reverse

end Doc

end IdlWorkbench
