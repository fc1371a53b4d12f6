import IdlWorkbench.Format.Expr
import IdlWorkbench.Text.Blank

/-!
# Rows and columns

The members of a block are printed a row each. Rows that follow each other directly form a section, whose
cells are aligned in columns; an empty line, a comment, a doc or a row that spans lines ends a section. Of
several empty lines between two members one is kept.
-/

namespace IdlWorkbench.Format

/-- A member of a block: the lines of its doc and the cells of its row. -/
structure Row where
  doc : List String
  cells : List String
deriving DecidableEq, Repr

/-- A comment or a row, and whether an empty line comes before it. -/
inductive Entry where
  | comment (blank : Bool) (text : String)
  | row (blank : Bool) (row : Row)
deriving DecidableEq, Repr

/-- The text of a comment; a line comment loses the blanks at its end. -/
def commentText (t : Token) : String :=
  if (Text.strip? "//" t.text).isSome then Text.trimEnd t.text else t.text

/-- The entries of a list that keeps its layout. `first` says that no entry came before, and `newlines`
counts the line breaks since the last one. -/
def entriesFrom : (first : Bool) → (newlines : Nat) → List (Item Row) → List Entry
  | _, _, [] => []
  | first, newlines, .gap n :: rest => entriesFrom first (newlines + n) rest
  | first, newlines, .comment t :: rest =>
    .comment (!first && 2 ≤ newlines) (commentText t) :: entriesFrom false 0 rest
  | first, newlines, .entry row :: rest =>
    .row (!first && 2 ≤ newlines) row :: entriesFrom false 0 rest

/-! ## Sections -/

/-- The width of a column: that of its widest cell with another cell behind it. -/
def columnWidth (rows : List (List String)) (column : Nat) : Nat :=
  widest ((rows.filter fun row => column + 1 < row.length).filterMap fun row => row[column]?)

/-- The cells from `column` on, each but the last filled up to the width of its column. -/
def cellsText (width : Nat → Nat) : (column : Nat) → List String → String
  | _, [] => ""
  | _, [cell] => cell
  | column, cell :: rest => cell ++ padding (width column) cell ++ " " ++ cellsText width (column + 1) rest

def sectionLines (indent : String) (rows : List (List String)) : List String :=
  rows.map fun row => indent ++ cellsText (columnWidth rows) 0 row

/-! ## Blocks -/

def blankLine (blank : Bool) : List String := if blank then [""] else []

/-- The lines of a block, where `rows` is the section before the entries, last row first. -/
def blockLines (indent : String) : (rows : List (List String)) → List Entry → List String
  | rows, [] => sectionLines indent rows.reverse
  | rows, .comment blank text :: rest =>
    sectionLines indent rows.reverse ++ blankLine blank ++ (indent ++ text) :: blockLines indent [] rest
  | rows, .row blank row :: rest =>
    let multiline := row.cells.any spansLines
    if blank || !row.doc.isEmpty || multiline then
      sectionLines indent rows.reverse ++ blankLine blank ++ row.doc.map (indent ++ ·) ++
        (if multiline then (indent ++ " ".intercalate row.cells) :: blockLines indent [] rest
        else blockLines indent [row.cells] rest)
    else blockLines indent (row.cells :: rows) rest

/-- The text between the brackets of a block, `depth` steps to the right. -/
def blockText (depth : Nat) (entries : List Entry) : String :=
  "\n".intercalate (blockLines (repeatText depth "\t") [] entries)

def bracedText (keyword : String) (depth : Nat) (items : List (Item Row)) : String :=
  let entries := entriesFrom true 0 items
  if entries.isEmpty then keyword ++ "\x7b\x7d"
  else keyword ++ " \x7b\n" ++ blockText (depth + 1) entries ++ "\n" ++ repeatText depth "\t" ++ "\x7d"

/-- A group of specs. `closing` is the line that ends it. -/
def groupText (keyword : String) (items : List (Item Row)) (closing : String) : String :=
  let entries := entriesFrom true 0 items
  keyword ++ " (\n" ++ (if entries.isEmpty then "" else blockText 1 entries ++ "\n") ++ closing

end IdlWorkbench.Format
