import IdlWorkbench.Text.Blank
import IdlWorkbench.Text.ByteRange

/-!
# Lines, columns and editor positions

A place in a text is a byte offset, a line with a byte column (`LineCol`), or a line with a column in
UTF-16 units, as editors count (`Position`). All count from 0. An offset past the end stands for the
end, and an offset inside a character has the position of that character.
-/

namespace IdlWorkbench

structure Position where
  line : Nat
  character : Nat
deriving DecidableEq, Repr, Inhabited

structure Span where
  start : Position
  stop : Position
deriving DecidableEq, Repr, Inhabited

namespace Span

def point (p : Position) : Span := ⟨p, p⟩

/-- The start of a text, where nothing else can be said. -/
def origin : Span := point ⟨0, 0⟩

/-- Whether a position lies in the span, both ends included. -/
def contains (s : Span) (p : Position) : Bool :=
  s.start.line ≤ p.line && p.line ≤ s.stop.line &&
    !(p.line == s.start.line && p.character < s.start.character) &&
    !(p.line == s.stop.line && s.stop.character < p.character)

end Span

structure LineCol where
  line : Nat
  col : Nat
deriving DecidableEq, Repr, Inhabited

/-- Lines and columns as messages count them, from 1. -/
def LineCol.oneBased (p : LineCol) : Nat × Nat := (p.line + 1, p.col + 1)

namespace Text

/-- Number of UTF-16 units of a character. -/
def units (c : Char) : Nat := if c.toNat < 0x10000 then 1 else 2

/-! ## From offsets to places -/

def positionFrom (p : Position) : List Char → (left : Nat) → Position
  | [], _ => p
  | c :: cs, left =>
    if left < c.utf8Size then p
    else if c = '\n' then positionFrom ⟨p.line + 1, 0⟩ cs (left - 1)
    else positionFrom ⟨p.line, p.character + units c⟩ cs (left - c.utf8Size)

def position (text : String) (offset : Nat) : Position := positionFrom ⟨0, 0⟩ text.toList offset

def span (text : String) (r : ByteRange) : Span := ⟨position text r.start, position text r.stop⟩

def lineColFrom (p : LineCol) : List Char → (left : Nat) → LineCol
  | [], _ => p
  | c :: cs, left =>
    if left < c.utf8Size then ⟨p.line, p.col + left⟩
    else if c = '\n' then lineColFrom ⟨p.line + 1, 0⟩ cs (left - 1)
    else lineColFrom ⟨p.line, p.col + c.utf8Size⟩ cs (left - c.utf8Size)

def lineCol (text : String) (offset : Nat) : LineCol := lineColFrom ⟨0, 0⟩ text.toList offset

/-! ## From places to offsets -/

def lineCount (text : String) : Nat := text.toList.count '\n' + 1

/-- The text from the start of a line on, and how many bytes come before it. -/
def fromLine : (line : Nat) → (before : Nat) → List Char → Option (Nat × List Char)
  | 0, before, cs => some (before, cs)
  | _ + 1, _, [] => none
  | line + 1, before, c :: cs =>
    fromLine (if c = '\n' then line else line + 1) (before + c.utf8Size) cs

def lineStart? (text : String) (line : Nat) : Option Nat :=
  (fromLine line 0 text.toList).map (·.1)

/-- A line without the carriage returns and the line feed that end it. -/
def lineText? (text : String) (line : Nat) : Option String :=
  (fromLine line 0 text.toList).map fun (_, cs) =>
    String.ofList (dropEndWhile (· = '\r') (cs.takeWhile (· ≠ '\n')))

/-- Byte offset of a line and byte column, if the text reaches that far. -/
def offset? (text : String) (p : LineCol) : Option Nat :=
  (lineStart? text p.line).bind fun start =>
    if start + p.col ≤ text.utf8ByteSize then some (start + p.col) else none

/-- Bytes of the characters of a line before the first one at column `character` or behind it. -/
def bytesBefore : (character : Nat) → List Char → Nat
  | _, [] => 0
  | character, c :: cs =>
    if c = '\n' || character = 0 then 0 else c.utf8Size + bytesBefore (character - units c) cs

/-- Byte offset of an editor position. A column past the end of the line stands for its end; there is
none for a line past the end of the text. -/
def offsetAt? (text : String) (p : Position) : Option Nat :=
  (fromLine p.line 0 text.toList).map fun (start, cs) => start + bytesBefore p.character cs

end Text

end IdlWorkbench
