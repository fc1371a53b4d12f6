/-!
# Blanks and lines

A character is blank when it has the Unicode property `White_Space`. Trimming takes blanks off the ends
of a text. Lines end at a line feed.
-/

namespace IdlWorkbench.Text

/-- The characters with the property `White_Space`. -/
def isBlank (c : Char) : Bool :=
  let n := c.toNat
  (0x09 ≤ n && n ≤ 0x0D) || n == 0x20 || n == 0x85 || n == 0xA0 || n == 0x1680 ||
    (0x2000 ≤ n && n ≤ 0x200A) || n == 0x2028 || n == 0x2029 || n == 0x202F || n == 0x205F || n == 0x3000

/-- Drop the longest end whose characters all satisfy `p`. -/
def dropEndWhile (p : Char → Bool) (cs : List Char) : List Char := (cs.reverse.dropWhile p).reverse

def trimEnd (s : String) : String := String.ofList (dropEndWhile isBlank s.toList)

def trim (s : String) : String := String.ofList (dropEndWhile isBlank (s.toList.dropWhile isBlank))

def words (s : String) : List String :=
  ((s.toList.splitOnP isBlank).filter (!·.isEmpty)).map String.ofList

/-- The stretches between line feeds; one more than there are line feeds. -/
def split (s : String) : List String := (s.toList.splitOn '\n').map String.ofList

/-- The text without `lead` at its start, if it starts so. -/
def strip? (lead s : String) : Option String :=
  if lead.toList.isPrefixOf s.toList then some (String.ofList (s.toList.drop lead.toList.length))
  else none

/-- The text without `tail` at its end, if it ends so. -/
def stripEnd? (tail s : String) : Option String :=
  if tail.toList.isSuffixOf s.toList then
    some (String.ofList (s.toList.take (s.toList.length - tail.toList.length)))
  else none

/-- A word without quotes around it. -/
def dropQuotes (word : String) : String :=
  String.ofList (dropEndWhile (· = '"') (word.toList.dropWhile (· = '"')))

/-- What stands before and behind the first place where `mark` stands. -/
def cut? (mark : List Char) : List Char → Option (List Char × List Char)
  | [] => none
  | c :: cs =>
    if mark.isPrefixOf (c :: cs) then some ([], (c :: cs).drop mark.length)
    else (cut? mark cs).map fun (before, after) => (c :: before, after)

def dropReturn (line : String) : String := (stripEnd? "\r" line).getD line

/-- The lines among the stretches between line feeds. A line feed ended each but the last one, with or
without a carriage return in front of it; the last one is a line only if it is not empty. -/
def linesAmong : List String → List String
  | [] => []
  | [last] => if last.isEmpty then [] else [last]
  | part :: rest => dropReturn part :: linesAmong rest

def lines (s : String) : List String := linesAmong (split s)

end IdlWorkbench.Text
