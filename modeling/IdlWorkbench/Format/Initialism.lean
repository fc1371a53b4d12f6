import IdlWorkbench.Settings.Basic
import IdlWorkbench.Text.Case

/-!
# Initialisms in names

A name in mixed caps is a sequence of words. A word that is an initialism up to the case of its letters is
written the way the settings spell it, or in lower case where a name starts in lower case.
-/

namespace IdlWorkbench.Format

/-- Whether a word starts at `c`, between `prev` and `next`. -/
def startsWord (prev c : Char) (next : Option Char) : Bool :=
  Text.isUpper c && (Text.isLower prev || prev.isDigit || (Text.isUpper prev && next.any Text.isLower))

/-- The words of a name, where `word` holds the letters of the current word, last first. -/
def wordsFrom : (word : List Char) → List Char → List (List Char)
  | [], [] => []
  | word, [] => [word.reverse]
  | [], c :: cs => wordsFrom [c] cs
  | prev :: word, c :: cs =>
    if startsWord prev c cs.head? then (prev :: word).reverse :: wordsFrom [c] cs
    else wordsFrom (c :: prev :: word) cs

def words (name : String) : List String := (wordsFrom [] name.toList).map String.ofList

def fixWord (initialisms : List String) (lower : Bool) (word : String) : String :=
  match initialisms.find? (Text.sameIgnoringAsciiCase · word) with
  | some initialism => if lower then Text.toLower initialism else initialism
  | none => word

/-- A field name with its initialisms spelled as the settings say. -/
def fixName (settings : FormatSettings) (name : String) : String :=
  if settings.fixInitialisms then
    match words name with
    | [] => ""
    | first :: rest =>
      let lower := name.toList.head?.any Text.isLower
      fixWord settings.initialisms lower first ++
        String.join (rest.map (fixWord settings.initialisms false))
  else name

end IdlWorkbench.Format
