import IdlWorkbench.Token.Value

/-!
# Struct tags

The text behind a field is a list of pairs such as `pb:"1" json:"name"`. `StructTag.ofString` accepts only
well-formed lists; `StructTag.find?` looks a key up in any text and reads no further than it has to.
-/

namespace IdlWorkbench

structure StructTag where
  pairs : List (String × String)
deriving DecidableEq, Repr

inductive StructTagError where
  | badPair
  | badKey
  | badValue
  | notSeparated
deriving DecidableEq, Repr

def StructTagError.message : StructTagError → String
  | badPair => "bad syntax for struct tag pair"
  | badKey => "bad syntax for struct tag key"
  | badValue => "bad syntax for struct tag value"
  | notSeparated => "key:\"value\" pairs not separated by spaces"

namespace StructTag

/-- Keys hold no control character, blank, colon or quote. -/
def isKeyChar (c : Char) : Bool := !(c ≤ ' ' || c = ':' || c = '"' || c.toNat = 0x7F)

/-- Cut behind the closing quote: what stands before that quote, and the rest. A backslash takes the next
character with it. -/
def closing? : List Char → Option (List Char × List Char)
  | [] => none
  | '"' :: rest => some ([], rest)
  | '\\' :: c :: cs => (closing? cs).map fun (body, rest) => ('\\' :: c :: body, rest)
  | c :: cs => (closing? cs).map fun (body, rest) => (c :: body, rest)

/-- The value between quotes, escapes resolved. -/
def value? (body : List Char) : Option String := (Token.unescape body).map String.ofList

/-! ## Well-formed tags -/

/-- One pair at the start of a text, and the rest of the text. -/
def pair (cs : List Char) : Except StructTagError ((String × String) × List Char) :=
  let key := cs.takeWhile isKeyChar
  if key.isEmpty then .error .badKey
  else
    match cs.dropWhile isKeyChar with
    | ':' :: '"' :: rest =>
      match closing? rest with
      | none => .error .badValue
      | some (body, rest) =>
        match value? body with
        | none => .error .badValue
        | some value => .ok ((String.ofList key, value), rest)
    | ':' :: _ => .error .badValue
    | _ => .error .badPair

/-- Pairs with blanks between them; `first` says that no pair came before. Every pair is longer than
nothing, so the length of the text bounds their number. -/
def pairsWithin : (fuel : Nat) → (first : Bool) → List Char → Except StructTagError (List (String × String))
  | 0, _, _ => .ok []
  | n + 1, first, cs =>
    let trimmed := cs.dropWhile (· = ' ')
    if cs.isEmpty then .ok []
    else if !first && trimmed.length = cs.length then .error .notSeparated
    else if trimmed.isEmpty then .ok []
    else do
      let (p, rest) ← pair trimmed
      return p :: (← pairsWithin n false rest)

/-- The pairs of a tag that is well formed to its end. -/
def ofString (tag : String) : Except StructTagError StructTag :=
  (pairsWithin (tag.toList.length + 1) true tag.toList).map StructTag.mk

def get? (t : StructTag) (key : String) : Option String := (t.pairs.find? (·.1 = key)).map (·.2)

/-! ## Any text -/

def findWithin (key : String) : (fuel : Nat) → List Char → Option String
  | 0, _ => none
  | n + 1, cs =>
    let cs := cs.dropWhile (· = ' ')
    let name := cs.takeWhile isKeyChar
    if name.isEmpty then none
    else
      match cs.dropWhile isKeyChar with
      | ':' :: '"' :: rest =>
        match closing? rest with
        | none => none
        | some (body, rest) =>
          if String.ofList name = key then value? body else findWithin key n rest
      | _ => none

/-- The value of a key in a text that need not be well formed: the pairs before the first fault count. -/
def find? (tag key : String) : Option String := findWithin key (tag.toList.length + 1) tag.toList

end StructTag

end IdlWorkbench
