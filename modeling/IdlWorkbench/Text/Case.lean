import IdlWorkbench.Text.CaseTable

/-!
# Upper and lower case

Upper and lower case letters are those with the Unicode properties of these names. A text is put into
lower case letter by letter, save that a capital sigma at the end of a word becomes a final sigma.
-/

namespace IdlWorkbench.Text

def inRuns (runs : List (Nat × Nat × Nat)) (n : Nat) : Bool :=
  runs.any fun (first, last, step) => first ≤ n && n ≤ last && (n - first) % step == 0

def isUpper (c : Char) : Bool := inRuns upperRuns c.toNat

def isLower (c : Char) : Bool := inRuns lowerRuns c.toNat

def isCased (c : Char) : Bool := isUpper c || isLower c || inRuns titleRuns c.toNat

def isCaseIgnorable (c : Char) : Bool := inRuns caseIgnorableRuns c.toNat

/-- The lower case of a letter that does not look at its neighbours. -/
def lowerChar (c : Char) : List Char :=
  if c.toNat = 0x130 then ['i', Char.ofNat 0x307]
  else
    match lowerMapRuns.find? fun (first, last, step, _) =>
        first ≤ c.toNat && c.toNat ≤ last && (c.toNat - first) % step == 0 with
    | some (_, _, _, shift) => [Char.ofNat (c.toNat + shift).toNat]
    | none => [c]

/-- Whether a letter with case is the first character that counts for words. -/
def casedFirst (cs : List Char) : Bool := (cs.dropWhile isCaseIgnorable).head?.any isCased

/-- Lower case of `cs`, where `before` holds the characters before them, last first. -/
def lowerFrom : (before : List Char) → List Char → List Char
  | _, [] => []
  | before, c :: cs =>
    (if c.toNat = 0x3A3 then
      [Char.ofNat (if casedFirst before && !casedFirst cs then 0x3C2 else 0x3C3)]
    else lowerChar c) ++ lowerFrom (c :: before) cs

def toLower (s : String) : String := String.ofList (lowerFrom [] s.toList)

/-- An ASCII letter without its case; any other character stays as it is. -/
def foldAscii (c : Char) : Char := if c.isUpper then c.toLower else c

/-- Whether two texts differ at most in the case of ASCII letters. -/
def sameIgnoringAsciiCase (s t : String) : Bool := s.toList.map foldAscii == t.toList.map foldAscii

end IdlWorkbench.Text
