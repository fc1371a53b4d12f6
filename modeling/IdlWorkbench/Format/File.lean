import IdlWorkbench.Doc.Tag
import IdlWorkbench.Format.Initialism
import IdlWorkbench.Format.Layout
import IdlWorkbench.Format.Sequence

/-!
# Files in canonical layout

`formatTree` prints a file anew: one item on each line, indented with tabs, fields numbered, tags of docs
written out in full. Printing keeps account of the comments it carries over; a file that has a comment
which no rule carries is refused, as is one that does not fit the grammar.
-/

namespace IdlWorkbench.Format

/-- Printing carries comments over, or fails. The state holds the comments carried so far, last first. -/
abbrev Printer := StateT (List Token) (Except FormatError)

def carry (t : Token) : Printer String := do
  modify (t :: ·)
  return commentText t

/-- Carry a trailing comment over, if there is one. -/
def carryTrailing : Option Token → Printer (List String)
  | none => return []
  | some t => return [← carry t]

def lineWithTrailing (line : String) (trailing : Option Token) : Printer String := do
  return " ".intercalate (line :: (← carryTrailing trailing))

/-! ## Docs -/

/-- The step of indentation inside a tag, which stands in a comment. -/
def tagIndent : String := "        "

def tagLines (tag : Tag) : Except FormatError (List String) :=
  match tag.errors with
  | e :: _ => .error (.malformedTag e.range e.complaint)
  | [] => .ok (Text.split (tagMarker ++ " " ++ exprText 0 tagIndent tag.expr))

def asComment (line : String) : String :=
  let line := Text.trimEnd line
  if line.isEmpty then "//" else "// " ++ line

/-- The lines of a doc. One with tags is written anew: the prose, an empty line, then the tags. -/
def docText : Option Doc → Printer (List String)
  | none => return []
  | some doc => do
    let comments ← doc.comments.mapM carry
    let parts := doc.parts
    if parts.tags.isEmpty then
      return comments
    let tags ← liftM (parts.parsedTags.mapM tagLines)
    let prose := if parts.prose.isEmpty then [] else parts.prose ++ [""]
    return (prose ++ tags.flatten).map asComment

/-! ## Types -/

section

variable (settings : FormatSettings) (numbers : Assignments)

def fieldTag (f : Field) : List String :=
  match numbers.find? (·.1 = f.range) with
  | some (_, n) => [numberedTag n (tagValue f.tag)]
  | none => (f.tag.map Token.text).toList

/-- A signature from its printed parameters and results. -/
def signatureText (params : List String) (form : ResultForm) (results : List String) : String :=
  "(" ++ ", ".intercalate params ++ ")" ++
    match form with
    | .absent => ""
    | .parens => " (" ++ ", ".intercalate results ++ ")"
    | .bare => (results.head?.map (" " ++ ·)).getD ""

mutual

def printType (depth : Nat) : TypeExpr → Printer String
  | .missing => return ""
  | .name id => return id.text
  | .selector _ qualifier name => return selectorText qualifier name
  | .slice _ elem => return "[]" ++ (← printType depth elem)
  | .map _ key value => return "map[" ++ (← printType depth key) ++ "]" ++ (← printType depth value)
  | .pointer _ elem => return "*" ++ (← printType depth elem)
  | .chan _ elem => return "chan " ++ (← printType depth elem)
  | .func _ signature => return "func" ++ (← printSignature depth signature)
  | .struct _ braces fields =>
    if braces = .absent then return "struct\x7b\x7d"
    else return bracedText "struct" depth (← fieldRows (depth + 1) fields)
  | .interface _ braces methods =>
    if braces = .absent then return "interface\x7b\x7d"
    else return bracedText "interface" depth (← methodRows (depth + 1) methods)

def printSignature (depth : Nat) : Signature → Printer String
  | ⟨params, form, results⟩ =>
    return signatureText (← printParams depth params) form (← printParams depth results)

def printParams (depth : Nat) : List Param → Printer (List String)
  | [] => return []
  | ⟨name, type⟩ :: rest => do
    let text ← printType depth type
    return (match name with
      | some name => name.text ++ " " ++ text
      | none => text) :: (← printParams depth rest)

def fieldRows (depth : Nat) : List (Item Field) → Printer (List (Item Row))
  | [] => return []
  | .gap n :: rest => return .gap n :: (← fieldRows depth rest)
  | .comment t :: rest => do
    let _ ← carry t
    return .comment t :: (← fieldRows depth rest)
  | .entry ⟨range, doc, names, type, tag, trailing⟩ :: rest => do
    let docLines ← docText doc
    let nameCell := if names.isEmpty then []
      else [", ".intercalate (names.map fun name => fixName settings name.text)]
    let typeCell ← printType depth type
    let tagCell := fieldTag numbers ⟨range, doc, names, type, tag, trailing⟩
    let cells := nameCell ++ typeCell :: tagCell ++ (← carryTrailing trailing)
    return .entry ⟨docLines, cells⟩ :: (← fieldRows depth rest)

def methodRows (depth : Nat) : List (Item Method) → Printer (List (Item Row))
  | [] => return []
  | .gap n :: rest => return .gap n :: (← methodRows depth rest)
  | .comment t :: rest => do
    let _ ← carry t
    return .comment t :: (← methodRows depth rest)
  | .entry ⟨_, doc, name, signature, trailing⟩ :: rest => do
    let docLines ← docText doc
    let cell := name.text ++ (← printSignature depth signature)
    let cells := cell :: (← carryTrailing trailing)
    return .entry ⟨docLines, cells⟩ :: (← methodRows depth rest)

end

/-! ## Declarations -/

def specRows {α : Type} (row : α → Printer Row) : List (Item α) → Printer (List (Item Row))
  | [] => return []
  | .gap n :: rest => return .gap n :: (← specRows row rest)
  | .comment t :: rest => do
    let _ ← carry t
    return .comment t :: (← specRows row rest)
  | .entry spec :: rest => do
    let printed ← row spec
    return .entry printed :: (← specRows row rest)

/-- The lines of a declaration: its doc, then a group, or what `single` prints for its only spec. -/
def declText {α : Type} (keyword : String) (row : α → Printer Row) (single : α → Printer String)
    (d : Decl α) : Printer String := do
  let doc ← docText d.doc
  if d.grouped then
    let rows ← specRows row d.items
    let closing ← lineWithTrailing ")" d.trailing
    return "\n".intercalate (doc ++ [groupText keyword rows closing])
  else
    match d.specs with
    | [] => return "\n".intercalate doc
    | spec :: _ => return "\n".intercalate (doc ++ [← single spec])

def importText (spec : ImportSpec) : String :=
  match spec.name with
  | some name => name.text ++ " " ++ tokenText spec.path
  | none => tokenText spec.path

def importRow (spec : ImportSpec) : Printer Row := do
  let doc ← docText spec.doc
  return ⟨doc, importText spec :: (← carryTrailing spec.trailing)⟩

def typeRow (spec : TypeSpec) : Printer Row := do
  let doc ← docText spec.doc
  let type ← printType settings numbers 1 spec.type
  return ⟨doc, spec.name.text :: type :: (← carryTrailing spec.trailing)⟩

/-- The row of a constant: its name, its type and its value, as far as they are there. -/
def constRow (depth : Nat) (spec : ConstSpec) : Printer Row := do
  let doc ← docText spec.doc
  let type ← if spec.type.isMissing then pure [] else do
    pure [← printType settings numbers depth spec.type]
  let value := if spec.value.isMissing then [] else ["= " ++ exprText depth "\t" spec.value]
  return ⟨doc, spec.name.text :: type ++ value ++ (← carryTrailing spec.trailing)⟩

def importDeclText (d : Decl ImportSpec) : Printer String :=
  declText "import" importRow (fun spec =>
    lineWithTrailing ("import " ++ importText spec) (spec.trailing <|> d.trailing)) d

def typeDeclText (d : Decl TypeSpec) : Printer String :=
  declText "type" (typeRow settings numbers) (fun spec => do
    let type ← printType settings numbers 0 spec.type
    lineWithTrailing ("type " ++ spec.name.text ++ " " ++ type) (spec.trailing <|> d.trailing)) d

def constDeclText (d : Decl ConstSpec) : Printer String :=
  declText "const" (constRow settings numbers 1) (fun spec => do
    let row ← constRow settings numbers 0 spec
    lineWithTrailing ("const " ++ " ".intercalate row.cells) d.trailing) d

def packageText (clause : PackageClause) : Printer String := do
  let doc ← docText clause.doc
  let line ← lineWithTrailing ("package " ++ tokenText clause.name) clause.trailing
  return "\n".intercalate (doc ++ [line])

def topLevelText : TopLevel → Printer String
  | .package clause => packageText clause
  | .imports decl => importDeclText decl
  | .types decl => typeDeclText settings numbers decl
  | .consts decl => constDeclText settings numbers decl

/-! ## Files -/

/-- What comes between two blocks that had `newlines` line breaks between them. -/
def blockBreak (first : Bool) (newlines : Nat) : String :=
  if first then "" else if 2 ≤ newlines then "\n\n" else "\n"

def blocksText : (first : Bool) → (newlines : Nat) → List (Item TopLevel) → Printer String
  | _, _, [] => return "\n"
  | first, newlines, .gap n :: rest => blocksText first (newlines + n) rest
  | first, newlines, .comment t :: rest => do
    let block ← carry t
    return blockBreak first newlines ++ block ++ (← blocksText false 0 rest)
  | first, newlines, .entry a :: rest => do
    let block ← topLevelText settings numbers a
    return blockBreak first newlines ++ block ++ (← blocksText false 0 rest)

/-- A file, and the comments that were carried over, last first. -/
def fileText (file : SourceFile) : Except FormatError (String × List Token) :=
  (blocksText settings numbers true 0 file.items).run []

end

def comments (tree : Tree) : List Token := tree.leaves.filter Token.isComment

def formatTree (settings : FormatSettings) (tree : Tree) : Except FormatError String := do
  if let some broken := tree.nodes.find? (Tree.isNode .error) then
    throw (.brokenText broken.range)
  let numbers ← allAssignments tree
  let (text, carried) ← fileText settings numbers (.ofTree tree)
  let all := comments tree
  if carried.length = all.length then
    return text
  throw (.droppedComment ((all.head?.map Token.range).getD tree.range))

end IdlWorkbench.Format
