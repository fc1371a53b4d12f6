import IdlWorkbench.Doc.Lines
import IdlWorkbench.Ast.OfTree

/-!
# Tags in docs

A doc line that starts with the marker and a blank begins a tag; the lines below it, up to the next such
line, belong to the tag. The marker is overwritten with blanks, so columns in the tag are columns in the
comment. What stands above the first tag is prose.

The text of a tag is an expression of its own. `toFile` maps an offset in it back into the file.
-/

namespace IdlWorkbench

def tagMarker : String := "+gunk"

/-- The text of a tag and where its lines begin in the file. -/
structure TagSource where
  text : String
  /-- Index of the doc line that holds the marker. -/
  docLine : Nat
  origins : List Nat
deriving DecidableEq, Repr

namespace TagSource

def before (s : TagSource) (offset : Nat) : List Char := Text.takeBytes offset s.text.toList

/-- Offset in the file of an offset in the tag. An offset past the end stands for the end. -/
def toFile (s : TagSource) (offset : Nat) : Nat :=
  let before := s.before offset
  let line := before.count '\n'
  let column := Text.bytes (before.reverse.takeWhile (· ≠ '\n'))
  match s.origins[line]? <|> s.origins.getLast? with
  | some origin => origin + column
  | none => column

def rangeToFile (s : TagSource) (r : ByteRange) : ByteRange := ⟨s.toFile r.start, s.toFile r.stop⟩

end TagSource

structure DocParts where
  /-- The lines above the first tag, trimmed, without the empty ones. -/
  prose : List String
  tags : List TagSource
deriving DecidableEq, Repr

namespace DocParts

def proseText (p : DocParts) : String := "\n".intercalate p.prose

/-- The first line of a tag with its marker overwritten, if the line begins one. -/
def tagStart? (line : String) : Option String :=
  (Text.strip? (tagMarker ++ " ") line).map fun rest =>
    String.ofList (List.replicate tagMarker.length ' ') ++ " " ++ rest

/-- The lines that continue a tag, as many as there are. -/
def continuation (lines : List DocLine) : List DocLine :=
  lines.takeWhile fun line => (tagStart? line.text).isNone

/-- The tags that begin in `lines`, the first of which has number `index`. -/
def tagsFrom (index : Nat) : List DocLine → List TagSource
  | [] => []
  | line :: rest =>
    match tagStart? line.text with
    | none => tagsFrom (index + 1) rest
    | some start =>
      let more := continuation rest
      ⟨"\n".intercalate (start :: more.map DocLine.text), index,
        line.origin :: more.map DocLine.origin⟩ :: tagsFrom (index + 1) rest

def ofLines (lines : List DocLine) : DocParts :=
  ⟨((continuation lines).map fun line => Text.trim line.text).filter (!·.isEmpty), tagsFrom 0 lines⟩

end DocParts

def Doc.parts (d : Doc) : DocParts := .ofLines d.lines

structure Tag where
  source : TagSource
  parse : Parse

namespace Tag

def ofSource (source : TagSource) : Tag := ⟨source, parseExpr source.text⟩

def expr (t : Tag) : Expr := t.parse.expr

/-- The complaints about a tag, placed in the file. -/
def errors (t : Tag) : List ParseError :=
  t.parse.errors.map fun e => ⟨e.complaint, t.source.rangeToFile e.range⟩

end Tag

def DocParts.parsedTags (p : DocParts) : List Tag := p.tags.map Tag.ofSource

/-- The docs of a tree, each with the range of the item it belongs to. -/
def Tree.docs (t : Tree) : List (ByteRange × Doc) :=
  t.branches.filterMap fun (owner, below) => (Doc.ofTree? below).map fun doc => (owner.range, doc)

/-- The tags of every doc that has some, with the range of the item it belongs to. -/
def Tree.tags (t : Tree) : List (ByteRange × List Tag) :=
  t.docs.filterMap fun (owner, doc) =>
    let tags := doc.parts.parsedTags
    if tags.isEmpty then none else some (owner, tags)

end IdlWorkbench
