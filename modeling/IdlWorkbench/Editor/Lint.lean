import IdlWorkbench.Graph.Diagnostics

/-!
# Lint

Declared types, struct fields with a single name and interface methods should have a doc that starts with
their name.
-/

namespace IdlWorkbench

namespace Lint

def code : String := "commentstart"

/-- The name and the doc of an item that should have one, where `parent` is the node it hangs from. -/
def documented? (parent item : Tree) : Option (Token × Option Doc) :=
  match item with
  | .node .typeSpec _ _ =>
    (TypeSpec.ofTree? item).map fun spec =>
      match TopLevel.ofTree? parent with
      | some (.types d) => (spec.name, d.specDoc spec.doc)
      | _ => (spec.name, spec.doc)
  | .node .field _ children =>
    match namesAmong children with
    | [name] => some (name, Doc.among? children)
    | _ => none
  | .node .method _ children => (namesAmong children).head?.map fun name => (name, Doc.among? children)
  | _ => none

/-- From the start of the first comment to the end of its first word. -/
def firstWord? (d : Doc) : Option ByteRange :=
  d.comments.head?.map fun t =>
    let body := t.text.toList.drop 2
    let blanks := body.takeWhile Text.isBlank
    let word := (body.dropWhile Text.isBlank).takeWhile (!Text.isBlank ·)
    ⟨t.offset, t.offset + 2 + Text.bytes blanks + Text.bytes word⟩

/-- Warn about a doc that does not start with the name, or is missing. -/
def warning? (text : String) (name : Token) (doc : Option Doc) : Option Diagnostic :=
  let start := name.text ++ " "
  let prose := (doc.map Doc.text).getD ""
  if (Text.strip? start prose).isSome then none
  else
    match doc.bind firstWord?, prose.isEmpty with
    | some range, false =>
      some (.warning code (Text.span text range) ("comment should start with '" ++ start ++ "'"))
    | _, _ => some (.warning code (Text.span text name.range) "missing comment")

def ofSource (s : Source) : List Diagnostic :=
  s.tree.branches.filterMap fun (parent, item) =>
    (documented? parent item).bind fun (name, doc) => warning? s.text name doc

/-- The warnings for the parsed files of a package that have some. -/
def ofNode (n : PackageNode) : FileDiagnostics :=
  (n.parsed.map fun f => (f.path, ofSource f.source)).filter fun (_, ds) => !ds.isEmpty

end Lint

end IdlWorkbench
