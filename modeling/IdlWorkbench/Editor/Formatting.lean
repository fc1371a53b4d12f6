import IdlWorkbench.Format.File
import IdlWorkbench.Graph.Analysis

/-!
# Formatting a document

The answer replaces the whole text by its canonical form. A file that has errors, other than broken rules,
is left alone.
-/

namespace IdlWorkbench

structure TextEdit where
  span : Span
  newText : String
deriving DecidableEq, Repr

inductive FormattingError where
  | load (e : LoadError)
  | noParent (file : Path)
  | fileHasErrors (file : Path)
  | fileNotFound (file : Path)
  /-- The text has no canonical form; the line and column count from one. -/
  | refused (file : Path) (line col : Nat) (cause : FormatError)

def FormattingError.message : FormattingError → String
  | load e => "could not load package: " ++ e.message
  | noParent file => file.text ++ " is not inside a directory"
  | fileHasErrors file => "file " ++ file.text ++ " has errors"
  | fileNotFound file => "could not find file " ++ file.text
  | refused file line col cause =>
    "could not format file: " ++ file.text ++ ":" ++ toString line ++ ":" ++ toString col ++ ": " ++
      cause.message

/-- The edit that turns a text into another, if they differ. -/
def TextEdit.between (old new : String) : List TextEdit :=
  if new = old then [] else [⟨⟨⟨0, 0⟩, ⟨Text.lineCount old + 1, 0⟩⟩, new⟩]

namespace Graph

def formatParsed (settings : FormatSettings) (file : Path) (f : ParsedFile) :
    Except FormattingError (List TextEdit) :=
  match Format.formatTree settings f.source.tree with
  | .ok text => .ok (TextEdit.between f.source.text text)
  | .error cause =>
    let (line, col) := (Text.lineCol f.source.text cause.range.start).oneBased
    .error (.refused file line col cause)

def formatDocument (disk : Disk) (settings : FormatSettings) (file : Path) :
    GraphM FormattingError (List TextEdit) := do
  match file.parent? with
  | none => throw (.noParent file)
  | some dir =>
    let path ← ExceptT.adapt FormattingError.load (loadOne disk dir.text)
    match ← ensureAnalysed disk path with
    | none => throw (.fileNotFound file)
    | some n =>
      if n.hasErrors file then
        throw (.fileHasErrors file)
      match n.parsedFile? file with
      | none => throw (.fileNotFound file)
      | some f => lift id (formatParsed settings file f)

end Graph

end IdlWorkbench
