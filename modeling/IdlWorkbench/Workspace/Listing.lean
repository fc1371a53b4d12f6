import IdlWorkbench.Workspace.Overlay

/-!
# Listing packages

A pattern is an import path or an absolute directory; with `/...` behind it, it stands for everything below.
A directory is a package when it holds host files, on disk or in the overlay.
-/

namespace IdlWorkbench

structure ListError where
  file : Path
  message : String
deriving Repr

structure Listed where
  /-- Its import path. -/
  path : String
  dir : Path
  /-- The name that its host files give it. -/
  name : Option String
  errors : List ListError

def hasHostFiles (disk : Disk) (overlay : Overlay) (dir : Path) : Except LayoutError Bool := do
  if !(overlay.filesIn dir).isEmpty then
    return true
  return !(← disk.filesWithExtension dir hostExtension).isEmpty

namespace Listed

/-- The package names that the host files of a directory give, with the files. -/
def clauses (disk : Disk) (overlay : Overlay) (dir : Path) : Except LayoutError (List (String × Path)) := do
  let files := (← disk.filesWithExtension dir hostExtension).filter fun f => (overlay.get? f).isNone
  let onDisk ← files.filterMapM fun file =>
    match disk.read file with
    | .ok text => .ok ((Token.packageClauseName text).map fun name => (name, file))
    | .error e => .error (.io file e)
  let held := (overlay.filesIn dir).filterMap fun (file, text) =>
    (Token.packageClauseName text).map fun name => (name, file)
  return onDisk ++ held

/-- Host files that do not agree on the name of their package. -/
def disagreement (dir : Path) : List (String × Path) → List ListError
  | [] => []
  | (first, firstFile) :: rest =>
    match rest.find? fun (name, _) => name ≠ first with
    | none => []
    | some (other, otherFile) =>
      [⟨otherFile, "found packages " ++ first ++ " (" ++ firstFile.fileName ++ ") and " ++ other ++ " (" ++
        otherFile.fileName ++ ") in " ++ dir.text⟩]

def ofDir (disk : Disk) (layout : Layout) (overlay : Overlay) (dir : Path) : Except LayoutError Listed :=
  match layout.importPathOf? dir with
  | none => .error (.outsideModule dir)
  | some path => do
    let clauses ← clauses disk overlay dir
    return ⟨path, dir, clauses.head?.map (·.1), disagreement dir clauses⟩

def ofDir? (disk : Disk) (layout : Layout) (overlay : Overlay) (dir : Path) :
    Except LayoutError (Option Listed) := do
  if ← hasHostFiles disk overlay dir then
    return some (← ofDir disk layout overlay dir)
  else
    return none

/-- Whether a tree of packages leaves out a directory and what is below it. -/
def isSkipped (disk : Disk) (dir : Path) : Bool :=
  let name := dir.fileName
  name.toList.head? = some '.' || name.toList.head? = some '_' || name = "testdata" || name = "vendor" ||
    disk.isFile (dir.child Manifest.fileName)

/-- The directories from one on downwards, each one given by the names that lead to it. -/
def trail (root : Path) : List String → List Path
  | [] => []
  | name :: rest => root.child name :: trail (root.child name) rest

def treeDirs (disk : Disk) (root : Path) : List Path :=
  ((disk.directories root).filter fun names => (trail root names).all (!isSkipped disk ·)).map
    fun names => names.foldl Path.child root

/-- The directory that a pattern means; the standard library has none. -/
def patternDir (layout : Layout) (pattern : String) : Except LayoutError (Option Path) :=
  let p := Path.ofString pattern
  if p.isAbsolute then .ok (some p.normalize)
  else if layout.isStandard pattern then .ok none
  else
    match layout.resolve? pattern with
    | some dir => .ok (some dir)
    | none => .error (.unknownModule pattern)

/-- What stands behind a pattern that means everything below. -/
def wildcard : String := "/..."

def ofPattern (disk : Disk) (layout : Layout) (overlay : Overlay) (pattern : String) :
    Except LayoutError (List Listed) := do
  match Text.stripEnd? wildcard pattern with
  | some base =>
    match ← patternDir layout base with
    | none => return []
    | some root => (treeDirs disk root).filterMapM (ofDir? disk layout overlay)
  | none =>
    match ← patternDir layout pattern with
    | none => return []
    | some dir => return (← ofDir? disk layout overlay dir).toList

end Listed

end IdlWorkbench
