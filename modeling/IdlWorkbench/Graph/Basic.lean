import IdlWorkbench.Check.Package
import IdlWorkbench.Diagnostic.Basic
import IdlWorkbench.Workspace.Listing

/-!
# The package graph

The graph holds every package that has been loaded, under its import path, with the texts that an editor
holds in place of files on disk. What is known about the files of a package is its `Analysis`: it is made as
a whole, and dropped as a whole when something changes.

Operations act on the graph even when they fail, so an action gives an answer or an error and, in both
cases, the graph after it.
-/

namespace IdlWorkbench

/-- An error recorded for a package. -/
structure PackageError where
  kind : ErrorKind
  file : Path
  span : Span
  message : String
deriving Repr

def PackageError.toDiagnostic (e : PackageError) : Diagnostic := .error e.kind e.span e.message

structure ParsedFile where
  path : Path
  source : Source

structure Analysis where
  parsed : List ParsedFile
  /-- The result of the type check, if the files were fit for it. -/
  checked : Option CheckResult
  errors : List PackageError
  /-- The loaded packages among the imports. -/
  imports : List String

inductive Lifecycle where
  /-- Nobody has asked for diagnostics. -/
  | untracked
  /-- The diagnostics are out of date. -/
  | dirty
  /-- The package is being checked, so importing it closes a cycle. -/
  | building
  /-- The diagnostics are up to date. -/
  | current
deriving DecidableEq, Repr

structure PackageNode where
  path : String
  dir : Path
  name : String
  /-- The IDL files, sorted. -/
  files : List Path
  state : Lifecycle := .untracked
  listErrors : List ListError := []
  analysis : Option Analysis := none
  /-- Whether the last check found the package on an import cycle. -/
  inCycle : Bool := false

namespace PackageNode

def reset (n : PackageNode) : PackageNode := { n with analysis := none, inCycle := false }

def markDirty (n : PackageNode) : PackageNode := { n.reset with state := .dirty }

def parsed (n : PackageNode) : List ParsedFile := (n.analysis.map (·.parsed)).getD []

def errors (n : PackageNode) : List PackageError := (n.analysis.map (·.errors)).getD []

def imports (n : PackageNode) : List String := (n.analysis.map (·.imports)).getD []

def checked? (n : PackageNode) : Option CheckResult := n.analysis.bind (·.checked)

def surface? (n : PackageNode) : Option Surface := n.checked?.map (·.surface)

def parsedFile? (n : PackageNode) (file : Path) : Option ParsedFile := n.parsed.find? (·.path == file)

/-- Whether a file has errors that leave its meaning in doubt. -/
def hasErrors (n : PackageNode) (file : Path) : Bool :=
  n.errors.any fun e => e.file == file && e.kind ≠ .validate

end PackageNode

structure Graph where
  layout : Layout
  overlay : Overlay := {}
  /-- The texts that the editor holds. -/
  held : Table Path String := []
  packages : Table String PackageNode := []
  /-- The packages that patterns stood for when they were loaded. -/
  memo : Table String (List String) := []
  /-- The packages whose diagnostics are wanted. -/
  tracked : List String := []
  /-- The surface of each package when its diagnostics were last given. -/
  published : Table String (Option Surface) := []
  /-- The packages being checked, the innermost first. -/
  building : List String := []

/-- An operation on the graph that may fail. -/
abbrev GraphM (ε α : Type) := ExceptT ε (StateM Graph) α

namespace Graph

def discover (disk : Disk) (dir : Path) : Except LayoutError Graph :=
  (Layout.discover disk dir).map fun layout => { layout }

def modifyPackage (g : Graph) (path : String) (f : PackageNode → PackageNode) : Graph :=
  { g with packages := g.packages.modify path f }

/-- Tracked packages whose diagnostics are out of date. -/
def dirty (g : Graph) : List String :=
  g.tracked.filter fun path => (g.packages.find? path).any fun n => n.state = .dirty

def packageIn? (g : Graph) (dir : Path) : Option PackageNode := g.packages.values.find? (·.dir == dir)

def packageForFile? (g : Graph) (file : Path) : Option PackageNode :=
  file.parent?.bind fun dir => g.packageIn? dir.normalize

/-- The text of a file, as the editor holds it or else as it is on disk. -/
def read (disk : Disk) (g : Graph) (file : Path) : Except IoError String :=
  match g.held.find? file with
  | some text => .ok text
  | none => disk.read file

/-- A sorted list behind `last`, without the repetitions of a path. -/
def dropRepeats (last : Path) : List Path → List Path
  | [] => []
  | p :: rest => if last == p then dropRepeats last rest else p :: dropRepeats p rest

def sortedPaths (paths : List Path) : List Path :=
  match Path.sort paths with
  | [] => []
  | p :: rest => p :: dropRepeats p rest

/-- The IDL files of a directory, on disk and held by the editor. -/
def idlFiles (disk : Disk) (g : Graph) (dir : Path) : Except LayoutError (List Path) := do
  let onDisk ← disk.filesWithExtension dir idlExtension
  let held := g.held.keys.filter fun p => p.parent? == some dir && p.extension? = some idlExtension
  return sortedPaths (onDisk ++ held)

def track (g : Graph) (paths : List String) : Graph :=
  { g with tracked := paths.foldl (fun ts p => if ts.contains p then ts else ts ++ [p]) g.tracked }

/-- The texts of all files, on disk and held by the editor. -/
def texts (disk : Disk) (g : Graph) : List String :=
  (disk.entries.filterMap fun (_, entry) =>
    match entry with
    | .file text => text
    | .directory => none) ++ g.held.values

/-- A bound on the number of packages that the imports of all files can stand for. An import path takes at
least one byte of a text; with a wildcard it stands for a package in any of the directories. -/
def size (disk : Disk) (g : Graph) : Nat :=
  disk.entries.length + g.held.length +
    (g.texts disk).foldr (fun text n => text.utf8ByteSize + n) 0 * (disk.entries.length + 2)

end Graph

end IdlWorkbench
