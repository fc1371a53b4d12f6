import IdlWorkbench.Graph.Load

/-!
# Editing files

An editor opens, changes and closes files. The package of the file is then out of date, and so are the
packages that import it directly.
-/

namespace IdlWorkbench

inductive AddError where
  | noParent (file : Path)
  | layout (e : LayoutError)
  | load (e : LoadError)
deriving Repr

def AddError.message : AddError → String
  | noParent file => file.text ++ " is not inside a directory"
  | layout e => e.message
  | load e => e.message

inductive CloseError where
  | notLoaded (file : Path)
  | layout (e : LayoutError)
deriving Repr

def CloseError.message : CloseError → String
  | notLoaded file => "could not find loaded package to close " ++ file.text
  | layout e => e.message

inductive Closed where
  /-- The package still has files, and needs new diagnostics. -/
  | dirty (package : String)
  /-- That was its last file, and the package is gone. -/
  | evicted (package : String)
deriving DecidableEq, Repr

namespace Graph

/-- The directory that a file is written to be in. -/
def directoryOf? (file : Path) : Option Path := file.parent?.filter fun dir => dir.components ≠ []

def hold (g : Graph) (file : Path) (text : String) : Graph := { g with held := g.held.insert file text }

def release (g : Graph) (file : Path) : Graph := { g with held := g.held.erase file }

/-- Forget what the import path and the directory of a package stood for. -/
def evictMemo (g : Graph) (path : String) : Graph :=
  let memo := g.memo.erase path
  match g.packages.find? path with
  | some n => { g with memo := memo.erase n.dir.text }
  | none => { g with memo }

/-- A package after a change of one it may import. -/
def invalidateNode (path : String) (n : PackageNode) : PackageNode :=
  if n.path = path || !n.imports.contains path || n.state = .building then n
  else { n.reset with state := if n.state = .current then .dirty else n.state }

/-- Let the direct importers of a package be analysed again. -/
def invalidate (g : Graph) (path : String) : Graph :=
  { g with packages := g.packages.map fun (key, n) => (key, invalidateNode path n) }

def noteEdit (g : Graph) (path : String) : Graph := ((g.track [path]).evictMemo path).invalidate path

def evict (g : Graph) (path : String) : Graph :=
  { g with
    tracked := g.tracked.filter (· ≠ path)
    packages := g.packages.erase path
    published := g.published.erase path
    memo := g.memo.map fun (pattern, paths) => (pattern, paths.filter (· ≠ path)) }

def addToNode (file : Path) (n : PackageNode) : PackageNode :=
  let files := if n.files.contains file then n.files else Path.sort (n.files ++ [file])
  { n with files }.markDirty

/-- Make and load the package in a directory for its first file, which holds `text`. -/
def loadNew (disk : Disk) (dir : Path) (text : String) : GraphM AddError String := do
  let name := (Token.packageClauseName text).getD dir.fileName
  let g ← get
  let (_, overlay) ← lift .layout (g.overlay.addForNewPackage disk dir name)
  set { g with overlay, memo := g.memo.erase dir.text }
  let path ← ExceptT.adapt AddError.load (loadOne disk dir.text)
  modify (·.modifyPackage path PackageNode.markDirty)
  return path

/-- Start to hold a text for a file. Its package is made if there is none for the directory. -/
def addFile (disk : Disk) (file : Path) (text : String) : GraphM AddError String := do
  let file := file.normalize
  match directoryOf? file with
  | none => throw (.noParent file)
  | some dir =>
    modify (·.hold file text)
    let path ←
      match (← get).packageIn? dir with
      | some n => do
        modify (·.modifyPackage n.path (addToNode file))
        pure n.path
      | none => loadNew disk dir text
    modify (·.noteEdit path)
    return path

def updateFile (disk : Disk) (file : Path) (text : String) : GraphM AddError String := do
  let file := file.normalize
  match directoryOf? file with
  | none => throw (.noParent file)
  | some dir =>
    match (← get).packageIn? dir with
    | none => addFile disk file text
    | some n =>
      modify (·.hold file text)
      let files ← lift .layout ((← get).idlFiles disk dir)
      modify (·.modifyPackage n.path fun n => { n with files }.markDirty)
      modify (·.noteEdit n.path)
      return n.path

/-- Hold a file no longer. Its package falls back to the files on disk, and is dropped if there are none. -/
def closeFile (disk : Disk) (file : Path) : GraphM CloseError Closed := do
  let file := file.normalize
  match (directoryOf? file).bind (← get).packageIn? with
  | none => throw (.notLoaded file)
  | some n =>
    modify (·.release file)
    let files ← lift .layout ((← get).idlFiles disk n.dir)
    modify fun g => (g.evictMemo n.path).invalidate n.path
    if files.isEmpty then
      modify (·.evict n.path)
      return .evicted n.path
    else
      modify (·.modifyPackage n.path fun n => { n with files }.markDirty)
      return .dirty n.path

end Graph

end IdlWorkbench
