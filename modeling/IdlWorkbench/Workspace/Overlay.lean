import IdlWorkbench.Table
import IdlWorkbench.Token.Scan
import IdlWorkbench.Workspace.Layout

/-!
# Placeholders

A directory counts as a package only if it holds host files. The overlay adds one line of host code to
directories that hold IDL files alone. It exists in memory only.
-/

namespace IdlWorkbench

def idlExtension : String := "gunk"

def hostExtension : String := "go"

/-- The files of a directory with an extension, sorted. A directory that is missing has none. -/
def Disk.filesWithExtension (d : Disk) (dir : Path) (extension : String) : Except LayoutError (List Path) :=
  match d.list dir with
  | .ok names =>
    .ok ((names.map dir.child).filter fun p => p.extension? = some extension && d.isFile p)
  | .error .notFound => .ok []
  | .error e => .error (.io dir e)

structure Overlay where
  files : Table Path String := []
  /-- Module roots that have been walked. -/
  scanned : List Path := []
deriving Inhabited

/-- An operation on the placeholders that may fail. -/
abbrev OverlayM (α : Type) := ExceptT LayoutError (StateM Overlay) α

namespace Overlay

def placeholder : String := "gunkpkg.go"

def get? (o : Overlay) (p : Path) : Option String := o.files.find? p

def filesIn (o : Overlay) (dir : Path) : Table Path String :=
  o.files.filter fun (p, _) => p.parent? == some dir

def insertPlaceholder (o : Overlay) (dir : Path) (name : String) : Overlay :=
  { o with files := o.files.insert (dir.child placeholder) ("package " ++ name) }

/-- Add a placeholder for a package that may exist in memory only. Host files on disk make it needless; the
answer tells whether it was added. -/
def addForNewPackage (disk : Disk) (dir : Path) (name : String) (o : Overlay) :
    Except LayoutError (Bool × Overlay) := do
  if (← disk.filesWithExtension dir hostExtension).isEmpty then
    return (true, o.insertPlaceholder dir name)
  else
    return (false, o)

/-- Add a placeholder for a directory with IDL files and without host files. Its first IDL file names the
package, or else the directory does. -/
def addForDir (disk : Disk) (dir : Path) (o : Overlay) : Except LayoutError (Bool × Overlay) := do
  if !(← disk.filesWithExtension dir hostExtension).isEmpty then
    return (false, o)
  match ← disk.filesWithExtension dir idlExtension with
  | [] => return (false, o)
  | first :: _ =>
    let name := (disk.read first).toOption.bind Token.packageClauseName
    return (true, o.insertPlaceholder dir (name.getD dir.fileName))

def scanDir (disk : Disk) (dir : Path) : OverlayM Unit := do
  let (_, o) ← ofExcept ((← get).addForDir disk dir)
  set o

/-- Add placeholders for the directories below a root, up to one that cannot be read. -/
def scanRoot (disk : Disk) (root : Path) : OverlayM Unit :=
  (disk.directories root).forM fun names => scanDir disk (names.foldl Path.child root)

/-- Scan the root of a module, unless that has been done. -/
def scanModule (disk : Disk) (m : ModuleRoot) : OverlayM Unit := do
  let o ← get
  if !o.scanned.contains m.dir then
    set { o with scanned := m.dir :: o.scanned }
    scanRoot disk m.dir

def scanAll (disk : Disk) (layout : Layout) : OverlayM Unit := layout.modules.forM (scanModule disk)

/-- The placeholders once the roots of all modules have been scanned. -/
def ensureScanned (disk : Disk) (layout : Layout) (o : Overlay) : Overlay := ((scanAll disk layout).run.run o).2

end Overlay

end IdlWorkbench
