import IdlWorkbench.Disk

/-!
# Where modules live

A manifest `go.mod` names the module whose root directory it stands in, and replaces other modules by local
directories. The layout of a workspace lists these modules. An import path belongs to the module with the
longest path that it starts with, a directory to the module whose directory is nearest above it.
-/

namespace IdlWorkbench

/-- A module path and the directory with its sources. -/
structure ModuleRoot where
  path : String
  dir : Path
deriving DecidableEq, Repr, Inhabited

/-- The modules of a workspace, the main one first. -/
structure Layout where
  modules : List ModuleRoot := []
deriving DecidableEq, Repr, Inhabited

inductive LayoutError where
  | unknownModule (importPath : String)
  | outsideModule (dir : Path)
  | io (path : Path) (cause : IoError)
deriving Repr

def LayoutError.message : LayoutError → String
  | unknownModule importPath => "cannot find module providing package " ++ importPath
  | outsideModule dir => "directory " ++ dir.text ++ " outside main module or its selected dependencies"
  | io path cause => "reading " ++ path.text ++ ": " ++ cause.message

/-- What is left of an import path behind the path of a module that it belongs to. -/
def ModuleRoot.rest? (m : ModuleRoot) (importPath : String) : Option String :=
  (Text.strip? m.path importPath).filter fun rest => rest.isEmpty || rest.toList.head? = some '/'

/-! ## Manifests -/

namespace Manifest

def fileName : String := "go.mod"

/-- What a line says, without its comment and the blanks around it. -/
def content (line : String) : String :=
  let cs := line.toList
  Text.trim (String.ofList ((Text.cut? ['/', '/'] cs).elim cs (·.1)))

def isLocal (target : String) : Bool :=
  (Text.strip? "./" target).isSome || (Text.strip? "../" target).isSome || (Path.ofString target).isAbsolute

/-- A replacement `old [version] => new [version]`, if it is a local one. -/
def replacement? (root : Path) (spec : String) : Option ModuleRoot := do
  let (old, new) ← Text.cut? ['=', '>'] spec.toList
  let path ← (Text.words (String.ofList old)).head?
  let target ← (Text.words (String.ofList new)).head?
  let target := Text.dropQuotes target
  guard (isLocal target)
  return ⟨Text.dropQuotes path, (root.join (Path.ofString target)).normalize⟩

structure Reading where
  main : Option String := none
  replaced : List ModuleRoot := []
  inBlock : Bool := false

def readLine (root : Path) (r : Reading) (line : String) : Reading :=
  if line.isEmpty then r
  else if r.inBlock then
    if line = ")" then { r with inBlock := false }
    else { r with replaced := r.replaced ++ (replacement? root line).toList }
  else
    match Text.words line with
    | "module" :: rest => { r with main := rest.head?.map Text.dropQuotes }
    | "replace" :: _ =>
      let spec := Text.trim ((Text.strip? "replace" line).getD line)
      if spec = "(" then { r with inBlock := true }
      else { r with replaced := r.replaced ++ (replacement? root spec).toList }
    | _ => r

end Manifest

namespace Layout

/-- The layout that the manifest in a directory describes. -/
def ofManifest (root : Path) (text : String) : Layout :=
  let r := ((Text.lines text).map Manifest.content).foldl (Manifest.readLine root) {}
  ⟨(r.main.map fun path => ModuleRoot.mk path root).toList ++ r.replaced⟩

/-- The layout around a directory: that of the nearest manifest in it or above it, and an empty one if
there is none. -/
def discover (disk : Disk) (dir : Path) : Except LayoutError Layout :=
  match dir.ancestors.find? fun d => disk.isFile (d.child Manifest.fileName) with
  | none => .ok {}
  | some root =>
    let manifest := root.child Manifest.fileName
    match disk.read manifest with
    | .ok text => .ok (.ofManifest root text)
    | .error e => .error (.io manifest e)

/-! ## Import paths and directories -/

/-- The last of the elements with the greatest measure. -/
def lastMax? {α : Type} (measure : α → Nat) (xs : List α) : Option α :=
  xs.foldl
    (fun best x =>
      match best with
      | none => some x
      | some b => if measure b ≤ measure x then some x else some b) none

def moduleFor? (l : Layout) (importPath : String) : Option ModuleRoot :=
  lastMax? (fun m => m.path.utf8ByteSize) (l.modules.filter fun m => (m.rest? importPath).isSome)

/-- The parts of an import path that are not empty. -/
def parts (importPath : String) : List String := (Path.ofString importPath).segments.filter (!·.isEmpty)

def resolve? (l : Layout) (importPath : String) : Option Path := do
  let m ← l.moduleFor? importPath
  let rest ← m.rest? importPath
  return (parts rest).foldl Path.child m.dir

/-- Whether an import path belongs to the standard library: no module provides it, and its first part has
no dot. -/
def isStandard (l : Layout) (importPath : String) : Bool :=
  !((Path.ofString importPath).segments.headD "").toList.contains '.' && (l.moduleFor? importPath).isNone

def importPathOf? (l : Layout) (dir : Path) : Option String := do
  let m ← lastMax? (fun m => m.dir.components.length)
    (l.modules.filter fun m => (m.dir.below? dir).isSome)
  let rest ← m.dir.below? dir
  return (Path.names rest).foldl (fun path name => path ++ "/" ++ name) m.path

end Layout

end IdlWorkbench
