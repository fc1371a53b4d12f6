import IdlWorkbench.Graph.Basic

/-!
# Loading packages

A pattern is resolved to the packages it stands for, which enter the graph or are brought up to date there.
The answer is remembered until an edit makes it doubtful; a pattern whose packages had problems while they
were listed is always resolved again.
-/

namespace IdlWorkbench

inductive LoadError where
  | layout (e : LayoutError)
  | packageCount (pattern : String) (count : Nat)
deriving Repr

def LoadError.message : LoadError → String
  | layout e => e.message
  | packageCount pattern count => "expected 1 package for " ++ pattern ++ ", got " ++ toString count

namespace Graph

def lift {ε ε' α : Type} (f : ε → ε') (r : Except ε α) : GraphM ε' α :=
  match r with
  | .ok a => pure a
  | .error e => throw (f e)

/-- The remembered answer to a pattern, unless one of its packages had problems. -/
def remembered? (g : Graph) (pattern : String) : Option (List String) :=
  (g.memo.find? pattern).filter fun paths =>
    (paths.filterMap g.packages.find?).all fun n => n.listErrors.isEmpty

/-- A package as it has now been listed. New files make what was known about it void, but not while it is
being checked. -/
def relist (l : Listed) (name : String) (files : List Path) (n : PackageNode) : PackageNode :=
  let n :=
    if n.files == files || n.state = .building then n
    else { n.reset with state := if n.state = .current then .dirty else n.state }
  { n with files, name, dir := l.dir, listErrors := l.errors }

/-- Bring a listed package into the graph. One without IDL files counts only if it had problems. -/
def enterListed (disk : Disk) (l : Listed) : GraphM LoadError (Option String) := do
  let g ← get
  let files ← lift .layout (g.idlFiles disk l.dir)
  if files.isEmpty && l.errors.isEmpty then
    return none
  let name := l.name.getD l.dir.fileName
  let node : PackageNode :=
    match g.packages.find? l.path with
    | some n => relist l name files n
    | none => { path := l.path, dir := l.dir, name, files, listErrors := l.errors }
  set { g with packages := g.packages.insert l.path node }
  return some l.path

/-- Add a placeholder where a pattern names a directory. -/
def addPlaceholder (disk : Disk) (pattern : String) : GraphM LoadError Unit := do
  let dir := Path.ofString pattern
  if dir.isAbsolute && (Text.stripEnd? Listed.wildcard pattern).isNone then
    let g ← get
    let (_, overlay) ← lift .layout (g.overlay.addForDir disk dir)
    set { g with overlay }

/-- Scan the modules that have not been scanned. -/
def scan (disk : Disk) : GraphM LoadError Unit := do
  let g ← get
  let (scanned, overlay) := (Overlay.scanAll disk g.layout).run.run g.overlay
  set { g with overlay }
  lift .layout scanned

def load (disk : Disk) (pattern : String) : GraphM LoadError (List String) := do
  match (← get).remembered? pattern with
  | some paths => return paths
  | none =>
    scan disk
    addPlaceholder disk pattern
    let g ← get
    let listed ← lift .layout (Listed.ofPattern disk g.layout g.overlay pattern)
    let paths ← listed.filterMapM (enterListed disk)
    modify fun g => { g with memo := g.memo.insert pattern paths }
    return paths

/-- The package that a pattern stands for, if it is just one. -/
def loadOne (disk : Disk) (pattern : String) : GraphM LoadError String := do
  match ← load disk pattern with
  | [path] => return path
  | paths => throw (.packageCount pattern paths.length)

def loadTracked (disk : Disk) (pattern : String) : GraphM LoadError (List String) := do
  let paths ← load disk pattern
  modify (·.track paths)
  return paths

end Graph

end IdlWorkbench
