import IdlWorkbench.Graph.Load
import IdlWorkbench.Validate

/-!
# Analysing packages

The files of a package are parsed, the package names in them are compared, and if nothing was wrong so far the
types are checked, which asks for the surfaces of its imports. An import is loaded and, if nothing is known
about it, analysed on the spot. An import of a package that is itself waiting for its imports closes a cycle.

A package that waits for an import is not analysed again, and an import path stands for few packages, so the
nesting is bounded by the import paths in all files.
-/

namespace IdlWorkbench

/-- Why an import gave no surface. -/
inductive ImportError where
  | load (e : LoadError)
  | notStandard (path : String)
  | cycle
  /-- The package has errors; the first one is given. -/
  | broken (message : String)

def ImportError.message : ImportError → String
  | load e => e.message
  | notStandard path => "package " ++ path ++ " is not in std"
  | cycle => "import cycle not allowed"
  | broken message => message

namespace ParsedFile

/-- Read and parse a file. One that cannot be read counts as empty. -/
def ofPath (disk : Disk) (g : Graph) (file : Path) : ParsedFile :=
  ⟨file, .ofText ((g.read disk file).toOption.getD "")⟩

def span (f : ParsedFile) (r : ByteRange) : Span := Text.span f.source.text r

/-- What is wrong with the syntax of a file and of its tags. -/
def syntaxErrors (f : ParsedFile) : List PackageError :=
  (f.source.parse.errors ++ f.source.tree.tags.flatMap fun (_, tags) => tags.flatMap Tag.errors).map
    fun e => ⟨.parse, f.path, f.span e.range, e.message⟩

/-- Why a file could not be read, and what is wrong with its syntax. -/
def errors (disk : Disk) (g : Graph) (f : ParsedFile) : List PackageError :=
  (match g.read disk f.path with
    | .ok _ => []
    | .error e => [⟨.unknown, f.path, .origin, e.message⟩]) ++ f.syntaxErrors

end ParsedFile

namespace PackageNode

/-- The problems with the listing of a package. Those with host files go to the first IDL file. -/
def listingErrors (n : PackageNode) : List PackageError :=
  n.listErrors.map fun e =>
    ⟨.list, if n.files.contains e.file then e.file else n.files.headD n.dir, .origin, e.message⟩

end PackageNode

namespace Analysis

def ofViolation (parsed : List ParsedFile) (v : Violation) : Option PackageError :=
  parsed[v.file]?.map fun f => ⟨.validate, f.path, f.span v.range, v.message⟩

def ofCheckError (parsed : List ParsedFile) (e : CheckError) : Option PackageError :=
  parsed[e.file]?.map fun f => ⟨.type, f.path, e.locate f.source, e.message⟩

/-- Files that do not agree on the name of their package. -/
def nameErrors (parsed : List ParsedFile) : List PackageError :=
  (Violation.ofPackageNames (parsed.map (·.source.file))).filterMap (ofViolation parsed)

def structErrors (parsed : List ParsedFile) : List PackageError :=
  (Violation.ofStructs (parsed.map (·.source.tree))).filterMap (ofViolation parsed)

end Analysis

namespace Graph

/-- Flag the packages of a cycle that an import of `path` closes: those that wait, from `path` inwards. -/
def markCycle (g : Graph) (path : String) : Graph :=
  if g.building.contains path then
    (g.building.takeWhile (· ≠ path) ++ [path]).foldl
      (fun g p => g.modifyPackage p fun n => { n with inCycle := true }) g
  else g

def surfaceOf (path : String) : GraphM ImportError Surface := do
  match (← get).packages.find? path with
  | none => throw .cycle
  | some n =>
    if n.inCycle then
      throw .cycle
    match n.surface? with
    | some s => return s
    | none => throw (.broken ((n.errors.head?.map (·.message)).getD ("package " ++ path ++ " has errors")))

/-- Import a package, where `analyse` analyses one that is not being analysed yet. -/
def importPackage (disk : Disk) (analyse : String → StateM Graph Unit) (importPath : String) :
    GraphM ImportError Surface := do
  if (← get).layout.isStandard importPath then
    match Surface.standard? importPath with
    | some s => return s
    | none => throw (.notStandard importPath)
  let path ← ExceptT.adapt ImportError.load (loadOne disk importPath)
  match (← get).packages.find? path with
  | none => throw (.load (.packageCount importPath 0))
  | some n =>
    match n.listErrors with
    | e :: _ => throw (.broken e.message)
    | [] =>
      if n.state = .building then
        modify (·.markCycle path)
        throw .cycle
      if n.analysis.isNone then
        analyse path
      surfaceOf path

/-- Check the types of a package, with its imports. -/
def checkTypes (disk : Disk) (analyse : String → StateM Graph Unit) (n : PackageNode)
    (parsed : List ParsedFile) : StateM Graph CheckResult := do
  modify fun g => { g with building := n.path :: g.building }
  let sources := parsed.map (·.source)
  let imported ← (Check.importPaths sources).mapM fun path => do
    let r ← (importPackage disk analyse path).run
    return (path, r.mapError ImportError.message)
  modify fun g => { g with building := g.building.tail }
  return check n.path n.name sources imported

/-- Analyse the files of a package, where `analyse` analyses those it imports. -/
def analyseNode (disk : Disk) (analyse : String → StateM Graph Unit) (n : PackageNode) :
    StateM Graph Analysis := do
  let g ← get
  let parsed := n.files.map (ParsedFile.ofPath disk g)
  let parseErrors := parsed.flatMap (·.errors disk g)
  let errors := n.listingErrors ++ parseErrors ++ Analysis.nameErrors parsed
  let rules := if parseErrors.isEmpty then Analysis.structErrors parsed else []
  if errors.isEmpty then
    let result ← checkTypes disk analyse n parsed
    let g ← get
    return {
      parsed
      checked := some result
      errors := result.errors.filterMap (Analysis.ofCheckError parsed) ++ rules
      imports := result.imports.filter g.packages.contains }
  else
    return { parsed, checked := none, errors := errors ++ rules, imports := [] }

/-- Analyse a package from scratch. Its lifecycle is in the end what it was before. -/
def analyseWithin (disk : Disk) : (fuel : Nat) → (path : String) → StateM Graph Unit
  | 0, _ => pure ()
  | fuel + 1, path => do
    match (← get).packages.find? path with
    | none => pure ()
    | some n =>
      modify (·.modifyPackage path fun n => { n.reset with state := .building })
      let analysis ← analyseNode disk (analyseWithin disk fuel) n
      modify (·.modifyPackage path fun m => { m with analysis := some analysis, state := n.state })

/-- Analyse a package and, as far as needed, those it imports. -/
def analyse (disk : Disk) (path : String) : StateM Graph Unit := do
  analyseWithin disk ((← get).size disk + 2) path

/-- A package with its analysis, which is made if there is none. -/
def ensureAnalysed (disk : Disk) (path : String) : StateM Graph (Option PackageNode) := do
  match (← get).packages.find? path with
  | none => return none
  | some n =>
    if n.analysis.isNone then
      analyse disk path
    return (← get).packages.find? path

end Graph

end IdlWorkbench
