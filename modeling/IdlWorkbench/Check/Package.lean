import IdlWorkbench.Check.Expr

/-!
# Checking a package

`check` runs in turn: imports, declarations, types and constants, recursive types, map keys, and, if nothing
was wrong so far, the tags of the docs. It never fails; what is wrong is listed in its result.

The surfaces of imported packages are given. `importPaths` lists the paths that are asked for.
-/

namespace IdlWorkbench

structure CheckedTag where
  source : TagSource
  /-- What the expression denotes; `none` if it was reported. -/
  value : Option TypeAndValue
  /-- The nodes of the tag's own tree. -/
  types : TypeTable

structure CheckResult where
  surface : Surface
  /-- A table for each file. -/
  types : List TypeTable
  /-- The tags of docs, by file and the range of the item that owns the doc. -/
  tags : Table (Nat × ByteRange) (List CheckedTag)
  errors : List CheckError
  /-- Every import path, in order. -/
  imports : List String

/-- The surface of an imported package, or why there is none. -/
abbrev Imported := Except String Surface

namespace Check

/-! ## Imports -/

/-- The imports of a file: the literal that holds the path, the path and the name given to it. -/
def importsOf (s : Source) : List (Token × String × Option String) :=
  s.file.importSpecs.filterMap fun spec => do
    let literal ← spec.path
    let path ← spec.importPath?
    return (literal, path, spec.name.map Token.text)

/-- The paths that the files import, each once. -/
def importPaths (sources : List Source) : List String :=
  (sources.flatMap importsOf).foldl
    (fun paths (_, path, _) => if paths.contains path then paths else paths ++ [path]) []

def lastPart (path : String) : String :=
  String.ofList (path.toList.reverse.takeWhile (· ≠ '/')).reverse

/-- What the imports of one file bring into its scope. -/
structure FileImports where
  scope : Table String (Option Surface) := []
  dots : List Surface := []
  errors : List CheckError := []

def addImport (file : Nat) (imported : Table String Imported) (f : FileImports) :
    Token × String × Option String → FileImports
  | (literal, path, given) =>
    let result := (imported.find? path).getD (.error "")
    let f :=
      match result with
      | .ok _ => f
      | .error reason =>
        { f with errors := f.errors ++ [⟨file, .source, literal.offset, .badImport path reason⟩] }
    let surface := result.toOption
    match given with
    | some "_" => f
    | some "." => { f with dots := f.dots ++ surface.toList }
    | some name => { f with scope := f.scope.insert name surface }
    | none =>
      { f with scope := f.scope.insert ((surface.map Surface.name).getD (lastPart path)) surface }

def fileImports (imported : Table String Imported) (file : Nat) (s : Source) : FileImports :=
  (importsOf s).foldl (addImport file imported) {}

/-- The surfaces that were imported, by their own paths. -/
def importedSurfaces (imported : Table String Imported) : Table String Surface :=
  (imported.values.filterMap Except.toOption).foldl (fun t s => t.insert s.path s) []

/-! ## Declarations -/

/-- The constants of a group. One without type and value repeats those of the last one with a value, which
`previous` holds. -/
def constsOf (file : Nat) : (iota : Nat) → (previous : TypeExpr × Expr) → List ConstSpec →
    List (Token × Declared)
  | _, _, [] => []
  | iota, previous, spec :: rest =>
    let (type, value) :=
      if spec.value.isMissing && spec.type.isMissing then previous else (spec.type, spec.value)
    let previous := if spec.value.isMissing then previous else (spec.type, spec.value)
    (spec.name, .const file spec.name type value iota) :: constsOf file (iota + 1) previous rest

/-- The declarations of a file: types, then constants. -/
def declsOf (file : Nat) (s : Source) : List (Token × Declared) :=
  s.file.typeSpecs.map (fun spec => (spec.name, .type file spec)) ++
    s.file.constDecls.flatMap fun d => constsOf file 0 (.missing, .missing) d.specs

/-- Declare a name, unless it is the blank one or taken. -/
def declare : Table String Declared × List CheckError → Token × Declared →
    Table String Declared × List CheckError
  | (decls, errors), (name, d) =>
    if name.text = "_" then (decls, errors)
    else if decls.contains name.text then
      (decls, errors ++ [⟨d.file, .source, name.offset, .redeclared name.text⟩])
    else (decls.insert name.text d, errors)

/-- All declarations of a package, and the names declared twice. -/
def collect (sources : List Source) : Table String Declared × List CheckError :=
  (sources.zipIdx.flatMap fun (s, file) => declsOf file s).foldl declare ([], [])

/-! ## Tags -/

def checkTag (env : Env) (file : Nat) (tag : Tag) : Step (Option CheckedTag) := do
  if tag.parse.ok && !tag.expr.isMissing then
    let site : Site := ⟨file, .tag tag, tag.source.text, none⟩
    let (value, types) ← withTable (checkExpr env (resolveConst env) site tag.expr)
    return some ⟨tag.source, value, types⟩
  else
    return none

def checkTags (env : Env) : Step (Table (Nat × ByteRange) (List CheckedTag)) := do
  let mut table : Table (Nat × ByteRange) (List CheckedTag) := []
  for (s, file) in env.sources.zipIdx do
    for (owner, tags) in s.tree.tags do
      let checked ← tags.filterMapM (checkTag env file)
      if !checked.isEmpty then
        table := table.insert (file, owner) checked
  checkKeys env
  return table

/-! ## The whole package -/

def resolveAll (env : Env) : Step Unit := do
  for (name, d) in env.decls do
    if d.isType then
      let _ ← resolveNamed env name
    else
      let _ ← resolveConst env name

def body (env : Env) : Step (Table (Nat × ByteRange) (List CheckedTag)) := do
  resolveAll env
  checkRecursive env
  checkKeys env
  if (← get).errors.isEmpty then
    checkTags env
  else
    return []

end Check

/-- Check the files of the package with a path and a name, given what its imports gave. -/
def check (path name : String) (sources : List Source) (imported : Table String Imported) :
    CheckResult :=
  let files := sources.zipIdx.map fun (s, file) => Check.fileImports imported file s
  let (decls, redeclared) := Check.collect sources
  let env : Check.Env :=
    { path, name, sources, decls
      imports := Check.importedSurfaces imported
      scopes := files.map (·.scope)
      dots := files.map (·.dots) }
  let start : Check.State :=
    { tables := sources.map fun _ => []
      errors := (files.flatMap (·.errors) ++ redeclared).reverse }
  let (tags, s) := (Check.body env).run start
  ⟨Check.surface env s, s.tables, tags, s.errors.reverse, imported.keys⟩

/-- Import from a fixed set of packages, and else from the standard library. -/
def Imported.among (known : Table String Surface) (path : String) : Imported :=
  match known.find? path <|> Surface.standard? path with
  | some s => .ok s
  | none => .error ("package " ++ path ++ " is not in std")

/-- Check a package whose imports come from a fixed set of packages. -/
def checkAmong (known : Table String Surface) (path name : String) (sources : List Source) : CheckResult :=
  check path name sources ((Check.importPaths sources).map fun p => (p, Imported.among known p))

end IdlWorkbench
