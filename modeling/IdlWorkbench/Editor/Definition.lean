import IdlWorkbench.Graph.Analysis

/-!
# Going to a definition

An import leads to all files of the imported package, a type to the name in its declaration. The cursor is
looked for from the root of the tree downwards, only through nodes that can hold a reference.
-/

namespace IdlWorkbench

structure Location where
  file : Path
  span : Span
deriving Repr

inductive DefinitionError where
  /-- The cursor is on something that has no declaration to go to, such as a basic type. -/
  | invalidTarget
  | noPackage (file : Path)
  | fileHasErrors (file : Path)
  | fileNotFound (file : Path)
  | load (path : String) (e : LoadError)
  | emptyPackage (path : String)

def DefinitionError.message : DefinitionError → String
  | invalidTarget => "can only go to definition on struct or enum types"
  | noPackage file => "could not find package for " ++ file.text
  | fileHasErrors file => "file " ++ file.text ++ " has errors"
  | fileNotFound file => "could not find file " ++ file.text
  | load path e => "unexpected error loading " ++ Text.quoted path ++ ": " ++ e.message
  | emptyPackage path => "no gunk files in package " ++ Text.quoted path

inductive Target where
  | imported (spec : ImportSpec)
  | reference (t : Tree)
  /-- Inside a type made of others, but not on one of those. -/
  | wrapper
  | nothing

/-- What the search for the cursor does at a node of a kind. -/
inductive Descent where
  | imported
  | reference
  /-- Search the children, which stand inside a type made of others. -/
  | wrapper
  | through
  | opaqueNode
deriving DecidableEq

def Descent.ofKind : NodeKind → Descent
  | .importSpec => imported
  | .name | .nameRef | .selector => reference
  | .sliceType | .mapType | .chanType | .funcType | .method => wrapper
  | .importDecl | .typeDecl | .typeSpec | .constDecl | .structType | .interfaceType | .fieldList | .field
  | .paramList | .resultList | .pointerType => through
  | _ => opaqueNode

namespace Target

mutual

/-- What the cursor is on in a tree that it touches, or `none` if the tree cannot hold a reference. -/
def ofTree (offset : Nat) (inWrapper : Bool) : Tree → Option Target
  | .leaf _ => none
  | t@(.node kind _ children) =>
    match Descent.ofKind kind with
    | .imported => some ((ImportSpec.ofTree? t).elim .nothing .imported)
    | .reference => some (.reference t)
    | .wrapper => some (among offset true children)
    | .through => some (among offset inWrapper children)
    | .opaqueNode => none

/-- What the cursor is on among the children of a node. The first child that it touches decides. -/
def among (offset : Nat) (inWrapper : Bool) : List Tree → Target
  | [] => if inWrapper then .wrapper else .nothing
  | t :: ts =>
    match if t.range.touches offset then ofTree offset inWrapper t else none with
    | some target => target
    | none => among offset inWrapper ts

end

def find (root : Tree) (offset : Nat) : Target := among offset false root.children

end Target

def PackageNode.declaration? (n : PackageNode) (name : String) : Option Location :=
  n.parsed.findSome? fun f =>
    let names := (f.source.tree.nodes.filterMap TypeSpec.ofTree?).map (·.name)
    (names.find? (·.text = name)).map fun id =>
      ⟨f.path, .point (Text.position f.source.text id.offset)⟩

namespace Graph

def importLocations (disk : Disk) (spec : ImportSpec) : GraphM DefinitionError (List Location) := do
  match spec.importPath? with
  | none => return []
  | some path =>
    match ← ExceptT.adapt (DefinitionError.load path) (load disk path) with
    | [] => throw (.emptyPackage path)
    | [package] =>
      let files := (((← get).packages.find? package).map (·.files)).getD []
      return files.map fun file => ⟨file, .origin⟩
    | packages => throw (.load path (.packageCount path packages.length))

def typeLocations (disk : Disk) (package : String) (r : NamedRef) :
    GraphM DefinitionError (List Location) := do
  let owner ←
    if r.package = package then pure r.package
    else if (← get).layout.isStandard r.package then throw .invalidTarget
    else ExceptT.adapt (DefinitionError.load r.package) (loadOne disk r.package)
  match (← ensureAnalysed disk owner).bind (·.declaration? r.name) with
  | none => throw .invalidTarget
  | some location => return [location]

/-- Where the type that a reference of a checked file names is declared. -/
def referenceLocations (disk : Disk) (n : PackageNode) (file : Nat) (reference : Tree) :
    GraphM DefinitionError (List Location) :=
  match (n.checked?.bind fun r => r.types[file]?).bind fun table => table.find? reference.range with
  | some ⟨.type, .named r⟩ => typeLocations disk n.path r
  | some ⟨.type, _⟩ => throw .invalidTarget
  | _ => return []

/-- The definition of what stands at a position of a file. Nothing is found where there is nothing to go
from. -/
def gotoDefinition (disk : Disk) (file : Path) (position : Position) :
    GraphM DefinitionError (List Location) := do
  match (← get).packageForFile? file with
  | none => throw (.noPackage file)
  | some n =>
    match ← ensureAnalysed disk n.path with
    | none => throw (.noPackage file)
    | some n =>
      if n.hasErrors file then
        throw (.fileHasErrors file)
      match n.parsed.findIdx? (·.path == file), n.parsedFile? file with
      | some index, some f =>
        match Text.offsetAt? f.source.text position with
        | none => return []
        | some offset =>
          match Target.find f.source.tree offset with
          | .imported spec => importLocations disk spec
          | .reference t => referenceLocations disk n index t
          | .wrapper => throw .invalidTarget
          | .nothing => return []
      | _, _ => throw (.fileNotFound file)

end Graph

end IdlWorkbench
