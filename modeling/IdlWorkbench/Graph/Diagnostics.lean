import IdlWorkbench.Graph.Analysis
import IdlWorkbench.Graph.Edit

/-!
# Diagnostics of packages

The diagnostics of a package are made anew when it is dirty. If that changes its surface, its importers
become dirty in turn.
-/

namespace IdlWorkbench

/-- The diagnostics of files, in order. -/
abbrev FileDiagnostics := Table Path (List Diagnostic)

namespace FileDiagnostics

def add (t : FileDiagnostics) (file : Path) (ds : List Diagnostic) : FileDiagnostics :=
  t.insert file ((t.find? file).getD [] ++ ds)

/-- The errors of a package, with an entry for each of its files. -/
def ofNode (n : PackageNode) : FileDiagnostics :=
  n.errors.foldl (fun t e => FileDiagnostics.add t e.file [e.toDiagnostic])
    (n.files.foldl (fun t file => FileDiagnostics.add t file []) [])

end FileDiagnostics

namespace Graph

/-- Whether a surface differs from the one that was last published. -/
def surfaceChanged (g : Graph) (path : String) (surface : Option Surface) : Bool :=
  match g.published.find? path, surface with
  | some none, none => false
  | some (some s), some t => !s.same t
  | _, _ => true

/-- Record the surface of a package whose diagnostics are given. -/
def publish (g : Graph) (path : String) (surface : Option Surface) : Graph :=
  let changed := g.surfaceChanged path surface
  let g := { g with published := g.published.insert path surface }
  if changed then g.invalidate path else g

/-- The new diagnostics of a dirty package. Those of other packages still hold, so they give none. -/
def diagnose (disk : Disk) (path : String) : StateM Graph FileDiagnostics := do
  match (← get).packages.find? path with
  | none => return []
  | some n =>
    if n.state ≠ .dirty then
      return []
    analyse disk path
    modify (·.modifyPackage path fun n => { n with state := .current })
    match (← get).packages.find? path with
    | none => return []
    | some n =>
      modify (·.publish path n.surface?)
      return .ofNode n

end Graph

end IdlWorkbench
