import IdlWorkbench.Editor.Definition
import IdlWorkbench.Editor.Formatting
import IdlWorkbench.Editor.Lint
import IdlWorkbench.Settings.Basic

/-!
# Editor sessions

A session answers the requests of an editor. It starts without a workspace, and notes about files that come
before one is opened are dropped. Notes never fail: what went wrong shows in the diagnostics that they give.
-/

namespace IdlWorkbench

structure Session where
  settings : Settings
  graph : Option Graph := none

inductive SessionError where
  | notInitialized
  | layout (e : LayoutError)
  | load (e : LoadError)
  | formatting (e : FormattingError)
  | definition (e : DefinitionError)

def SessionError.message : SessionError → String
  | notInitialized => "server is not initialized"
  | layout e => "could not load workspace: " ++ e.message
  | load e => "could not load workspace: " ++ e.message
  | formatting e => e.message
  | definition e => e.message

/-- Diagnostics that replace all those given for a file before. -/
abbrev Published := List (Path × List Diagnostic)

namespace Graph

/-- The new diagnostics of a package, with its lint warnings if they are wanted. -/
def publishPackage (disk : Disk) (lint : Bool) (path : String) : StateM Graph Published := do
  let diagnostics ← diagnose disk path
  match lint, (← get).packages.find? path with
  | true, some n =>
    return (Lint.ofNode n).foldl (fun t (file, ds) => FileDiagnostics.add t file ds) diagnostics
  | _, _ => return diagnostics

/-- Publish the dirty packages that are not in `seen`, and again as long as that makes others dirty. -/
def publishWithin (disk : Disk) (lint : Bool) : (fuel : Nat) → (seen : List String) → StateM Graph Published
  | 0, _ => return []
  | fuel + 1, seen => do
    match (← get).dirty.filter (!seen.contains ·) with
    | [] => return []
    | paths =>
      let now ← paths.mapM (publishPackage disk lint)
      let later ← publishWithin disk lint fuel (seen ++ paths)
      return now.flatten ++ later

/-- Publish every dirty package, each at most once. A round sees a tracked package for the first time, so
there are no more rounds than tracked packages. -/
def publishAll (disk : Disk) (lint : Bool) : StateM Graph Published := do
  publishWithin disk lint ((← get).tracked.length + 1) []

end Graph

namespace Session

def start (settings : Settings) : Session := { settings }

/-- Open the workspace around a directory, unless one is open. -/
def openWorkspace (disk : Disk) (root : Path) (s : Session) : Except SessionError Session :=
  match s.graph with
  | some _ => .ok s
  | none =>
    let root := root.normalize
    match Graph.discover disk root with
    | .error e => .error (.layout e)
    | .ok g =>
      match (Graph.loadTracked disk (root.text ++ Listed.wildcard)).run g with
      | (.ok _, g) => .ok { s with graph := some g }
      | (.error e, _) => .error (.load e)

/-- Let a note about a file act on the graph, then publish what became dirty. -/
def note (disk : Disk) (act : StateM Graph Published) (s : Session) : Published × Session :=
  match s.graph with
  | none => ([], s)
  | some g =>
    let (published, g) := (do return (← act) ++ (← Graph.publishAll disk s.settings.lint)).run g
    (published, { s with graph := some g })

def didOpen (disk : Disk) (file : Path) (text : String) : Session → Published × Session :=
  note disk do
    let _ ← (Graph.addFile disk file.normalize text).run
    return []

def didChange (disk : Disk) (file : Path) (text : String) : Session → Published × Session :=
  note disk do
    let _ ← (Graph.updateFile disk file.normalize text).run
    return []

/-- A file was closed. If its package is gone with it, so are its diagnostics. -/
def didClose (disk : Disk) (file : Path) : Session → Published × Session :=
  note disk do
    match ← (Graph.closeFile disk file.normalize).run with
    | .ok (.evicted _) => return [(file.normalize, [])]
    | _ => return []

def query {ε α : Type} (f : ε → SessionError) (act : GraphM ε α) (s : Session) :
    Except SessionError α × Session :=
  match s.graph with
  | none => (.error .notInitialized, s)
  | some g =>
    let (answer, g) := act.run g
    (answer.mapError f, { s with graph := some g })

def formatting (disk : Disk) (file : Path) (s : Session) : Except SessionError (List TextEdit) × Session :=
  s.query .formatting (Graph.formatDocument disk s.settings.format file.normalize)

/-- The definition of what stands at a position of a file. -/
def definition (disk : Disk) (file : Path) (position : Position) (s : Session) :
    Except SessionError (List Location) × Session :=
  s.query .definition (Graph.gotoDefinition disk file.normalize position)

end Session

end IdlWorkbench
