import IdlWorkbench.Check.Error
import IdlWorkbench.Typing.Comparable
import IdlWorkbench.Typing.Universe

/-!
# Names and states of a check

A check runs over all files of a package. `Env` holds what is fixed once the declarations are collected:
what each name means in each file. `State` holds what grows while types and constants are resolved.
-/

namespace IdlWorkbench

abbrev TypeTable := Table ByteRange TypeAndValue

namespace Check

/-- A declaration of the package, and the file that holds it. -/
inductive Declared where
  | type (file : Nat) (spec : TypeSpec)
  /-- The type and value of a constant may come from an earlier constant of its group. -/
  | const (file : Nat) (name : Token) (type : TypeExpr) (value : Expr) (iota : Nat)

namespace Declared

def file : Declared → Nat
  | type file _ | const file .. => file

def nameOffset : Declared → Nat
  | type _ spec => spec.name.offset
  | const _ name .. => name.offset

def isType : Declared → Bool
  | type .. => true
  | const .. => false

end Declared

structure Env where
  path : String
  name : String
  sources : List Source
  /-- Surfaces of the imported packages, by their own paths. -/
  imports : Table String Surface
  /-- The names of imports in each file; `none` for an import that failed. -/
  scopes : List (Table String (Option Surface))
  /-- The packages whose names each file takes over. -/
  dots : List (List Surface)
  decls : Table String Declared

inductive Binding where
  | type (t : Ty)
  | localType
  | localConst
  | const (d : ConstDef)
  | iota
  | package (surface : Option Surface)

namespace Env

/-- What a file takes over under a name from packages imported with a dot. -/
def dotBinding? (env : Env) (file : Nat) (name : String) : Option Binding :=
  if isExported name then
    (env.dots[file]?.getD []).findSome? fun s =>
      if s.types.contains name then some (.type (.named (s.ref name)))
      else (s.consts.find? name).map .const
  else none

def predeclared? (name : String) : Option Binding :=
  (Predeclared.find? name).map fun
    | .type t => .type t
    | .const d => .const d
    | .iota => .iota

/-- The meaning of a name: declarations of the package come first, then the imports of the file, then the
predeclared names. -/
def lookup (env : Env) (file : Nat) (name : String) : Option Binding :=
  match env.decls.find? name with
  | some d => some (if d.isType then .localType else .localConst)
  | none =>
    match (env.scopes[file]?).bind (·.find? name) with
    | some surface => some (.package surface)
    | none => env.dotBinding? file name <|> predeclared? name

/-- The surface of the package before anything is resolved. -/
def bare (env : Env) : Surface := { Surface.empty env.path env.name with imports := env.imports }

def ref (env : Env) (name : String) : NamedRef := ⟨env.path, env.name, name⟩

def display (env : Env) (t : Ty) : String := t.display env.path

/-- More than the number of declarations: how deep one declaration can lead to others. -/
def fuel (env : Env) : Nat := env.decls.length + 1

end Env

structure Site where
  file : Nat
  space : Space
  /-- The text of the file or tag. -/
  text : String
  /-- The number of the constant being declared. -/
  iota : Option Nat

def Site.textOf (site : Site) (r : ByteRange) : String := Text.trim (Text.slice site.text r)

def Env.site (env : Env) (file : Nat) (iota : Option Nat) : Site :=
  ⟨file, .source, ((env.sources[file]?).map Source.text).getD "", iota⟩

inductive Progress where
  | started
  | finished
deriving DecidableEq, Repr

/-- A map key, to be looked at once all types are resolved. -/
structure MapKey where
  file : Nat
  space : Space
  offset : Nat
  type : Ty

structure State where
  progress : Table String Progress := []
  types : Table String Ty := []
  consts : Table String ConstDef := []
  /-- The nodes of the declaration or tag that is being checked. -/
  table : TypeTable := []
  /-- The nodes of each file. -/
  tables : List TypeTable
  keys : List MapKey := []
  /-- Types already reported as recursive. -/
  recursive : List String := []
  /-- Errors so far, last first. -/
  errors : List CheckError

abbrev Step := StateM State

def complain (site : Site) (offset : Nat) (cause : TypeError) : Step Unit :=
  modify fun s => { s with errors := ⟨site.file, site.space, offset, cause⟩ :: s.errors }

def record (r : ByteRange) (tv : TypeAndValue) : Step Unit :=
  modify fun s => { s with table := s.table.insert r tv }

def recordType (r : ByteRange) (t : Ty) : Step Ty := do
  record r ⟨.type, t⟩
  return t

def recordValue (r : ByteRange) : Option TypeAndValue → Step (Option TypeAndValue)
  | none => return none
  | some tv => do
    record r tv
    return some tv

/-- Run a step with a table of its own, which is returned beside the result. -/
def withTable {α : Type} (step : Step α) : Step (α × TypeTable) := do
  let outer := (← get).table
  modify fun s => { s with table := [] }
  let a ← step
  let table := (← get).table
  modify fun s => { s with table := outer }
  return (a, table)

/-- Check a declaration of a file: its nodes go to the table of the file when it is finished. -/
def declaring {α : Type} (name : String) (file : Nat) (step : Step α) : Step α := do
  modify fun s => { s with progress := s.progress.insert name .started }
  let (a, table) ← withTable step
  modify fun s =>
    { s with
      tables := s.tables.modify file (·.insertAll table)
      progress := s.progress.insert name .finished }
  return a

/-- The surface as far as it is resolved. -/
def surface (env : Env) (s : State) : Surface := ⟨env.path, env.name, s.types, s.consts, env.imports⟩

end Check

end IdlWorkbench
