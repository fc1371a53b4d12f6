import IdlWorkbench.Table
import IdlWorkbench.Text.Case
import IdlWorkbench.Typing.Const

/-!
# What a package shows to others

The surface of a package holds its declared types and constants, and the surfaces of the packages it
imports, so that types of those can be looked into as well.
-/

namespace IdlWorkbench

structure Surface where
  path : String
  name : String
  /-- The declared types with the types that underlie them. -/
  types : Table String Ty
  consts : Table String ConstDef
  imports : List (String × Surface)

instance : Inhabited Surface := ⟨⟨"", "", [], [], []⟩⟩

/-- Whether a name can be used outside its package. -/
def isExported (name : String) : Bool := name.toList.head?.any Text.isUpper

namespace Surface

def empty (path name : String) : Surface := ⟨path, name, [], [], []⟩

def ref (s : Surface) (name : String) : NamedRef := ⟨s.path, s.name, name⟩

mutual

/-- The surface of a package among this one and those it imports, at most so many imports away. -/
def findWithin (path : String) : (hops : Nat) → Surface → Option Surface
  | hops, ⟨own, name, types, consts, imports⟩ =>
    if own = path then some ⟨own, name, types, consts, imports⟩
    else if hops = 0 then none
    else (List.lookup path imports) <|> findAmong path (hops - 1) imports

def findAmong (path : String) : (hops : Nat) → List (String × Surface) → Option Surface
  | _, [] => none
  | hops, (_, s) :: rest => findWithin path hops s <|> findAmong path hops rest

end

/-- How many imports away a surface is looked for. -/
def maxHops : Nat := 65

def find? (s : Surface) (path : String) : Option Surface := s.findWithin path maxHops

/-- The type that underlies a declared type which can be reached from this package. -/
def underlying? (s : Surface) (r : NamedRef) : Option Ty :=
  (s.find? r.package).bind fun owner => owner.types.find? r.name

/-! ## Equality -/

def sameTypes (ts us : Table String Ty) : Bool :=
  ts.length == us.length && ts.all fun (name, t) => (us.find? name).any (t.same ·)

def sameConsts (cs ds : Table String ConstDef) : Bool :=
  cs.length == ds.length && cs.all fun (name, c) => (ds.find? name).any (c.same ·)

mutual

/-- Whether two surfaces show the same, whatever the order of their declarations. -/
def same : Surface → Surface → Bool
  | ⟨path, name, types, consts, imports⟩, t =>
    path == t.path && name == t.name && sameTypes types t.types && sameConsts consts t.consts &&
      imports.length == t.imports.length && sameImports imports t.imports

def sameImports : List (String × Surface) → List (String × Surface) → Bool
  | [], _ => true
  | (path, s) :: rest, others =>
    (match List.lookup path others with
      | some t => s.same t
      | none => false) && sameImports rest others

end

/-! ## Declared types in reach -/

mutual

/-- The declared types that the types of a surface and of those it imports mention. -/
def refs : Surface → List NamedRef
  | ⟨_, _, types, _, imports⟩ => types.flatMap (fun (_, t) => t.refs) ++ refsOf imports

def refsOf : List (String × Surface) → List NamedRef
  | [] => []
  | (_, s) :: rest => s.refs ++ refsOf rest

end

/-- The type that underlies a type, `invalid` for a declared type out of reach. -/
def underlying (s : Surface) : Ty → Ty
  | .named r => (s.underlying? r).getD .invalid
  | t => t

end Surface

end IdlWorkbench
