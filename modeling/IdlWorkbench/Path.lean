import IdlWorkbench.Text.Blank

/-!
# Paths

A path is what stands between its slashes. `components` tells what the path means: empty parts and `.` say
nothing, except for a dot at the start of a relative path. Two spellings with the same components are the
same path under `==`.

`normalize` also resolves `..`, without a look at any directory.
-/

namespace IdlWorkbench

structure Path where
  segments : List String
deriving DecidableEq, Repr, Inhabited

namespace Path

def ofString (s : String) : Path := ⟨(s.toList.splitOn '/').map String.ofList⟩

def text (p : Path) : String := "/".intercalate p.segments

/-! ## Components -/

inductive Component where
  | root
  | current
  | parent
  | name (s : String)
deriving DecidableEq, Repr

def component? : String → Option Component
  | "" | "." => none
  | ".." => some .parent
  | s => some (.name s)

def components (p : Path) : List Component :=
  match p.segments with
  | [""] => []
  | "" :: rest => .root :: rest.filterMap component?
  | "." :: rest => .current :: rest.filterMap component?
  | segments => segments.filterMap component?

instance : BEq Path := ⟨fun p q => p.components == q.components⟩

def isAbsolute (p : Path) : Bool := p.components.head? = some .root

def names (components : List Component) : List String :=
  components.filterMap fun
    | .name s => some s
    | _ => none

/-- What is left of the components of a path behind those of `base`, if it starts with them. -/
def below? (base p : Path) : Option (List Component) :=
  if base.components.isPrefixOf p.components then some (p.components.drop base.components.length) else none

/-! ## Order -/

namespace Component

def rank : Component → Nat
  | root => 0
  | current => 1
  | parent => 2
  | name _ => 3

def lt : Component → Component → Bool
  | name s, name t => s < t
  | a, b => a.rank < b.rank

end Component

/-- Components are compared one after the other. -/
def componentsLe : List Component → List Component → Bool
  | [], _ => true
  | _ :: _, [] => false
  | a :: as, b :: bs => a.lt b || (a == b && componentsLe as bs)

def le (p q : Path) : Bool := componentsLe p.components q.components

/-- Put a path before the first one that does not come before it. -/
def insertSorted (p : Path) : List Path → List Path
  | [] => [p]
  | q :: rest => if p.le q then p :: q :: rest else q :: insertSorted p rest

/-- Paths in order; those that are the same stay as they stand. -/
@[irreducible] def sort (ps : List Path) : List Path := ps.foldr insertSorted []

/-! ## Building paths -/

def ofNames (absolute : Bool) (names : List String) : Path :=
  let names := if names.isEmpty then [""] else names
  ⟨if absolute then "" :: names else names⟩

/-- The segments of a path that more can be put behind. -/
def stem (p : Path) : List String :=
  if p.segments.getLast? = some "" then p.segments.dropLast else p.segments

/-- `q` as seen from `p`. -/
def join (p q : Path) : Path := if q.isAbsolute then q else ⟨p.stem ++ q.segments⟩

def child (p : Path) (name : String) : Path := ⟨p.stem ++ [name]⟩

/-- One more component on a stack of names, the last one first. -/
def pushComponent (stack : List String) : Component → List String
  | .root | .current => stack
  | .parent => stack.tail
  | .name s => s :: stack

/-- Resolve every `.` and `..`. Above the start of a path there is only the start. -/
def normalize (p : Path) : Path :=
  .ofNames p.isAbsolute (p.components.foldl pushComponent []).reverse

/-! ## Taking paths apart -/

/-- The segments without those at the end that say nothing. -/
def dropIdle (segments : List String) : List String :=
  (segments.reverse.dropWhile fun s => s = "" || s = ".").reverse

/-- The segments before the last one that says something. -/
def front? (segments : List String) : Option (List String) :=
  match dropIdle segments with
  | [] => none
  | s :: rest => some (dropIdle (s :: rest).dropLast)

/-- The path without its last component; the root and the empty path have no parent. -/
def parent? (p : Path) : Option Path :=
  match p.segments with
  | [""] => none
  | "" :: rest => (front? rest).map fun front => ⟨"" :: if front.isEmpty then [""] else front⟩
  | "." :: rest =>
    match front? rest with
    | some front => some ⟨"." :: front⟩
    | none => some ⟨[""]⟩
  | segments => (front? segments).map fun front => ⟨if front.isEmpty then [""] else front⟩

def ancestorsWithin : (fuel : Nat) → Path → List Path
  | 0, p => [p]
  | fuel + 1, p =>
    match p.parent? with
    | none => [p]
    | some q => p :: ancestorsWithin fuel q

/-- A parent has fewer components than its path, and a path has no more of them than it has segments. -/
def ancestors (p : Path) : List Path := ancestorsWithin (p.segments.length + 1) p

def fileName? (p : Path) : Option String :=
  match p.components.getLast? with
  | some (.name s) => some s
  | _ => none

def fileName (p : Path) : String := p.fileName?.getD ""

/-- What stands behind the last dot of the file name, unless that dot is its first character. -/
def extension? (p : Path) : Option String := do
  let name ← p.fileName?
  match name.toList.reverse.span (· ≠ '.') with
  | (ending, '.' :: _ :: _) => return String.ofList ending.reverse
  | _ => none

end Path

end IdlWorkbench
