import IdlWorkbench.Check.State

/-!
# Resolving types

`resolveType` gives a type expression its meaning; a name stands for itself there, whatever it was declared
as. `resolveNamed` finds the type that underlies a declared type, following a chain of names to its end.
-/

namespace IdlWorkbench.Check

/-! ## Type expressions -/

def typeName (env : Env) (site : Site) (id : Token) : Step Ty := do
  match env.lookup site.file id.text with
  | some (.type t) => return t
  | some .localType => return .named (env.ref id.text)
  | some .localConst | some (.const _) | some .iota =>
    complain site id.offset (.notAType id.text)
    return .invalid
  | some (.package _) =>
    complain site id.offset (.barePackage id.text)
    return .invalid
  | none =>
    complain site id.offset (.undefined id.text)
    return .invalid

/-- The type that a selector starting at `offset` names. -/
def selectedType (env : Env) (site : Site) (offset : Nat) (qualifier name : Token) : Step Ty := do
  let dotted := qualifier.text ++ "." ++ name.text
  match env.lookup site.file qualifier.text with
  | some (.package none) => return .invalid
  | some (.package (some s)) =>
    if !isExported name.text then
      complain site name.offset (.notExported name.text s.name)
      return .invalid
    else if s.types.contains name.text then
      return .named (s.ref name.text)
    else if s.consts.contains name.text then
      complain site offset (.notAType dotted)
      return .invalid
    else
      complain site name.offset (.undefined dotted)
      return .invalid
  | some _ =>
    complain site qualifier.offset (.notAPackage qualifier.text)
    return .invalid
  | none =>
    complain site qualifier.offset (.undefined qualifier.text)
    return .invalid

/-- Put a map key aside until all types are resolved. -/
def postponeKey (site : Site) (key : TypeExpr) (t : Ty) : Step Unit :=
  if key.isMissing then pure ()
  else modify fun s => { s with keys := s.keys ++ [⟨site.file, site.space, key.range.start, t⟩] }

def embeddedName? : TypeExpr → Option String
  | .name id => some id.text
  | .selector _ _ name => name.map Token.text
  | .pointer _ elem => embeddedName? elem
  | _ => none

/-- Of the names of one declaration those that are taken: by a name in `seen`, or by one further left. -/
def repeatedNames (seen : List String) : List Token → List Token
  | [] => []
  | name :: rest =>
    if seen.contains name.text then name :: repeatedNames seen rest
    else repeatedNames (name.text :: seen) rest

/-- The fields that one declaration of a struct makes, and the names seen after it. -/
def declareFields (site : Site) (f : Field) (t : Ty) (seen : List String) :
    Step (List FieldTy × List String) := do
  let tag := f.tag.bind fun t => Token.unquote t.text
  if f.isEmbedded then
    match embeddedName? f.type with
    | none => return ([], seen)
    | some name =>
      if seen.contains name then
        complain site f.range.start (.fieldRedeclared name)
      return ([⟨name, t, true, tag⟩], name :: seen)
  else
    (repeatedNames seen f.names).forM fun name => complain site name.offset (.fieldRedeclared name.text)
    return (f.names.map fun name => ⟨name.text, t, false, tag⟩, f.names.map Token.text ++ seen)

mutual

def resolveType (env : Env) (site : Site) : TypeExpr → Step Ty
  | .missing => return .invalid
  | .name id => do recordType id.range (← typeName env site id)
  | .selector range qualifier name => do
    match qualifier, name with
    | some qualifier, some name =>
      recordType range (← selectedType env site range.start qualifier name)
    | _, _ => recordType range .invalid
  | .slice range elem => do recordType range (.slice (← resolveType env site elem))
  | .map range key value => do
    let keyType ← resolveType env site key
    let valueType ← resolveType env site value
    postponeKey site key keyType
    recordType range (.map keyType valueType)
  | .pointer range elem => do recordType range (.pointer (← resolveType env site elem))
  | .chan range elem => do recordType range (.chan (← resolveType env site elem))
  | .func range signature => do
    let (params, results) ← resolveSignature env site signature
    recordType range (.func params results)
  | .struct range _ fields => do recordType range (.struct (← resolveFields env site [] fields))
  | .interface range _ methods => do
    recordType range (.interface (← resolveMethods env site [] methods))

def resolveSignature (env : Env) (site : Site) : Signature → Step (List Ty × List Ty)
  | ⟨params, _, results⟩ => do
    let params ← resolveParams env site params
    let results ← resolveParams env site results
    return (params, results)

def resolveParams (env : Env) (site : Site) : List Param → Step (List Ty)
  | [] => return []
  | ⟨_, type⟩ :: rest => do
    let t ← resolveType env site type
    return t :: (← resolveParams env site rest)

/-- The fields of a struct, where `seen` holds the names of those before. -/
def resolveFields (env : Env) (site : Site) (seen : List String) : List (Item Field) → Step (List FieldTy)
  | [] => return []
  | .gap _ :: rest | .comment _ :: rest => resolveFields env site seen rest
  | .entry ⟨range, doc, names, type, tag, trailing⟩ :: rest => do
    let t ← resolveType env site type
    let (fields, seen) ← declareFields site ⟨range, doc, names, type, tag, trailing⟩ t seen
    return fields ++ (← resolveFields env site seen rest)

/-- The methods of an interface, where `seen` holds the names of those before. -/
def resolveMethods (env : Env) (site : Site) (seen : List String) : List (Item Method) → Step (List MethodTy)
  | [] => return []
  | .gap _ :: rest | .comment _ :: rest => resolveMethods env site seen rest
  | .entry ⟨_, _, name, signature, _⟩ :: rest => do
    let (params, results) ← resolveSignature env site signature
    if seen.contains name.text then
      complain site name.offset (.duplicateMethod name.text)
      resolveMethods env site seen rest
    else
      return ⟨name.text, params, results⟩ :: (← resolveMethods env site (name.text :: seen) rest)

end

/-! ## Declared types -/

def reportRecursive (env : Env) (name : String) : Step Unit := do
  if (← get).recursive.contains name then
    return
  modify fun s => { s with recursive := name :: s.recursive }
  if let some d := env.decls.find? name then
    complain (env.site d.file none) d.nameOffset (.recursiveType name)

/-- The type that underlies a type, given how to resolve the declared types of this package. -/
def underlyingWith (env : Env) (resolve : String → Step Ty) : Ty → Step Ty
  | .named r => if r.package = env.path then resolve r.name else return env.bare.underlying (.named r)
  | t => return t

/-- The type that underlies a declared type, at most `fuel` names away. -/
def resolveNamedWithin (env : Env) : (fuel : Nat) → String → Step Ty
  | 0, _ => return .invalid
  | n + 1, name => do
    match (← get).progress.find? name with
    | some .finished => return ((← get).types.find? name).getD .invalid
    | some .started =>
      reportRecursive env name
      return .invalid
    | none =>
      match env.decls.find? name with
      | some (.type file spec) =>
        let t ← declaring name file do
          underlyingWith env (resolveNamedWithin env n) (← resolveType env (env.site file none) spec.type)
        modify fun s => { s with types := s.types.insert name t }
        return t
      | _ => return .invalid

def resolveNamed (env : Env) (name : String) : Step Ty := resolveNamedWithin env env.fuel name

def underlying (env : Env) (t : Ty) : Step Ty := underlyingWith env (resolveNamed env) t

/-! ## Recursive structs -/

/-- Where a search for a type inside itself ends: with the names on the way to it, or with the names that
were looked into in vain. -/
inductive Search where
  | found (way : List String)
  | exhausted (visited : List String)

/-- Search the types that `names` stand for; `enter` looks into one of them. -/
def searchAll (target : String) (enter : (way visited : List String) → String → Search)
    (way : List String) : (visited : List String) → (names : List String) → Search
  | visited, [] => .exhausted visited
  | visited, next :: rest =>
    if next = target then .found way
    else if visited.contains next then searchAll target enter way visited rest
    else
      match enter (next :: way) (next :: visited) next with
      | .found way => .found way
      | .exhausted visited => searchAll target enter way visited rest

/-- The declared types of this package that are stored in values of the type named so. -/
def partNames (env : Env) (types : Table String Ty) (name : String) : List String :=
  match types.find? name with
  | none => []
  | some t => (t.parts.filter (·.package = env.path)).map NamedRef.name

/-- Look for `target` in the values of a type, at most `fuel` names away. -/
def searchWithin (env : Env) (types : Table String Ty) (target : String) :
    (fuel : Nat) → (way visited : List String) → String → Search
  | 0, _, visited, _ => .exhausted visited
  | n + 1, way, visited, name =>
    searchAll target (searchWithin env types target n) way visited (partNames env types name)

/-- Report each struct type that is stored in its own values, save those on the way of one reported. -/
def checkRecursive (env : Env) : Step Unit := do
  for (name, d) in env.decls do
    let s ← get
    if d.isType && !s.recursive.contains name then
      match searchWithin env s.types name (s.types.length + 1) [] [] name with
      | .found way =>
        reportRecursive env name
        modify fun s => { s with recursive := way ++ s.recursive }
      | .exhausted _ => pure ()

/-! ## Map keys -/

/-- Report the map keys put aside whose values cannot be compared. -/
def checkKeys (env : Env) : Step Unit := do
  let keys := (← get).keys
  modify fun s => { s with keys := [] }
  let shown := surface env (← get)
  for key in keys do
    if !shown.comparable key.type then
      let site : Site := ⟨key.file, key.space, "", none⟩
      complain site key.offset (.badMapKey (env.display key.type))

end IdlWorkbench.Check
