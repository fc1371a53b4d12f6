import IdlWorkbench.Check.Type

/-!
# Checking expressions

`checkExpr` finds out what an expression denotes, or `none` if it was reported. It goes down the expression;
where a constant of the package is named, `constOf` supplies its definition.
-/

namespace IdlWorkbench.Check

/-! ## Assignment -/

/-- How messages describe an operand whose own text is `text`. -/
def describe (env : Env) (tv : TypeAndValue) (text : String) : String :=
  match tv.const? with
  | none => "value of type " ++ env.display tv.type
  | some value =>
    let shown := if value.text = text then "" else " " ++ value.text
    match tv.type.basic?.filter BasicKind.isUntyped with
    | some kind => kind.name ++ " constant" ++ shown
    | none => "constant" ++ shown ++ " of type " ++ env.display tv.type

/-- Whether a value can be used where `target` is asked for. -/
def assignable (env : Env) (tv : TypeAndValue) (target : Ty) : Step (Except ConstValue.Misfit Unit) := do
  let under ← underlying env target
  let anyOr (fit : Bool) : Except ConstValue.Misfit Unit :=
    if fit || under.isAny then .ok () else .error .kind
  match tv.const?, tv.type.basic?.filter BasicKind.isUntyped with
  | some value, some _ =>
    match under with
    | .basic kind => return value.fits kind
    | _ => return anyOr false
  | _, _ =>
    if tv.type == target then
      return .ok ()
    else if tv.type.isNamed && target.isNamed then
      return anyOr false
    else
      return anyOr ((← underlying env tv.type) == under)

/-- Whether a value can be used where `target` is asked for; if not, that is reported. -/
def assign (env : Env) (site : Site) (tv : TypeAndValue) (target : Ty) (r : ByteRange) (use : Use) :
    Step Bool := do
  if tv.type.isInvalid || target.isInvalid then
    return true
  match ← assignable env tv target with
  | .ok () => return true
  | .error misfit =>
    let text := site.textOf r
    complain site r.start (.notAssignable text (describe env tv text) (env.display target) use misfit)
    return false

/-! ## Operands -/

def literalValue? (t : Token) : Option ConstValue :=
  match t.kind with
  | .int => (ConstValue.ofIntLiteral? t.text.toList).map .int
  | .float => (ConstValue.ofFloatLiteral? t.text.toList).map .float
  | .string | .rawString => (Token.unquote t.text).map .string
  | _ => none

def literal (site : Site) (t : Token) : Step (Option TypeAndValue) := do
  match literalValue? t with
  | some value => return some ⟨.constant value, .basic value.untypedKind⟩
  | none =>
    complain site t.offset (.badLiteral t.text)
    return none

def nameExpr (env : Env) (constOf : String → Step (Option ConstDef)) (site : Site) (id : Token) :
    Step (Option TypeAndValue) := do
  match env.lookup site.file id.text with
  | some .localConst => return (← constOf id.text).map ConstDef.toTypeAndValue
  | some (.const d) => return some d.toTypeAndValue
  | some .iota =>
    match site.iota with
    | some n => return some ⟨.constant (.int n), .basic .untypedInt⟩
    | none =>
      complain site id.offset .strayIota
      return none
  | some (.type _) | some .localType =>
    complain site id.offset (.typeAsValue id.text)
    return none
  | some (.package _) =>
    complain site id.offset (.barePackage id.text)
    return none
  | none =>
    complain site id.offset (.undefined id.text)
    return none

/-- The constant that a selector starting at `offset` names. -/
def selectorExpr (env : Env) (site : Site) (offset : Nat) (qualifier name : Token) :
    Step (Option TypeAndValue) := do
  let dotted := qualifier.text ++ "." ++ name.text
  match env.lookup site.file qualifier.text with
  | some (.package none) => return none
  | some (.package (some s)) =>
    if !isExported name.text then
      complain site name.offset (.notExported name.text s.name)
      return none
    else
      match s.consts.find? name.text with
      | some d => return some d.toTypeAndValue
      | none =>
        if s.types.contains name.text then
          complain site offset (.typeAsValue dotted)
        else
          complain site name.offset (.undefined dotted)
        return none
  | some _ =>
    complain site offset (.noMember dotted)
    return none
  | none =>
    complain site qualifier.offset (.undefined qualifier.text)
    return none

def signed? (op : Token) : ConstValue → Option ConstValue
  | .int n => if op.kind = .minus then some (.int (-n)) else if op.kind = .plus then some (.int n) else none
  | .float x =>
    if op.kind = .minus then some (.float x.neg) else if op.kind = .plus then some (.float x) else none
  | _ => none

def signedOperand (env : Env) (site : Site) (offset : Nat) (op : Token) (r : ByteRange)
    (tv : TypeAndValue) : Step (Option TypeAndValue) := do
  match tv.const?.bind (signed? op) with
  | some value => return some ⟨.constant value, tv.type⟩
  | none =>
    let text := site.textOf r
    complain site offset (.badOperator op.text text (describe env tv text))
    return none

/-- Whether an operand is an integer that can be an index. -/
def isIndex (tv : Option TypeAndValue) : Bool :=
  match tv.bind TypeAndValue.const? with
  | some (.int n) => 0 ≤ n
  | _ => false

/-! ## Expressions -/

/-- What a literal of a type is made of: its type less a pointer that is left out, and what underlies
that. -/
def literalBase (env : Env) (t : Ty) (elided : Bool) : Step (Ty × Ty) := do
  let base ← underlying env t
  match base with
  | .pointer elem => if elided then return (elem, ← underlying env elem) else return (t, base)
  | _ => return (t, base)

mutual

def checkExpr (env : Env) (constOf : String → Step (Option ConstDef)) (site : Site) :
    Expr → Step (Option TypeAndValue)
  | .missing => return none
  | .literal t => do recordValue t.range (← literal site t)
  | .name id => do recordValue id.range (← nameExpr env constOf site id)
  | .selector range qualifier name => do
    match qualifier, name with
    | some qualifier, some name =>
      recordValue range (← selectorExpr env site range.start qualifier name)
    | _, _ => return none
  | .paren range inner => do recordValue range (← checkExpr env constOf site inner)
  | .unary range op operand => do
    match ← checkExpr env constOf site operand with
    | none => return none
    | some tv => recordValue range (← signedOperand env site range.start op operand.range tv)
  | .composite range type _ body => do
    let t ← resolveType env site type
    recordValue range (← checkBody env constOf site t range.start false body)
  | .type t _ => do
    let _ ← resolveType env site t
    complain site t.range.start (.typeAsValue (site.textOf t.range))
    return none

/-- Check the elements of a literal of type `t` that starts at `offset`. Where the type was left out, a
literal of `*T` may be written like one of `T`. -/
def checkBody (env : Env) (constOf : String → Step (Option ConstDef)) (site : Site) (t : Ty)
    (offset : Nat) (elided : Bool) : LitBody → Step (Option TypeAndValue)
  | ⟨range, _, elements⟩ => do
    if t.isInvalid then
      return none
    let (baseType, base) ← literalBase env t elided
    match base with
    | .struct fields =>
      let keyed := elements.countP Element.isKeyed
      if 0 < keyed && keyed < elements.length then
        complain site range.start .mixedElements
      else if 0 < keyed then
        checkKeyed env constOf site fields (env.display baseType) [] elements
      else if 0 < elements.length then
        checkPositional env constOf site (env.display baseType) fields elements
        if elements.length < fields.length then
          complain site (range.stop - 1) (.tooFewValues (env.display baseType))
      return some ⟨.value, t⟩
    | .slice elem =>
      checkSlice env constOf site elem elements
      return some ⟨.value, t⟩
    | .map key value =>
      checkMap env constOf site key value [] elements
      return some ⟨.value, t⟩
    | .invalid => return none
    | _ =>
      complain site offset (.badLiteralType (env.display t))
      return none

/-- The elements of a struct literal with field names, where `seen` holds those already given. -/
def checkKeyed (env : Env) (constOf : String → Step (Option ConstDef)) (site : Site)
    (fields : List FieldTy) (type : String) (seen : List String) : List Element → Step Unit
  | [] => return
  | .positional .. :: rest => checkKeyed env constOf site fields type seen rest
  | .keyed _ key value :: rest => do
    match key with
    | .missing => checkKeyed env constOf site fields type seen rest
    | .expr (.name id) =>
      match fields.find? (·.name = id.text) with
      | none =>
        complain site id.offset (.unknownField id.text type)
        checkKeyed env constOf site fields type seen rest
      | some field =>
        if seen.contains id.text then
          complain site id.offset (.duplicateField id.text)
          checkKeyed env constOf site fields type seen rest
        else
          let _ ← checkValue env constOf site field.type .structLit value
          checkKeyed env constOf site fields type (id.text :: seen) rest
    | key =>
      complain site key.range.start (.badFieldName (site.textOf key.range))
      checkKeyed env constOf site fields type seen rest

/-- The elements of a struct literal without field names, against the fields still to be given. -/
def checkPositional (env : Env) (constOf : String → Step (Option ConstDef)) (site : Site)
    (type : String) : List FieldTy → List Element → Step Unit
  | _, [] => return
  | fields, .keyed .. :: rest => checkPositional env constOf site type (fields.drop 1) rest
  | [], .positional range _ :: _ => complain site range.start (.tooManyValues type)
  | field :: fields, .positional _ value :: rest => do
    let _ ← checkValue env constOf site field.type .structLit value
    checkPositional env constOf site type fields rest

def checkSlice (env : Env) (constOf : String → Step (Option ConstDef)) (site : Site) (elem : Ty) :
    List Element → Step Unit
  | [] => return
  | .positional _ value :: rest => do
    let _ ← checkValue env constOf site elem .sliceLit value
    checkSlice env constOf site elem rest
  | .keyed _ key value :: rest => do
    match key with
    | .expr index =>
      if !isIndex (← checkExpr env constOf site index) then
        complain site index.range.start (.badIndex (site.textOf index.range))
    | _ => pure ()
    let _ ← checkValue env constOf site elem .sliceLit value
    checkSlice env constOf site elem rest

/-- The elements of a map literal, where `seen` holds the texts of the constant keys before. -/
def checkMap (env : Env) (constOf : String → Step (Option ConstDef)) (site : Site) (key value : Ty)
    (seen : List String) : List Element → Step Unit
  | [] => return
  | .positional range _ :: rest => do
    complain site range.start .missingKey
    checkMap env constOf site key value seen rest
  | .keyed _ k v :: rest => do
    let tv ← checkValue env constOf site key .mapLit k
    match (tv.bind TypeAndValue.const?).map ConstValue.text with
    | none =>
      let _ ← checkValue env constOf site value .mapLit v
      checkMap env constOf site key value seen rest
    | some text =>
      if seen.contains text then
        complain site k.range.start (.duplicateKey (site.textOf k.range))
      let _ ← checkValue env constOf site value .mapLit v
      checkMap env constOf site key value (text :: seen) rest

/-- A value between the braces of a literal, where `target` is asked for. -/
def checkValue (env : Env) (constOf : String → Step (Option ConstDef)) (site : Site) (target : Ty)
    (use : Use) : ElementValue → Step (Option TypeAndValue)
  | .missing => return none
  | .body b => do recordValue b.range (← checkBody env constOf site target b.range.start true b)
  | .expr e => do
    match ← checkExpr env constOf site e with
    | none => return none
    | some tv => return if ← assign env site tv target e.range use then some tv else none

end

/-! ## Constants -/

/-- The definition of a constant from its type and value, either of which may be missing. -/
def constDef (env : Env) (constOf : String → Step (Option ConstDef)) (site : Site) (name : Token)
    (type : TypeExpr) (value : Expr) : Step (Option ConstDef) := do
  let declared ← resolveType env site type
  if value.isMissing then
    complain site name.offset .missingInit
    return none
  match ← checkExpr env constOf site value with
  | none => return none
  | some tv =>
    match tv.const? with
    | none =>
      let text := site.textOf value.range
      complain site value.range.start (.notConstant text (describe env tv text))
      return none
    | some constant =>
      if type.isMissing then
        return some ⟨tv.type, constant⟩
      if declared.isInvalid then
        return none
      match (← underlying env declared).basic? with
      | none =>
        complain site type.range.start (.badConstType (env.display declared))
        return none
      | some kind =>
        if ← assign env site tv declared value.range .constant then
          return some ⟨declared, constant.convert kind⟩
        else
          return none

/-- The definition of a declared constant, at most `fuel` names away. -/
def resolveConstWithin (env : Env) : (fuel : Nat) → String → Step (Option ConstDef)
  | 0, _ => return none
  | n + 1, name => do
    match (← get).progress.find? name with
    | some .finished => return (← get).consts.find? name
    | some .started =>
      if let some d := env.decls.find? name then
        complain (env.site d.file none) d.nameOffset (.initCycle name)
      return none
    | none =>
      match env.decls.find? name with
      | some (.const file id type value iota) =>
        let d ← declaring name file
          (constDef env (resolveConstWithin env n) (env.site file (some iota)) id type value)
        if let some d := d then
          modify fun s => { s with consts := s.consts.insert name d }
        return d
      | _ => return none

def resolveConst (env : Env) (name : String) : Step (Option ConstDef) :=
  resolveConstWithin env env.fuel name

end IdlWorkbench.Check
