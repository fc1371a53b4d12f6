/-!
# Types

The types of the language as the checker sees them. A declared type is known by the path of its package and
its name. `display` writes a type the way messages show it inside a given package.
-/

namespace IdlWorkbench

/-- The predeclared basic types and the kinds of constants without a type. -/
inductive BasicKind where
  | bool
  | string
  | int
  | int8
  | int16
  | int32
  | int64
  | uint
  | uint8
  | uint16
  | uint32
  | uint64
  | float32
  | float64
  | untypedBool
  | untypedInt
  | untypedFloat
  | untypedString
deriving DecidableEq, Repr, Inhabited

namespace BasicKind

def name : BasicKind → String
  | bool => "bool"
  | string => "string"
  | int => "int"
  | int8 => "int8"
  | int16 => "int16"
  | int32 => "int32"
  | int64 => "int64"
  | uint => "uint"
  | uint8 => "uint8"
  | uint16 => "uint16"
  | uint32 => "uint32"
  | uint64 => "uint64"
  | float32 => "float32"
  | float64 => "float64"
  | untypedBool => "untyped bool"
  | untypedInt => "untyped int"
  | untypedFloat => "untyped float"
  | untypedString => "untyped string"

def isUntyped : BasicKind → Bool
  | untypedBool | untypedInt | untypedFloat | untypedString => true
  | _ => false

def isBool : BasicKind → Bool
  | bool | untypedBool => true
  | _ => false

def isString : BasicKind → Bool
  | string | untypedString => true
  | _ => false

def intRange : BasicKind → Option (Int × Int)
  | int8 => signed 7
  | int16 => signed 15
  | int32 => signed 31
  | int | int64 => signed 63
  | uint8 => unsigned 8
  | uint16 => unsigned 16
  | uint32 => unsigned 32
  | uint | uint64 => unsigned 64
  | _ => none
where
  signed (bits : Nat) : Option (Int × Int) := some (-Int.pow 2 bits, Int.pow 2 bits - 1)
  unsigned (bits : Nat) : Option (Int × Int) := some (0, Int.pow 2 bits - 1)

def isInteger (k : BasicKind) : Bool := k.intRange.isSome || k == untypedInt

def isFloat : BasicKind → Bool
  | float32 | float64 | untypedFloat => true
  | _ => false

end BasicKind

structure NamedRef where
  /-- Import path of the package that declares it. -/
  package : String
  /-- Name of that package, which qualifies the type in messages. -/
  packageName : String
  name : String
deriving DecidableEq, Repr, Inhabited

mutual

inductive Ty where
  | invalid
  | basic (kind : BasicKind)
  | named (ref : NamedRef)
  | slice (elem : Ty)
  | map (key value : Ty)
  | pointer (elem : Ty)
  | chan (elem : Ty)
  | func (params results : List Ty)
  | struct (fields : List FieldTy)
  | interface (methods : List MethodTy)

structure FieldTy where
  name : String
  type : Ty
  embedded : Bool
  tag : Option String

structure MethodTy where
  name : String
  params : List Ty
  results : List Ty

end

instance : Inhabited Ty := ⟨.invalid⟩

namespace Ty

def isInvalid : Ty → Bool
  | invalid => true
  | _ => false

def isNamed : Ty → Bool
  | named _ => true
  | _ => false

def basic? : Ty → Option BasicKind
  | basic kind => some kind
  | _ => none

/-- The empty interface, which every value fits. -/
def isAny : Ty → Bool
  | interface [] => true
  | _ => false

/-! ## Equality -/

mutual

def same : Ty → Ty → Bool
  | invalid, invalid => true
  | basic j, basic k => j == k
  | named r, named s => r == s
  | slice a, slice b => a.same b
  | map k v, map l w => k.same l && v.same w
  | pointer a, pointer b => a.same b
  | chan a, chan b => a.same b
  | func ps rs, func qs ss => sameAll ps qs && sameAll rs ss
  | struct fs, struct gs => sameFields fs gs
  | interface ms, interface ns => sameMethods ms ns
  | _, _ => false
termination_by structural t => t

def sameAll : List Ty → List Ty → Bool
  | [], [] => true
  | a :: as, b :: bs => a.same b && sameAll as bs
  | _, _ => false
termination_by structural t => t

def sameFields : List FieldTy → List FieldTy → Bool
  | [], [] => true
  | ⟨name, type, embedded, tag⟩ :: fs, g :: gs =>
    name == g.name && type.same g.type && embedded == g.embedded && tag == g.tag && sameFields fs gs
  | _, _ => false
termination_by structural t => t

def sameMethods : List MethodTy → List MethodTy → Bool
  | [], [] => true
  | ⟨name, params, results⟩ :: ms, n :: ns =>
    name == n.name && sameAll params n.params && sameAll results n.results && sameMethods ms ns
  | _, _ => false
termination_by structural t => t

end

/-! ## Text -/

/-- A signature from the texts of its parameters and results. -/
def signatureDisplay (params results : List String) : String :=
  "(" ++ ", ".intercalate params ++ ")" ++
    match results with
    | [] => ""
    | [result] => " " ++ result
    | results => " (" ++ ", ".intercalate results ++ ")"

mutual

/-- A type as messages about the package with path `current` show it. -/
def display (current : String) : Ty → String
  | invalid => "invalid type"
  | basic kind => kind.name
  | named r => if r.package = current then r.name else r.packageName ++ "." ++ r.name
  | slice elem => "[]" ++ elem.display current
  | map key value => "map[" ++ key.display current ++ "]" ++ value.display current
  | pointer elem => "*" ++ elem.display current
  | chan elem => "chan " ++ elem.display current
  | func params results =>
    "func" ++ signatureDisplay (displayAll current params) (displayAll current results)
  | struct fields => "struct\x7b" ++ "; ".intercalate (displayFields current fields) ++ "\x7d"
  | interface methods => "interface\x7b" ++ "; ".intercalate (displayMethods current methods) ++ "\x7d"

def displayAll (current : String) : List Ty → List String
  | [] => []
  | t :: ts => t.display current :: displayAll current ts

def displayFields (current : String) : List FieldTy → List String
  | [] => []
  | ⟨name, type, embedded, _⟩ :: fields =>
    (if embedded then type.display current else name ++ " " ++ type.display current) ::
      displayFields current fields

def displayMethods (current : String) : List MethodTy → List String
  | [] => []
  | ⟨name, params, results⟩ :: methods =>
    (name ++ signatureDisplay (displayAll current params) (displayAll current results)) ::
      displayMethods current methods

end

/-! ## Declared types inside a type -/

mutual

def refs : Ty → List NamedRef
  | invalid | basic _ => []
  | named r => [r]
  | slice elem | pointer elem | chan elem => elem.refs
  | map key value => key.refs ++ value.refs
  | func params results => refsAll params ++ refsAll results
  | struct fields => refsFields fields
  | interface methods => refsMethods methods

def refsAll : List Ty → List NamedRef
  | [] => []
  | t :: ts => t.refs ++ refsAll ts

def refsFields : List FieldTy → List NamedRef
  | [] => []
  | ⟨_, type, _, _⟩ :: fields => type.refs ++ refsFields fields

def refsMethods : List MethodTy → List NamedRef
  | [] => []
  | ⟨_, params, results⟩ :: methods => refsAll params ++ refsAll results ++ refsMethods methods

end

mutual

/-- The declared types whose values are stored inside a value of a type. -/
def parts : Ty → List NamedRef
  | named r => [r]
  | struct fields => partsOf fields
  | _ => []

def partsOf : List FieldTy → List NamedRef
  | [] => []
  | ⟨_, type, _, _⟩ :: fields => type.parts ++ partsOf fields

end

end Ty

instance : BEq Ty := ⟨Ty.same⟩

end IdlWorkbench
