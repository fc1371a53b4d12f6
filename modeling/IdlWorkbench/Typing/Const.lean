import IdlWorkbench.Number.Shortest
import IdlWorkbench.Text.Integer
import IdlWorkbench.Text.Quoted
import IdlWorkbench.Typing.Basic

/-!
# Constants

The value of a constant is a boolean, an integer, a floating point number or a text. Integers are those of
128 bits with a sign.
-/

namespace IdlWorkbench

inductive ConstValue where
  | bool (b : Bool)
  | int (n : Int)
  | float (x : Binary64)
  | string (s : String)
deriving DecidableEq, Repr, Inhabited

namespace ConstValue

/-- The kind of a constant with this value that has no type yet. -/
def untypedKind : ConstValue → BasicKind
  | bool _ => .untypedBool
  | int _ => .untypedInt
  | float _ => .untypedFloat
  | string _ => .untypedString

def text : ConstValue → String
  | bool b => if b then "true" else "false"
  | int n => toString n
  | float x => x.text
  | string s => Text.quoted s

/-- Whether two values are equal as numbers or texts. -/
def same : ConstValue → ConstValue → Bool
  | bool a, bool b => a == b
  | int a, int b => a == b
  | float a, float b => a.same b
  | string a, string b => a == b
  | _, _ => false

end ConstValue

structure ConstDef where
  type : Ty
  value : ConstValue
deriving Inhabited

def ConstDef.same (a b : ConstDef) : Bool := a.type == b.type && a.value.same b.value

inductive Mode where
  | type
  | constant (value : ConstValue)
  | value
deriving Inhabited

/-- The type of an expression, and its value if it is constant. -/
structure TypeAndValue where
  mode : Mode
  type : Ty
deriving Inhabited

namespace TypeAndValue

def const? (tv : TypeAndValue) : Option ConstValue :=
  match tv.mode with
  | .constant value => some value
  | _ => none

def isType (tv : TypeAndValue) : Bool :=
  match tv.mode with
  | .type => true
  | _ => false

end TypeAndValue

namespace ConstDef

def toTypeAndValue (d : ConstDef) : TypeAndValue := ⟨.constant d.value, d.type⟩

end ConstDef

/-! ## Literals -/

namespace ConstValue

/-- Where the integers of 128 bits with a sign end. -/
def intLimit : Nat := Nat.pow 2 127

/-- An integer literal: hexadecimal behind `0x`, octal behind any other leading zero. -/
def ofIntLiteral? (cs : List Char) : Option Int :=
  let value :=
    match cs with
    | '0' :: 'x' :: hex | '0' :: 'X' :: hex => Text.digits? 16 hex
    | '0' :: c :: rest => Text.digits? 8 (c :: rest)
    | _ => Text.digits? 10 cs
  (value.filter (· < intLimit)).map Int.ofNat

/-- A floating point literal: digits, a fraction and an exponent, of which one of the last two may be
missing. -/
def ofFloatLiteral? (cs : List Char) : Option Binary64 :=
  let isE (c : Char) : Bool := c = 'e' || c = 'E'
  let body := cs.takeWhile (!isE ·)
  let whole := body.takeWhile (· ≠ '.')
  let fraction := (body.dropWhile (· ≠ '.')).drop 1
  let exponent :=
    match cs.dropWhile (!isE ·) with
    | [] => some 0
    | _ :: e => Text.signed? e
  (Text.digits? 10 (whole ++ fraction)).bind fun mantissa =>
    exponent.map fun e => Binary64.ofDecimal mantissa (e - fraction.length)

/-! ## Giving a type to a constant -/

/-- Why a constant without a type does not fit a basic type. -/
inductive Misfit where
  | kind
  | overflow
  | truncation
deriving DecidableEq, Repr

def Misfit.note : Misfit → String
  | kind => ""
  | overflow => " (overflows)"
  | truncation => " (truncated)"

def intFits (kind : BasicKind) (n : Int) : Except Misfit Unit :=
  match kind.intRange with
  | some (least, greatest) => if n < least ∨ greatest < n then .error .overflow else .ok ()
  | none => .ok ()

/-- The bound on floating point numbers that can be read as integers. -/
def wholeBound : Binary64 := .ofDecimal 1 38

/-- Whether a constant without a type fits a basic type. -/
def fits (value : ConstValue) (kind : BasicKind) : Except Misfit Unit :=
  match value with
  | bool _ => if kind.isBool then .ok () else .error .kind
  | string _ => if kind.isString then .ok () else .error .kind
  | int n => if kind.isInteger then intFits kind n else if kind.isFloat then .ok () else .error .kind
  | float x =>
    if kind.isFloat then .ok ()
    else if kind.isInteger then
      match x.toInt? with
      | none => .error .truncation
      | some n => if x.exceeds wholeBound then .error .overflow else intFits kind n
    else .error .kind

/-- The value that a constant takes on with a basic type. -/
def convert (value : ConstValue) (kind : BasicKind) : ConstValue :=
  match value with
  | float x => if kind.isInteger then int (x.saturated intLimit) else float x
  | int n => if kind.isFloat then float (.ofInt n) else int n
  | other => other

end ConstValue

end IdlWorkbench
