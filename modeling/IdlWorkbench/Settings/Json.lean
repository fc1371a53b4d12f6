/-!
# Values sent by an editor

What arrives over the wire, before it is given a meaning. Of a number that is not written as an integer
nothing is kept.
-/

namespace IdlWorkbench

inductive JsonValue where
  | null
  | bool (b : Bool)
  | int (n : Int)
  | real
  | string (s : String)
  | array (values : List JsonValue)
  | object (members : List (String × JsonValue))
deriving Inhabited

namespace JsonValue

def bool? : JsonValue → Option Bool
  | bool b => some b
  | _ => none

def string? : JsonValue → Option String
  | string s => some s
  | _ => none

def uint32? : JsonValue → Option Nat
  | int n => if 0 ≤ n ∧ n < Int.pow 2 32 then some n.toNat else none
  | _ => none

def strings? : JsonValue → Option (List String)
  | array values => values.mapM string?
  | _ => none

/-- The fields of a record, which is written as an object, or as an array of its fields in order. A field
that is left out is `none`; members with other names are passed over. -/
def fields? (names : List String) : JsonValue → Option (List (Option JsonValue))
  | object members => some (names.map fun name => (members.find? (·.1 = name)).map (·.2))
  | array values =>
    if values.length ≤ names.length then
      some (values.map some ++ List.replicate (names.length - values.length) none)
    else none
  | _ => none

/-- Read a field, or take `default` for one that is left out. -/
def orDefault {α : Type} (read : JsonValue → Option α) (default : α) : Option JsonValue → Option α
  | none => some default
  | some v => read v

end JsonValue

end IdlWorkbench
