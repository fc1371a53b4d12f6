/-!
# Integers in texts

A signed decimal is one or more digits with `+` or `-` before them or no sign at all. It is read only if
it lies within bounds.
-/

namespace IdlWorkbench.Text

def digit? (base : Nat) (c : Char) : Option Nat :=
  let value :=
    if c.isDigit then some (c.toNat - '0'.toNat)
    else if 'a' ≤ c && c ≤ 'f' then some (c.toNat - 'a'.toNat + 10)
    else if 'A' ≤ c && c ≤ 'F' then some (c.toNat - 'A'.toNat + 10)
    else none
  value.filter (· < base)

/-- Value of digits behind others that are worth `acc`. -/
def digitsFrom (base : Nat) : (acc : Nat) → List Char → Option Nat
  | acc, [] => some acc
  | acc, c :: cs => (digit? base c).bind fun d => digitsFrom base (acc * base + d) cs

def digits? (base : Nat) (cs : List Char) : Option Nat := if cs.isEmpty then none else digitsFrom base 0 cs

def signed? : List Char → Option Int
  | '-' :: cs => (digits? 10 cs).map fun n => -(n : Int)
  | '+' :: cs => (digits? 10 cs).map Int.ofNat
  | cs => (digits? 10 cs).map Int.ofNat

def int64? (s : String) : Option Int := (signed? s.toList).filter fun n => -Int.pow 2 63 ≤ n && n < Int.pow 2 63

end IdlWorkbench.Text
