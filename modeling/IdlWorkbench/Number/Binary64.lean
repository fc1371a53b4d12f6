/-!
# Binary floating point numbers of 64 bits

A finite number is a sign and a multiple of the least positive number, `2 ^ -1074`. Such a multiple is a
number of the format when it has at most 53 significant bits and lies below `2 ^ 1024`. There is no
"not a number" here: nothing that computes with constants makes one.

`ofRatio` rounds to the nearest number, a tie to the one with an even last bit, and what is too large to
infinity.
-/

namespace IdlWorkbench

inductive Binary64 where
  | finite (negative : Bool) (units : Nat)
  | infinite (negative : Bool)
deriving DecidableEq, Repr, Inhabited

namespace Binary64

def one : Nat := Nat.pow 2 1074

def limit : Nat := Nat.pow 2 2098

/-- The distance between neighbouring numbers from the greatest power of two below `units` on. -/
def grain (units : Nat) : Nat := if units < Nat.pow 2 53 then 1 else Nat.pow 2 (units.log2 - 52)

/-- The nearest integer to `num / den`, a tie to the even one. -/
def roundHalfEven (num den : Nat) : Nat :=
  let q := num / den
  let r := num % den
  if 2 * r < den then q else if den < 2 * r then q + 1 else q + q % 2

/-- The number nearest to `num / den`. -/
def ofRatio (negative : Bool) (num den : Nat) : Binary64 :=
  let num := num * one
  let step := grain (num / den)
  let units := roundHalfEven num (den * step) * step
  if units < limit then .finite negative units else .infinite negative

def ofInt (n : Int) : Binary64 := ofRatio (n < 0) n.natAbs 1

/-- The number nearest to `mantissa * 10 ^ exponent`. Beyond a few hundred places the answer does not
depend on the digits. -/
def ofDecimal (mantissa : Nat) (exponent : Int) : Binary64 :=
  let places : Int := (Nat.toDigits 10 mantissa).length + exponent
  if mantissa = 0 ∨ places < -330 then .finite false 0
  else if 330 < places then .infinite false
  else ofRatio false (mantissa * Nat.pow 10 exponent.toNat) (Nat.pow 10 (-exponent).toNat)

def neg : Binary64 → Binary64
  | finite negative units => finite (!negative) units
  | infinite negative => infinite (!negative)

/-- Equality of numbers, for which the two zeros are one. -/
def same : Binary64 → Binary64 → Bool
  | finite s a, finite t b => a == b && (s == t || a == 0)
  | infinite s, infinite t => s == t
  | _, _ => false

/-- Whether the absolute value of a number exceeds that of another. -/
def exceeds : Binary64 → Binary64 → Bool
  | finite _ a, finite _ b => b < a
  | infinite _, finite .. => true
  | _, infinite _ => false

def toInt? : Binary64 → Option Int
  | finite negative units =>
    if units % one = 0 then
      let n : Int := (units / one : Nat)
      some (if negative then -n else n)
    else none
  | infinite _ => none

/-- The value of a number less its fraction, brought between `-limit` and `limit - 1`. -/
def saturated (limit : Nat) : Binary64 → Int
  | finite true units => -(min (units / one) limit : Nat)
  | finite false units => (min (units / one) (limit - 1) : Nat)
  | infinite true => -(limit : Nat)
  | infinite false => (limit - 1 : Nat)

end Binary64

end IdlWorkbench
