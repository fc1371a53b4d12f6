import IdlWorkbench.Number.Binary64

/-!
# Decimal texts of floating point numbers

A finite number is written with the fewest significant digits that no other number is nearest to; of two
such texts the nearer one is taken, and of two equally near the greater. There is never an exponent.
-/

namespace IdlWorkbench.Binary64

/-- A decimal `digits * 10 ^ exponent`. -/
structure Decimal where
  digits : Nat
  exponent : Int
deriving DecidableEq, Repr

/-- The number of places before the decimal point of `units`, negative for zeros behind it. -/
def places (units : Nat) : Int := ((Nat.toDigits 10 (units * Nat.pow 10 340 / one)).length : Int) - 340

/-- A decimal of `count` digits to which `units` is the nearest number. The candidates are the two
neighbours of `units` among such decimals; all quantities are in quarter units. -/
def within? (units count : Nat) : Option Decimal :=
  let exponent := places units - count
  let up := Nat.pow 10 (-exponent).toNat
  let step := Nat.pow 10 exponent.toNat * (4 * one)
  let value := 4 * units * up
  let gap := grain units
  let above := 2 * gap * up
  let below := (if units = Nat.pow 2 52 * gap ∧ 1 < gap then gap else 2 * gap) * up
  let even := units / gap % 2 = 0
  let low := value / step
  let down := value % step
  let rise := step - down
  let lowFits := down < below || (even && down = below)
  let highFits := rise < above || (even && rise = above)
  if highFits && (!lowFits || rise ≤ down) then some ⟨low + 1, exponent⟩
  else if lowFits then some ⟨low, exponent⟩
  else none

/-- The shortest decimal; seventeen digits are always enough. -/
def shortest (units : Nat) : Decimal :=
  if units = 0 then ⟨0, 0⟩ else ((List.range' 1 17).findSome? (within? units)).getD ⟨0, 0⟩

/-- A decimal written out in full, without zeros at the end of its fraction. -/
def Decimal.text (d : Decimal) : String :=
  let digits := Nat.toDigits 10 d.digits ++ List.replicate d.exponent.toNat '0'
  let behind := (-d.exponent).toNat
  let padded := List.replicate (behind + 1 - digits.length) '0' ++ digits
  let whole := padded.take (padded.length - behind)
  let fraction := (padded.drop (padded.length - behind)).reverse.dropWhile (· = '0')
  String.ofList (if fraction.isEmpty then whole else whole ++ '.' :: fraction.reverse)

def text : Binary64 → String
  | finite negative units => (if negative then "-" else "") ++ (shortest units).text
  | infinite negative => if negative then "-inf" else "inf"

end IdlWorkbench.Binary64
