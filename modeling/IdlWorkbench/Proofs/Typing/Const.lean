import IdlWorkbench.Typing.Const

/-!
# Integers whose negation fits

Of the integers of 128 bits with a sign the least one is the only one whose negation is not another. Literals are
not negative, and a number that passes for an integer lies far from both ends, so that the least one comes about
only where a number is taken for an integer that was not looked at. -/

namespace IdlWorkbench

namespace Binary64

variable {x : Binary64} {n : Int} {bound limit : Nat}

theorem natAbs_le_of_not_exceeds (h : x.toInt? = some n) (hx : x.exceeds (.finite false (bound * one)) = false) :
    n.natAbs ≤ bound := by
  cases x with
  | infinite negative => cases h
  | finite negative units =>
    have hunits : units / one ≤ bound := Nat.div_le_of_le_mul (by
      rw [Nat.mul_comm]
      exact Nat.le_of_not_lt (of_decide_eq_false hx))
    rw [toInt?] at h
    split at h
    · cases h
      simpa only [apply_ite Int.natAbs, Int.natAbs_neg, Int.natAbs_natCast, ite_self] using hunits
    · cases h

/-- An integer between the limits is what it is saturated to. -/
theorem saturated_of_toInt? (h : x.toInt? = some n) (hn : n.natAbs < limit) : x.saturated limit = n := by
  cases x with
  | infinite negative => cases h
  | finite negative units =>
    rw [toInt?] at h
    split at h
    · cases h
      cases negative <;> simp only [saturated, Bool.false_eq_true, ite_true, ite_false] at hn ⊢ <;> omega
    · cases h

end Binary64

namespace ConstValue

variable {value : ConstValue} {kind : BasicKind} {x : Binary64} {n : Int}

/-- An integer is one of 128 bits with a sign, and so is its negation. -/
def InLimits (value : ConstValue) : Prop := ∀ n, value = int n → -(intLimit : Int) < n ∧ n < intLimit

theorem inLimits_int : (int n).InLimits ↔ -(intLimit : Int) < n ∧ n < intLimit :=
  ⟨fun h => h n rfl, fun h _ hn => int.inj hn ▸ h⟩

theorem InLimits.neg (h : (int n).InLimits) : (int (-n)).InLimits := by
  rw [inLimits_int] at h ⊢
  omega

theorem inLimits_of_lt {i : Nat} (h : i < intLimit) : (int i).InLimits := by
  rw [inLimits_int]
  omega

theorem inLimits_of_literal {cs : List Char} (h : ofIntLiteral? cs = some n) : (int n).InLimits := by
  obtain ⟨i, hi, rfl⟩ := Option.map_eq_some_iff.mp h
  exact inLimits_of_lt (of_decide_eq_true (Option.filter_eq_some_iff.mp hi).2)

/-- The bound that numbers are held against is a whole number itself. -/
theorem wholeBound_eq : wholeBound = .finite false (99999999999999997748809823456034029568 * Binary64.one) := by
  decide +kernel

theorem natAbs_lt_intLimit (h : x.toInt? = some n) (hx : x.exceeds wholeBound = false) : n.natAbs < intLimit := by
  rw [wholeBound_eq] at hx
  exact Nat.lt_of_le_of_lt (Binary64.natAbs_le_of_not_exceeds h hx) (by decide)

/-- A number that fits an integer type is not changed by becoming one. -/
theorem convert_float_of_fits (hint : kind.isInteger = true) (h : (float x).fits kind = .ok ()) :
    ∃ n, x.toInt? = some n ∧ n.natAbs < intLimit ∧ (float x).convert kind = int n ∧ intFits kind n = .ok () := by
  have hnot : kind.isFloat = false := by cases kind <;> first | rfl | cases hint
  simp only [fits, hnot, hint, Bool.false_eq_true, ite_false, ite_true] at h
  split at h
  · cases h
  · rename_i n hn
    split at h
    · cases h
    · rename_i hwhole
      have hlt := natAbs_lt_intLimit hn (Bool.eq_false_iff.mpr hwhole)
      refine ⟨n, hn, hlt, ?_, h⟩
      rw [convert, if_pos hint, Binary64.saturated_of_toInt? hn hlt]

/-- A value stays in the limits if no number is asked to be an integer. -/
theorem InLimits.convert (hvalue : value.InLimits) (hkeeps : ∀ x, value = float x → kind.isInteger = false) :
    (value.convert kind).InLimits := by
  cases value with
  | bool b => exact nofun
  | string s => exact nofun
  | int n =>
    rw [ConstValue.convert]
    split
    · exact nofun
    · exact hvalue
  | float x =>
    rw [ConstValue.convert, hkeeps x rfl]
    exact nofun

/-- A value that fits a type stays in the limits where it takes on the type. -/
theorem InLimits.convert_of_fits (hvalue : value.InLimits) (h : value.fits kind = .ok ()) :
    (value.convert kind).InLimits := by
  by_cases hwhole : ∃ x, value = float x ∧ kind.isInteger = true
  · obtain ⟨x, rfl, hint⟩ := hwhole
    obtain ⟨n, -, hlt, hn, -⟩ := convert_float_of_fits hint h
    rw [hn, inLimits_int]
    omega
  · exact hvalue.convert fun x hx => Bool.eq_false_iff.mpr fun hint => hwhole ⟨x, hx, hint⟩

end ConstValue

end IdlWorkbench
