import IdlWorkbench.Proofs.Token.Comment
import Mathlib.Data.List.Chain

/-!
# Where a token may stand

What a token's characters are read as hangs on what follows them, but on little of it: an identifier or a
keyword ends where no letter or digit follows, a number where no dot follows either, and everything else ends by
itself. So a token of one text can be written into another, and is read back there.
-/

namespace IdlWorkbench.Token

variable {cs es rest rest' : List Char}

/-! ## Lengths -/

theorem run_append {p : Char → Bool} :
    run p (cs ++ rest) = cs.length ↔ (∀ c ∈ cs, p c = true) ∧ ∀ c ∈ rest.head?, p c = false := by
  induction cs with
  | nil =>
    cases rest with
    | nil => simp [run]
    | cons c rest => by_cases hc : p c = true <;> simp [run, hc]
  | cons c cs ih =>
    by_cases hc : p c = true
    · simpa [run, hc] using ih
    · simp [run, hc]

theorem run_le (p : Char → Bool) (cs : List Char) : run p cs ≤ cs.length := (List.takeWhile_prefix p).length_le

theorem exponent_le (cs : List Char) : exponent cs ≤ cs.length := by
  fun_cases exponent cs with
  | case2 e s cs _ _ digits _ =>
    have := run_le Char.isDigit cs
    simp only [List.length_cons]
    omega
  | case4 e s cs _ _ digits _ =>
    have := run_le Char.isDigit (s :: cs)
    simp only [List.length_cons] at this ⊢
    omega
  | _ => exact Nat.zero_le _

theorem fraction_le (cs : List Char) : fraction cs ≤ cs.length := by
  fun_cases fraction cs with
  | case1 => exact Nat.zero_le _
  | case2 cs digits _ =>
    have := exponent_le (cs.drop digits)
    have := run_le Char.isDigit cs
    simp only [List.length_cons, List.length_drop] at *
    omega
  | case3 => exact exponent_le _

theorem quoted_le (cs : List Char) : (quoted cs).2 ≤ cs.length := by
  fun_induction quoted cs with
  | case1 => exact Nat.le_refl 0
  | case2 => simp
  | case3 => exact Nat.zero_le _
  | case4 => exact Nat.zero_le _
  | case5 => exact Nat.zero_le _
  | case6 =>
    rename_i hq _ _ ih
    rw [hq] at ih
    exact Nat.succ_le_succ (Nat.succ_le_succ ih)
  | case7 =>
    rename_i hq ih
    rw [hq] at ih
    exact Nat.succ_le_succ ih

theorem commentClose?_le {cs : List Char} {n : Nat} (h : commentClose? cs = some n) : n ≤ cs.length := by
  fun_induction commentClose? cs generalizing n with
  | case1 rest =>
    cases h
    simp
  | case2 c cs _ ih =>
    obtain ⟨m, hm, rfl⟩ := Option.map_eq_some_iff.mp h
    simpa using ih hm
  | case3 => cases h

theorem number_le (d : Char) (cs : List Char) : (number d cs).2 ≤ cs.length := by
  unfold number
  extract_lets hex digits more
  have hhex : hex = 0 ∨ hex + 1 ≤ cs.length := by
    simp only [hex]
    split
    · rename_i x rest
      have := run_le isHexDigit rest
      rw [List.length_cons]
      split
      · omega
      · exact Or.inl rfl
    · exact Or.inl rfl
  have := run_le Char.isDigit cs
  have := fraction_le (cs.drop digits)
  simp only [List.length_drop] at this
  split
  · split
    · exact run_le Char.isDigit cs
    · dsimp only
      omega
  · dsimp only
    omega

theorem munch_le (c : Char) (cs : List Char) : (munch c cs).2 ≤ cs.length := by
  fun_cases munch c cs with
  | case1 => exact run_le _ cs
  | case2 => exact run_le _ cs
  | case3 => exact number_le c cs
  | case4 => exact quoted_le cs
  | case5 => assumption
  | case6 => exact run_le _ cs
  | case7 =>
    rename_i rest
    have := run_le (· ≠ '\n') rest
    simp only [List.length_cons]
    omega
  | case8 =>
    rename_i rest n h
    have := commentClose?_le h
    simp only [List.length_cons]
    omega
  | case9 => exact Nat.le_refl _
  | case10 => exact Nat.zero_le _
  | case11 => exact Nat.zero_le _
  | case12 => exact Nat.zero_le _

/-! ## What may follow -/

/-- Whether `c` right behind a token of kind `k` may belong to it too. -/
def runsOn (k : TokenKind) (c : Char) : Bool :=
  match k with
  | .int | .float => isIdentRest c || c = '.'
  | .ident | .packageKw | .importKw | .typeKw | .constKw | .structKw | .interfaceKw | .mapKw | .chanKw | .funcKw =>
    isIdentRest c
  | _ => false

theorem runsOn_keyword (cs : List Char) (c : Char) : runsOn ((keyword? cs).getD .ident) c = isIdentRest c := by
  fun_cases keyword? cs <;> rfl

/-- What stands behind a token of kind `k` does not belong to it. -/
def Ends (k : TokenKind) (rest : List Char) : Prop := ∀ c ∈ rest.head?, runsOn k c = false

theorem isIdentRest_of_isDigit {c : Char} (h : c.isDigit = true) : isIdentRest c = true := by
  simp [isIdentRest, Char.isAlphanum, h]

theorem isIdentRest_of_isHexDigit {c : Char} (h : isHexDigit c = true) : isIdentRest c = true := by
  have hletter : c.isAlpha = true → isIdentRest c = true := fun halpha => by
    simp [isIdentRest, Char.isAlphanum, halpha]
  simp only [isHexDigit, Bool.or_eq_true, Bool.and_eq_true, decide_eq_true_eq] at h
  rcases h with (h | ⟨hlo, hhi⟩) | ⟨hlo, hhi⟩
  · exact isIdentRest_of_isDigit h
  · have hlower : c.isLower = true :=
      Bool.and_eq_true_iff.mpr ⟨decide_eq_true hlo, decide_eq_true (Char.le_trans hhi (by decide : 'f' ≤ 'z'))⟩
    exact hletter (Bool.or_eq_true_iff.mpr (Or.inr hlower))
  · have hupper : c.isUpper = true :=
      decide_eq_true ⟨hlo, Char.le_trans hhi (by decide : 'F' ≤ 'Z')⟩
    exact hletter (Bool.or_eq_true_iff.mpr (Or.inl hupper))

/-- A run that ends where it should still does if something else follows that does not go on with it. -/
theorem run_replace {p : Char → Bool} (h : run p (cs ++ rest) = cs.length) (hr : ∀ c ∈ rest'.head?, p c = false) :
    run p (cs ++ rest') = cs.length :=
  run_append.mpr ⟨(run_append.mp h).1, hr⟩

/-- A run that ends before the stretch does stays what it is. -/
theorem run_inside {p : Char → Bool} (h : run p (cs ++ rest) < cs.length) :
    run p (cs ++ rest') = run p (cs ++ rest) := by
  induction cs with
  | nil => simp at h
  | cons c cs ih =>
    by_cases hc : p c = true
    · have hlt : run p (cs ++ rest) < cs.length := by simpa [run, hc] using h
      simpa [run, hc] using ih hlt
    · simp [run, hc]

theorem run_replace_le {p : Char → Bool} (h : run p (cs ++ rest) ≤ cs.length) (hr : ∀ c ∈ rest'.head?, p c = false) :
    run p (cs ++ rest') = run p (cs ++ rest) := by
  rcases Nat.lt_or_eq_of_le h with h | h
  · exact run_inside h
  · rw [h, run_replace h hr]

theorem exponent_eq_zero (hr : ∀ c ∈ rest.head?, isIdentRest c = false) : exponent rest = 0 := by
  cases rest with
  | nil => rfl
  | cons c rest =>
    have hc : isIdentRest c = false := hr c rfl
    have he : (c = 'e' || c = 'E') = false := by
      rw [Bool.eq_false_iff]
      intro he
      rcases Bool.or_eq_true_iff.mp he with he | he <;> rw [of_decide_eq_true he] at hc <;>
        exact absurd hc (by decide)
    cases rest with
    | nil => rfl
    | cons d rest => simp only [exponent, he, Bool.false_eq_true, if_false]

theorem exponent_replace (h : exponent (es ++ rest) = es.length) (hr : ∀ c ∈ rest'.head?, isIdentRest c = false) :
    exponent (es ++ rest') = es.length := by
  have hdigits : ∀ c ∈ rest'.head?, c.isDigit = false := fun c hc => by
    rw [Bool.eq_false_iff]
    exact fun hd => absurd (isIdentRest_of_isDigit hd) (by simp [hr c hc])
  match es with
  | [] => exact exponent_eq_zero hr
  | [e] =>
    -- an exponent has two characters at least
    exfalso
    cases rest with
    | nil => simp [exponent] at h
    | cons s rest =>
      simp only [List.singleton_append, exponent, List.length_singleton] at h
      split at h
      · split at h <;> split at h <;> omega
      · omega
  | e :: s :: fs =>
    simp only [List.cons_append, exponent, List.length_cons] at h ⊢
    split at h
    · rename_i he
      rw [if_pos he]
      split at h
      · rename_i hs
        rw [if_pos hs]
        have hrun : run Char.isDigit (fs ++ rest) = fs.length := by
          split at h <;> omega
        rw [run_replace hrun hdigits]
        split at h
        · omega
        · rename_i hne
          rw [if_neg (hrun ▸ hne)]
      · rename_i hs
        rw [if_neg hs]
        have hrun : run Char.isDigit (s :: fs ++ rest) = (s :: fs).length := by
          rw [List.length_cons, List.cons_append]
          split at h <;> omega
        have hrun' := run_replace hrun hdigits
        rw [List.cons_append, List.length_cons] at hrun'
        rw [hrun', if_neg (by omega)]
    · omega

theorem fraction_eq (h : ∀ c ∈ rest.head?, c ≠ '.') : fraction rest = exponent rest := by
  unfold fraction
  split
  · exact absurd rfl (h '.' rfl)
  · rfl

theorem fraction_replace (h : fraction (es ++ rest) = es.length)
    (hr : ∀ c ∈ rest'.head?, isIdentRest c = false ∧ c ≠ '.') : fraction (es ++ rest') = es.length := by
  have hdigits : ∀ c ∈ rest'.head?, c.isDigit = false := fun c hc => by
    rw [Bool.eq_false_iff]
    exact fun hd => absurd (isIdentRest_of_isDigit hd) (by simp [(hr c hc).1])
  have hident : ∀ c ∈ rest'.head?, isIdentRest c = false := fun c hc => (hr c hc).1
  match es with
  | [] =>
    rw [List.nil_append, fraction_eq fun c hc => (hr c hc).2]
    exact exponent_eq_zero hident
  | e :: fs =>
    by_cases he : e = '.'
    · subst he
      simp only [List.cons_append, fraction, List.length_cons] at h ⊢
      split at h
      · omega
      · rename_i hne
        have hle : run Char.isDigit (fs ++ rest) ≤ fs.length := by omega
        have hrun := run_replace_le hle hdigits
        rw [List.drop_append_of_le_length hle] at h
        rw [hrun, if_neg hne, List.drop_append_of_le_length hle]
        have hexp : exponent (fs.drop (run Char.isDigit (fs ++ rest)) ++ rest) =
            (fs.drop (run Char.isDigit (fs ++ rest))).length := by
          rw [List.length_drop]
          omega
        rw [exponent_replace hexp hident, List.length_drop]
        omega
    · have heq (more : List Char) : fraction (e :: fs ++ more) = exponent (e :: fs ++ more) :=
        fraction_eq fun c hc => by
          rw [List.cons_append, List.head?_cons, Option.mem_some_iff] at hc
          exact hc ▸ he
      rw [heq] at h ⊢
      exact exponent_replace h hident

/-- Hexadecimal digits behind the mark `x`, if the digit before it is a zero. -/
def hexDigits (d : Char) : List Char → Nat
  | x :: rest => if d = '0' && (x = 'x' || x = 'X') then run isHexDigit rest else 0
  | [] => 0

def decimal (cs : List Char) : TokenKind × Nat :=
  let digits := run Char.isDigit cs
  let more := fraction (cs.drop digits)
  if more = 0 then (.int, digits) else (.float, digits + more)

theorem number_eq (d : Char) (cs : List Char) :
    number d cs = if hexDigits d cs = 0 then decimal cs else (.int, hexDigits d cs + 1) := by
  cases cs <;> rfl

theorem hexDigits_replace {d : Char} (h : cs = [] → hexDigits d rest = 0)
    (hle : hexDigits d (cs ++ rest) ≠ 0 → hexDigits d (cs ++ rest) + 1 = cs.length)
    (hr : ∀ c ∈ rest'.head?, isIdentRest c = false) : hexDigits d (cs ++ rest') = hexDigits d (cs ++ rest) := by
  match cs with
  | [] =>
    rw [List.nil_append, List.nil_append, h rfl]
    cases rest' with
    | nil => rfl
    | cons x rest' =>
      have hx : (x = 'x' || x = 'X') = false := by
        rw [Bool.eq_false_iff]
        intro hx
        have := hr x rfl
        rcases Bool.or_eq_true_iff.mp hx with hx | hx <;> rw [of_decide_eq_true hx] at this <;>
          exact absurd this (by decide)
      simp only [hexDigits, hx, Bool.and_false, Bool.false_eq_true, if_false]
  | x :: hs =>
    simp only [List.cons_append, hexDigits, List.length_cons] at hle ⊢
    split
    · rename_i hmark
      rw [if_pos hmark] at hle
      refine run_replace_le ?_ fun c hc => ?_
      · by_cases hzero : run isHexDigit (hs ++ rest) = 0
        · omega
        · have := hle hzero
          omega
      · rw [Bool.eq_false_iff]
        exact fun hd => absurd (isIdentRest_of_isHexDigit hd) (by simp [hr c hc])
    · rfl

theorem decimal_replace {k : TokenKind} (h : decimal (cs ++ rest) = (k, cs.length))
    (hr : ∀ c ∈ rest'.head?, isIdentRest c = false ∧ c ≠ '.') : decimal (cs ++ rest') = (k, cs.length) := by
  have hdigits : ∀ c ∈ rest'.head?, c.isDigit = false := fun c hc => by
    rw [Bool.eq_false_iff]
    exact fun hd => absurd (isIdentRest_of_isDigit hd) (by simp [(hr c hc).1])
  have hlength : run Char.isDigit (cs ++ rest) +
    fraction ((cs ++ rest).drop (run Char.isDigit (cs ++ rest))) = cs.length := by
    have := congrArg Prod.snd h
    simp only [decimal] at this
    split at this <;> dsimp only at this <;> omega
  have hle : run Char.isDigit (cs ++ rest) ≤ cs.length := by omega
  have hrun := run_replace_le hle hdigits
  have hfraction : fraction (cs.drop (run Char.isDigit (cs ++ rest)) ++ rest) =
      (cs.drop (run Char.isDigit (cs ++ rest))).length := by
    rw [List.drop_append_of_le_length hle] at hlength
    rw [List.length_drop]
    omega
  rw [← h]
  simp only [decimal, hrun, List.drop_append_of_le_length hle, hfraction, fraction_replace hfraction hr]

theorem number_replace {d : Char} {k : TokenKind} (h : number d (cs ++ rest) = (k, cs.length))
    (hr : ∀ c ∈ rest'.head?, isIdentRest c = false ∧ c ≠ '.') : number d (cs ++ rest') = (k, cs.length) := by
  have hhex : hexDigits d (cs ++ rest') = hexDigits d (cs ++ rest) := by
    rw [number_eq] at h
    refine hexDigits_replace (fun hnil => ?_) (fun hne => ?_) fun c hc => (hr c hc).1
    · by_contra hne
      subst hnil
      rw [List.nil_append, if_neg hne] at h
      exact absurd (congrArg Prod.snd h) (Nat.succ_ne_zero _)
    · rw [if_neg hne] at h
      exact congrArg Prod.snd h
  rw [number_eq] at h ⊢
  rw [hhex]
  split at h
  · rw [if_pos ‹_›]
    exact decimal_replace h hr
  · rw [if_neg ‹_›]
    exact h

/-- The closing quote belongs to a string. -/
theorem quoted_pos {n : Nat} (h : quoted cs = (.string, n)) : 0 < n := by
  rw [quoted.eq_def] at h
  split at h
  · cases h
  · split at h
    · cases h
      exact Nat.one_pos
    · split at h
      · cases h
      · split at h
        · split at h
          · cases h
          · split at h
            · cases h
            · exact (Prod.mk.inj h).2 ▸ Nat.succ_pos _
        · exact (Prod.mk.inj h).2 ▸ Nat.succ_pos _

theorem quoted_kind (cs : List Char) : (quoted cs).1 = .string ∨ (quoted cs).1 = .error := by
  fun_induction quoted cs with
  | case1 => exact Or.inr rfl
  | case2 => exact Or.inl rfl
  | case3 => exact Or.inr rfl
  | case4 => exact Or.inr rfl
  | case5 => exact Or.inr rfl
  | case6 =>
    rename_i hq _ _ ih
    rwa [hq] at ih
  | case7 =>
    rename_i hq ih
    rwa [hq] at ih

theorem quoted_replace (h : quoted (cs ++ rest) = (.string, cs.length)) :
    quoted (cs ++ rest') = (.string, cs.length) := by
  -- an escape takes two characters, so the induction is on the length
  induction hn : cs.length using Nat.strong_induction_on generalizing cs with
  | _ n ih =>
  subst hn
  cases cs with
  | nil => exact absurd (quoted_pos h) (Nat.lt_irrefl 0)
  | cons c cs =>
    rw [List.cons_append, quoted.eq_def] at h ⊢
    dsimp only at h ⊢
    by_cases hquote : c = '"'
    · rw [if_pos hquote] at h ⊢
      exact h
    rw [if_neg hquote] at h ⊢
    by_cases hbreak : c = '\n'
    · rw [if_pos hbreak] at h
      cases h
    rw [if_neg hbreak] at h ⊢
    by_cases hescape : c = '\\'
    · rw [if_pos hescape] at h ⊢
      cases cs with
      | nil =>
        exfalso
        cases rest with
        | nil => cases h
        | cons d rest =>
          rw [List.nil_append] at h
          dsimp only at h
          split at h
          · cases h
          · exact absurd (congrArg Prod.snd h) (by simp)
      | cons d cs =>
        rw [List.cons_append] at h ⊢
        dsimp only at h ⊢
        by_cases hd : d = '\n'
        · rw [if_pos hd] at h
          cases h
        rw [if_neg hd] at h ⊢
        obtain ⟨hkind, hlength⟩ := Prod.mk.inj h
        have hrest : quoted (cs ++ rest) = (.string, cs.length) := by
          rw [List.length_cons, List.length_cons] at hlength
          exact Prod.ext hkind (by simpa using hlength)
        rw [ih cs.length (by rw [List.length_cons, List.length_cons]; omega) hrest rfl]
        rfl
    · rw [if_neg hescape] at h ⊢
      obtain ⟨hkind, hlength⟩ := Prod.mk.inj h
      have hrest : quoted (cs ++ rest) = (.string, cs.length) := by
        rw [List.length_cons] at hlength
        exact Prod.ext hkind (by simpa using hlength)
      rw [ih cs.length (by simp) hrest rfl]
      rfl

/-! ## Tokens by themselves -/

/-- Characters that are read as a token of kind `k` wherever it can end behind them. -/
def Stands (k : TokenKind) (lexeme : List Char) : Prop :=
  ∃ c cs, lexeme = c :: cs ∧ ∀ rest, Ends k rest → munch c (cs ++ rest) = (k, cs.length)

theorem stands_of_munch {c : Char} {k : TokenKind} (h : munch c (cs ++ rest) = (k, cs.length))
    (htrivia : k.isTrivia = false)
    (herror : k ≠ .error) : Stands k (c :: cs) := by
  refine ⟨c, cs, rfl, fun rest' hends => ?_⟩
  have hkind {a : TokenKind × Nat} (ha : a.1.isTrivia = true ∨ a.1 = .error) (h : a = (k, cs.length)) : False := by
    rw [h] at ha
    rcases ha with ha | ha
    · exact absurd ha (by simp [htrivia])
    · exact herror ha
  unfold munch at h ⊢
  by_cases hblank : isBlank c = true
  · rw [if_pos hblank] at h
    exact (hkind (Or.inl rfl) h).elim
  rw [if_neg hblank] at h ⊢
  by_cases hident : isIdentStart c = true
  · rw [if_pos hident] at h ⊢
    obtain ⟨hword, hlength⟩ := Prod.mk.inj h
    dsimp only at hword hlength ⊢
    have hends : ∀ d ∈ rest'.head?, isIdentRest d = false := fun d hd => by
      rw [← runsOn_keyword (c :: (cs ++ rest).take (run isIdentRest (cs ++ rest))), hword]
      exact hends d hd
    rw [run_replace hlength hends, List.take_left]
    rw [hlength, List.take_left] at hword
    rw [hword]
  rw [if_neg hident] at h ⊢
  by_cases hdigit : c.isDigit = true
  · rw [if_pos hdigit] at h ⊢
    refine number_replace h fun d hd => ?_
    have hnumber : k = .int ∨ k = .float := by
      have := congrArg Prod.fst h
      rw [number_eq, decimal] at this
      split at this
      · split at this
        · exact Or.inl this.symm
        · exact Or.inr this.symm
      · exact Or.inl this.symm
    have hrun : runsOn k d = (isIdentRest d || d = '.') := by rcases hnumber with rfl | rfl <;> rfl
    have := hends d hd
    rw [hrun, Bool.or_eq_false_iff] at this
    exact ⟨this.1, of_decide_eq_false this.2⟩
  rw [if_neg hdigit] at h ⊢
  by_cases hquote : c = '"'
  · rw [if_pos hquote] at h ⊢
    obtain rfl : k = .string := by
      rcases quoted_kind (cs ++ rest) with hk | hk
      · rwa [h] at hk
      · exact (hkind (Or.inr hk) h).elim
    exact quoted_replace h
  rw [if_neg hquote] at h ⊢
  by_cases hraw : c = '`'
  · rw [if_pos hraw] at h ⊢
    dsimp only at h ⊢
    split at h
    · rename_i hlt
      obtain ⟨rfl, hlength⟩ := Prod.mk.inj h
      have hrun : run (· ≠ '`') (cs ++ rest') = run (· ≠ '`') (cs ++ rest) := run_inside (by omega)
      rw [hrun, if_pos (by rw [List.length_append]; omega), hlength]
    · exact (hkind (Or.inr rfl) h).elim
  rw [if_neg hraw] at h ⊢
  by_cases hslash : c = '/'
  · rw [if_pos hslash] at h
    refine (hkind ?_ h).elim
    split
    · exact Or.inl rfl
    · split
      · exact Or.inl rfl
      · exact Or.inr rfl
    · exact Or.inr rfl
  rw [if_neg hslash] at h ⊢
  split at h
  · exact h
  · exact (hkind (Or.inr rfl) h).elim

theorem stands_of_scan : ∀ (cs : List Char) (offset skip : Nat), ∀ t ∈ scan offset skip cs,
    t.isTrivia = false → t.kind ≠ .error → Stands t.kind t.text.toList
  | [], _, _, t, ht, _, _ => by simp [scan] at ht
  | _ :: cs, offset, skip + 1, t, ht, htrivia, herror => by
    rw [scan] at ht
    exact stands_of_scan cs offset skip t ht htrivia herror
  | c :: cs, offset, 0, t, ht, htrivia, herror => by
    rcases hm : munch c cs with ⟨kind, n⟩
    simp only [scan, hm] at ht
    rcases List.mem_cons.mp ht with rfl | ht
    · rw [String.toList_ofList]
      have hle : n ≤ cs.length := by
        have := munch_le c cs
        rwa [hm] at this
      refine stands_of_munch (?_ : munch c (cs.take n ++ cs.drop n) = _) htrivia herror
      rw [List.take_append_drop, hm, List.length_take, Nat.min_eq_left hle]
    · exact stands_of_scan cs _ _ t ht htrivia herror

/-- A token of a text can be written into another one. -/
theorem stands_of_mem {text : String} {t : Token} (ht : t ∈ tokenize text) (htrivia : t.isTrivia = false)
    (herror : t.kind ≠ .error) : Stands t.kind t.text.toList :=
  stands_of_scan _ _ _ t ht htrivia herror

theorem munch_blank {c : Char} (h : isBlank c = true) (cs : List Char) :
    munch c cs = (.whitespace, run isBlank cs) := by
  unfold munch
  rw [if_pos h]

theorem stands_punctuation {c : Char} {k : TokenKind} (h : punctuation? c = some k) : Stands k [c] := by
  refine ⟨c, [], rfl, fun rest _ => ?_⟩
  unfold punctuation? at h
  split at h <;> cases h <;> rfl

theorem Stands.head {k : TokenKind} {lexeme : List Char} (h : Stands k lexeme) (hk : k ≠ .whitespace) :
    ∃ c cs, lexeme = c :: cs ∧ isBlank c = false := by
  obtain ⟨c, cs, rfl, hmunch⟩ := h
  refine ⟨c, cs, rfl, ?_⟩
  rw [Bool.eq_false_iff]
  intro hblank
  have := hmunch [] (by intro c hc; cases hc)
  rw [munch_blank hblank] at this
  exact hk (congrArg Prod.fst this).symm

/-! ## Scanning what stands -/

theorem scan_skip (offset : Nat) : ∀ cs rest : List Char, scan offset cs.length (cs ++ rest) = scan offset 0 rest
  | [], _ => rfl
  | _ :: cs, rest => by rw [List.length_cons, List.cons_append, scan, scan_skip offset cs rest]

theorem scan_munch {c : Char} {k : TokenKind} (offset : Nat) (h : munch c (cs ++ rest) = (k, cs.length)) :
    scan offset 0 (c :: cs ++ rest) =
      ⟨k, String.ofList (c :: cs), offset⟩ :: scan (offset + Text.bytes (c :: cs)) 0 rest := by
  rw [List.cons_append, scan, h]
  dsimp only
  rw [List.take_left, scan_skip]

theorem scan_stands {k : TokenKind} {lexeme : List Char} (h : Stands k lexeme) (hends : Ends k rest) (offset : Nat) :
    scan offset 0 (lexeme ++ rest) = ⟨k, String.ofList lexeme, offset⟩ ::
      scan (offset + Text.bytes lexeme) 0 rest := by
  obtain ⟨c, cs, rfl, hmunch⟩ := h
  exact scan_munch offset (hmunch rest hends)

theorem scan_blanks {c : Char} (hblank : ∀ d ∈ c :: cs, isBlank d = true)
    (hrest : ∀ d ∈ rest.head?, isBlank d = false)
    (offset : Nat) : scan offset 0 (c :: cs ++ rest) =
      ⟨.whitespace, String.ofList (c :: cs), offset⟩ :: scan (offset + Text.bytes (c :: cs)) 0 rest := by
  refine scan_munch offset ?_
  rw [munch_blank (hblank c List.mem_cons_self)]
  exact congrArg (Prod.mk _) (run_append.mpr ⟨fun d hd => hblank d (List.mem_cons_of_mem _ hd), hrest⟩)

/-! ## Stretches of a text -/

def Follows (rest : List Char) : Prop := ∀ c ∈ rest.head?, isIdentRest c = false ∧ c ≠ '.'

def Visible (rest : List Char) : Prop := ∀ c ∈ rest.head?, isBlank c = false

theorem Follows.ends (h : Follows rest) (k : TokenKind) : Ends k rest := by
  intro c hc
  obtain ⟨hident, hdot⟩ := h c hc
  cases k <;> simp [runsOn, hident, hdot]

/-- In front of what `follow` allows, the characters `w` are cut into tokens by themselves, into such as `Q` says. -/
def Cuts (follow : List Char → Prop) (Q : List Token → Prop) (w : List Char) : Prop :=
  ∀ rest, follow rest → ∀ offset, ∃ ts stop, scan offset 0 (w ++ rest) = ts ++ scan stop 0 rest ∧ Q ts

section
variable {follow follow' : List Char → Prop} {Q Q' : List Token → Prop} {w w' : List Char}

theorem Cuts.mono (h : Cuts follow Q w) (hf : ∀ rest, follow' rest → follow rest) (hQ : ∀ ts, Q ts → Q' ts) :
    Cuts follow' Q' w := by
  intro rest hrest offset
  obtain ⟨ts, stop, hscan, hts⟩ := h rest (hf rest hrest) offset
  exact ⟨ts, stop, hscan, hQ ts hts⟩

theorem Cuts.append (h : Cuts follow Q w) (h' : Cuts follow' Q' w') (hf : ∀ rest, follow' rest →
      follow (w' ++ rest)) :
    Cuts follow' (fun ts => ∃ us vs, ts = us ++ vs ∧ Q us ∧ Q' vs) (w ++ w') := by
  intro rest hrest offset
  obtain ⟨us, stop, hscan, hus⟩ := h (w' ++ rest) (hf rest hrest) offset
  obtain ⟨vs, stop', hscan', hvs⟩ := h' rest hrest stop
  exact ⟨us ++ vs, stop', by rw [List.append_assoc, hscan, hscan', List.append_assoc], us, vs, rfl, hus, hvs⟩

/-- The tokens are made of the characters that are cut. -/
theorem Cuts.chars (h : Cuts follow Q w) : Cuts follow (fun ts => Q ts ∧ ts.flatMap (·.text.toList) = w) w := by
  intro rest hrest offset
  obtain ⟨ts, stop, hscan, hts⟩ := h rest hrest offset
  refine ⟨ts, stop, hscan, hts, ?_⟩
  have hchars := congrArg (List.flatMap fun t => t.text.toList) hscan
  rw [List.flatMap_append, scan_chars, scan_chars] at hchars
  exact (List.append_cancel_right hchars).symm

theorem cuts_nil : Cuts (fun _ => True) (fun ts => ts = []) [] := fun _ _ offset => ⟨[], offset, rfl, rfl⟩

theorem cuts_token {k : TokenKind} (h : Stands k w) :
    Cuts (Ends k) (fun ts => ∃ offset, ts = [⟨k, String.ofList w, offset⟩]) w := fun _ hrest offset =>
  ⟨_, _, scan_stands h hrest offset, offset, rfl⟩

theorem cuts_blanks (h : ∀ c ∈ w, isBlank c = true) : Cuts Visible (fun ts => significant ts = []) w := by
  intro rest hrest offset
  cases w with
  | nil => exact ⟨[], offset, rfl, rfl⟩
  | cons c cs => exact ⟨[_], _, scan_blanks h hrest offset, rfl⟩

/-- All of a text is cut. -/
theorem Cuts.tokenize {text : String} (h : Cuts follow Q text.toList) (hf : follow []) : Q (tokenize text) := by
  obtain ⟨ts, stop, hscan, hts⟩ := h [] hf 0
  rw [List.append_nil] at hscan
  rwa [Token.tokenize, hscan, scan, List.append_nil]

end

/-- A character that is a token of its own, whatever follows. -/
theorem cuts_punctuation {c : Char} {k : TokenKind} (h : punctuation? c = some k) :
    Cuts (fun _ => True) (fun ts => ∃ offset, ts = [⟨k, String.ofList [c], offset⟩]) [c] := by
  refine (cuts_token (stands_punctuation h)).mono (fun rest _ d _ => ?_) fun _ hts => hts
  unfold punctuation? at h
  split at h <;> cases h <;> rfl

/-- A token that starts with a letter or digit goes on with one. -/
theorem runsOn_munch {c : Char} (h : isIdentRest c = true) (cs : List Char) : runsOn (munch c cs).1 c = true := by
  have hblank : isBlank c = false := by
    rw [Bool.eq_false_iff]
    intro hb
    simp only [isBlank, Bool.or_eq_true, decide_eq_true_eq] at hb
    rcases hb with ((rfl | rfl) | rfl) | rfl <;> exact absurd h (by decide)
  unfold munch
  rw [if_neg (by simp [hblank])]
  by_cases hident : isIdentStart c = true
  · rw [if_pos hident]
    exact (runsOn_keyword _ c).trans h
  have hdigit : c.isDigit = true := by
    simp only [isIdentRest, isIdentStart, Char.isAlphanum, Bool.or_eq_true, decide_eq_true_eq] at h hident
    rcases h with (h | h) | h
    · exact absurd (Or.inl h) hident
    · exact h
    · exact absurd (Or.inr h) hident
  rw [if_neg hident, if_pos hdigit, number_eq, decimal]
  split
  · split <;> simp [runsOn, h]
  · simp [runsOn, h]

/-- A token that no letter goes on starts with none, and with a dot only if it is one. -/
theorem Stands.follows {k : TokenKind} {lexeme : List Char} (h : Stands k lexeme) (hk : ∀ c, runsOn k c = false)
    (hdot : k ≠ .dot) (rest : List Char) : Follows (lexeme ++ rest) := by
  obtain ⟨c, cs, rfl, hmunch⟩ := h
  have hm := congrArg Prod.fst (hmunch [] (by intro d hd; cases hd))
  intro d hd
  obtain rfl : c = d := by simpa using hd
  refine ⟨?_, ?_⟩
  · rw [Bool.eq_false_iff]
    intro hident
    have := runsOn_munch hident (cs ++ [])
    rw [hm, hk] at this
    cases this
  · rintro rfl
    exact hdot hm.symm

theorem Stands.eq_dot {lexeme : List Char} (h : Stands .dot lexeme) : lexeme = ['.'] := by
  obtain ⟨c, cs, rfl, hmunch⟩ := h
  have hm := hmunch [] (by intro d hd; cases hd)
  have hne {a : TokenKind × Nat} (ha : a.1 ≠ .dot) (h : a = (.dot, cs.length)) : False := ha (congrArg Prod.fst h)
  have hrest : isIdentRest c = false := by
    rw [Bool.eq_false_iff]
    intro hident
    have := runsOn_munch hident (cs ++ [])
    rw [hm] at this
    cases this
  have hident : isIdentStart c = false ∧ c.isDigit = false := by
    simp only [isIdentRest, isIdentStart, Char.isAlphanum, Bool.or_eq_false_iff] at hrest ⊢
    exact ⟨⟨hrest.1.1, hrest.2⟩, hrest.1.2⟩
  unfold munch at hm
  by_cases hblank : isBlank c = true
  · rw [if_pos hblank] at hm
    exact (hne (by simp) hm).elim
  rw [if_neg hblank, if_neg (by simp [hident]), if_neg (by simp [hident])] at hm
  by_cases hquote : c = '"'
  · rw [if_pos hquote] at hm
    exact (hne (by rcases quoted_kind (cs ++ []) with hk | hk <;> rw [hk] <;> decide) hm).elim
  rw [if_neg hquote] at hm
  by_cases hraw : c = '`'
  · rw [if_pos hraw] at hm
    refine (hne ?_ hm).elim
    dsimp only
    split <;> simp
  rw [if_neg hraw] at hm
  by_cases hslash : c = '/'
  · rw [if_pos hslash] at hm
    refine (hne ?_ hm).elim
    split
    · simp
    · split <;> simp
    · simp
  rw [if_neg hslash] at hm
  split at hm
  · rename_i kind hkind
    obtain ⟨rfl, hcs⟩ := Prod.mk.inj hm
    obtain rfl := List.eq_nil_of_length_eq_zero hcs.symm
    unfold punctuation? at hkind
    split at hkind <;> cases hkind
    rfl
  · exact (hne (by simp) hm).elim

/-! ## Identifiers -/

/-- An identifier starts with a letter, and nothing else does so in this way. -/
theorem ident_of_munch {c : Char} {n : Nat} (h : munch c cs = (.ident, n)) : isIdentStart c = true ∧
    n = run isIdentRest cs := by
  have hnot {a : TokenKind × Nat} (ha : a.1 ≠ .ident) (h : a = (.ident, n)) : False := ha (congrArg Prod.fst h)
  unfold munch at h
  split at h
  · exact (hnot (by simp) h).elim
  split at h
  · rename_i hstart
    exact ⟨hstart, (congrArg Prod.snd h).symm⟩
  split at h
  · refine (hnot ?_ h).elim
    rw [number_eq, decimal]
    repeat' split
    all_goals simp
  split at h
  · exact (hnot (by rcases quoted_kind cs with hk | hk <;> rw [hk] <;> decide) h).elim
  split at h
  · refine (hnot ?_ h).elim
    dsimp only
    split <;> simp
  split at h
  · refine (hnot ?_ h).elim
    split
    · simp
    · split <;> simp
    · simp
  split at h
  · rename_i kind hkind
    obtain ⟨rfl, -⟩ := Prod.mk.inj h
    unfold punctuation? at hkind
    split at hkind <;> cases hkind
  · exact (hnot (by simp) h).elim

theorem isIdentRest_of_isIdentStart {c : Char} (h : isIdentStart c = true) : isIdentRest c = true := by
  simp only [isIdentRest, isIdentStart, Char.isAlphanum, Bool.or_eq_true] at h ⊢
  exact h.imp_left Or.inl

/-- No identifier follows another at once: the first would have taken it in. -/
theorem scan_isChain : ∀ (cs : List Char) (offset skip : Nat),
    (scan offset skip cs).IsChain fun t u => t.kind = .ident → u.kind ≠ .ident
  | [], _, _ => by simp [scan]
  | _ :: cs, offset, skip + 1 => by
    rw [scan]
    exact scan_isChain cs offset skip
  | c :: cs, offset, 0 => by
    rcases hm : munch c cs with ⟨kind, n⟩
    simp only [scan, hm]
    refine List.isChain_cons.mpr ⟨fun u hu hk => ?_, scan_isChain cs _ n⟩
    obtain rfl : kind = .ident := hk
    obtain ⟨-, rfl⟩ := ident_of_munch hm
    have hskip (stop : Nat) : scan stop (run isIdentRest cs) cs = scan stop 0 (cs.dropWhile isIdentRest) :=
      (congrArg (scan stop _) List.takeWhile_append_dropWhile.symm).trans
        (scan_skip stop (cs.takeWhile isIdentRest) _)
    rw [hskip] at hu
    cases hrest : cs.dropWhile isIdentRest with
    | nil => simp [hrest, scan] at hu
    | cons d ds =>
      rcases hm' : munch d ds with ⟨kind', n'⟩
      obtain rfl : u = _ := by simpa [hrest, scan, hm', eq_comm] using hu
      intro hk'
      obtain rfl : kind' = .ident := hk'
      have hd := List.head?_dropWhile_not isIdentRest cs
      rw [hrest] at hd
      exact absurd (isIdentRest_of_isIdentStart (ident_of_munch hm').1) (by simpa using hd)

theorem isChain_tokenize (text : String) : (tokenize text).IsChain fun t u => t.kind = .ident → u.kind ≠ .ident :=
  scan_isChain text.toList 0 0

/-! ## Line breaks -/

theorem of_mem_run {p : Char → Bool} {c : Char} (h : c ∈ cs.take (run p cs)) : p c = true := by
  rw [run, ← List.prefix_iff_eq_take.mp (List.takeWhile_prefix _)] at h
  exact List.mem_takeWhile_imp h

theorem exponent_unbroken (cs : List Char) : '\n' ∉ cs.take (exponent cs) := by
  have hdigits (ds : List Char) : '\n' ∉ ds.take (run Char.isDigit ds) := fun h => absurd (of_mem_run h) (by decide)
  have hlead {e : Char} (he : (decide (e = 'e') || decide (e = 'E')) = true) : '\n' ≠ e := by
    rintro rfl
    exact absurd he (by decide)
  fun_cases exponent cs with
  | case2 e s cs he hs digits _ =>
    have hsign : '\n' ≠ s := by
      rintro rfl
      exact absurd hs (by decide)
    rw [List.take_succ_cons, List.take_succ_cons]
    simp [hlead he, hsign, hdigits cs, digits]
  | case4 e s cs he _ digits _ =>
    rw [List.take_succ_cons]
    simp only [List.mem_cons, hlead he, false_or]
    exact hdigits (s :: cs)
  | _ => simp

theorem fraction_unbroken (cs : List Char) : '\n' ∉ cs.take (fraction cs) := by
  have hdigits (ds : List Char) : '\n' ∉ ds.take (run Char.isDigit ds) := fun h => absurd (of_mem_run h) (by decide)
  fun_cases fraction cs with
  | case1 => simp
  | case2 cs digits _ =>
    rw [Nat.add_assoc, Nat.add_comm, List.take_succ_cons, List.take_add]
    simp [hdigits cs, digits, exponent_unbroken]
  | case3 => exact exponent_unbroken _

theorem number_unbroken (d : Char) (cs : List Char) : '\n' ∉ cs.take (number d cs).2 := by
  have hdigits (ds : List Char) : '\n' ∉ ds.take (run Char.isDigit ds) := fun h => absurd (of_mem_run h) (by decide)
  rw [number_eq, decimal]
  split
  · split
    · exact hdigits cs
    · rw [List.take_add]
      simp [hdigits cs, fraction_unbroken]
  · rename_i hhex
    cases cs with
    | nil => simp
    | cons x rest =>
      simp only [hexDigits] at hhex ⊢
      split at hhex
      · rename_i hmark
        have hx : '\n' ≠ x := by
          rintro rfl
          simp at hmark
        rw [if_pos hmark, List.take_succ_cons]
        simp only [List.mem_cons, hx, false_or]
        exact fun h => absurd (of_mem_run h) (by decide)
      · exact absurd rfl hhex

theorem quoted_unbroken (cs : List Char) : '\n' ∉ cs.take (quoted cs).2 := by
  fun_induction quoted cs with
  | case1 => simp
  | case2 => simp
  | case3 => simp
  | case4 => simp
  | case5 => simp
  | case6 =>
    rename_i d rest hd kind n hq _ _ ih
    rw [hq] at ih
    rw [List.take_succ_cons, List.take_succ_cons]
    simpa [Ne.symm hd] using ih
  | case7 =>
    rename_i d rest _ hd _ kind n hq ih
    rw [hq] at ih
    rw [List.take_succ_cons]
    simpa [Ne.symm hd] using ih

/-- Only raw strings hold line breaks. -/
theorem Stands.eq_raw {k : TokenKind} {lexeme : List Char} (h : Stands k lexeme) (htrivia : k.isTrivia = false)
    (herror : k ≠ .error) (hbreak : '\n' ∈ lexeme) : ∃ body, lexeme = '`' :: (body ++ ['`']) := by
  obtain ⟨c, cs, rfl, hmunch⟩ := h
  have hm := hmunch [] (by intro d hd; cases hd)
  rw [List.append_nil] at hm
  have hkind {a : TokenKind × Nat} (ha : a.1.isTrivia = true ∨ a.1 = .error) (h : a = (k, cs.length)) : False := by
    rw [h] at ha
    rcases ha with ha | ha
    · exact absurd ha (by simp [htrivia])
    · exact herror ha
  have hwhole {a : TokenKind × Nat} (h : a = (k, cs.length)) (ha : '\n' ∉ cs.take a.2) (hc : '\n' ≠ c) : False := by
    rw [h, List.take_length] at ha
    simp [hc, ha] at hbreak
  unfold munch at hm
  by_cases hblank : isBlank c = true
  · rw [if_pos hblank] at hm
    exact (hkind (Or.inl rfl) hm).elim
  have hc : '\n' ≠ c := by
    rintro rfl
    exact hblank rfl
  rw [if_neg hblank] at hm
  by_cases hident : isIdentStart c = true
  · rw [if_pos hident] at hm
    exact (hwhole hm (fun h => absurd (of_mem_run h) (by decide)) hc).elim
  rw [if_neg hident] at hm
  by_cases hdigit : c.isDigit = true
  · rw [if_pos hdigit] at hm
    exact (hwhole hm (number_unbroken c cs) hc).elim
  rw [if_neg hdigit] at hm
  by_cases hquote : c = '"'
  · rw [if_pos hquote] at hm
    exact (hwhole hm (quoted_unbroken cs) hc).elim
  rw [if_neg hquote] at hm
  by_cases hraw : c = '`'
  · rw [if_pos hraw] at hm
    dsimp only at hm
    split at hm
    · rename_i hlt
      have hlength : run (· ≠ '`') cs + 1 = cs.length := congrArg Prod.snd hm
      have hsplit := List.takeWhile_append_dropWhile (p := fun d => decide (d ≠ '`')) (l := cs)
      have hdrop : (cs.dropWhile fun d => decide (d ≠ '`')).length = 1 := by
        have := congrArg List.length hsplit
        rw [List.length_append] at this
        rw [run] at hlength
        omega
      obtain ⟨d, hd⟩ := List.length_eq_one_iff.mp hdrop
      have hend := List.head?_dropWhile_not (fun d => decide (d ≠ '`')) cs
      rw [hd] at hsplit hend
      obtain rfl : d = '`' := by simpa using hend
      exact ⟨_, by rw [hraw, ← hsplit]⟩
    · exact (hkind (Or.inr rfl) hm).elim
  rw [if_neg hraw] at hm
  by_cases hslash : c = '/'
  · rw [if_pos hslash] at hm
    refine (hkind ?_ hm).elim
    split
    · exact Or.inl rfl
    · split
      · exact Or.inl rfl
      · exact Or.inr rfl
    · exact Or.inr rfl
  rw [if_neg hslash] at hm
  split at hm
  · exact (hwhole hm (by simp) hc).elim
  · exact (hkind (Or.inr rfl) hm).elim

end IdlWorkbench.Token
