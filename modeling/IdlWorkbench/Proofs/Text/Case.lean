import IdlWorkbench.Text.Case

/-!
# Letters with case

No character is both an upper and a lower case letter, and the ASCII letters are what they look like. Texts that
differ in the case of ASCII letters alone are told apart by their lower case letters.
-/

namespace IdlWorkbench.Text

/-! ## The tables -/

theorem mem_of_inRuns {runs : List (Nat × Nat × Nat)} {n : Nat} (h : inRuns runs n = true) :
    ∃ r ∈ runs, r.1 ≤ n ∧ n ≤ r.2.1 ∧ (n - r.1) % r.2.2 = 0 := by
  obtain ⟨⟨first, last, step⟩, hr, h⟩ := List.any_eq_true.mp h
  simp only [Bool.and_eq_true, decide_eq_true_eq, beq_iff_eq] at h
  exact ⟨_, hr, h.1.1, h.1.2, h.2⟩

theorem inRuns_of_mem {runs : List (Nat × Nat × Nat)} {a b n : Nat} (hr : (a, b, 1) ∈ runs)
    (hlo : a ≤ n) (hhi : n ≤ b) : inRuns runs n = true := by
  refine List.any_eq_true.mpr ⟨_, hr, ?_⟩
  simp only [Bool.and_eq_true, decide_eq_true_eq, beq_iff_eq]
  exact ⟨⟨hlo, hhi⟩, Nat.mod_one _⟩

/-- Whether a run has only even code points or only odd ones. -/
def oneParity (r : Nat × Nat × Nat) : Bool := r.2.2 == 2 || r.1 == r.2.1

/-- Whether two runs lie behind each other, or the one has even code points and the other odd ones. -/
def runsApart (a b : Nat × Nat × Nat) : Bool :=
  Nat.blt a.2.1 b.1 || Nat.blt b.2.1 a.1 || (oneParity a && oneParity b && a.1 % 2 != b.1 % 2)

theorem parity_of_mem {r : Nat × Nat × Nat} {n : Nat} (h : oneParity r = true) (hlo : r.1 ≤ n) (hhi : n ≤ r.2.1)
    (hstep : (n - r.1) % r.2.2 = 0) : n % 2 = r.1 % 2 := by
  simp only [oneParity, Bool.or_eq_true, beq_iff_eq] at h
  rcases h with h | h
  · rw [h] at hstep
    omega
  · omega

theorem runs_apart : (upperRuns.all fun a => lowerRuns.all (runsApart a)) = true := by decide +kernel

theorem isLower_of_isUpper {c : Char} (h : isUpper c = true) : isLower c = false := by
  rw [Bool.eq_false_iff]
  intro hlower
  obtain ⟨a, ha, halo, hahi, hastep⟩ := mem_of_inRuns h
  obtain ⟨b, hb, hblo, hbhi, hbstep⟩ := mem_of_inRuns hlower
  have hapart := List.all_eq_true.mp (List.all_eq_true.mp runs_apart a ha) b hb
  simp only [runsApart, Bool.or_eq_true, Bool.and_eq_true, bne_iff_ne, Nat.blt_eq] at hapart
  rcases hapart with (hlt | hlt) | ⟨⟨hea, heb⟩, hne⟩
  · omega
  · omega
  · exact hne ((parity_of_mem hea halo hahi hastep).symm.trans (parity_of_mem heb hblo hbhi hbstep))

/-! ## ASCII letters -/

theorem toNat_of_isUpper {c : Char} (h : c.isUpper = true) : 65 ≤ c.toNat ∧ c.toNat ≤ 90 := by
  have h := of_decide_eq_true h
  exact ⟨UInt32.le_iff_toNat_le.mp h.1, UInt32.le_iff_toNat_le.mp h.2⟩

theorem toNat_of_isLower {c : Char} (h : c.isLower = true) : 97 ≤ c.toNat ∧ c.toNat ≤ 122 := by
  have h := Bool.and_eq_true_iff.mp h
  exact ⟨UInt32.le_iff_toNat_le.mp (of_decide_eq_true h.1), UInt32.le_iff_toNat_le.mp (of_decide_eq_true h.2)⟩

theorem toNat_of_isDigit {c : Char} (h : c.isDigit = true) : 48 ≤ c.toNat ∧ c.toNat ≤ 57 := by
  have h := Bool.and_eq_true_iff.mp h
  exact ⟨UInt32.le_iff_toNat_le.mp (of_decide_eq_true h.1), UInt32.le_iff_toNat_le.mp (of_decide_eq_true h.2)⟩

theorem isLower_iff {c : Char} : c.isLower = true ↔ 97 ≤ c.toNat ∧ c.toNat ≤ 122 := by
  refine ⟨toNat_of_isLower, fun h => Bool.and_eq_true_iff.mpr ⟨?_, ?_⟩⟩
  · exact decide_eq_true (UInt32.le_iff_toNat_le.mpr h.1)
  · exact decide_eq_true (UInt32.le_iff_toNat_le.mpr h.2)

theorem toNat_toLower {c : Char} (h : c.isUpper = true) : c.toLower.toNat = c.toNat + 32 := by
  have hrange := toNat_of_isUpper h
  have hval : c.toLower.val = c.val + 32 := congrArg Char.val (dif_pos (of_decide_eq_true h))
  rw [Char.toNat, hval, UInt32.toNat_add]
  change (c.toNat + 32) % 2 ^ 32 = c.toNat + 32
  omega

theorem isUpper_of_ascii {c : Char} (h : c.isUpper = true) : isUpper c = true :=
  inRuns_of_mem (a := 0x41) (b := 0x5A) (by decide) (toNat_of_isUpper h).1 (toNat_of_isUpper h).2

theorem isLower_of_ascii {c : Char} (h : c.isLower = true) : isLower c = true :=
  inRuns_of_mem (a := 0x61) (b := 0x7A) (by decide) (toNat_of_isLower h).1 (toNat_of_isLower h).2

theorem isLower_of_isDigit {c : Char} (h : c.isDigit = true) : isLower c = false := by
  have hrange := toNat_of_isDigit h
  rw [Bool.eq_false_iff]
  intro hlower
  obtain ⟨r, hr, hlo, -⟩ := mem_of_inRuns hlower
  have : ∀ r ∈ lowerRuns, 97 ≤ r.1 := by decide +kernel
  have := this r hr
  omega

/-! ## Texts without their case -/

variable {x y : Char}

theorem foldAscii_of_isUpper (h : x.isUpper = true) : foldAscii x = x.toLower := if_pos h

theorem foldAscii_of_not_isUpper (h : x.isUpper = false) : foldAscii x = x := if_neg (by simp [h])

theorem foldAscii_foldAscii (x : Char) : foldAscii (foldAscii x) = foldAscii x := by
  refine foldAscii_of_not_isUpper (Bool.eq_false_iff.mpr fun h => ?_)
  have hrange := toNat_of_isUpper h
  by_cases hx : x.isUpper = true
  · rw [foldAscii_of_isUpper hx, toNat_toLower hx] at hrange
    have := toNat_of_isUpper hx
    omega
  · rw [foldAscii_of_not_isUpper (Bool.eq_false_iff.mpr hx)] at h
    exact hx h

/-- A character that is an upper case letter up to its case is a letter. -/
theorem letter_of_fold (h : foldAscii x = foldAscii y) (hx : x.isUpper = true) :
    y.isUpper = true ∨ y.isLower = true := by
  by_cases hy : y.isUpper = true
  · exact Or.inl hy
  · rw [foldAscii_of_isUpper hx, foldAscii_of_not_isUpper (Bool.eq_false_iff.mpr hy)] at h
    have hrange := toNat_of_isUpper hx
    have heq := toNat_toLower hx
    rw [h] at heq
    exact Or.inr (isLower_iff.mpr (by omega))

/-- What is written in capitals is equal up to case to no other text without lower case letters. -/
theorem eq_of_fold (h : foldAscii x = foldAscii y) (hx : x.isUpper = true ∨ x.isDigit = true)
    (hy : y.isLower = false) :
    x = y := by
  rcases hx with hx | hx
  · rcases letter_of_fold h hx with hyu | hyl
    · rw [foldAscii_of_isUpper hx, foldAscii_of_isUpper hyu] at h
      have hnat := congrArg Char.toNat h
      rw [toNat_toLower hx, toNat_toLower hyu] at hnat
      exact Char.toNat_inj.mp (by omega)
    · exact absurd hyl (by simp [hy])
  · have hrange := toNat_of_isDigit hx
    have hxu : x.isUpper = false := Bool.eq_false_iff.mpr fun hxu => by
      have := toNat_of_isUpper hxu
      omega
    rw [foldAscii_of_not_isUpper hxu] at h
    by_cases hyu : y.isUpper = true
    · rw [foldAscii_of_isUpper hyu] at h
      have := toNat_of_isUpper hyu
      have := toNat_toLower hyu
      rw [← h] at this
      omega
    · rwa [foldAscii_of_not_isUpper (Bool.eq_false_iff.mpr hyu)] at h

end IdlWorkbench.Text
