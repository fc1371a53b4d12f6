import IdlWorkbench.Table

/-!
# Laws of tables

What a lookup finds after each change of a table, and which keys are left. Keys are compared by `==`, which
has to be an equivalence.
-/

namespace IdlWorkbench.Table

variable {κ α : Type} [BEq κ]

/-! ## Looking up -/

section
variable [EquivBEq κ]

theorem find?_congr (t : Table κ α) {key key' : κ} (h : (key == key') = true) : t.find? key = t.find? key' := by
  induction t with
  | nil => rfl
  | cons e t ih =>
    obtain ⟨k, a⟩ := e
    simp only [find?, List.lookup_cons] at ih ⊢
    rw [ih, BEq.congr_left h]

theorem find?_insert (t : Table κ α) (key : κ) (a : α) (q : κ) :
    (t.insert key a).find? q = if q == key then some a else t.find? q := by
  induction t with
  | nil =>
    simp only [insert, find?, List.lookup_cons, List.lookup_nil]
    cases q == key <;> rfl
  | cons e t ih =>
    obtain ⟨k, b⟩ := e
    simp only [insert]
    split
    · rename_i h
      simp only [find?, List.lookup_cons, BEq.congr_right h]
      cases q == key <;> rfl
    · rename_i h
      simp only [find?, List.lookup_cons] at ih ⊢
      rw [ih]
      rcases hq : q == k with _ | _
      · rfl
      · rcases hk : q == key with _ | _
        · rfl
        · exact absurd (BEq.trans (BEq.symm hq) hk) h

theorem find?_insert_self (t : Table κ α) (key : κ) (a : α) : (t.insert key a).find? key = some a := by
  simp [find?_insert]

theorem beq_or_find?_of_insert {t : Table κ α} {key q : κ} {a b : α} (h : (t.insert key a).find? q = some b) :
    (q == key) = true ∧ a = b ∨ t.find? q = some b := by
  rw [find?_insert] at h
  split at h
  · rename_i hbeq
    exact Or.inl ⟨hbeq, Option.some.inj h⟩
  · exact Or.inr h

theorem find?_erase (t : Table κ α) (key q : κ) :
    (t.erase key).find? q = if q == key then none else t.find? q := by
  induction t with
  | nil => simp [erase, find?]
  | cons e t ih =>
    obtain ⟨k, b⟩ := e
    simp only [erase, find?, List.filter_cons, List.lookup_cons] at ih ⊢
    by_cases hk : (k == key) = true
    · simp only [hk, Bool.not_true, Bool.false_eq_true, ite_false, ih, BEq.congr_right hk]
      cases q == key <;> rfl
    · simp only [hk, Bool.not_false, ite_true, List.lookup_cons, ih]
      rcases hq : q == k with _ | _
      · rfl
      · rcases hqk : q == key with _ | _
        · rfl
        · exact absurd (BEq.trans (BEq.symm hq) hqk) hk

theorem find?_of_erase {t : Table κ α} {key q : κ} {a : α} (h : (t.erase key).find? q = some a) :
    ¬(q == key) = true ∧ t.find? q = some a := by
  rw [find?_erase] at h
  split at h
  · cases h
  · rename_i hne
    exact ⟨hne, h⟩

theorem find?_modify (t : Table κ α) (key : κ) (f : α → α) (q : κ) :
    (t.modify key f).find? q = if q == key then (t.find? q).map f else t.find? q := by
  induction t with
  | nil => simp [modify, find?]
  | cons e t ih =>
    obtain ⟨k, b⟩ := e
    simp only [modify, find?, List.map_cons, List.lookup_cons] at ih ⊢
    rw [ih]
    rcases hq : q == k with _ | _
    · rfl
    · rw [BEq.congr_left hq]
      cases k == key <;> rfl

end

theorem eq_or_find?_of_insert [LawfulBEq κ] {t : Table κ α} {key q : κ} {a b : α}
    (h : (t.insert key a).find? q = some b) : q = key ∧ a = b ∨ t.find? q = some b :=
  (beq_or_find?_of_insert h).imp_left (And.imp_left eq_of_beq)

theorem find?_mapValues {β : Type} (t : Table κ α) (f : α → β) (q : κ) :
    Table.find? (t.map fun (k, a) => (k, f a)) q = (t.find? q).map f := by
  induction t with
  | nil => rfl
  | cons e t ih =>
    obtain ⟨k, b⟩ := e
    simp only [find?, List.map_cons, List.lookup_cons] at ih ⊢
    rw [ih]
    cases q == k <;> rfl

/-! ## Keys -/

theorem contains_eq (t : Table κ α) (key : κ) : t.contains key = (t.find? key).isSome := rfl

theorem mem_of_find? [LawfulBEq κ] {t : Table κ α} {key : κ} {a : α} (h : t.find? key = some a) : (key, a) ∈ t := by
  obtain ⟨before, after, rfl, -⟩ := List.lookup_eq_some_iff.mp h
  simp

theorem exists_key_of_find? : ∀ {t : Table κ α} {key : κ} {a : α},
    t.find? key = some a → ∃ k ∈ t.keys, (key == k) = true
  | (k, b) :: t, key, a, h => by
    simp only [find?, List.lookup_cons] at h
    split at h
    · rename_i hk
      exact ⟨k, by simp [keys], hk⟩
    · obtain ⟨k', hk', he⟩ := exists_key_of_find? h
      exact ⟨k', List.mem_cons_of_mem _ hk', he⟩

theorem mem_values_of_find? : ∀ {t : Table κ α} {key : κ} {a : α}, t.find? key = some a → a ∈ t.values
  | (k, b) :: t, key, a, h => by
    simp only [find?, List.lookup_cons] at h
    split at h
    · cases h
      simp [values]
    · exact List.mem_cons_of_mem _ (mem_values_of_find? h)

theorem contains_of_mem_keys [EquivBEq κ] : ∀ {t : Table κ α} {key : κ}, key ∈ t.keys → t.contains key = true
  | (k, b) :: t, key, h => by
    simp only [contains, find?, List.lookup_cons]
    split
    · rfl
    · rename_i hk
      rcases List.mem_cons.mp h with rfl | h
      · simp at hk
      · exact contains_of_mem_keys h

theorem find?_of_mem [LawfulBEq κ] : ∀ {t : Table κ α} {key : κ} {a : α},
    t.keys.Nodup → (key, a) ∈ t → t.find? key = some a
  | [], _, _, _, h => nomatch h
  | (k, b) :: t, key, a, hn, h => by
    rw [keys, List.map_cons, List.nodup_cons] at hn
    rcases List.mem_cons.mp h with heq | h
    · cases heq
      simp [find?]
    · have hne : key ≠ k := fun e => hn.1 (List.mem_map.mpr ⟨(key, a), h, e⟩)
      simp only [find?, List.lookup_cons]
      rw [beq_false_of_ne hne]
      exact find?_of_mem hn.2 h

/-- Tables that hold the same differ in their order only. -/
theorem perm_of_find? [LawfulBEq κ] {t u : Table κ α} (ht : t.keys.Nodup) (hu : u.keys.Nodup)
    (h : ∀ key, t.find? key = u.find? key) : List.Perm t u := by
  have hnodup {t : Table κ α} (ht : t.keys.Nodup) : List.Nodup t :=
    (List.pairwise_map.mp ht).imp fun hne he => hne (congrArg Prod.fst he)
  refine (List.perm_ext_iff_of_nodup (hnodup ht) (hnodup hu)).mpr fun e => ⟨fun he => ?_, fun he => ?_⟩
  · exact mem_of_find? ((h e.1).symm.trans (find?_of_mem ht he))
  · exact mem_of_find? ((h e.1).trans (find?_of_mem hu he))

theorem contains_iff_mem_keys [LawfulBEq κ] {t : Table κ α} {key : κ} : t.contains key = true ↔ key ∈ t.keys := by
  simp [contains, find?, keys]

theorem mem_keys_iff [LawfulBEq κ] {t : Table κ α} {key : κ} : key ∈ t.keys ↔ ∃ a, t.find? key = some a := by
  rw [← contains_iff_mem_keys, contains_eq, Option.isSome_iff_exists]

theorem mem_insert {key : κ} {a : α} {e : κ × α} : ∀ {t : Table κ α}, e ∈ t.insert key a → e ∈ t ∨ e.2 = a
  | [], h => by
    rw [List.mem_singleton.mp h]
    exact Or.inr rfl
  | (k, b) :: t, h => by
    rw [insert] at h
    split at h
    · rcases List.mem_cons.mp h with rfl | h
      · exact Or.inr rfl
      · exact Or.inl (List.mem_cons_of_mem _ h)
    · rcases List.mem_cons.mp h with rfl | h
      · exact Or.inl List.mem_cons_self
      · exact (mem_insert h).imp_left (List.mem_cons_of_mem _)

/-- What is new stands under its key. -/
theorem mem_or_eq_of_mem_insert [LawfulBEq κ] {key : κ} {a : α} {e : κ × α} : ∀ {t : Table κ α},
    e ∈ t.insert key a → e ∈ t ∨ e = (key, a)
  | [], h => Or.inr (List.mem_singleton.mp h)
  | (k, b) :: t, h => by
    rw [insert] at h
    split at h
    · rename_i hk
      rcases List.mem_cons.mp h with rfl | h
      · exact Or.inr (by rw [eq_of_beq hk])
      · exact Or.inl (List.mem_cons_of_mem _ h)
    · rcases List.mem_cons.mp h with rfl | h
      · exact Or.inl List.mem_cons_self
      · exact (mem_or_eq_of_mem_insert h).imp_left (List.mem_cons_of_mem _)

theorem keys_insert (t : Table κ α) (key : κ) (a : α) :
    (t.insert key a).keys = if t.keys.any (· == key) then t.keys else t.keys ++ [key] := by
  induction t with
  | nil => rfl
  | cons e t ih =>
    obtain ⟨k, b⟩ := e
    simp only [insert, keys, List.map_cons, List.any_cons] at ih ⊢
    split
    · rename_i h; simp [h]
    · rename_i h
      rw [List.map_cons, ih]
      by_cases hany : ((t.map (·.1)).any (· == key)) = true
      · simp [h, hany]
      · simp [h, hany]

/-- A new key goes to the end. -/
theorem insert_of_find?_none [LawfulBEq κ] {key : κ} (a : α) : ∀ {t : Table κ α},
    t.find? key = none → t.insert key a = t ++ [(key, a)]
  | [], _ => rfl
  | (k, b) :: t, h => by
    by_cases hk : key = k
    · simp [find?, hk] at h
    · simp only [find?, List.lookup_cons, beq_false_of_ne hk] at h
      rw [insert, beq_false_of_ne (Ne.symm hk), if_neg Bool.false_ne_true, insert_of_find?_none a h]
      rfl

theorem mem_keys_insert [LawfulBEq κ] {t : Table κ α} {key q : κ} {a : α} :
    q ∈ (t.insert key a).keys ↔ q ∈ t.keys ∨ q = key := by
  simp only [mem_keys_iff, find?_insert]
  by_cases h : q = key
  · simp [h]
  · simp [h]

theorem nodup_keys_insert [LawfulBEq κ] {t : Table κ α} (h : t.keys.Nodup) (key : κ) (a : α) :
    (t.insert key a).keys.Nodup := by
  rw [keys_insert]
  split
  · exact h
  · rename_i hk
    refine List.nodup_append.mpr ⟨h, by simp, fun x hx y hy e => hk ?_⟩
    rw [List.any_eq_true]
    exact ⟨x, hx, by simp [e, List.mem_singleton.mp hy]⟩

theorem keys_modify (t : Table κ α) (key : κ) (f : α → α) : (t.modify key f).keys = t.keys := by
  simp [keys, modify, Function.comp_def]

omit [BEq κ] in
theorem keys_mapValues {β : Type} (t : Table κ α) (f : α → β) :
    Table.keys (t.map fun (k, a) => (k, f a)) = t.keys := by
  simp [keys, Function.comp_def]

theorem keys_erase (t : Table κ α) (key : κ) : (t.erase key).keys = t.keys.filter (!· == key) := by
  simp [keys, erase, List.filter_map, Function.comp_def]

theorem nodup_keys_erase {t : Table κ α} (h : t.keys.Nodup) (key : κ) : (t.erase key).keys.Nodup := by
  rw [keys_erase]
  exact h.filter _

end IdlWorkbench.Table
