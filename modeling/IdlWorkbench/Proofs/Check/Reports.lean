import IdlWorkbench.Proofs.Check.Stepwise

/-!
# What the checker has reported stays reported

Every step of the check adds errors and takes none back. So what is wrong with the imports, which is found
out first, is in the result.
-/

namespace IdlWorkbench

theorem mem_foldl_once {α β : Type} [BEq β] [LawfulBEq β] (f : α → β) {b : β} : ∀ (as : List α) (bs : List β),
    b ∈ as.foldl (fun bs a => if bs.contains (f a) then bs else bs ++ [f a]) bs ↔ b ∈ bs ∨ b ∈ as.map f
  | [], bs => by simp
  | a :: as, bs => by
    rw [List.foldl_cons, mem_foldl_once f as]
    split
    · rename_i h
      have : f a ∈ bs := by simpa using h
      grind
    · simp only [List.mem_append, List.map_cons, List.mem_cons]
      tauto

theorem nodup_foldl_once {α β : Type} [BEq β] [LawfulBEq β] (f : α → β) : ∀ (as : List α) {bs : List β},
    bs.Nodup → (as.foldl (fun bs a => if bs.contains (f a) then bs else bs ++ [f a]) bs).Nodup
  | [], _, h => h
  | a :: as, bs, h => by
    rw [List.foldl_cons]
    apply nodup_foldl_once f as
    split
    · exact h
    · rename_i hnot
      have hnot : f a ∉ bs := by simpa using hnot
      refine List.nodup_append.mpr ⟨h, by simp, ?_⟩
      intro b hb c hc he
      rw [List.mem_singleton.mp hc] at he
      exact hnot (he ▸ hb)

namespace Check

/-! ## Errors -/

theorem stepwise_errors (env : Env) : Stepwise env fun s t => s.errors <:+ t.errors where
  trans := List.IsSuffix.trans
  aside _ _ h := h
  record _ _ _ _ := List.suffix_rfl
  apart h := h
  declare _ h := h

/-- No error is taken back. -/
theorem reports_body (env : Env) (s : State) : Ends (body env) s fun _ t => s.errors <:+ t.errors :=
  (keeps_body env _ (stepwise_errors env) s).1

/-! ## Imports -/

theorem mem_importPaths {sources : List Source} {path : String} :
    path ∈ importPaths sources ↔ ∃ s ∈ sources, ∃ i ∈ importsOf s, i.2.1 = path := by
  have := mem_foldl_once (fun i : Token × String × Option String => i.2.1) (sources.flatMap importsOf) [] (b := path)
  rw [importPaths]
  refine this.trans ?_
  simp only [List.not_mem_nil, false_or, List.mem_map, List.mem_flatMap]
  constructor
  · rintro ⟨i, ⟨s, hs, hi⟩, rfl⟩
    exact ⟨s, hs, i, hi, rfl⟩
  · rintro ⟨s, hs, i, hi, rfl⟩
    exact ⟨i, ⟨s, hs, hi⟩, rfl⟩

theorem nodup_importPaths (sources : List Source) : (importPaths sources).Nodup :=
  nodup_foldl_once (fun i : Token × String × Option String => i.2.1) (sources.flatMap importsOf) List.nodup_nil

theorem exists_of_mem_importPaths {sources : List Source} {path : String} (h : path ∈ importPaths sources) :
    ∃ s ∈ sources, path ∈ importPaths [s] := by
  obtain ⟨s, hs, hi⟩ := mem_importPaths.mp h
  exact ⟨s, hs, mem_importPaths.mpr ⟨s, by simp, hi⟩⟩

/-! ## Imports that fail -/

section
variable {imported : Table String Imported} {file : Nat}

theorem errors_addImport (f : FileImports) (i : Token × String × Option String) :
    (addImport file imported f i).errors = f.errors ++
      match (imported.find? i.2.1).getD (.error "") with
      | .ok _ => []
      | .error reason => [⟨file, .source, i.1.offset, .badImport i.2.1 reason⟩] := by
  obtain ⟨literal, path, given⟩ := i
  unfold addImport
  dsimp only
  cases hr : (imported.find? path).getD (.error "") <;> dsimp only <;> split <;> simp

theorem mem_errors_foldl {e : CheckError} : ∀ {is : List (Token × String × Option String)} {f : FileImports},
    (e ∈ f.errors ∨ ∃ i ∈ is, ∃ reason, (imported.find? i.2.1).getD (.error "") = .error reason ∧
      e = ⟨file, .source, i.1.offset, .badImport i.2.1 reason⟩) →
    e ∈ (is.foldl (addImport file imported) f).errors
  | [], _, h => by simpa using h
  | i :: is, f, h => by
    rw [List.foldl_cons]
    apply mem_errors_foldl
    rw [errors_addImport]
    rcases h with h | ⟨j, hj, reason, hr, rfl⟩
    · exact Or.inl (List.mem_append_left _ h)
    · rcases List.mem_cons.mp hj with rfl | hj
      · rw [hr]
        simp
      · exact Or.inr ⟨j, hj, reason, hr, rfl⟩

end

end Check

/-- An import that fails is reported. -/
theorem mem_errors_check {path name importPath reason : String} {sources : List Source}
    {imported : Table String Imported}
    (hp : importPath ∈ Check.importPaths sources) (hr : imported.find? importPath = some (.error reason)) :
    ∃ e ∈ (check path name sources imported).errors, e.file < sources.length ∧
      e.cause = .badImport importPath reason := by
  obtain ⟨s, hs, i, hi, rfl⟩ := Check.mem_importPaths.mp hp
  obtain ⟨file, hfile⟩ := List.mem_iff_getElem?.mp hs
  obtain ⟨hlt, -⟩ := List.getElem?_eq_some_iff.mp hfile
  refine ⟨⟨file, .source, i.1.offset, .badImport i.2.1 reason⟩, ?_, hlt, rfl⟩
  have hfound : (⟨file, .source, i.1.offset, .badImport i.2.1 reason⟩ : CheckError) ∈
      (Check.fileImports imported file s).errors := by
    refine Check.mem_errors_foldl (Or.inr ⟨i, hi, reason, ?_, rfl⟩)
    rw [hr]
    rfl
  -- the errors of the imports are those that the check starts with
  have hstart : (⟨file, .source, i.1.offset, .badImport i.2.1 reason⟩ : CheckError) ∈
      ((sources.zipIdx.map fun p => Check.fileImports imported p.2 p.1).flatMap Check.FileImports.errors ++
        (Check.collect sources).2).reverse := by
    rw [List.mem_reverse]
    refine List.mem_append_left _ (List.mem_flatMap.mpr ⟨_, List.mem_map.mpr ⟨(s, file), ?_, rfl⟩, hfound⟩)
    exact List.mk_mem_zipIdx_iff_getElem?.mpr hfile
  exact List.mem_reverse.mpr ((Check.reports_body _ _).subset hstart)

end IdlWorkbench
