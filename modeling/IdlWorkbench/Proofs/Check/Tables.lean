import IdlWorkbench.Proofs.Check.Reach
import IdlWorkbench.Proofs.Table

/-!
# What the tables of a check hold

The table of a file gives the type that a name in it means. If that is a declared type, then it is one of the
package itself or of a package that was imported.
-/

namespace IdlWorkbench

namespace Check

structure State.Recorded (P : TypeAndValue → Prop) (s : State) : Prop where
  table : ∀ e ∈ s.table, P e.2
  tables : ∀ table ∈ s.tables, ∀ e ∈ table, P e.2

section
variable {P : TypeAndValue → Prop}

theorem forall_insertAll : ∀ {new t : TypeTable},
    (∀ e ∈ t, P e.2) → (∀ e ∈ new, P e.2) → ∀ e ∈ t.insertAll new, P e.2
  | [], _, ht, _ => ht
  | (r, tv) :: new, t, ht, hnew => by
    have hinsert : ∀ e ∈ t.insert r tv, P e.2 := by
      intro e he
      rcases Table.mem_insert he with he | he
      · exact ht e he
      · exact he ▸ hnew (r, tv) List.mem_cons_self
    have ih : ∀ e ∈ (t.insert r tv).insertAll new, P e.2 :=
      forall_insertAll hinsert fun e he => hnew e (List.mem_cons_of_mem _ he)
    exact ih

theorem forall_modify {tables : List TypeTable} {new : TypeTable} (h : ∀ table ∈ tables, ∀ e ∈ table, P e.2)
    (hnew : ∀ e ∈ new, P e.2) (file : Nat) :
    ∀ table ∈ tables.modify file (·.insertAll new), ∀ e ∈ table, P e.2 := by
  intro table htable
  obtain ⟨i, hi⟩ := List.mem_iff_getElem?.mp htable
  rw [List.getElem?_modify] at hi
  obtain ⟨old, hold, rfl⟩ := Option.map_eq_some_iff.mp hi
  have hall := h old (List.mem_of_getElem? hold)
  split
  · exact forall_insertAll hall hnew
  · exact hall

end

theorem stepwise_recorded (env : Env) :
    Stepwise env fun s t => s.Recorded env.Records → t.Recorded env.Records where
  trans h h' hs := h' (h hs)
  aside htable htables _ hs := ⟨htable ▸ hs.table, htables ▸ hs.tables⟩
  record s r tv h hs := by
    refine ⟨fun e he => ?_, hs.tables⟩
    rcases Table.mem_insert he with he | he
    · exact hs.table e he
    · exact he ▸ h
  apart h hs := ⟨hs.table, (h ⟨nofun, hs.tables⟩).tables⟩
  declare file h hs := by
    have ht := h ⟨nofun, hs.tables⟩
    exact ⟨hs.table, forall_modify ht.tables ht.table file⟩

/-- The scopes of a file hold surfaces that were imported. -/
theorem imported_fileImports (imported : Table String Imported) (file : Nat) (s : Source) :
    (fileImports imported file s).All fun t => ∃ p, imported.find? p = some (.ok t) := by
  refine all_foldl ⟨fun _ _ h => (nomatch h), fun _ h => (nomatch h)⟩ fun i _ t ht => ⟨i.2.1, ?_⟩
  cases h : imported.find? i.2.1 with
  | none =>
    rw [h] at ht
    cases ht
  | some r =>
    rw [h] at ht
    exact congrArg some ht

end Check

variable {path name : String} {sources : List Source} {imported : Table String Imported}

theorem package_of_types {table : TypeTable} (htable : table ∈ (check path name sources imported).types)
    {e : ByteRange × TypeAndValue} (he : e ∈ table) {r : NamedRef} (hr : e.2 = ⟨.type, .named r⟩) :
    r.package = path ∨ ∃ p s, imported.find? p = some (.ok s) ∧ r.package = s.path := by
  let files := sources.zipIdx.map fun entry => Check.fileImports imported entry.2 entry.1
  let env : Check.Env :=
    { path, name, sources
      decls := (Check.collect sources).1
      imports := Check.importedSurfaces imported
      scopes := files.map (·.scope)
      dots := files.map (·.dots) }
  have hfiles : ∀ f ∈ files, f.All fun t => ∃ p, imported.find? p = some (.ok t) := by
    intro f hf
    obtain ⟨i, -, rfl⟩ := List.mem_map.mp hf
    exact Check.imported_fileImports imported i.2 i.1
  have hstart : Check.State.Recorded env.Records
      { tables := sources.map fun _ => []
        errors := (files.flatMap (·.errors) ++ (Check.collect sources).2).reverse } := by
    refine ⟨List.forall_mem_nil _, fun table htable => ?_⟩
    obtain ⟨_, -, rfl⟩ := List.mem_map.mp htable
    exact List.forall_mem_nil _
  have hend := (Check.keeps_body env _ (Check.stepwise_recorded env) _).1 hstart
  have hmeans : env.Records e.2 := hend.tables table htable e he
  rw [hr] at hmeans
  rcases hmeans rfl r rfl with hown | ⟨s, hs, hpath⟩
  · exact Or.inl hown
  · right
    rcases hs with ⟨scope, hscope, other, hfind⟩ | ⟨dots, hdots, hmem⟩
    · obtain ⟨f, hf, rfl⟩ := List.mem_map.mp hscope
      obtain ⟨p, hp⟩ := (hfiles f hf).scope other s hfind
      exact ⟨p, s, hp, hpath⟩
    · obtain ⟨f, hf, rfl⟩ := List.mem_map.mp hdots
      obtain ⟨p, hp⟩ := (hfiles f hf).dots s hmem
      exact ⟨p, s, hp, hpath⟩

end IdlWorkbench
