import IdlWorkbench.Proofs.Check.Reports
import IdlWorkbench.Proofs.Table

/-!
# Packages in reach

Imports come from a function of the path here. What can be reached through them, and what names they bring into
a file, depends on the files that import but not on their order, if each path leads to one surface.
-/

namespace IdlWorkbench.Check

/-- The surfaces that can be reached from what the files import, and the paths under which they are. -/
inductive Reached (f : String → Imported) (sources : List Source) : String → Surface → Prop
  | given {path : String} {s : Surface} : path ∈ importPaths sources → f path = .ok s → Reached f sources s.path s
  | listed {path key : String} {s t : Surface} : Reached f sources path t → (key, s) ∈ t.imports →
  Reached f sources key s
  | own {key : String} {s : Surface} : Reached f sources key s → Reached f sources s.path s

/-- Each path leads to one surface. -/
def Coherent (f : String → Imported) (sources : List Source) : Prop :=
  ∀ path s t, Reached f sources path s → Reached f sources path t → s = t

/-- The surface is not of the package with this path and does not mention its types. -/
structure Foreign (path : String) (s : Surface) : Prop where
  elsewhere : s.path ≠ path
  types : ∀ e ∈ s.types, ∀ r ∈ e.2.refs, r.package ≠ path
  consts : ∀ e ∈ s.consts, ∀ r ∈ e.2.type.refs, r.package ≠ path

variable {f : String → Imported} {sources sources' : List Source}

theorem mem_importPaths_perm (hp : sources.Perm sources') {path : String} :
    path ∈ importPaths sources ↔ path ∈ importPaths sources' := by
  simp only [mem_importPaths, hp.mem_iff]

theorem Reached.perm (hp : sources.Perm sources') {path : String} {s : Surface} (h : Reached f sources path s) :
    Reached f sources' path s := by
  induction h with
  | given hpath hs => exact .given ((mem_importPaths_perm hp).mp hpath) hs
  | listed _ hs ih => exact .listed ih hs
  | own _ ih => exact .own ih

theorem Coherent.perm (hc : Coherent f sources) (hp : sources.Perm sources') : Coherent f sources' :=
  fun path s t hs ht => hc path s t (hs.perm hp.symm) (ht.perm hp.symm)

def importsBy (f : String → Imported) (sources : List Source) : Table String Imported :=
  (importPaths sources).map fun path => (path, f path)

theorem find?_map_pair {α : Type} (g : String → α) (path : String) : ∀ paths : List String,
    Table.find? (paths.map fun path => (path, g path)) path = if path ∈ paths then some (g path) else none
  | [] => rfl
  | p :: paths => by
    have ih := find?_map_pair g path paths
    simp only [Table.find?, List.map_cons, List.lookup_cons] at ih ⊢
    by_cases h : path = p
    · simp [h]
    · simp [h, beq_false_of_ne h, ih]

theorem find?_importsBy (path : String) :
    (importsBy f sources).find? path = if path ∈ importPaths sources then some (f path) else none :=
  find?_map_pair f path (importPaths sources)

theorem find?_importsBy_perm (hp : sources.Perm sources') (path : String) :
    (importsBy f sources').find? path = (importsBy f sources).find? path := by
  simp only [find?_importsBy, mem_importPaths_perm hp]

/-! ## Surfaces by their paths -/

section
variable {key : String} {s : Surface}

theorem find?_foldl_surfaces : ∀ (ss : List Surface) (t : Table String Surface),
    (ss.foldl (fun t s => t.insert s.path s) t).find? key = some s → t.find? key = some s ∨ (s ∈ ss ∧ s.path = key)
  | [], t, h => Or.inl h
  | u :: ss, t, h => by
    rcases find?_foldl_surfaces ss _ h with h | ⟨hs, hkey⟩
    · rw [Table.find?_insert] at h
      by_cases he : key = u.path
      · simp only [he, beq_self_eq_true, ite_true, Option.some.injEq] at h
        subst h
        exact Or.inr ⟨List.mem_cons_self, he.symm⟩
      · simp only [beq_false_of_ne he, Bool.false_eq_true, ite_false] at h
        exact Or.inl h
    · exact Or.inr ⟨List.mem_cons_of_mem _ hs, hkey⟩

theorem mem_keys_foldl_surfaces : ∀ (ss : List Surface) (t : Table String Surface),
    key ∈ (ss.foldl (fun t s => t.insert s.path s) t).keys ↔ key ∈ t.keys ∨ ∃ s ∈ ss, s.path = key
  | [], t => by simp
  | u :: ss, t => by
    rw [List.foldl_cons, mem_keys_foldl_surfaces ss, Table.mem_keys_insert, or_assoc, List.exists_mem_cons_iff]
    rw [eq_comm (a := key)]

theorem nodup_foldl_surfaces : ∀ (ss : List Surface) {t : Table String Surface},
    t.keys.Nodup → (ss.foldl (fun t s => t.insert s.path s) t).keys.Nodup
  | [], _, h => h
  | _ :: ss, _, h => nodup_foldl_surfaces ss (Table.nodup_keys_insert h _ _)

theorem mem_imported : s ∈ (importsBy f sources).values.filterMap Except.toOption ↔
    ∃ path ∈ importPaths sources, f path = .ok s := by
  simp only [importsBy, Table.values, List.map_map, List.mem_filterMap, List.mem_map, Function.comp_apply]
  constructor
  · rintro ⟨r, ⟨path, hpath, rfl⟩, hr⟩
    refine ⟨path, hpath, ?_⟩
    cases hf : f path with
    | error e =>
      rw [hf] at hr
      cases hr
    | ok t =>
      rw [hf] at hr
      cases hr
      rfl
  · rintro ⟨path, hpath, hs⟩
    exact ⟨f path, ⟨path, hpath, rfl⟩, by rw [hs]; rfl⟩

theorem reached_of_imported (h : (importedSurfaces (importsBy f sources)).find? key = some s) :
    Reached f sources key s := by
  rcases find?_foldl_surfaces _ _ h with h | ⟨hs, rfl⟩
  · cases h
  · obtain ⟨path, hpath, hs⟩ := mem_imported.mp hs
    exact .given hpath hs

theorem find?_importedSurfaces_perm (hp : sources.Perm sources') (hc : Coherent f sources) :
    (importedSurfaces (importsBy f sources')).find? key = (importedSurfaces (importsBy f sources)).find? key := by
  have hkeys : key ∈ (importedSurfaces (importsBy f sources')).keys ↔
      key ∈ (importedSurfaces (importsBy f sources)).keys := by
    simp only [importedSurfaces, mem_keys_foldl_surfaces, mem_imported, mem_importPaths_perm hp]
  rw [Table.mem_keys_iff, Table.mem_keys_iff] at hkeys
  cases h : (importedSurfaces (importsBy f sources)).find? key with
  | none =>
    refine Option.eq_none_iff_forall_ne_some.mpr fun s hs => ?_
    obtain ⟨t, ht⟩ := hkeys.mp ⟨s, hs⟩
    rw [h] at ht
    cases ht
  | some s =>
    obtain ⟨t, ht⟩ := hkeys.mpr ⟨s, h⟩
    rw [ht, hc key t s ((reached_of_imported ht).perm hp.symm) (reached_of_imported h)]

theorem nodup_importedSurfaces (imported : Table String Imported) : (importedSurfaces imported).keys.Nodup :=
  nodup_foldl_surfaces _ List.nodup_nil

theorem importedSurfaces_perm (hp : sources.Perm sources') (hc : Coherent f sources) :
    (importedSurfaces (importsBy f sources')).Perm (importedSurfaces (importsBy f sources)) :=
  Table.perm_of_find? (nodup_importedSurfaces _) (nodup_importedSurfaces _) fun _ =>
    find?_importedSurfaces_perm hp hc

end

/-! ## Looking for a surface -/

section
variable {path key : String} {s t : Surface} {hops : Nat}

theorem findAmong_eq : ∀ imports : List (String × Surface),
    Surface.findAmong path hops imports = imports.findSome? fun e => e.2.findWithin path hops
  | [] => rfl
  | (key, s) :: imports => by
    rw [Surface.findAmong, findAmong_eq imports, List.findSome?_cons]
    cases s.findWithin path hops with
    | none => rfl
    | some t => rfl

theorem findWithin_zero (h : s.path ≠ path) : s.findWithin path 0 = none := by
  obtain ⟨own, name, types, consts, imports⟩ := s
  rw [Surface.findWithin, if_neg h, if_pos rfl]

theorem findWithin_own (h : s.path = path) : s.findWithin path hops = some s := by
  obtain ⟨own, name, types, consts, imports⟩ := s
  rw [Surface.findWithin, if_pos h]

theorem findWithin_succ (h : s.path ≠ path) : s.findWithin path (hops + 1) =
    (Table.find? s.imports path).or (s.imports.findSome? fun e => e.2.findWithin path hops) := by
  obtain ⟨own, name, types, consts, imports⟩ := s
  rw [Surface.findWithin, if_neg h, if_neg (Nat.succ_ne_zero hops), Nat.add_sub_cancel, findAmong_eq,
    Option.orElse_eq_orElse, Option.orElse_eq_or]
  rfl

/-- A surface that is found is in reach. -/
theorem reached_findWithin : ∀ {hops : Nat} {t : Surface} {key : String},
    Reached f sources key t → t.findWithin path hops = some s → Reached f sources path s := by
  intro hops
  induction hops with
  | zero =>
    intro t key ht h
    by_cases hown : t.path = path
    · rw [findWithin_own hown] at h
      cases h
      exact hown ▸ ht.own
    · rw [findWithin_zero hown] at h
      cases h
  | succ hops ih =>
    intro t key ht h
    by_cases hown : t.path = path
    · rw [findWithin_own hown] at h
      cases h
      exact hown ▸ ht.own
    · rw [findWithin_succ hown] at h
      rcases Option.or_eq_some_iff.mp h with h | ⟨-, h⟩
      · exact ht.listed (Table.mem_of_find? h)
      · obtain ⟨e, he, hs⟩ := List.exists_of_findSome?_eq_some h
        exact ih (ht.listed he) hs

theorem findSome?_perm {α β : Type} {g : α → Option β} {l l' : List α} (hp : l.Perm l')
    (h : ∀ a ∈ l, ∀ b ∈ l, ∀ x y, g a = some x → g b = some y → x = y) : l'.findSome? g = l.findSome? g := by
  cases hl : l.findSome? g with
  | none =>
    rw [List.findSome?_eq_none_iff] at hl ⊢
    exact fun a ha => hl a (hp.mem_iff.mpr ha)
  | some x =>
    obtain ⟨a, ha, hx⟩ := List.exists_of_findSome?_eq_some hl
    cases hl' : l'.findSome? g with
    | none =>
      rw [List.findSome?_eq_none_iff.mp hl' a (hp.mem_iff.mp ha)] at hx
      cases hx
    | some y =>
      obtain ⟨b, hb, hy⟩ := List.exists_of_findSome?_eq_some hl'
      rw [h a ha b (hp.mem_iff.mpr hb) x y hx hy]

theorem reached_importedSurfaces {e : String × Surface} (he : e ∈ importedSurfaces (importsBy f sources)) :
    Reached f sources e.1 e.2 :=
  reached_of_imported (Table.find?_of_mem (nodup_importedSurfaces _) he)

theorem reached_find? {t : Surface} (himports : t.imports = importedSurfaces (importsBy f sources))
    (hown : t.path ≠ path)
    (h : t.find? path = some s) : Reached f sources path s := by
  rw [Surface.find?, Surface.maxHops, findWithin_succ hown, himports] at h
  rcases Option.or_eq_some_iff.mp h with h | ⟨-, h⟩
  · exact reached_of_imported h
  · obtain ⟨e, he, hs⟩ := List.exists_of_findSome?_eq_some h
    exact reached_findWithin (reached_importedSurfaces he) hs

theorem find?_perm (t t' : Surface) (hp : sources.Perm sources') (hc : Coherent f sources)
    (himports : t.imports = importedSurfaces (importsBy f sources))
    (himports' : t'.imports = importedSurfaces (importsBy f sources')) (hown : t.path ≠ path)
    (hown' : t'.path ≠ path) : t'.find? path = t.find? path := by
  rw [Surface.find?, Surface.find?, Surface.maxHops, findWithin_succ hown, findWithin_succ hown', himports,
    himports',
    find?_importedSurfaces_perm hp hc]
  congr 1
  refine findSome?_perm (importedSurfaces_perm hp hc).symm fun a ha b hb x y hx hy => ?_
  exact hc path x y (reached_findWithin (reached_importedSurfaces ha) hx)
    (reached_findWithin (reached_importedSurfaces hb) hy)

end

/-! ## The imports of a file -/

section
variable {imported imported' : Table String Imported} {file : Nat} {s : Source}

theorem addImport_congr (h : ∀ path, imported'.find? path = imported.find? path) {file' : Nat} {a b : FileImports}
    (hscope : b.scope = a.scope) (hdots : b.dots = a.dots) (i : Token × String × Option String) :
    (addImport file' imported' b i).scope = (addImport file imported a i).scope ∧
      (addImport file' imported' b i).dots = (addImport file imported a i).dots := by
  obtain ⟨literal, path, given⟩ := i
  unfold addImport
  dsimp only
  rw [h]
  cases (imported.find? path).getD (.error "") with
  | error reason => split <;> simp [hscope, hdots]
  | ok s => split <;> simp [hscope, hdots]

/-- The number of a file and the order of what it imports do not matter. -/
theorem fileImports_congr (h : ∀ path, imported'.find? path = imported.find? path) (file file' : Nat) (s : Source) :
    (fileImports imported' file' s).scope = (fileImports imported file s).scope ∧
      (fileImports imported' file' s).dots = (fileImports imported file s).dots := by
  have hfold : ∀ (is : List (Token × String × Option String)) (a b : FileImports), b.scope = a.scope →
      b.dots = a.dots →
      (is.foldl (addImport file' imported') b).scope = (is.foldl (addImport file imported) a).scope ∧
        (is.foldl (addImport file' imported') b).dots = (is.foldl (addImport file imported) a).dots := by
    intro is
    induction is with
    | nil => exact fun _ _ hscope hdots => ⟨hscope, hdots⟩
    | cons i is ih =>
      intro a b hscope hdots
      obtain ⟨hscope', hdots'⟩ := addImport_congr h hscope hdots i
      exact ih _ _ hscope' hdots'
  exact hfold _ _ _ rfl rfl

structure FileImports.All (P : Surface → Prop) (a : FileImports) : Prop where
  scope : ∀ name t, a.scope.find? name = some (some t) → P t
  dots : ∀ t ∈ a.dots, P t

theorem all_addImport {P : Surface → Prop} {a : FileImports} (ha : a.All P) (i : Token × String × Option String)
    (hi : ∀ t, (imported.find? i.2.1).getD (.error "") = .ok t → P t) : (addImport file imported a i).All P := by
  obtain ⟨literal, path, given⟩ := i
  have hinsert {b : FileImports} (hb : b.All P) (name : String) (o : Option Surface) (ho : ∀ t, o = some t → P t) :
      FileImports.All P { b with scope := b.scope.insert name o } := by
    refine ⟨fun other t ht => ?_, hb.dots⟩
    rw [Table.find?_insert] at ht
    split at ht
    · exact ho t (Option.some.inj ht)
    · exact hb.scope other t ht
  have hmore {b : FileImports} (hb : b.All P) (o : Option Surface) (ho : ∀ t, o = some t → P t) :
      FileImports.All P { b with dots := b.dots ++ o.toList } := by
    refine ⟨hb.scope, fun t ht => ?_⟩
    rcases List.mem_append.mp ht with ht | ht
    · exact hb.dots t ht
    · exact ho t (Option.mem_toList.mp ht)
  unfold addImport
  dsimp only at hi ⊢
  cases hr : (imported.find? path).getD (.error "") with
  | error reason =>
    dsimp only
    have hb : FileImports.All P
      { a with errors := a.errors ++ [⟨file, .source, literal.offset, .badImport path reason⟩] } :=
      ⟨ha.scope, ha.dots⟩
    split
    · exact hb
    · exact hmore hb _ nofun
    · exact hinsert hb _ _ nofun
    · exact hinsert hb _ _ nofun
  | ok s =>
    have ho : ∀ t, (Except.ok s : Imported).toOption = some t → P t :=
      fun t ht => hi t (by rw [hr, Option.some.inj ht])
    dsimp only
    split
    · exact ha
    · exact hmore ha _ ho
    · exact hinsert ha _ _ ho
    · exact hinsert ha _ _ ho

theorem all_foldl {P : Surface → Prop} : ∀ {is : List (Token × String × Option String)} {a : FileImports},
    a.All P → (∀ i ∈ is, ∀ t, (imported.find? i.2.1).getD (.error "") = .ok t → P t) →
    (is.foldl (addImport file imported) a).All P
  | [], _, ha, _ => ha
  | i :: _, _, ha, hi => by
    rw [List.foldl_cons]
    exact all_foldl (all_addImport ha i (hi i List.mem_cons_self)) fun j hj => hi j (List.mem_cons_of_mem _ hj)

theorem find?_importOf (hs : s ∈ sources) {i : Token × String × Option String} (hi : i ∈ importsOf s) :
    ((importsBy f sources).find? i.2.1).getD (.error "") = f i.2.1 := by
  rw [find?_importsBy, if_pos (mem_importPaths.mpr ⟨s, hs, i, hi, rfl⟩)]
  rfl

theorem reached_fileImports (hs : s ∈ sources) :
    (fileImports (importsBy f sources) file s).All fun t => ∃ path, Reached f sources path t := by
  refine all_foldl ⟨fun _ _ h => (nomatch h), fun _ h => (nomatch h)⟩ fun i hi t ht => ?_
  rw [find?_importOf hs hi] at ht
  exact ⟨t.path, .given (mem_importPaths.mpr ⟨s, hs, i, hi, rfl⟩) ht⟩

theorem errors_foldl_addImport : ∀ {is : List (Token × String × Option String)} {a : FileImports},
    (is.foldl (addImport file imported) a).errors = [] ↔
      a.errors = [] ∧ ∀ i ∈ is, ∃ t, (imported.find? i.2.1).getD (.error "") = .ok t
  | [], _ => by simp
  | i :: is, a => by
    rw [List.foldl_cons, errors_foldl_addImport, errors_addImport, List.forall_mem_cons]
    cases (imported.find? i.2.1).getD (.error "") with
    | ok t => simp
    | error reason => simp

theorem errors_fileImports (hs : s ∈ sources) : (fileImports (importsBy f sources) file s).errors = [] ↔
    ∀ i ∈ importsOf s, ∃ t, f i.2.1 = .ok t := by
  rw [fileImports, errors_foldl_addImport]
  constructor
  · intro h i hi
    rw [← find?_importOf (f := f) hs hi]
    exact h.2 i hi
  · intro h
    refine ⟨rfl, fun i hi => ?_⟩
    rw [find?_importOf hs hi]
    exact h i hi

end

end IdlWorkbench.Check
