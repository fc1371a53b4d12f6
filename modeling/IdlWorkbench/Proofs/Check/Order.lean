import IdlWorkbench.Proofs.Check.Reach
import IdlWorkbench.Proofs.Check.Verdict

/-!
# The order of files does not matter

Two checks of the same files in different orders declare the same names and give each the same scope, so their
environments mirror each other.
-/

namespace IdlWorkbench.Check

variable {f : String → Imported} {sources sources' : List Source}

/-! ## Declarations -/

theorem constsOf_inFile (i j : Nat) : ∀ (specs : List ConstSpec) (iota : Nat) (previous : TypeExpr × Expr),
    constsOf j iota previous specs = (constsOf i iota previous specs).map fun e => (e.1, e.2.inFile j)
  | [], _, _ => rfl
  | spec :: specs, iota, previous => by
    simp only [constsOf, List.map_cons]
    exact congrArg₂ List.cons rfl (constsOf_inFile i j specs _ _)

theorem declsOf_inFile (i j : Nat) (s : Source) : declsOf j s = (declsOf i s).map fun e => (e.1, e.2.inFile j) := by
  simp only [declsOf, List.map_append, List.map_map, List.map_flatMap]
  congr 1
  exact congrArg (List.flatMap · _) (funext fun d => constsOf_inFile i j d.specs 0 _)

theorem file_of_mem_declsOf {i : Nat} {s : Source} {e : Token × Declared} (h : e ∈ declsOf i s) : e.2.file = i := by
  rw [declsOf_inFile i i] at h
  obtain ⟨e, -, rfl⟩ := List.mem_map.mp h
  cases e.2 <;> rfl

def named (es : List (Token × Declared)) : Table String Declared :=
  (es.filter (·.1.text ≠ "_")).map fun e => (e.1.text, e.2)

/-- All declarations of a package, whether or not their names are taken. -/
def entries (sources : List Source) : Table String Declared :=
  named (sources.zipIdx.flatMap fun (s, file) => declsOf file s)

theorem foldl_declare : ∀ (es : List (Token × Declared)) (decls : Table String Declared) (errors : List CheckError),
    decls.keys.Nodup →
    ((es.foldl declare (decls, errors)).2 = [] ↔ errors = [] ∧ (Table.keys (decls ++ named es)).Nodup) ∧
      ((es.foldl declare (decls, errors)).2 = [] → (es.foldl declare (decls, errors)).1 = decls ++ named es)
  | [], decls, errors, hn => by simp [named, hn]
  | (name, d) :: es, decls, errors, hn => by
    rw [List.foldl_cons, declare]
    by_cases hblank : name.text = "_"
    · rw [if_pos hblank, show named ((name, d) :: es) = named es by simp [named, hblank]]
      exact foldl_declare es decls errors hn
    · have hnamed : named ((name, d) :: es) = (name.text, d) :: named es := by simp [named, hblank]
      rw [if_neg hblank, hnamed]
      by_cases htaken : decls.contains name.text = true
      · rw [if_pos htaken]
        let error : CheckError := ⟨d.file, .source, name.offset, .redeclared name.text⟩
        have hnot : ¬ (es.foldl declare (decls, errors ++ [error])).2 = [] := by
          simp [(foldl_declare es decls (errors ++ [error]) hn).1]
        refine ⟨⟨fun h => (hnot h).elim, fun h => ?_⟩, fun h => (hnot h).elim⟩
        have hdisjoint := (List.nodup_append.mp (show (decls.keys ++ name.text :: (named es).keys).Nodup by
          simpa [Table.keys] using h.2)).2.2
        exact (hdisjoint _ (Table.contains_iff_mem_keys.mp htaken) _ List.mem_cons_self rfl).elim
      · rw [if_neg htaken]
        have hfresh : decls.find? name.text = none := by simpa [Table.contains] using htaken
        obtain ⟨hiff, heq⟩ := foldl_declare es (decls.insert name.text d) errors (Table.nodup_keys_insert hn _ _)
        rw [Table.insert_of_find?_none d hfresh, List.append_assoc, List.singleton_append] at hiff heq
        rw [Table.insert_of_find?_none d hfresh]
        exact ⟨hiff, heq⟩

theorem collect_errors : (collect sources).2 = [] ↔ (entries sources).keys.Nodup := by
  have h := (foldl_declare (sources.zipIdx.flatMap fun (s, file) => declsOf file s) [] [] List.nodup_nil).1
  rw [List.nil_append] at h
  exact h.trans (and_iff_right rfl)

theorem collect_decls (hn : (entries sources).keys.Nodup) : (collect sources).1 = entries sources :=
  (foldl_declare _ [] [] List.nodup_nil).2 (collect_errors.mpr hn)

theorem find?_foldl_declare (name : String) : ∀ (es : List (Token × Declared)) (decls : Table String Declared)
    (errors : List CheckError), (es.foldl declare (decls, errors)).1.find? name =
    (decls.find? name).or ((named es).find? name)
  | [], decls, errors => by simp [named, Table.find?]
  | (token, d) :: es, decls, errors => by
    rw [List.foldl_cons, declare]
    by_cases hblank : token.text = "_"
    · rw [if_pos hblank, show named ((token, d) :: es) = named es by simp [named, hblank]]
      exact find?_foldl_declare name es decls errors
    · have hcons : (named ((token, d) :: es)).find? name = if name =
        token.text then some d else (named es).find? name := by
        rw [show named ((token, d) :: es) = (token.text, d) :: named es by
          simp [named, hblank], Table.find?, List.lookup_cons]
        by_cases hname : name = token.text
        · simp [hname]
        · simp [hname, beq_false_of_ne hname, Table.find?]
      rw [if_neg hblank, hcons]
      by_cases htaken : decls.contains token.text = true
      · rw [if_pos htaken, find?_foldl_declare name es]
        obtain ⟨e, he⟩ := Option.isSome_iff_exists.mp htaken
        by_cases hname : name = token.text
        · rw [hname, he]
          rfl
        · rw [if_neg hname]
      · rw [if_neg htaken, find?_foldl_declare name es, Table.find?_insert]
        have hfresh : decls.find? token.text = none := by simpa [Table.contains] using htaken
        by_cases hname : name = token.text
        · rw [hname, hfresh]
          simp
        · simp [hname]

theorem nodup_foldl_declare : ∀ {es : List (Token × Declared)} {decls : Table String Declared}
      {errors : List CheckError},
    decls.keys.Nodup → (es.foldl declare (decls, errors)).1.keys.Nodup
  | [], _, _, h => h
  | (token, d) :: es, decls, errors, h => by
    rw [List.foldl_cons, declare]
    split
    · exact nodup_foldl_declare h
    · split
      · exact nodup_foldl_declare h
      · exact nodup_foldl_declare (Table.nodup_keys_insert h _ _)

/-- Of the declarations with one name the first counts. -/
theorem find?_collect (sources : List Source) (name : String) :
    (collect sources).1.find? name = (entries sources).find? name := by
  rw [collect, find?_foldl_declare]
  rfl

theorem nodup_collect (sources : List Source) : (collect sources).1.keys.Nodup := nodup_foldl_declare List.nodup_nil

theorem mem_entries {name : String} {d : Declared} : (name, d) ∈ entries sources ↔
    ∃ s i token, sources[i]? = some s ∧ (token, d) ∈ declsOf i s ∧ token.text ≠ "_" ∧ token.text = name := by
  simp only [entries, named, List.mem_map, List.mem_filter, List.mem_flatMap]
  constructor
  · rintro ⟨⟨token, e⟩, ⟨⟨⟨s, i⟩, hs, he⟩, hblank⟩, heq⟩
    cases heq
    exact ⟨s, i, token, List.mk_mem_zipIdx_iff_getElem?.mp hs, he, of_decide_eq_true hblank, rfl⟩
  · rintro ⟨s, i, token, hs, he, hblank, rfl⟩
    exact ⟨(token, d), ⟨⟨(s, i), List.mk_mem_zipIdx_iff_getElem?.mpr hs, he⟩, decide_eq_true hblank⟩, rfl⟩

theorem keys_entries (sources : List Source) :
    (entries sources).keys = (sources.flatMap fun s => (declsOf 0 s).map (·.1.text)).filter (· ≠ "_") := by
  have hkeys (es : List (Token × Declared)) : (named es).keys = (es.map (·.1.text)).filter (· ≠ "_") := by
    simp only [named, Table.keys, List.map_map, List.filter_map]
    rfl
  have hnames (s : Source) (file : Nat) : (declsOf file s).map (·.1.text) = (declsOf 0 s).map (·.1.text) := by
    rw [declsOf_inFile 0 file, List.map_map]
    rfl
  rw [entries, hkeys, List.map_flatMap]
  simp only [hnames]
  have hindex := List.flatMap_map Prod.fst (fun s : Source => (declsOf 0 s).map (·.1.text)) (l := sources.zipIdx)
  rw [List.zipIdx_map_fst] at hindex
  rw [hindex]

theorem nodup_entries_perm (hp : sources.Perm sources') (hn : (entries sources).keys.Nodup) :
    (entries sources').keys.Nodup := by
  rw [keys_entries] at hn ⊢
  exact ((hp.flatMap_right _).filter _).nodup_iff.mp hn

/-- A declaration in another order of the files. -/
theorem find?_entries_perm (hp : sources.Perm sources') (hn : (entries sources).keys.Nodup) {name : String}
    {d : Declared}
    (h : (entries sources).find? name = some d) : ∃ s j, sources[d.file]? = some s ∧ sources'[j]? = some s ∧
      (entries sources').find? name = some (d.inFile j) := by
  obtain ⟨s, i, token, hs, hd, hblank, hname⟩ := mem_entries.mp (Table.mem_of_find? h)
  obtain ⟨j, hj⟩ := List.mem_iff_getElem?.mp (hp.mem_iff.mp (List.mem_of_getElem? hs))
  have hfile : d.file = i := file_of_mem_declsOf hd
  have hd' : (token, d.inFile j) ∈ declsOf j s := by
    rw [declsOf_inFile i j]
    exact List.mem_map.mpr ⟨(token, d), hd, rfl⟩
  refine ⟨s, j, hfile ▸ hs, hj, Table.find?_of_mem (nodup_entries_perm hp hn) ?_⟩
  exact mem_entries.mpr ⟨s, j, token, hj, hd', hblank, hname⟩

theorem isType_entries_perm (hp : sources.Perm sources') (hn : (entries sources).keys.Nodup) (name : String) :
    ((entries sources').find? name).map Declared.isType = ((entries sources).find? name).map Declared.isType := by
  cases h : (entries sources).find? name with
  | some d =>
    obtain ⟨s, j, -, -, h'⟩ := find?_entries_perm hp hn h
    rw [h']
    cases d <;> rfl
  | none =>
    cases h' : (entries sources').find? name with
    | none => rfl
    | some d =>
      obtain ⟨s, j, -, -, h''⟩ := find?_entries_perm hp.symm (nodup_entries_perm hp hn) h'
      rw [h] at h''
      cases h''

/-! ## Environments -/

def environment (f : String → Imported) (path name : String) (sources : List Source) : Env :=
  let files := sources.zipIdx.map fun (s, file) => fileImports (importsBy f sources) file s
  { path, name, sources
    decls := (collect sources).1
    imports := importedSurfaces (importsBy f sources)
    scopes := files.map (·.scope)
    dots := files.map (·.dots) }

section
variable {path name : String} {i j : Nat} {s : Source}

theorem scopes_environment : (environment f path name sources).scopes[i]? =
    sources[i]?.map fun s => (fileImports (importsBy f sources) i s).scope := by
  simp [environment, List.getElem?_zipIdx, Function.comp_def]

theorem dots_environment : (environment f path name sources).dots[i]? =
    sources[i]?.map fun s => (fileImports (importsBy f sources) i s).dots := by
  simp [environment, List.getElem?_zipIdx, Function.comp_def]

theorem decls_environment (hn : (entries sources).keys.Nodup) :
    (environment f path name sources).decls = entries sources :=
  collect_decls hn

theorem lookup_congr {env₁ env₂ : Env} {other : String}
    (hkind : (env₂.decls.find? other).map Declared.isType = (env₁.decls.find? other).map Declared.isType)
    (hscope : env₂.scopes[j]? = env₁.scopes[i]?) (hdots : env₂.dots[j]? = env₁.dots[i]?) :
    env₂.lookup j other = env₁.lookup i other := by
  rw [Env.lookup, Env.lookup, hscope, Env.dotBinding?, Env.dotBinding?, hdots]
  cases h₁ : env₁.decls.find? other with
  | none =>
    rw [h₁] at hkind
    rw [Option.map_eq_none_iff.mp hkind]
  | some d =>
    rw [h₁] at hkind
    obtain ⟨e, he, htype⟩ := Option.map_eq_some_iff.mp hkind
    rw [he]
    dsimp only
    rw [htype]

/-- Names mean the same in a file, wherever it stands. -/
theorem lookup_environment (hp : sources.Perm sources') (hn : (entries sources).keys.Nodup)
    (hi : sources[i]? = some s)
    (hj : sources'[j]? = some s) (other : String) :
    (environment f path name sources').lookup j other = (environment f path name sources).lookup i other := by
  obtain ⟨hscope, hdots⟩ := fileImports_congr (find?_importsBy_perm (f := f) hp) i j s
  refine lookup_congr ?_ ?_ ?_
  · rw [decls_environment hn, decls_environment (nodup_entries_perm hp hn)]
    exact isType_entries_perm hp hn other
  · rw [scopes_environment, scopes_environment, hi, hj, Option.map_some, Option.map_some, hscope]
  · rw [dots_environment, dots_environment, hi, hj, Option.map_some, Option.map_some, hdots]

theorem known_of_foreign {env : Env} {rs : List NamedRef} (h : ∀ r ∈ rs, r.package ≠ env.path) : env.Known rs :=
  fun r hr hpath => (h r hr hpath).elim

/-- What a name means that the package does not declare brings no type of the package with it. -/
def Binding.Apart (path : String) : Binding → Prop
  | .type t => ∀ r ∈ t.refs, r.package ≠ path
  | .const d => ∀ r ∈ d.type.refs, r.package ≠ path
  | .package (some s) => s.path ≠ path ∧ ∀ name d, s.consts.find? name = some d → ∀ r ∈ d.type.refs, r.package ≠ path
  | _ => True

theorem Binding.Apart.tame {env : Env} : ∀ {b : Binding}, b.Apart env.path → b.Tame env
  | .type _, h | .const _, h => known_of_foreign h
  | .package (some _), h => ⟨h.1, fun name d hd => known_of_foreign (h.2 name d hd)⟩
  | .package none, _ | .localType, _ | .localConst, _ | .iota, _ => trivial

variable (hforeign : ∀ key s, Reached f sources key s → Foreign path s)
include hforeign

theorem apart_environment {other : String} {b : Binding}
    (h : (environment f path name sources).lookup i other = some b) :
    b.Apart path := by
  have hpackage {s : Surface} (hs : ∃ key, Reached f sources key s) : Foreign path s := by
    obtain ⟨key, hs⟩ := hs
    exact hforeign key s hs
  have hconst {s : Surface} {n : String} {d : ConstDef} (hs : Foreign path s) (hd : s.consts.find? n = some d) :
      ∀ r ∈ d.type.refs, r.package ≠ path := hs.consts (n, d) (Table.mem_of_find? hd)
  cases hd : (environment f path name sources).decls.find? other with
  | some d =>
    rw [Env.lookup, hd] at h
    cases h
    split <;> trivial
  | none =>
    rcases lookup_undeclared hd h with ⟨p, rfl, hp⟩ | ⟨s, hs, hb⟩ | ⟨t, rfl, ht⟩ | ⟨d, rfl, ht⟩ | rfl
    · cases p with
      | none => trivial
      | some t =>
        rw [scopes_environment] at hp
        obtain ⟨scope, hscope, hfind⟩ := Option.bind_eq_some_iff.mp hp
        obtain ⟨file, hfile, rfl⟩ := Option.map_eq_some_iff.mp hscope
        have ht := hpackage ((reached_fileImports (List.mem_of_getElem? hfile)).scope other t hfind)
        exact ⟨ht.elsewhere, fun n d hd => hconst ht hd⟩
    · rw [dots_environment] at hs
      have hs : Foreign path s := by
        cases hfile : sources[i]? with
        | none =>
          rw [hfile] at hs
          cases hs
        | some file =>
          rw [hfile] at hs
          exact hpackage ((reached_fileImports (List.mem_of_getElem? hfile)).dots s hs)
      rcases hb with rfl | ⟨d, hd, rfl⟩
      · intro r hr
        rw [Ty.refs, List.mem_singleton] at hr
        rw [hr]
        exact hs.elsewhere
      · exact hconst hs hd
    · rw [Binding.Apart, ht]
      exact fun r hr => absurd hr List.not_mem_nil
    · rw [Binding.Apart, ht]
      exact fun r hr => absurd hr List.not_mem_nil
    · trivial

theorem tame_environment {other : String} {b : Binding}
    (h : (environment f path name sources).lookup i other = some b) :
    b.Tame (environment f path name sources) := (apart_environment hforeign h).tame

/-- Types of other packages do not lead back to the package. -/
theorem outside_environment {r : NamedRef} (hr : r.package ≠ path) :
    ∀ q ∈ ((environment f path name sources).bare.underlying (.named r)).refs, q.package ≠ path := by
  rw [Surface.underlying, Surface.underlying?]
  cases hfind : (environment f path name sources).bare.find? r.package with
  | none => exact fun q hq => absurd hq List.not_mem_nil
  | some s =>
    have hs := hforeign _ s (reached_find? (t := (environment f path name sources).bare) rfl (Ne.symm hr) hfind)
    cases ht : s.types.find? r.name with
    | none =>
      simp only [Option.bind_some, ht, Option.getD_none]
      exact fun q hq => absurd hq List.not_mem_nil
    | some t =>
      simp only [Option.bind_some, ht, Option.getD_some]
      exact hs.types (r.name, t) (Table.mem_of_find? ht)

theorem mirrors_environment (hp : sources.Perm sources') (hc : Coherent f sources)
    (hn : (entries sources).keys.Nodup) :
    Mirrors (environment f path name sources) (environment f path name sources') where
  path := rfl
  name := rfl
  foreign r hr := by
    have hfind := find?_perm (environment f path name sources).bare (environment f path name sources').bare hp
      hc rfl rfl
      (Ne.symm hr) (Ne.symm hr)
    rw [Surface.underlying, Surface.underlying, Surface.underlying?, Surface.underlying?, hfind]
  outside _ hr := known_of_foreign (outside_environment hforeign hr)
  tame _ _ _ h := tame_environment hforeign h
  declared other d hd := by
    rw [decls_environment hn] at hd
    obtain ⟨s, j, hi, hj, hd'⟩ := find?_entries_perm hp hn hd
    rw [decls_environment (nodup_entries_perm hp hn)]
    exact ⟨j, hd', lookup_environment hp hn hi hj⟩
  undeclared other hd := by
    have hkind := isType_entries_perm hp hn other
    rw [decls_environment hn] at hd
    rw [hd] at hkind
    rw [decls_environment (nodup_entries_perm hp hn)]
    exact Option.map_eq_none_iff.mp hkind

end

/-! ## The whole check -/

def start (f : String → Imported) (sources : List Source) : State :=
  { tables := sources.map fun _ => []
    errors :=
      ((sources.zipIdx.map fun (s, file) => fileImports (importsBy f sources) file s).flatMap FileImports.errors ++
      (collect sources).2).reverse }

theorem errors_check (path name : String) : (check path name sources (importsBy f sources)).errors =
    ((body (environment f path name sources)).run (start f sources)).2.errors.reverse := rfl

theorem start_errors : (start f sources).errors = [] ↔
    (∀ path ∈ importPaths sources, ∃ t, f path = .ok t) ∧ (entries sources).keys.Nodup := by
  rw [start, List.reverse_eq_nil_iff, List.append_eq_nil_iff, collect_errors]
  refine and_congr_left fun _ => ?_
  simp only [List.flatMap_eq_nil_iff, List.mem_map]
  constructor
  · intro h path hpath
    obtain ⟨s, hs, i, hi, rfl⟩ := mem_importPaths.mp hpath
    obtain ⟨file, hfile⟩ := List.mem_iff_getElem?.mp hs
    exact (errors_fileImports hs).mp (h _ ⟨(s, file), List.mk_mem_zipIdx_iff_getElem?.mpr hfile, rfl⟩) i hi
  · rintro h _ ⟨⟨s, file⟩, hs, rfl⟩
    have hs : s ∈ sources := List.mem_of_getElem? (List.mk_mem_zipIdx_iff_getElem?.mp hs)
    exact (errors_fileImports hs).mpr fun i hi => h _ (mem_importPaths.mpr ⟨s, hs, i, hi, rfl⟩)

theorem start_errors_perm (hp : sources.Perm sources') (h : (start f sources).errors = []) :
    (start f sources').errors = [] := by
  rw [start_errors] at h ⊢
  exact ⟨fun path hpath => h.1 path ((mem_importPaths_perm hp).mpr hpath), nodup_entries_perm hp h.2⟩

theorem refsOf_perm {t t' : List (String × Surface)} (hp : t'.Perm t) :
    (Surface.refsOf t').length = (Surface.refsOf t).length := by
  have hrefs (t : List (String × Surface)) : Surface.refsOf t = t.flatMap fun e => e.2.refs := by
    induction t with
    | nil => rfl
    | cons e t ih => rw [Surface.refsOf, List.flatMap_cons, ih]
  rw [hrefs, hrefs]
  exact (hp.flatMap_right _).length_eq

theorem check_of_perm {path name : String} (hp : sources.Perm sources') (hc : Coherent f sources)
    (hforeign : ∀ key s, Reached f sources key s → Foreign path s)
    (h : (check path name sources (importsBy f sources)).errors = []) :
    (check path name sources' (importsBy f sources')).errors = [] ∧ ∀ other,
      (check path name sources' (importsBy f sources')).surface.types.find? other =
        (check path name sources (importsBy f sources)).surface.types.find? other ∧
      (check path name sources' (importsBy f sources')).surface.consts.find? other =
        (check path name sources (importsBy f sources)).surface.consts.find? other := by
  rw [errors_check, List.reverse_eq_nil_iff] at h
  have hstart : (start f sources).errors = [] := by
    have hreports := reports_body (environment f path name sources) (start f sources)
    exact List.suffix_nil.mp (h ▸ hreports)
  have hn := (start_errors.mp hstart).2
  have hn' := nodup_entries_perm hp hn
  have hforeign' : ∀ key s, Reached f sources' key s → Foreign path s :=
    fun key s hs => hforeign key s (hs.perm hp.symm)
  have hfiles : ∀ file ∈ sources'.zipIdx, ∃ i, (file.1, i) ∈ sources.zipIdx ∧ ∀ other,
      (environment f path name sources').lookup file.2 other = (environment f path name sources).lookup i other := by
    rintro ⟨s, j⟩ hs
    have hj : sources'[j]? = some s := List.mk_mem_zipIdx_iff_getElem?.mp hs
    obtain ⟨i, hi⟩ := List.mem_iff_getElem?.mp (hp.mem_iff.mpr (List.mem_of_getElem? hj))
    exact ⟨i, List.mk_mem_zipIdx_iff_getElem?.mpr hi, lookup_environment hp hn hi hj⟩
  obtain ⟨herrors, hsame⟩ := body_mirrors (mirrors_environment hforeign hp hc hn)
    (mirrors_environment hforeign' hp.symm (hc.perm hp) hn') (decls_environment (f := f) hn ▸ hn)
    (decls_environment (f := f) hn' ▸ hn') (refsOf_perm (importedSurfaces_perm hp hc)) hfiles rfl rfl rfl
    (start_errors_perm hp hstart) h
  rw [errors_check, herrors]
  exact ⟨rfl, hsame⟩

/-- The order of files does not matter: nothing is wrong in one order if and only if nothing is wrong in the other,
and names then mean the same. The packages in reach must not depend on the one that is checked. -/
theorem check_perm (f : String → Imported) (path name : String) (hp : sources.Perm sources')
    (hc : Coherent f sources)
    (hforeign : ∀ key s, Reached f sources key s → Foreign path s) :
    ((check path name sources (importsBy f sources)).errors = [] ↔
      (check path name sources' (importsBy f sources')).errors = []) ∧
      ((check path name sources (importsBy f sources)).errors = [] → ∀ other,
        (check path name sources' (importsBy f sources')).surface.types.find? other =
          (check path name sources (importsBy f sources)).surface.types.find? other ∧
        (check path name sources' (importsBy f sources')).surface.consts.find? other =
          (check path name sources (importsBy f sources)).surface.consts.find? other) := by
  refine ⟨⟨fun h => (check_of_perm hp hc hforeign h).1, fun h => ?_⟩, fun h => (check_of_perm hp hc hforeign h).2⟩
  exact (check_of_perm hp.symm (hc.perm hp) (fun key s hs => hforeign key s (hs.perm hp.symm)) h).1

def sampleSurface : Surface := ⟨"q", "q", [("T", .basic .int)], [], []⟩

def sampleImporter (path : String) : Imported := if path = "q" then .ok sampleSurface else .error "not found"

/-- Two files, each of which needs the other one. -/
def sampleFiles : List Source :=
  [.ofText "package p\n\nimport \"q\"\n\ntype A q.T\n\nconst D = C\n", .ofText "package p\n\nconst C A = 1\n"]

/-- Where all imports lead to one package, which has none itself, nothing else is in reach. -/
theorem reached_of_only (only : Surface) (hf : ∀ path s, f path = .ok s → s = only) (hnone : only.imports = [])
    {key : String}
    {s : Surface} (h : Reached f sources key s) : key = only.path ∧ s = only := by
  induction h with
  | given _ hs =>
    cases hf _ _ hs
    exact ⟨rfl, rfl⟩
  | listed _ hs ih =>
    rw [ih.2, hnone] at hs
    cases hs
  | own _ ih => exact ⟨by rw [ih.2], ih.2⟩

theorem reached_sampleImporter {key : String} {s : Surface} (h : Reached sampleImporter sources key s) :
    key = "q" ∧ s = sampleSurface := by
  refine reached_of_only sampleSurface (fun path t ht => ?_) rfl h
  rw [sampleImporter] at ht
  split at ht
  · cases ht
    rfl
  · cases ht

theorem check_perm_sample :
    (check "p" "p" sampleFiles (importsBy sampleImporter sampleFiles)).errors = [] ∧
      (check "p" "p" sampleFiles.reverse (importsBy sampleImporter sampleFiles.reverse)).errors = [] ∧ ∀ other,
        (check "p" "p" sampleFiles.reverse (importsBy sampleImporter sampleFiles.reverse)).surface.types.find?
          other =
          (check "p" "p" sampleFiles (importsBy sampleImporter sampleFiles)).surface.types.find? other ∧
        (check "p" "p" sampleFiles.reverse (importsBy sampleImporter sampleFiles.reverse)).surface.consts.find?
          other =
          (check "p" "p" sampleFiles (importsBy sampleImporter sampleFiles)).surface.consts.find? other := by
  have hnone : (check "p" "p" sampleFiles (importsBy sampleImporter sampleFiles)).errors = [] :=
    List.isEmpty_iff.mp (by decide +kernel)
  have hc : Coherent sampleImporter sampleFiles := fun _ s t hs ht =>
    (reached_sampleImporter hs).2.trans (reached_sampleImporter ht).2.symm
  have hforeign : ∀ key s, Reached sampleImporter sampleFiles key s → Foreign "p" s := by
    intro key s hs
    rw [(reached_sampleImporter hs).2]
    exact ⟨by decide, by decide, by decide⟩
  obtain ⟨hiff, hsame⟩ := check_perm sampleImporter "p" "p" (List.reverse_perm sampleFiles).symm hc hforeign
  exact ⟨hnone, hiff.mp hnone, hsame hnone⟩

end IdlWorkbench.Check
