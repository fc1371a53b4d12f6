import IdlWorkbench.Proofs.Check.Fill
import IdlWorkbench.Proofs.Check.Verdict

/-!
# A clean check covers every type

When a check reports nothing, all declarations of the package have been looked into, each of them once, and each has
left the types that it is made of in the table of its file. No other entry has taken their place, for in a file that
was parsed without a complaint no two types or values have the same range.
-/

namespace IdlWorkbench.Check

/-! ## Tables of files -/

section
variable {new t : TypeTable}

theorem mem_of_mem_insertAll {e : ByteRange × TypeAndValue} : ∀ {new t : TypeTable},
    e ∈ t.insertAll new → e ∈ t ∨ e ∈ new
  | [], _, h => Or.inl h
  | (r, tv) :: new, t, h => by
    rcases mem_of_mem_insertAll (t := t.insert r tv) h with h | h
    · rcases Table.mem_or_eq_of_mem_insert h with h | rfl
      · exact Or.inl h
      · exact Or.inr List.mem_cons_self
    · exact Or.inr (List.mem_cons_of_mem _ h)

theorem contains_insertAll_left {q : ByteRange} : ∀ {new t : TypeTable},
    t.contains q = true → (t.insertAll new).contains q = true
  | [], _, h => h
  | (r, tv) :: new, t, h => contains_insertAll_left (t := t.insert r tv) (by simp [contains_insert, h])

theorem contains_insertAll_right {q : ByteRange} : ∀ {new t : TypeTable},
    new.contains q = true → (t.insertAll new).contains q = true
  | (r, tv) :: new, t, h => by
    show ((t.insert r tv).insertAll new).contains q = true
    by_cases hq : q = r
    · exact contains_insertAll_left (by simp [contains_insert, hq])
    · refine contains_insertAll_right ?_
      simpa [Table.contains, Table.find?, List.lookup_cons, beq_false_of_ne hq] using h

end

/-! ## The invariant -/

/-- What is known in the course of a check: only the names in `started` are being looked into, those in `kept` are
finished, and as long as nothing is reported, a finished name has left its types in the table of its file, which
holds nothing but what declarations left there. -/
structure Covered (env : Env) (started kept : String → Prop) (s : State) : Prop where
  started : ∀ n, s.progress.find? n = some .started → started n
  kept : ∀ n, kept n → s.progress.find? n = some .finished
  files : s.tables.length = env.sources.length
  covers : s.errors = [] → ∀ n d, env.decls.find? n = some d → s.progress.find? n = some .finished →
    ∃ T, s.tables[d.file]? = some T ∧ ∀ e, Spot.type e ∈ d.spots → T.contains e.range = true
  origin : s.errors = [] → ∀ file T, s.tables[file]? = some T → ∀ r tv, (r, tv) ∈ T →
    ∃ n d, env.decls.find? n = some d ∧ d.file = file ∧ ∃ x ∈ d.spots, x.range = r ∧ env.Marks file x tv

section
variable {env : Env} {started kept : String → Prop} {s t : State} {name : String} {d : Declared}

/-- Only progress, the tables of files and reports count. -/
theorem Covered.congr (h : Covered env started kept s) (hprogress : t.progress = s.progress)
    (htables : t.tables = s.tables)
    (herrors : t.errors = [] → s.errors = []) : Covered env started kept t where
  started := hprogress ▸ h.started
  kept := hprogress ▸ h.kept
  files := htables ▸ h.files
  covers hclean := by
    rw [hprogress, htables]
    exact h.covers (herrors hclean)
  origin hclean := by
    rw [htables]
    exact h.origin (herrors hclean)

theorem Covered.aside (h : Covered env started kept s) (ha : Aside s t) : Covered env started kept t := by
  obtain ⟨new, hnew, -⟩ := ha.errors
  exact h.congr (congrArg Core.progress ha.core) ha.tables fun hclean =>
    (List.append_eq_nil_iff.mp (hnew ▸ hclean)).2

theorem Covered.begin (h : Covered env started kept s) (hfresh : s.progress.find? name = none) :
    Covered env (fun n => started n ∨ n = name) kept (s.begin name) where
  started n hn := by
    by_cases he : n = name
    · exact Or.inr he
    · simp only [State.begin, Table.find?_insert, beq_false_of_ne he] at hn
      exact Or.inl (h.started n hn)
  kept n hn := by
    have hf := h.kept n hn
    have he : n ≠ name := by
      rintro rfl
      rw [hfresh] at hf
      cases hf
    simp only [State.begin, Table.find?_insert, beq_false_of_ne he]
    exact hf
  files := h.files
  covers hclean n d hd hf := by
    refine h.covers hclean n d hd ?_
    by_cases he : n = name
    · simp [State.begin, Table.find?_insert, he] at hf
    · simpa [State.begin, Table.find?_insert, he] using hf
  origin := h.origin

/-- A declaration is finished, and its table goes to that of its file. -/
theorem Covered.finish (h : Covered env (fun n => started n ∨ n = name) kept t) (hd : env.decls.find? name = some d)
    (hfile : d.file < env.sources.length) (hfills : t.errors = [] → Fills env d.file d.spots [] t.table)
    (table : TypeTable) :
    Covered env started kept { t with
      table := table
      tables := t.tables.modify d.file (·.insertAll t.table)
      progress := t.progress.insert name .finished } where
  started n hn := by
    have hne : n ≠ name := by
      rintro rfl
      rw [Table.find?_insert_self] at hn
      cases hn
    rw [Table.find?_insert, beq_false_of_ne hne] at hn
    exact (h.started n hn).resolve_right hne
  kept n hn := by
    rw [Table.find?_insert]
    split
    · rfl
    · exact h.kept n hn
  files := by rw [List.length_modify, h.files]
  covers hclean n d' hd' hf := by
    dsimp only at hclean hf ⊢
    by_cases he : n = name
    · obtain rfl := he
      cases hd.symm.trans hd'
      have hin : d.file < t.tables.length := h.files ▸ hfile
      refine ⟨_, by rw [List.getElem?_modify, List.getElem?_eq_getElem hin]; rfl, fun e hspot => ?_⟩
      dsimp only
      rw [if_pos rfl]
      exact contains_insertAll_right ((hfills hclean).entered e hspot)
    · rw [Table.find?_insert, beq_false_of_ne he] at hf
      obtain ⟨T, hT, hcovers⟩ := h.covers hclean n d' hd' hf
      refine ⟨_, by rw [List.getElem?_modify, hT]; rfl, fun e hspot => ?_⟩
      split
      · exact contains_insertAll_left (hcovers e hspot)
      · exact hcovers e hspot
  origin hclean file T hT r tv hmem := by
    dsimp only at hclean hT
    rw [List.getElem?_modify] at hT
    obtain ⟨old, hold, rfl⟩ := Option.map_eq_some_iff.mp hT
    split at hmem
    · rename_i hfile'
      rcases mem_of_mem_insertAll hmem with hmem | hmem
      · exact h.origin hclean file old hold r tv hmem
      · obtain ⟨x, hx, hr, hmarks⟩ := ((hfills hclean).origin r tv hmem).resolve_left (List.not_mem_nil)
        exact ⟨name, d, hd, hfile', x, hx, hr, hfile' ▸ hmarks⟩
    · exact h.origin hclean file old hold r tv hmem

end

/-! ## Declarations -/

section
variable {env : Env} (hfiles : ∀ n d, env.decls.find? n = some d → d.file < env.sources.length)

theorem brings_all {b : Binding} : b.Brings fun _ => True := by
  cases b with
  | package p =>
    cases p with
    | none => trivial
    | some s => exact ⟨fun _ _ => trivial, fun _ _ _ _ _ => trivial⟩
  | type t => exact fun _ _ => trivial
  | const d => exact fun _ _ => trivial
  | _ => trivial

theorem upholds_reportRecursive {started kept : String → Prop} (name : String) :
    Upholds (Covered env started kept) (fun _ => True) (reportRecursive env name) := by
  intro s hs
  unfold reportRecursive
  rw [ends_bind, ends_get]
  split
  · exact ⟨hs, trivial⟩
  · rw [ends_bind, ends_modify]
    have hmarked : Covered env started kept { s with recursive := name :: s.recursive } := hs.congr rfl rfl id
    split
    · exact ⟨hmarked.congr rfl rfl nofun, trivial⟩
    · exact ⟨hmarked, trivial⟩

theorem upholds_underlyingWith {I : State → Prop} {resolve : String → Step Ty}
    (h : ∀ name, Upholds I (fun _ => True) (resolve name)) (t : Ty) :
    Upholds I (fun _ => True) (underlyingWith env resolve t) := by
  unfold underlyingWith
  split
  · split
    · exact h _
    · exact upholds_pure trivial
  · exact upholds_pure trivial

include hfiles

theorem upholds_resolveNamedWithin (fuel : Nat) : ∀ {started kept : String → Prop} (name : String),
    Upholds (Covered env started kept) (fun _ => True) (resolveNamedWithin env fuel name) := by
  induction fuel with
  | zero => exact fun _ => upholds_pure trivial
  | succ fuel ih =>
    intro started kept name s hs
    rw [resolveNamedWithin, ends_bind, ends_get]
    cases hprogress : s.progress.find? name with
    | some state =>
      cases state with
      | finished => exact ⟨hs, trivial⟩
      | started => exact (upholds_reportRecursive name).bind (fun _ _ => upholds_pure trivial) s hs
    | none =>
      dsimp only
      split
      · rename_i file spec hd
        rw [ends_bind, ends_declaring]
        have hbegun := hs.begin hprogress
        have hkept : Upholds (Covered env (fun n => started n ∨ n = name) kept) (fun _ => True)
            (resolveType env (env.site file none) spec.type >>=
              underlyingWith env (resolveNamedWithin env fuel)) := by
          refine Upholds.bind (Q := fun _ => True) (fun s hs => ?_) fun t _ =>
            upholds_underlyingWith (fun name => ih name) t
          exact (ends_resolveType env _ spec.type s).mono fun _ t ht => ⟨hs.aside ht.2.aside, trivial⟩
        have hfills : Cleanly (resolveType env (env.site file none) spec.type >>=
          underlyingWith env (resolveNamedWithin env fuel))
            fun _ s t => Fills env file spec.type.spots s.table t.table :=
          Cleanly.bind (cleanly_resolveType env (env.site file none) spec.type)
            (fun t => spares_underlyingWith (spares_resolveNamedWithin env fuel) t)
            fun _ _ _ _ _ hfills hspared => hspared ▸ hfills
        refine ((hkept _ hbegun).and (hfills _)).mono fun u t hend => ?_
        obtain ⟨⟨ht, -⟩, hfills⟩ := hend
        have hend := ht.finish hd (hfiles name _ hd) (fun hclean => (hfills hclean).2) s.table
        exact ⟨hend.congr rfl rfl id, trivial⟩
      · exact ⟨hs, trivial⟩

theorem covered_setting {started kept : String → Prop} : Setting env (Covered env started kept) fun _ => True where
  aside _ _ ha hs := hs.aside ha
  named _ _ := trivial
  lookup _ _ _ _ := brings_all
  underlying t _ := (upholds_underlyingWith (fun name => upholds_resolveNamedWithin hfiles env.fuel name) t).mono
    fun _ _ _ _ => trivial

theorem upholds_resolveConstWithin (fuel : Nat) : ∀ {started kept : String → Prop} (name : String),
    Upholds (Covered env started kept) (fun _ => True) (resolveConstWithin env fuel name) := by
  induction fuel with
  | zero => exact fun _ => upholds_pure trivial
  | succ fuel ih =>
    intro started kept name s hs
    rw [resolveConstWithin, ends_bind, ends_get]
    cases hprogress : s.progress.find? name with
    | some state =>
      cases state with
      | finished => exact ⟨hs, trivial⟩
      | started =>
        dsimp only
        split
        · exact ⟨hs.congr rfl rfl fun hnil => absurd hnil (List.cons_ne_nil _ _), trivial⟩
        · exact ⟨hs, trivial⟩
    | none =>
      dsimp only
      split
      · rename_i file id type value iota hd
        rw [ends_bind, ends_declaring]
        have hbegun := hs.begin hprogress
        have hkept := (covered_setting hfiles).constDef (fun other => (ih other).mono fun _ _ _ _ _ _ => trivial)
          (env.site file (some iota)) id type value _ hbegun
        have hfills := cleanly_constDef (keeps_resolveConstWithin env fuel) (spares_resolveConstWithin env fuel)
          (env.site file (some iota)) id type value (s.begin name)
        refine (hkept.and hfills).mono fun u t hend => ?_
        obtain ⟨⟨ht, -⟩, hfills⟩ := hend
        have hend := ht.finish hd (hfiles name _ hd) (fun hclean => (hfills hclean).2) s.table
        cases u with
        | none => exact ⟨hend, trivial⟩
        | some c => exact ⟨hend.congr rfl rfl fun h => h, trivial⟩
      · exact ⟨hs, trivial⟩

theorem upholds_ask {started kept : String → Prop} (fuel : Nat) (name : String) (d : Declared) :
    Upholds (Covered env started kept) (fun _ => True) (ask env fuel name d) := by
  cases d with
  | type file spec => exact (upholds_resolveNamedWithin hfiles fuel name).bind fun _ _ => upholds_pure trivial
  | const file id type value iota =>
    exact (upholds_resolveConstWithin hfiles fuel name).bind fun _ _ => upholds_pure trivial

omit hfiles in
/-- Whoever asks for a name that is not being looked into finds it finished afterwards. -/
theorem finished_ask {name : String} {d : Declared} {s : State} (fuel : Nat) (hd : env.decls.find? name = some d)
    (h : s.progress.find? name ≠ some .started) :
    ((ask env (fuel + 1) name d).run s).2.progress.find? name = some .finished := by
  cases hprogress : s.progress.find? name with
  | none =>
    have hcore := (run_ask_fresh (K := fun _ => true) fuel hd hprogress).2.1
    exact (congrArg (·.Finished name) hcore).mpr (Core.finished_finish.mpr (Or.inl rfl))
  | some state =>
    cases state with
    | started => exact absurd hprogress h
    | finished =>
      rw [run_ask_finished fuel hprogress]
      exact hprogress

/-- Once all declarations have been asked for, all of them are finished. -/
theorem covered_askAll : ∀ (ds : Table String Declared) {kept : String → Prop} {s : State},
    (∀ e ∈ ds, env.decls.find? e.1 = some e.2) → Covered env (fun _ => False) kept s →
    Covered env (fun _ => False) (fun n => kept n ∨ n ∈ ds.keys) (askAll env ds s)
  | [], kept, s, _, h => { h with kept := fun n hn => h.kept n (hn.resolve_right (List.not_mem_nil)) }
  | (name, d) :: ds, kept, s, hds, h => by
    have hnot : s.progress.find? name ≠ some .started := h.started name
    have hfinished := finished_ask env.decls.length (hds _ List.mem_cons_self) hnot
    have hasked := (upholds_ask hfiles env.fuel name d s h).1
    have hone : Covered env (fun _ => False) (fun n => kept n ∨ n = name) ((ask env env.fuel name d).run s).2 :=
      { hasked with kept := fun n hn => hn.elim (hasked.kept n) fun he => he ▸ hfinished }
    have ih := covered_askAll ds (fun e he => hds e (List.mem_cons_of_mem _ he)) hone
    refine { ih with kept := fun n hn => ih.kept n ?_ }
    rw [Table.keys, List.map_cons, List.mem_cons, ← or_assoc] at hn
    exact hn

/-! ## The whole package -/

omit hfiles in
theorem covered_checkKeys {started kept : String → Prop} {s : State} (h : Covered env started kept s) :
    Covered env started kept ((checkKeys env).run s).2 := by
  rw [run_checkKeys_eq]
  exact h.congr rfl rfl fun hclean => (List.append_eq_nil_iff.mp hclean).2

omit hfiles in
theorem covered_checkRecursive {started kept : String → Prop} :
    Upholds (Covered env started kept) (fun _ => True) (checkRecursive env) := by
  rw [checkRecursive_eq]
  refine (Upholds.forIn (fun e _ => ?_) _ _).bind fun _ _ => upholds_pure trivial
  unfold recursiveTurn
  refine upholds_get.bind fun s _ => ?_
  split
  · split
    · refine (upholds_reportRecursive e.1).bind fun _ _ => ?_
      exact Upholds.bind (Q := fun _ => True) (fun s hs => ⟨hs.congr rfl rfl id, trivial⟩) fun _ _ =>
        upholds_pure trivial
    · exact upholds_pure trivial
  · exact upholds_pure trivial

/-- When all is resolved, all declarations are finished. -/
theorem covered_resolveAll (hn : env.decls.keys.Nodup) {s : State}
    (h : Covered env (fun _ => False) (fun _ => False) s) :
    Covered env (fun _ => False) (fun n => n ∈ env.decls.keys) ((resolveAll env).run s).2 := by
  have hresolved := covered_askAll hfiles env.decls (fun e he => Table.find?_of_mem hn he) h
  rw [← run_resolveAll] at hresolved
  exact { hresolved with kept := fun n hn => hresolved.kept n (Or.inr hn) }

/-- In the end of a check all declarations are finished. -/
theorem covered_body (hn : env.decls.keys.Nodup) {s : State} (h : Covered env (fun _ => False) (fun _ => False) s) :
    Covered env (fun _ => False) (fun n => n ∈ env.decls.keys) ((body env).run s).2 := by
  have hjudged := covered_checkKeys (covered_checkRecursive _ (covered_resolveAll hfiles hn h)).1
  rw [run_body]
  dsimp only
  split
  · refine covered_checkKeys ((covered_setting hfiles).tagTurns (fun name => ?_) _ hjudged).1
    exact (upholds_resolveConstWithin hfiles env.fuel name).mono fun _ _ _ _ _ _ => trivial
  · exact hjudged

end

section
variable {f : String → Imported} {path name : String} {sources : List Source} {n : String} {d : Declared}

theorem exists_source (h : (environment f path name sources).decls.find? n = some d) :
    ∃ s token, sources[d.file]? = some s ∧ (token, d) ∈ declsOf d.file s := by
  have hentry : (entries sources).find? n = some d := (find?_collect sources n).symm.trans h
  obtain ⟨s, i, token, hs, hd, -⟩ := mem_entries.mp (Table.mem_of_find? hentry)
  obtain rfl : d.file = i := file_of_mem_declsOf hd
  exact ⟨s, token, hs, hd⟩

theorem file_lt (h : (environment f path name sources).decls.find? n = some d) : d.file < sources.length := by
  obtain ⟨s, -, hs, -⟩ := exists_source h
  exact (List.getElem?_eq_some_iff.mp hs).1

theorem covered_start : Covered (environment f path name sources) (fun _ => False) (fun _ => False)
      (start f sources) where
  started _ hn := nomatch hn
  kept _ := False.elim
  files := List.length_map _
  covers _ _ _ _ hf := nomatch hf
  origin _ file T hT r tv hmem := by
    obtain ⟨_, -, rfl⟩ := List.mem_map.mp (List.mem_of_getElem? hT)
    cases hmem

theorem scope_foldl {imported : Table String Imported} {file : Nat} : ∀ {is : List (Token × String × Option String)}
    {a : FileImports}, (is.foldl (addImport file imported) a).errors = [] →
    (∀ other, a.scope.find? other ≠ some none) →
    ∀ other, (is.foldl (addImport file imported) a).scope.find? other ≠ some none
  | [], _, _, ha => ha
  | (literal, path, given) :: is, a, h, ha => by
    refine scope_foldl (a := addImport file imported a (literal, path, given)) h ?_
    obtain ⟨t, ht⟩ := (errors_foldl_addImport.mp h).2 _ List.mem_cons_self
    have hinsert (key other : String) : (a.scope.insert key (some t)).find? other ≠ some none := by
      rw [Table.find?_insert]
      split
      · exact nofun
      · exact ha other
    unfold addImport
    dsimp only at ht ⊢
    rw [ht]
    dsimp only
    split
    · exact ha
    · exact ha
    · exact hinsert _
    · exact hinsert _

/-- Imports that fail are reported. -/
theorem lookup_ne_failed (hclean : (start f sources).errors = []) (file : Nat) (other : String) :
    (environment f path name sources).lookup file other ≠ some (.package none) := by
  intro h
  have hd : (environment f path name sources).decls.find? other = none := by
    cases hd : (environment f path name sources).decls.find? other with
    | none => rfl
    | some d =>
      rw [Env.lookup, hd] at h
      dsimp only at h
      split at h <;> cases h
  rcases lookup_undeclared hd h with ⟨p, hp, hscope⟩ | ⟨_, -, hb | ⟨_, -, hb⟩⟩ | ⟨_, hb, -⟩ | ⟨_, hb, -⟩ | hb
  · cases hp
    rw [scopes_environment] at hscope
    obtain ⟨scope, hscope, hfind⟩ := Option.bind_eq_some_iff.mp hscope
    obtain ⟨s, hs, rfl⟩ := Option.map_eq_some_iff.mp hscope
    have hmem : s ∈ sources := List.mem_of_getElem? hs
    have herrors : (fileImports (importsBy f sources) file s).errors = [] :=
      (errors_fileImports hmem).mpr fun i hi =>
      (start_errors.mp hclean).1 _ (mem_importPaths.mpr ⟨s, hmem, i, hi, rfl⟩)
    exact scope_foldl herrors (fun _ hempty => absurd hempty (Option.some_ne_none _).symm) other hfind
  all_goals cases hb

/-- A clean check has entered each type of a declaration with what it denotes, if no other type or value of its file
has the same range. -/
theorem find?_of_clean (hclean : (check path name sources (importsBy f sources)).errors = [])
    (hd : (environment f path name sources).decls.find? n = some d) {e : TypeExpr} (he : Spot.type e ∈ d.spots)
    (hapart : ∀ n' d', (environment f path name sources).decls.find? n' = some d' → d'.file = d.file →
      ∀ x ∈ d'.spots, x.range = e.range → x = .type e) :
    ∃ T, (check path name sources (importsBy f sources)).types[d.file]? = some T ∧
      T.find? e.range = some ⟨.type, (environment f path name sources).meaning d.file e⟩ ∧
      (environment f path name sources).Denotes d.file e := by
  have hstart : Covered (environment f path name sources) _ _ (start f sources) := covered_start
  have hend := covered_body (fun _ _ => file_lt) (nodup_collect sources) hstart
  have hnone : ((body (environment f path name sources)).run (start f sources)).2.errors = [] := by
    rw [errors_check] at hclean
    exact List.reverse_eq_nil_iff.mp hclean
  obtain ⟨T, hT, hcovers⟩ := hend.covers hnone n d hd (hend.kept n (Table.mem_keys_iff.mpr ⟨d, hd⟩))
  obtain ⟨tv, htv⟩ := Option.isSome_iff_exists.mp (hcovers e he)
  obtain ⟨n', d', hd', hfile, x, hx, hr, hmarks⟩ := hend.origin hnone d.file T hT _ tv (Table.mem_of_find? htv)
  obtain rfl := hapart n' d' hd' hfile x hx hr
  exact ⟨T, hT, hmarks.1 ▸ htv, hmarks.2⟩

end

/-! ## Parsed files -/

/-- A type of which nothing is missing denotes something, if its name does and its package was imported. -/
theorem meaning_ne_invalid {env : Env} {file : Nat} {t : Tree} {e : TypeExpr} (hw : t.Whole)
    (ht : TypeExpr.ofTree? t = some e)
    (h : env.Denotes file e) (himports : ∀ other, env.lookup file other ≠ some (.package none)) :
    env.meaning file e ≠ .invalid := by
  cases t with
  | leaf tok => cases ht
  | node k r cs =>
    cases k with
    | nameRef =>
      obtain ⟨tok, -, rfl⟩ := Option.map_eq_some_iff.mp ht
      exact h
    | selector =>
      obtain ⟨-, qualifier, id, hparts⟩ := (hw.resolve_left (by decide)).1
      simp only [TypeExpr.ofTree?, hparts, Option.some.injEq] at ht
      subst ht
      exact h (himports _)
    | _ =>
      cases ht
      all_goals rintro ⟨⟩

section
variable {f : String → Imported} {path name : String} {sources : List Source}

/-- In a clean check of clear files each type that a name is declared with is in the table of its file. -/
theorem find?_of_place (hclear : ∀ s ∈ sources, Clear s)
    (hclean : (check path name sources (importsBy f sources)).errors = [])
    {file : Nat} {s : Source} (hs : sources[file]? = some s) {spec : Tree} (hspec : spec ∈ s.tree.namedSpecs)
    {n : Tree} (hn : (n, true) ∈ spec.places true) :
    ∃ (table : TypeTable) (t : Ty), (check path name sources (importsBy f sources)).types[file]? = some table ∧
      table.find? n.range = some ⟨.type, t⟩ ∧ t ≠ .invalid := by
  have h : Clear s := hclear s (List.mem_of_getElem? hs)
  have hstart : (start f sources).errors = [] :=
    (cleanly_of_keeps (keeps_body (environment f path name sources)) (start f sources)
      (List.reverse_eq_nil_iff.mp hclean)).1
  -- the node is a type that the declaration of the name is made of
  obtain ⟨token, d, hname, hd, hspots⟩ := exists_declared (i := file) h hspec
  obtain ⟨hplace, x, hx, hspot⟩ := hspots _ hn
  have hself := Tree.place_inherits h.whole h.tiled hplace
  have hrange := Tree.range_of_place h.whole h.tiled hplace hspot
  obtain ⟨e, he, rfl⟩ := Option.map_eq_some_iff.mp hspot
  obtain rfl : d.file = file := file_of_mem_declsOf hd
  have hkeys := (start_errors.mp hstart).2
  have hdecl : (environment f path name sources).decls.find? token.text = some d := by
    rw [decls_environment hkeys]
    exact Table.find?_of_mem hkeys (mem_entries.mpr ⟨s, _, token, hs, hd, hname, rfl⟩)
  -- so it was entered, and nothing else has its range
  obtain ⟨T, hT, hfind, hdenotes⟩ := find?_of_clean hclean hdecl hx fun n' d' hd' hfile y hy hr => by
    obtain ⟨s', token', hs', hd'⟩ := exists_source hd'
    rw [hfile] at hs' hd'
    cases hs.symm.trans hs'
    exact eq_of_range_eq h hd' hd hy hx hr
  exact ⟨T, _, hT, hrange ▸ hfind, meaning_ne_invalid hself.1 he hdenotes (lookup_ne_failed hstart d.file)⟩

end

/-- A clean check covers every type: where files were parsed without complaints and their check reports nothing,
each node that stands where a type is asked for, be it a name, a selector or another type, is in the table of its
file as a type that is not invalid. A spec of the blank name counts if it is a constant that another one repeats
under a name; otherwise it is not looked into. Neither are the braces of literals, which stand in the constants of
such a package only if nothing is known of the type of the literal. -/
theorem type_references_covered (f : String → Imported) (path name : String) (texts : List String)
    (hparse : ∀ text ∈ texts, (parse text).ok = true)
    (hclean : (check path name (texts.map .ofText) (importsBy f (texts.map .ofText))).errors = []) :
    ∀ (file : Nat) (text : String), texts[file]? = some text → ∀ spec ∈ (parse text).tree.namedSpecs,
      ∀ n, (n, true) ∈ spec.places true → ∃ (table : TypeTable) (t : Ty),
        (check path name (texts.map .ofText) (importsBy f (texts.map .ofText))).types[file]? = some table ∧
          table.find? n.range = some ⟨.type, t⟩ ∧ t ≠ .invalid := by
  intro file text htext spec hspec n hn
  have hclear : ∀ s ∈ texts.map Source.ofText, Clear s := by
    intro s hs
    obtain ⟨other, hother, rfl⟩ := List.mem_map.mp hs
    exact clear_ofText (hparse other hother)
  have hsource : (texts.map Source.ofText)[file]? = some (Source.ofText text) := by simp [htext]
  exact find?_of_place hclear hclean hsource hspec hn

/-- Types in a struct, in a signature and in a constant of the blank name that is repeated. -/
def coveredTexts : List String :=
  ["package p\n\nimport \"q\"\n\ntype A struct \x7b\n\tB map[q.T]C\n\x7d\n\ntype C func(A) []*C\n\n" ++
    "const (\n\t_ q.T = 1\n\tX\n)\n"]

theorem type_references_covered_sample :
    (check "p" "p" (coveredTexts.map .ofText) (importsBy sampleImporter (coveredTexts.map .ofText))).errors = [] ∧
      ∀ k ∈ [NodeKind.typeSpec, .constSpec], ∃ text ∈ coveredTexts, ∃ spec ∈ (parse text).tree.namedSpecs,
        spec.isNode k = true ∧ (k = .constSpec → spec.isNamed = false) ∧
        ∃ n, n.isNode .selector = true ∧ (n, true) ∈ spec.places true ∧ ∃ (table : TypeTable) (t : Ty),
          (check "p" "p" (coveredTexts.map .ofText)
              (importsBy sampleImporter (coveredTexts.map .ofText))).types[0]? = some table ∧
            table.find? n.range = some ⟨.type, t⟩ ∧ t ≠ .invalid := by
  have hparse : ∀ text ∈ coveredTexts, (parse text).ok = true := by decide +kernel
  have hclean : (check "p" "p" (coveredTexts.map .ofText)
    (importsBy sampleImporter (coveredTexts.map .ofText))).errors = [] := by
    decide +kernel
  refine ⟨hclean, fun k hk => ?_⟩
  have hselector : ∀ k ∈ [NodeKind.typeSpec, .constSpec], (coveredTexts.any fun text =>
      (parse text).tree.namedSpecs.any fun spec => spec.isNode k && (k != .constSpec || !spec.isNamed) &&
        (spec.places true).any fun p => p.1.isNode .selector && p.2) = true := by decide +kernel
  obtain ⟨text, htext, hspecs⟩ := List.any_eq_true.mp (hselector k hk)
  obtain ⟨spec, hspec, hplaces⟩ := List.any_eq_true.mp hspecs
  simp only [Bool.and_eq_true] at hplaces
  obtain ⟨⟨hkind, hblank⟩, hplaces⟩ := hplaces
  obtain ⟨⟨n, typed⟩, hn, hnode⟩ := List.any_eq_true.mp hplaces
  obtain ⟨hnode, rfl⟩ := Bool.and_eq_true_iff.mp hnode
  have hfirst : coveredTexts[0]? = some text := by rw [List.mem_singleton.mp htext]; rfl
  exact ⟨text, htext, spec, hspec, hkind, fun he => by simpa [he] using hblank, n, hnode, hn,
    type_references_covered sampleImporter "p" "p" coveredTexts hparse hclean 0 text hfirst spec hspec n hn⟩

def unknownSurface : Surface := ⟨"q", "q", [("T", .invalid)], [], []⟩

def unknownImporter (path : String) : Imported := if path = "q" then .ok unknownSurface else .error "not found"

/-- The name `Missing` means nothing in these texts. -/
def blankTexts : List String :=
  ["package p\n\ntype _ Missing\n", "package p\n\nconst _ Missing = 1\n",
    "package p\n\nconst (\n\tX = 1\n\t_ Missing\n\tY\n)\n"]

def bracesText : String := "package p\n\nimport \"q\"\n\nconst C = q.T\x7b[]Missing\x7b\x7d\x7d\n"

/-- Clean checks leave out what the blank name is declared as and no other name repeats, and what stands in the
braces of a literal of whose type nothing is known. -/
theorem clean_checks_leave_out :
    (∀ text ∈ blankTexts, (parse text).ok = true ∧
      (check "p" "p" [.ofText text] (importsBy unknownImporter [.ofText text])).errors = [] ∧
      ∃ d ∈ (parse text).tree.children, ∃ spec ∈ d.children,
        (spec.isNode .typeSpec || spec.isNode .constSpec) = true ∧
        ∃ n, n.isNode .nameRef = true ∧ (n, true) ∈ spec.places true ∧
          ∀ table ∈ (check "p" "p" [.ofText text] (importsBy unknownImporter [.ofText text])).types,
            table.find? n.range = none) ∧
    ((parse bracesText).ok = true ∧
      (check "p" "p" [.ofText bracesText] (importsBy unknownImporter [.ofText bracesText])).errors = [] ∧
      ∃ slice ∈ (parse bracesText).tree.nodes, slice.isNode .sliceType = true ∧ ∃ n ∈ slice.children,
        n.isNode .nameRef = true ∧
        ∀ table ∈ (check "p" "p" [.ofText bracesText] (importsBy unknownImporter [.ofText bracesText])).types,
          table.find? n.range = none) := by
  refine ⟨fun text htext => ?_, by decide +kernel, by decide +kernel, ?_⟩
  · have hclean : ∀ text ∈ blankTexts, (parse text).ok = true ∧
        (check "p" "p" [.ofText text] (importsBy unknownImporter [.ofText text])).errors = [] := by decide +kernel
    have hplace : ∀ text ∈ blankTexts, ((parse text).tree.children.any fun d => d.children.any fun spec =>
        (spec.isNode .typeSpec || spec.isNode .constSpec) && (spec.places true).any fun p => p.2 &&
          p.1.isNode .nameRef && (check "p" "p" [.ofText text] (importsBy unknownImporter [.ofText text])).types.all
            fun table => (table.find? p.1.range).isNone) = true := by decide +kernel
    obtain ⟨d, hd, hspecs⟩ := List.any_eq_true.mp (hplace text htext)
    obtain ⟨spec, hspec, hplaces⟩ := List.any_eq_true.mp hspecs
    obtain ⟨hkind, hplaces⟩ := Bool.and_eq_true_iff.mp hplaces
    obtain ⟨⟨n, typed⟩, hn, hp⟩ := List.any_eq_true.mp hplaces
    simp only [Bool.and_eq_true, List.all_eq_true, Option.isNone_iff_eq_none] at hp
    obtain ⟨⟨rfl, hnode⟩, hnone⟩ := hp
    exact ⟨(hclean text htext).1, (hclean text htext).2, d, hd, spec, hspec, hkind, n, hnode, hn, hnone⟩
  · have hslice : ((parse bracesText).tree.nodes.any fun slice =>
      slice.isNode .sliceType && slice.children.any fun n =>
        n.isNode .nameRef &&
          (check "p" "p" [.ofText bracesText] (importsBy unknownImporter [.ofText bracesText])).types.all
            fun table => (table.find? n.range).isNone) = true := by decide +kernel
    obtain ⟨slice, hslice, hp⟩ := List.any_eq_true.mp hslice
    obtain ⟨hkind, hp⟩ := Bool.and_eq_true_iff.mp hp
    obtain ⟨n, hn, hp⟩ := List.any_eq_true.mp hp
    simp only [Bool.and_eq_true, List.all_eq_true, Option.isNone_iff_eq_none] at hp
    exact ⟨slice, hslice, hkind, n, hn, hp.1, hp.2⟩

end IdlWorkbench.Check
