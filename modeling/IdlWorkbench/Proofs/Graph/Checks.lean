import IdlWorkbench.Proofs.Graph.Sited
import IdlWorkbench.Proofs.Grammar.Imports
import IdlWorkbench.Proofs.Grammar.Lossless
import Mathlib.Data.List.Perm.Subperm

/-!
# Analyses end

An analysis has imports analysed on the way, and these have theirs. The packages that wait for an import are on a
stack; each of them is there once, since what is being analysed is never analysed again, and each of them is one
that some import path in some file can stand for. So the stack is bounded by the texts of the files, and an
analysis ends by itself.

`checks` lists the analyses that one leads to. In a single module every package is among them at most once, as
long as only IDL files are edited: then nothing that is known of a package gets lost while others are analysed.
-/

namespace IdlWorkbench

open IdlWorkbench.Path

/-! ## Import paths in a text -/

namespace Tree

theorem mem_leaves_of_child {t c : Tree} {tok : Token} (hc : c ∈ t.children)
    (h : tok ∈ c.leaves) : tok ∈ t.leaves := by
  cases t with
  | leaf _ => cases hc
  | node k r ts =>
    rw [leaves]
    exact mem_leavesOf.mpr ⟨c, hc, h⟩

theorem mem_leaves_of_tokenIn? {k : NodeKind} {t : Tree} {tok : Token} (h : tokenIn? k t.children = some tok) :
    tok ∈ t.leaves := by
  obtain ⟨c, hc, hs⟩ := Option.bind_eq_some_iff.mp h
  obtain ⟨l, hl, htok⟩ := List.mem_filterMap.mp (List.mem_of_find?_eq_some hs)
  refine mem_leaves_of_child (List.mem_of_find?_eq_some hc) (mem_leaves_of_child hl ?_)
  cases l with
  | leaf token =>
    cases htok
    simp [leaves]
  | node => cases htok

end Tree

namespace Check

/-- The literal of an import is a token of the file. -/
theorem mem_leaves_of_importsOf {s : Source} {i : Token × String × Option String} (h : i ∈ importsOf s) :
    i.1 ∈ s.tree.leaves ∧ Token.unquote i.1.text = some i.2.1 := by
  obtain ⟨spec, hspec, hi⟩ := List.mem_filterMap.mp h
  obtain ⟨literal, hliteral, hi⟩ := Option.bind_eq_some_iff.mp hi
  obtain ⟨path, hpath, hi⟩ := Option.bind_eq_some_iff.mp hi
  cases hi
  rw [ImportSpec.importPath?, hliteral] at hpath
  refine ⟨?_, hpath⟩
  obtain ⟨decl, hdecl, hspec⟩ := List.mem_flatMap.mp hspec
  obtain ⟨top, htop, hdecl⟩ := List.mem_filterMap.mp hdecl
  obtain ⟨c, hc, htop⟩ := exists_of_mem_entries htop
  refine Tree.mem_leaves_of_child hc ?_
  unfold TopLevel.ofTree? at htop
  split at htop
  · cases htop
    cases hdecl
  · rename_i range children
    cases htop
    cases hdecl
    obtain ⟨c', hinside, hspec⟩ := exists_of_mem_specs hspec
    unfold ImportSpec.ofTree? at hspec
    split at hspec
    · cases hspec
      exact Tree.mem_leaves_of_child (t := .node .importDecl range children)
        hinside (Tree.mem_leaves_of_tokenIn? hliteral)
    · cases hspec
  · cases htop
    cases hdecl
  · cases htop
    cases hdecl
  · cases htop

theorem length_tokenize_le (text : String) : (Token.tokenize text).length ≤ text.utf8ByteSize := by
  have hbytes : ∀ ts : List Token, (∀ t ∈ ts, t.text ≠ "") →
      ts.length ≤ (String.join (ts.map Token.text)).utf8ByteSize := by
    intro ts
    induction ts with
    | nil => simp
    | cons t ts ih =>
      intro h
      have hpos : 0 < t.text.utf8ByteSize := by
        rw [Nat.pos_iff_ne_zero, ne_eq, String.utf8ByteSize_eq_zero_iff]
        exact h t (by simp)
      have hrest := ih fun t' ht' => h t' (List.mem_cons_of_mem _ ht')
      simp only [List.length_cons, List.map_cons, String.join_cons, String.utf8ByteSize_append]
      omega
  have h := hbytes (Token.tokenize text) Token.ne_empty_of_mem_tokenize
  rw [Token.join_tokenize] at h
  exact h

/-- A text has no more import paths than bytes. -/
theorem length_importPaths_le (text : String) : (importPaths [.ofText text]).length ≤ text.utf8ByteSize := by
  have hcovers := Grammar.run_covers .sourceFile Grammar.sourceFile_conserves Grammar.sourceFile_rest text
  have hsub : importPaths [.ofText text] ⊆ (Token.tokenize text).filterMap fun t => Token.unquote t.text := by
    intro path hpath
    obtain ⟨s, hs, i, hi, rfl⟩ := mem_importPaths.mp hpath
    rw [List.mem_singleton.mp hs] at hi
    obtain ⟨htok, hval⟩ := mem_leaves_of_importsOf hi
    have htree : (Source.ofText text).tree.leaves = Token.tokenize text := hcovers.leaves
    rw [htree] at htok
    exact List.mem_filterMap.mpr ⟨i.1, htok, hval⟩
  calc (importPaths [.ofText text]).length
      ≤ ((Token.tokenize text).filterMap fun t => Token.unquote t.text).length :=
        ((nodup_importPaths _).subperm hsub).length_le
    _ ≤ (Token.tokenize text).length := List.length_filterMap_le _ _
    _ ≤ text.utf8ByteSize := length_tokenize_le text

end Check

namespace Graph

variable {disk : Disk} {m : ModuleRoot} {g g' : Graph}

/-! ## Packages that can be analysed -/

/-- The packages that an import path can stand for, while others are loaded and analysed. -/
def targets (disk : Disk) (g : Graph) (importPath : String) : List String :=
  (match g.memo.find? importPath with
    | some [path] => [path]
    | _ => []) ++ Listed.candidates disk g.layout importPath

theorem length_targets_le (importPath : String) : (g.targets disk importPath).length ≤ disk.entries.length + 2 := by
  have hcandidates : (Listed.candidates disk g.layout importPath).length ≤ disk.entries.length + 1 :=
    Listed.length_candidates_le importPath
  unfold targets
  rw [List.length_append]
  split
  · rw [List.length_singleton]
    omega
  · rw [List.length_nil]
    omega

/-- A package, and what the import paths in all files can stand for. -/
def scope (disk : Disk) (g : Graph) (path : String) : List String :=
  path :: (g.texts disk).flatMap fun text => (Check.importPaths [.ofText text]).flatMap (g.targets disk)

theorem length_scope_le (path : String) : (g.scope disk path).length ≤ g.size disk + 1 := by
  have hpaths : ∀ paths : List String, (paths.flatMap (g.targets disk)).length ≤
    paths.length * (disk.entries.length + 2) := by
    intro paths
    induction paths with
    | nil => simp
    | cons p paths ih =>
      have hone : (g.targets disk p).length ≤ disk.entries.length + 2 := length_targets_le p
      rw [List.flatMap_cons, List.length_append, List.length_cons, Nat.succ_mul]
      omega
  have htexts : ∀ texts : List String,
      (texts.flatMap fun text => (Check.importPaths [.ofText text]).flatMap (g.targets disk)).length ≤
        texts.foldr (fun text n => text.utf8ByteSize + n) 0 * (disk.entries.length + 2) := by
    intro texts
    induction texts with
    | nil => simp
    | cons text texts ih =>
      have hone := Nat.le_trans (hpaths (Check.importPaths [.ofText text]))
        (Nat.mul_le_mul_right (disk.entries.length + 2) (Check.length_importPaths_le text))
      rw [List.flatMap_cons, List.length_append, List.foldr_cons, Nat.add_mul]
      omega
  have h := htexts (g.texts disk)
  rw [scope, List.length_cons, size]
  omega

theorem mem_texts_of_read {file : Path} {text : String} (h : g.read disk file = .ok text) : text ∈ g.texts disk := by
  unfold Graph.read at h
  unfold texts
  rw [List.mem_append]
  cases hheld : g.held.find? file with
  | some held =>
    rw [hheld] at h
    cases h
    exact Or.inr (Table.mem_values_of_find? hheld)
  | none =>
    rw [hheld] at h
    left
    obtain ⟨key, hkey⟩ := Disk.mem_entries_of_read h
    exact List.mem_filterMap.mpr ⟨_, hkey, rfl⟩

/-! ## What one analysis asks for -/

/-- The package that an import has analysed, and the graph in which it is. -/
def asked? (disk : Disk) (g : Graph) (importPath : String) : Option (String × Graph) :=
  if g.layout.isStandard importPath then none
  else
    match (loadOne disk importPath).run.run g with
    | (.error _, _) => none
    | (.ok path, g') =>
      if (g'.packages.find? path).any fun n => n.listErrors.isEmpty && n.state ≠ .building && n.analysis.isNone then
        some (path, g')
      else none

def afterImports (disk : Disk) (analyse : String → StateM Graph Unit) (paths : List String) (g : Graph) : Graph :=
  paths.foldl (fun g path => ((importPackage disk analyse path).run.run g).2) g

def callsOf (disk : Disk) (analyse : String → StateM Graph Unit) : List String → Graph → List (String × Graph)
  | [], _ => []
  | path :: rest, g =>
    (g.asked? disk path).toList ++ callsOf disk analyse rest (afterImports disk analyse [path] g)

/-- The import paths that an analysis of a package looks up: none if something is wrong with its files. -/
def lookups (disk : Disk) (g : Graph) (n : PackageNode) : List String :=
  let parsed := n.files.map (ParsedFile.ofPath disk g)
  if (n.listingErrors ++ parsed.flatMap (·.errors disk g) ++ Analysis.nameErrors parsed).isEmpty then
    Check.importPaths (parsed.map (·.source))
  else []

def stacked (g : Graph) (path : String) : Graph :=
  { g.startChecking path with building := path :: g.building }

def calls (disk : Disk) (analyse : String → StateM Graph Unit) (path : String) (g : Graph) : List (String × Graph) :=
  match g.packages.find? path with
  | none => []
  | some n => callsOf disk analyse ((g.startChecking path).lookups disk n) (g.stacked path)

/-- The analyses that an analysis consists of, each with the graph that it starts from. -/
def checksWithin (disk : Disk) : (fuel : Nat) → (path : String) → Graph → List (String × Graph)
  | 0, _, _ => []
  | fuel + 1, path, g =>
    (path, g) :: (calls disk (analyseWithin disk fuel) path g).flatMap fun c => checksWithin disk fuel c.1 c.2

def checks (disk : Disk) (path : String) (g : Graph) : List (String × Graph) :=
  checksWithin disk (g.size disk + 2) path g

/-! ## An analysis depends on others only where it asks for them -/

section
variable {a b : String → StateM Graph Unit}

theorem importPackage_congr {importPath : String}
    (h : ∀ c ∈ g.asked? disk importPath, (a c.1).run c.2 = (b c.1).run c.2) :
    (importPackage disk a importPath).run.run g = (importPackage disk b importPath).run.run g := by
  apply run_eq_of_ends
  intro Q hb
  rw [ends_importPackage] at hb ⊢
  by_cases hstandard : g.layout.isStandard importPath = true
  · rw [if_pos hstandard] at hb ⊢
    exact hb
  · rw [if_neg hstandard] at hb ⊢
    unfold asked? at h
    rw [if_neg hstandard] at h
    unfold Ends at hb ⊢
    generalize (loadOne disk importPath).run.run g = loaded at h hb ⊢
    obtain ⟨r, g'⟩ := loaded
    cases r with
    | error e => exact hb
    | ok path =>
      cases hn : g'.packages.find? path with
      | none =>
        simp only [hn] at hb ⊢
        exact hb
      | some n =>
        simp only [hn] at h hb ⊢
        cases hl : n.listErrors with
        | cons e _ =>
          simp only [hl] at hb ⊢
          exact hb
        | nil =>
          simp only [hl] at h hb ⊢
          by_cases hs : n.state = .building
          · rw [if_pos hs] at hb ⊢
            exact hb
          · rw [if_neg hs] at hb ⊢
            by_cases hu : n.analysis.isNone = true
            · rw [if_pos hu] at hb ⊢
              have hrun := h (path, g') (by simp [hl, hs, hu])
              rw [hrun]
              exact hb
            · rw [if_neg hu] at hb ⊢
              exact hb

def importAll (disk : Disk) (analyse : String → StateM Graph Unit) (paths : List String) :
    StateM Graph (List (String × Imported)) :=
  paths.mapM fun path => do
    let r ← (importPackage disk analyse path).run
    return (path, r.mapError ImportError.message)

theorem ends_importAll_cons {path : String} {rest : List String} {Q : List (String × Imported) → Graph → Prop} :
    Ends (importAll disk a (path :: rest)) g Q ↔ Ends (importPackage disk a path).run g fun r t =>
      Ends (importAll disk a rest) t fun later u => Q ((path, r.mapError ImportError.message) :: later) u := by
  unfold importAll
  rw [List.mapM_cons, ends_bind, ends_bind]
  exact ends_congr fun r t => by rw [ends_pure, ends_bind]; exact Iff.rfl

theorem importAll_congr {paths : List String}
    (h : ∀ c ∈ callsOf disk a paths g, (a c.1).run c.2 = (b c.1).run c.2) :
    callsOf disk a paths g = callsOf disk b paths g ∧
      (importAll disk a paths).run g = (importAll disk b paths).run g := by
  induction paths generalizing g with
  | nil => simp only [callsOf, importAll, List.mapM_nil, and_self]
  | cons path rest ih =>
    have hone : (importPackage disk a path).run.run g = (importPackage disk b path).run.run g :=
      importPackage_congr fun c hc => h c (List.mem_append_left _ (Option.mem_toList.mpr hc))
    have hafter : afterImports disk a [path] g = afterImports disk b [path] g := congrArg Prod.snd hone
    obtain ⟨hcalls, hrest⟩ := ih fun c hc => h c (List.mem_append_right _ hc)
    refine ⟨by rw [callsOf, callsOf, hcalls, hafter], run_eq_of_ends fun Q hb => ?_⟩
    rw [ends_importAll_cons] at hb ⊢
    rw [hafter] at hrest
    unfold Ends at hb ⊢
    dsimp only at hb ⊢
    have hnext : ((importPackage disk b path).run.run g).2 = afterImports disk b [path] g := rfl
    rw [hone, hnext, hrest]
    exact hb

theorem analyseNode_congr {n : PackageNode}
    (h : ∀ c ∈ callsOf disk a (g.lookups disk n) { g with building := n.path :: g.building },
      (a c.1).run c.2 = (b c.1).run c.2) :
    callsOf disk a (g.lookups disk n) { g with building := n.path :: g.building } =
        callsOf disk b (g.lookups disk n) { g with building := n.path :: g.building } ∧
      (analyseNode disk a n).run g = (analyseNode disk b n).run g := by
  obtain ⟨hcalls, hall⟩ := importAll_congr h
  refine ⟨hcalls, run_eq_of_ends fun Q hb => ?_⟩
  unfold analyseNode at hb ⊢
  simp only [ends_bind, ends_get] at hb ⊢
  unfold lookups at hall
  dsimp only at hall
  split
  · rename_i herrors
    rw [if_pos herrors] at hb hall
    unfold checkTypes at hb ⊢
    simp only [ends_bind, ends_modify] at hb ⊢
    unfold importAll at hall
    unfold Ends at hb ⊢
    rw [hall]
    exact hb
  · rename_i herrors
    rw [if_neg herrors] at hb
    exact hb

end

/-! ## The stack -/

/-- What is asked for while others are analysed: a package that nobody knows anything about. -/
structure Asked (disk : Disk) (g : Graph) (importPath : String) (c : String × Graph) : Prop where
  sited : Sited c.2
  moves : Moves disk g c.2
  target : c.1 ∈ g.targets disk importPath
  unknown : ∃ n, c.2.packages.find? c.1 = some n ∧ n.state ≠ .building ∧ n.analysis = none

theorem mem_targets {importPath path : String} (h : g.memo.find? importPath = some [path] ∨
    path ∈ Listed.candidates disk g.layout importPath) : path ∈ g.targets disk importPath := by
  unfold targets
  rw [List.mem_append]
  rcases h with h | h
  · rw [h]
    simp
  · exact Or.inr h

theorem Moves.targets_subset (h : Moves disk g g') (importPath : String) :
    g'.targets disk importPath ⊆ g.targets disk importPath := by
  intro path hpath
  apply mem_targets
  unfold targets at hpath
  rw [h.layout, List.mem_append] at hpath
  rcases hpath with hpath | hpath
  · split at hpath
    · rename_i other hmemo
      rw [List.mem_singleton.mp hpath]
      exact (h.memo importPath [other] hmemo).imp_right fun hc => hc other (by simp)
    · cases hpath
  · exact Or.inr hpath

/-- A package that is asked for has just been loaded. -/
theorem of_asked? {importPath : String} {c : String × Graph} (hc : c ∈ g.asked? disk importPath)
    {Q : Except LoadError String → Graph → Prop} (h : Ends (loadOne disk importPath).run g Q) :
    Q (.ok c.1) c.2 ∧ ∃ n, c.2.packages.find? c.1 = some n ∧ n.state ≠ .building ∧ n.analysis = none := by
  have hload := ends_iff.mp h
  unfold asked? at hc
  split at hc
  · cases hc
  · generalize (loadOne disk importPath).run.run g = loaded at hload hc
    obtain ⟨r, g'⟩ := loaded
    cases r with
    | error e => cases hc
    | ok path =>
      dsimp only at hc
      split at hc
      · rename_i hany
        cases hc
        obtain ⟨n, hn, hcond⟩ := (Option.any_eq_true _ _).mp hany
        simp only [Bool.and_eq_true, decide_eq_true_eq, Option.isNone_iff_eq_none] at hcond
        exact ⟨hload, n, hn, hcond.1.2, hcond.2⟩
      · cases hc

section
variable (hd : disk.WellNamed)
include hd

theorem Sited.asked (h : Sited g) {importPath : String} {c : String × Graph} (hc : c ∈ g.asked? disk importPath) :
    Asked disk g importPath c := by
  obtain ⟨⟨hs, hm, hr⟩, hunknown⟩ := of_asked? hc (h.ends_loadOne hd importPath)
  exact ⟨hs, hm, mem_targets (hr c.1 rfl), hunknown⟩

theorem Sited.afterImport (h : Sited g) (fuel : Nat) (importPath : String) :
    Sited (afterImports disk (analyseWithin disk fuel) [importPath] g) ∧
      Moves disk g (afterImports disk (analyseWithin disk fuel) [importPath] g) :=
  h.ends_importPackage hd (sited_analyseWithin hd fuel) importPath

theorem Sited.calls (fuel : Nat) {paths : List String} (h : Sited g) {c : String × Graph}
    (hc : c ∈ callsOf disk (analyseWithin disk fuel) paths g) : ∃ importPath ∈ paths, Asked disk g importPath c := by
  induction paths generalizing g with
  | nil => cases hc
  | cons path rest ih =>
    rcases List.mem_append.mp hc with hc | hc
    · exact ⟨path, by simp, h.asked hd (Option.mem_toList.mp hc)⟩
    · obtain ⟨h', hmoves⟩ := h.afterImport hd fuel path
      obtain ⟨importPath, hmem, hasked⟩ := ih h' hc
      refine ⟨importPath, List.mem_cons_of_mem _ hmem, hasked.sited, hmoves.trans hasked.moves, ?_, hasked.unknown⟩
      exact hmoves.targets_subset importPath hasked.target

end

/-- What holds when an analysis starts on behalf of one that started with `top` in `g₀`. -/
structure Awaited (disk : Disk) (g₀ : Graph) (top : String) (path : String) (g : Graph) : Prop where
  sited : Sited g
  held : g.held = g₀.held
  targets : ∀ importPath, g.targets disk importPath ⊆ g₀.targets disk importPath
  stack : ∀ p ∈ g.building, ∃ n, g.packages.find? p = some n ∧ n.state = .building
  free : ∀ n, g.packages.find? path = some n → n.state ≠ .building
  nodup : g.building.Nodup
  within : ∀ p ∈ path :: g.building, p ∈ g₀.scope disk top

section
variable {g₀ : Graph} {top path : String}

theorem Awaited.nodup_stack (h : Awaited disk g₀ top path g) : (path :: g.building).Nodup := by
  refine List.nodup_cons.mpr ⟨fun hmem => ?_, h.nodup⟩
  obtain ⟨n, hn, hs⟩ := h.stack path hmem
  exact h.free n hn hs

theorem AtRest.awaited (h : AtRest g) (path : String) : Awaited disk g path path g := by
  refine ⟨h.sited, rfl, fun _ => List.Subset.refl _, ?_, h.states path, ?_, ?_⟩
  · simp [h.idle]
  · simp [h.idle]
  · simp [h.idle, scope]

theorem mem_lookups {n : PackageNode} {importPath : String} (h : importPath ∈ g.lookups disk n) :
    ∃ text ∈ g.texts disk, importPath ∈ Check.importPaths [.ofText text] := by
  unfold lookups at h
  dsimp only at h
  split at h
  · have hread : ∀ file text, True → g.read disk file = .ok text → ∀ path ∈ Check.importPaths [.ofText text],
        ∃ text ∈ g.texts disk, path ∈ Check.importPaths [.ofText text] := fun file text _ hread path hpath =>
      ⟨text, mem_texts_of_read hread, hpath⟩
    exact forall_importPaths (fun _ _ => trivial) hread importPath h
  · cases h

/-- An analysis that is asked for goes on the stack, on top of the package that asks. -/
theorem Awaited.call (hd : disk.WellNamed) (h : Awaited disk g₀ top path g) {fuel : Nat} {c : String × Graph}
    (hc : c ∈ calls disk (analyseWithin disk fuel) path g) :
    Awaited disk g₀ top c.1 c.2 ∧ c.2.building = path :: g.building := by
  unfold calls at hc
  split at hc
  · cases hc
  · rename_i n hn
    have hstart : Sited (g.stacked path) := (h.sited.startChecking path).congr rfl rfl rfl
    obtain ⟨importPath, hmem, hasked⟩ := hstart.calls hd fuel hc
    have hbuilding : c.2.building = path :: g.building := hasked.moves.building
    have hstack : ∀ p ∈ path :: g.building, ∃ n, (g.stacked path).packages.find? p = some n ∧
        n.state = .building := by
      intro p hp
      change ∃ n, (g.startChecking path).packages.find? p = some n ∧ n.state = .building
      by_cases heq : p = path
      · subst heq
        exact ⟨_, find?_startChecking hn, rfl⟩
      · rw [startChecking, find?_modifyPackage, if_neg heq]
        exact h.stack p ((List.mem_cons.mp hp).resolve_left heq)
    have htarget : c.1 ∈ g₀.targets disk importPath := h.targets importPath hasked.target
    have hscope : c.1 ∈ g₀.scope disk top := by
      obtain ⟨text, htext, hpath⟩ := mem_lookups hmem
      have htext : text ∈ g₀.texts disk := by
        unfold texts at htext ⊢
        rw [← h.held]
        exact htext
      refine List.mem_cons_of_mem _
        (List.mem_flatMap.mpr ⟨text, htext, List.mem_flatMap.mpr ⟨importPath, hpath, htarget⟩⟩)
    refine ⟨⟨hasked.sited, hasked.moves.held.trans h.held, fun p => ?_, ?_, ?_, ?_, ?_⟩, hbuilding⟩
    · exact List.Subset.trans (hasked.moves.targets_subset p) (h.targets p)
    · rw [hbuilding]
      intro p hp
      obtain ⟨old, hold, hs⟩ := hstack p hp
      obtain ⟨new, hnew, hages⟩ := hasked.moves.kept p old hold
      rw [hs] at hages
      refine ⟨new, hnew, hages.resolve_right fun hlost => ?_⟩
      cases hlost.1
    · intro n' hn'
      obtain ⟨n'', hn'', hs, -⟩ := hasked.unknown
      rw [hn'] at hn''
      cases hn''
      exact hs
    · rw [hbuilding]
      exact h.nodup_stack
    · intro p hp
      rcases List.mem_cons.mp hp with rfl | hp
      · exact hscope
      · rw [hbuilding] at hp
        exact h.within p hp

/-- With as much fuel as there are packages that are not on the stack, an analysis does not end for want of fuel. -/
theorem Awaited.enough (hd : disk.WellNamed) {fuel more : Nat} (h : Awaited disk g₀ top path g)
    (hfuel : (g₀.scope disk top).length ≤ fuel + g.building.length) (hmore : fuel ≤ more) :
    (analyseWithin disk more path).run g = (analyseWithin disk fuel path).run g ∧
      checksWithin disk more path g = checksWithin disk fuel path g := by
  induction fuel generalizing more path g with
  | zero =>
    have hlength := (h.nodup_stack.subperm h.within).length_le
    rw [List.length_cons] at hlength
    omega
  | succ fuel ih =>
    obtain ⟨more, rfl⟩ : ∃ k, more = k + 1 := ⟨more - 1, by omega⟩
    have hcalls : ∀ c ∈ calls disk (analyseWithin disk fuel) path g,
        (analyseWithin disk more c.1).run c.2 = (analyseWithin disk fuel c.1).run c.2 ∧
          checksWithin disk more c.1 c.2 = checksWithin disk fuel c.1 c.2 := by
      intro c hc
      obtain ⟨hawaited, hbuilding⟩ := h.call hd hc
      apply ih hawaited
      · rw [hbuilding, List.length_cons]
        omega
      · omega
    have hrun : (analyseWithin disk (more + 1) path).run g = (analyseWithin disk (fuel + 1) path).run g ∧
        calls disk (analyseWithin disk more) path g = calls disk (analyseWithin disk fuel) path g := by
      unfold calls at hcalls ⊢
      cases hn : g.packages.find? path with
      | none =>
        refine ⟨run_eq_of_ends fun Q hb => ?_, rfl⟩
        rw [ends_analyseWithin, hn] at hb ⊢
        exact hb
      | some n =>
        rw [hn] at hcalls
        have hstacked : { g.startChecking path with building := n.path :: (g.startChecking path).building } =
            g.stacked path := by
          rw [(h.sited.nodes path n hn).path]
          rfl
        obtain ⟨heq, hnode⟩ := analyseNode_congr (g := g.startChecking path) (n := n) fun c hc =>
          (hcalls c (hstacked ▸ hc)).1.symm
        rw [hstacked] at heq
        refine ⟨run_eq_of_ends fun Q hb => ?_, heq.symm⟩
        rw [ends_analyseWithin, hn] at hb ⊢
        dsimp only at hb ⊢
        unfold Ends at hb ⊢
        rw [← hnode]
        exact hb
    refine ⟨hrun.1, ?_⟩
    rw [checksWithin, checksWithin, hrun.2]
    congr 1
    exact List.flatMap_congr fun c hc => (hcalls c hc).2

/-- Wherever an analysis leads, the packages on the stack are distinct. -/
theorem Awaited.forall_checks (hd : disk.WellNamed) {fuel : Nat} (h : Awaited disk g₀ top path g) :
    ∀ c ∈ checksWithin disk fuel path g, (c.1 :: c.2.building).Nodup := by
  induction fuel generalizing path g with
  | zero => simp [checksWithin]
  | succ fuel ih =>
    intro c hc
    rcases List.mem_cons.mp hc with rfl | hc
    · exact h.nodup_stack
    · obtain ⟨call, hcall, hc⟩ := List.mem_flatMap.mp hc
      exact ih (h.call hd hcall).1 c hc

end

/-! ## Every package once -/

def Busy (g : Graph) (path : String) : Prop :=
  ∃ n, g.packages.find? path = some n ∧ (n.analysis.isSome = true ∨ n.state = .building)

theorem Extends.busy (h : Extends g g') {path : String} (hb : g.Busy path) : g'.Busy path := by
  obtain ⟨n, hn, hb⟩ := hb
  rcases hb with ha | hs
  · obtain ⟨n', hn', ha'⟩ := h.known path n hn ha
    exact ⟨n', hn', Or.inl ha'⟩
  · obtain ⟨n', hn', hs'⟩ := h.kept path n hn
    exact ⟨n', hn', Or.inr (hs'.trans hs)⟩

section
variable {analyse : String → StateM Graph Unit}

/-- An import that asks for an analysis ends where that ends. -/
theorem afterImport_of_asked {importPath : String} {c : String × Graph} (hc : c ∈ g.asked? disk importPath) :
    afterImports disk analyse [importPath] g = ((analyse c.1).run c.2).2 := by
  change Ends (importPackage disk analyse importPath).run g fun _ g' => g' = ((analyse c.1).run c.2).2
  rw [ends_importPackage]
  unfold asked? at hc
  split at hc
  · cases hc
  · rename_i hstandard
    rw [if_neg hstandard]
    unfold Ends
    generalize (loadOne disk importPath).run.run g = loaded at hc ⊢
    obtain ⟨r, g'⟩ := loaded
    cases r with
    | error e => cases hc
    | ok path =>
      dsimp only at hc
      split at hc
      · rename_i hany
        cases hc
        obtain ⟨n, hn, hcond⟩ := (Option.any_eq_true _ _).mp hany
        simp only [Bool.and_eq_true, decide_eq_true_eq, List.isEmpty_iff] at hcond
        simp only [hn, hcond.1.1, hcond.1.2, hcond.2, if_false, if_true]
      · cases hc

theorem ends_importAll (paths : List String) :
    Ends (importAll disk analyse paths) g fun _ g' => g' = afterImports disk analyse paths g := by
  induction paths generalizing g with
  | nil =>
    unfold importAll
    rw [List.mapM_nil]
    exact rfl
  | cons path rest ih =>
    rw [ends_importAll_cons]
    exact ih

theorem ends_analyseNode_imports (n : PackageNode) : Ends (analyseNode disk analyse n) g fun _ g' =>
    ∃ t, t = afterImports disk analyse (g.lookups disk n) { g with building := n.path :: g.building } ∧
      g' = { t with building := t.building.tail } := by
  unfold analyseNode lookups
  simp only [ends_bind, ends_get]
  split
  · unfold checkTypes
    simp only [ends_bind, ends_modify]
    refine (ends_importAll _).mono fun _ t ht => ?_
    exact ⟨t, ht, rfl⟩
  · exact ⟨_, rfl, rfl⟩

end

/-- The analyses of an analysis are of different packages. Before it nothing is known of them, the first one apart,
and afterwards all of them are known. -/
structure Once (disk : Disk) (fuel : Nat) (path : String) (g : Graph) : Prop where
  nodup : ((checksWithin disk fuel path g).map Prod.fst).Nodup
  unknown : ∀ c ∈ checksWithin disk fuel path g, c.1 = path ∨ ¬g.Busy c.1
  known : ∀ c ∈ checksWithin disk fuel path g, g.packages.contains path = true →
    (((analyseWithin disk fuel path).run g).2).Busy c.1

section
variable (hd : disk.WellNamed) (hm : m.dir.Rooted)
include hd hm

theorem Inv.afterImport (fuel : Nat) (hi : Inv disk m g) {importPath : String} (hp : DotFree importPath) :
    Inv disk m (afterImports disk (analyseWithin disk fuel) [importPath] g) ∧
      Extends g (afterImports disk (analyseWithin disk fuel) [importPath] g) :=
  hi.ends_importPackage hd hm (analyses_analyseWithin hd hm fuel) hp

variable {fuel : Nat} (ih : ∀ path g, Inv disk m g → (∀ n, g.packages.find? path = some n → n.state ≠ .building) →
  Once disk fuel path g)
include ih

theorem Inv.once_calls (hi : Inv disk m g) {paths : List String} (hp : ∀ p ∈ paths, DotFree p) :
    Extends g (afterImports disk (analyseWithin disk fuel) paths g) ∧
    (((callsOf disk (analyseWithin disk fuel) paths g).flatMap fun c => checksWithin disk fuel c.1 c.2).map
      Prod.fst).Nodup ∧
    ∀ c ∈ (callsOf disk (analyseWithin disk fuel) paths g).flatMap fun c => checksWithin disk fuel c.1 c.2,
      ¬g.Busy c.1 ∧ (afterImports disk (analyseWithin disk fuel) paths g).Busy c.1 := by
  induction paths generalizing g with
  | nil => exact ⟨.refl g, List.nodup_nil, fun c hc => nomatch hc⟩
  | cons path rest ihp =>
    obtain ⟨hi₁, he₁⟩ := hi.afterImport hd hm fuel (hp path (by simp))
    obtain ⟨he, hnodup, hrest⟩ := ihp hi₁ fun p hmem => hp p (List.mem_cons_of_mem _ hmem)
    have hafter : afterImports disk (analyseWithin disk fuel) (path :: rest) g =
        afterImports disk (analyseWithin disk fuel) rest (afterImports disk (analyseWithin disk fuel) [path] g) :=
          rfl
    rw [callsOf, hafter]
    refine ⟨he₁.trans he, ?_⟩
    cases hasked : g.asked? disk path with
    | none =>
      refine ⟨hnodup, fun c hc => ?_⟩
      obtain ⟨hnew, hdone⟩ := hrest c hc
      exact ⟨fun hb => hnew (he₁.busy hb), hdone⟩
    | some c₀ =>
      have hmem : c₀ ∈ g.asked? disk path := hasked
      obtain ⟨⟨hi₀, he₀, -⟩, n, hn, hs, ha⟩ :=
        of_asked? hmem (hi.ends_loadOne hd hm (PlainPattern.straight (Or.inr (hp path (by simp)))))
      have hfree : ∀ n', c₀.2.packages.find? c₀.1 = some n' → n'.state ≠ .building := by
        intro n' hn'
        rw [hn] at hn'
        cases hn'
        exact hs
      have honce := ih c₀.1 c₀.2 hi₀ hfree
      have hidle : ¬c₀.2.Busy c₀.1 := by
        rintro ⟨n', hn', hb⟩
        rw [hn] at hn'
        cases hn'
        simp [ha, hs] at hb
      have hfirst : ∀ c ∈ checksWithin disk fuel c₀.1 c₀.2, ¬g.Busy c.1 ∧
          (afterImports disk (analyseWithin disk fuel) [path] g).Busy c.1 := by
        intro c hc
        rw [afterImport_of_asked hmem]
        refine ⟨fun hb => ?_, honce.known c hc (contains_iff.mpr ⟨n, hn⟩)⟩
        rcases honce.unknown c hc with heq | hnew
        · exact hidle (heq ▸ he₀.busy hb)
        · exact hnew (he₀.busy hb)
      rw [Option.toList_some, List.singleton_append, List.flatMap_cons, List.map_append]
      refine ⟨List.nodup_append.mpr ⟨honce.nodup, hnodup, ?_⟩, fun c hc => ?_⟩
      · rintro p hp q hq rfl
        obtain ⟨c, hc, rfl⟩ := List.mem_map.mp hp
        obtain ⟨c', hc', heq⟩ := List.mem_map.mp hq
        exact (hrest c' hc').1 (heq ▸ (hfirst c hc).2)
      · rcases List.mem_append.mp hc with hc | hc
        · exact ⟨(hfirst c hc).1, he.busy (hfirst c hc).2⟩
        · obtain ⟨hnew, hdone⟩ := hrest c hc
          exact ⟨fun hb => hnew (he₁.busy hb), hdone⟩

end

theorem find?_stacked_of_ne {path key : String} (hne : key ≠ path) :
    (g.stacked path).packages.find? key = g.packages.find? key := by
  change (g.startChecking path).packages.find? key = _
  rw [startChecking, find?_modifyPackage, if_neg hne]

theorem Busy.stacked {path key : String} (h : g.Busy key) : (g.stacked path).Busy key := by
  obtain ⟨n, hn, hb⟩ := h
  by_cases heq : key = path
  · subst heq
    exact ⟨_, find?_startChecking hn, Or.inr rfl⟩
  · exact ⟨n, (find?_stacked_of_ne heq).trans hn, hb⟩

theorem Busy.finishChecking {path key : String} (h : g.Busy key) (a : Analysis) (state : Lifecycle) :
    (g.finishChecking path a state).Busy key := by
  obtain ⟨n, hn, hb⟩ := h
  unfold Busy
  rw [Graph.finishChecking, find?_modifyPackage]
  by_cases heq : key = path
  · rw [if_pos heq, hn]
    exact ⟨_, rfl, Or.inl rfl⟩
  · rw [if_neg heq]
    exact ⟨n, hn, hb⟩

/-- After an analysis everything is busy that is so after its imports. -/
theorem busy_analyseWithin {fuel : Nat} {path key : String} {n : PackageNode} (hn : g.packages.find? path = some n)
    (hp : n.path = path) (h : (afterImports disk (analyseWithin disk fuel) ((g.startChecking path).lookups disk n)
      (g.stacked path)).Busy key) : (((analyseWithin disk (fuel + 1) path).run g).2).Busy key := by
  change Ends (analyseWithin disk (fuel + 1) path) g fun _ g' => g'.Busy key
  rw [ends_analyseWithin, hn]
  refine (ends_analyseNode_imports n).mono fun a g' ⟨t, ht, hg'⟩ => ?_
  have hstacked : { g.startChecking path with building := n.path :: (g.startChecking path).building } =
      g.stacked path := by
    rw [hp]
    rfl
  rw [hstacked] at ht
  have hbusy : g'.Busy key := by
    rw [hg', ht]
    exact h
  exact hbusy.finishChecking a n.state

theorem Inv.once (hd : disk.WellNamed) (hm : m.dir.Rooted) (fuel : Nat) : ∀ path g,
    Inv disk m g → (∀ n, g.packages.find? path = some n → n.state ≠ .building) → Once disk fuel path g := by
  induction fuel with
  | zero => exact fun _ _ _ _ => ⟨List.nodup_nil, fun _ hc => (nomatch hc), fun _ hc => (nomatch hc)⟩
  | succ fuel ih =>
    intro path g hi hfree
    cases hn : g.packages.find? path with
    | none =>
      have hchecks : checksWithin disk (fuel + 1) path g = [(path, g)] := by
        rw [checksWithin, calls, hn]
        rfl
      refine ⟨by simp [hchecks], by simp [hchecks], fun _ _ hc => ?_⟩
      rw [Table.contains_eq, hn] at hc
      cases hc
    | some n =>
      have hnode := hi.nodes path n hn
      have hi' := hi.startChecking hn (hfree n hn)
      have hplain : ∀ p ∈ (g.startChecking path).lookups disk n, DotFree p := by
        intro p hp
        unfold lookups at hp
        dsimp only at hp
        split at hp
        · exact hi'.plain_imports (extension_of_idlFiles hnode.files) p hp
        · cases hp
      have hstacked : Inv disk m (g.stacked path) := hi'.push ⟨_, find?_startChecking hn, rfl⟩
      have hself : (g.stacked path).Busy path := ⟨_, find?_startChecking hn, Or.inr rfl⟩
      obtain ⟨he, hnodup, hcalls⟩ := hstacked.once_calls hd hm ih hplain
      have hchecks : checksWithin disk (fuel + 1) path g = (path, g) :: (callsOf disk (analyseWithin disk fuel)
          ((g.startChecking path).lookups disk n) (g.stacked path)).flatMap fun c =>
            checksWithin disk fuel c.1 c.2 := by
        rw [checksWithin, calls, hn]
      constructor
      · rw [hchecks, List.map_cons]
        refine List.nodup_cons.mpr ⟨fun hmem => ?_, hnodup⟩
        obtain ⟨c, hc, heq⟩ := List.mem_map.mp hmem
        exact (hcalls c hc).1 (heq ▸ hself)
      · intro c hc
        rw [hchecks] at hc
        rcases List.mem_cons.mp hc with rfl | hc
        · exact Or.inl rfl
        · exact Or.inr fun hb => (hcalls c hc).1 hb.stacked
      · intro c hc _
        apply busy_analyseWithin hn hnode.path
        rw [hchecks] at hc
        rcases List.mem_cons.mp hc with rfl | hc
        · exact he.busy hself
        · exact (hcalls c hc).2

/-! ## Analyses after requests -/

/-- A graph over a single module that plain requests lead to. -/
def PlainlyReached (disk : Disk) (g : Graph) : Prop :=
  ∃ root g₀ m requests, discover disk (Path.ofString root).normalize = .ok g₀ ∧ g₀.layout.modules = [m] ∧
    (∀ r ∈ requests, r.Plain) ∧ g = g₀.after disk requests

/-- After any requests an analysis ends by itself: more fuel leads to the same graph by the same analyses. On the way
the packages that wait are distinct. In a single module, after plain requests, no package is analysed twice. -/
theorem analysis_ends (hd : disk.WellNamed) (hg : Reached g) (path : String) :
    (∀ fuel, g.size disk + 2 ≤ fuel → (analyseWithin disk fuel path).run g = (analyse disk path).run g ∧
      checksWithin disk fuel path g = checks disk path g) ∧
    (∀ c ∈ checks disk path g, (c.1 :: c.2.building).Nodup) ∧
    (disk.PlainImports → PlainlyReached disk g → ((checks disk path g).map Prod.fst).Nodup) := by
  have hawaited : Awaited disk g path path g := hg.atRest.awaited path
  have hrun : (analyseWithin disk (g.size disk + 2) path).run g = (analyse disk path).run g := by
    apply run_eq_of_ends
    intro Q h
    unfold analyse at h
    rw [ends_bind, ends_get] at h
    exact h
  rw [← hrun]
  unfold checks
  generalize hsize : g.size disk + 2 = bound
  refine ⟨fun fuel hfuel => ?_, hawaited.forall_checks hd, ?_⟩
  · have hscope : (g.scope disk path).length ≤ g.size disk + 1 := length_scope_le path
    apply hawaited.enough hd _ hfuel
    omega
  · rintro hi ⟨root, g₀, m, requests, hstart, hm, hr, rfl⟩
    have hrooted := rooted_discover hstart m (by simp [hm])
    have hrest := (resting_discover hi hstart hm).requests hd hrooted hi hr
    exact (Inv.once hd hrooted _ path _ hrest.inv (hrest.states path)).nodup

theorem analysis_ends_sample : sampleDisk.WellNamed ∧ Reached sampleCycle ∧ sampleDisk.PlainImports ∧
    PlainlyReached sampleDisk sampleCycle ∧
    (checks sampleDisk "example.com/m/b" sampleCycle).map Prod.fst = ["example.com/m/b", "example.com/m/a"] ∧
    ((checks sampleDisk "example.com/m/b" sampleCycle).map Prod.fst).Nodup := by
  have hd : sampleDisk.WellNamed := by decide
  have hplain : PlainlyReached sampleDisk sampleCycle :=
    ⟨"/w", _, _, sampleCycleRequests, rfl, rfl, by decide +kernel, rfl⟩
  refine ⟨hd, reached_sampleCycle, plainImports_sampleDisk, hplain, by decide +kernel, ?_⟩
  exact (analysis_ends hd reached_sampleCycle "example.com/m/b").2.2 plainImports_sampleDisk hplain

end Graph

end IdlWorkbench
