import IdlWorkbench.Proofs.Graph.Follow

/-!
# What checking from scratch depends on

Of a graph, `batchWithin` looks at the files of the package and at what its imports answer. So it finds the same
in two graphs that list the same packages of the module with the same texts, whatever else they know, and in two
graphs that differ in a package of which only the imports could tell.
-/

namespace IdlWorkbench.Graph

open IdlWorkbench.Path

variable {disk : Disk} {m : ModuleRoot} {w g g' : Graph}

/-! ## Files and imports -/

theorem parsedFiles_congr {n : PackageNode} (h : ∀ f ∈ n.files, g'.read disk f = g.read disk f) :
    g'.parsedFiles disk n = g.parsedFiles disk n := by
  refine List.map_congr_left fun f hf => ?_
  unfold ParsedFile.ofPath
  rw [h f hf]

theorem errors_parsedFiles_congr {n : PackageNode} (h : ∀ f ∈ n.files, g'.read disk f = g.read disk f) :
    (g.parsedFiles disk n).flatMap (·.errors disk g') = (g.parsedFiles disk n).flatMap (·.errors disk g) := by
  have hall : ∀ parsed ∈ g.parsedFiles disk n, parsed.errors disk g' = parsed.errors disk g := by
    intro parsed hp
    obtain ⟨f, hf, rfl⟩ := List.mem_map.mp hp
    unfold ParsedFile.errors
    rw [show (ParsedFile.ofPath disk g f).path = f from rfl, h f hf]
  rw [List.flatMap_def, List.flatMap_def, List.map_congr_left hall]

theorem importPaths_congr {n : PackageNode} (h : ∀ f ∈ n.files, g'.read disk f = g.read disk f) :
    g'.importPaths disk n = g.importPaths disk n := by
  unfold importPaths
  rw [parsedFiles_congr h]

section
variable {batch batch' : PackageNode → Analysis}

/-- An import depends on what is listed for it, and on what is found in a single package. -/
theorem batchImport_congr {path : String} (hl : g'.layout = g.layout)
    (hf : g'.freshPackages disk path = g.freshPackages disk path)
    (hb : ∀ z, g.freshPackages disk path = .ok [z] → batch' z = batch z) :
    g'.batchImport disk batch' path = g.batchImport disk batch path := by
  unfold batchImport
  rw [hl, hf]
  split
  · rfl
  · cases hns : g.freshPackages disk path with
    | error e => rfl
    | ok ns =>
      rcases ns with _ | ⟨z, _ | ⟨_, _⟩⟩
      · rfl
      · dsimp only
        rw [hb z hns]
      · rfl

/-- A package depends on its files and on what its imports answer. -/
theorem batchNode_congr {n : PackageNode} (hr : ∀ f ∈ n.files, g'.read disk f = g.read disk f)
    (hi : ∀ path ∈ g.importPaths disk n, g'.batchImport disk batch' path = g.batchImport disk batch path) :
    g'.batchNode disk batch' n = g.batchNode disk batch n := by
  have himported : (g.importPaths disk n).map (fun path =>
      (path, (g'.batchImport disk batch' path).mapError ImportError.message)) =
      (g.importPaths disk n).map fun path => (path, (g.batchImport disk batch path).mapError ImportError.message) :=
    List.map_congr_left fun path hp => by rw [hi path hp]
  unfold batchNode
  simp only [parsedFiles_congr hr, errors_parsedFiles_congr hr, importPaths_congr hr, himported]

/-- A package whose files are not fit for a check does not depend on its imports. -/
theorem batchNode_unfit {n : PackageNode} (hr : ∀ f ∈ n.files, g'.read disk f = g.read disk f)
    (h : (g.batchNode disk batch n).checked = none) : g'.batchNode disk batch' n = g.batchNode disk batch n := by
  unfold batchNode at h ⊢
  simp only [parsedFiles_congr hr, errors_parsedFiles_congr hr]
  dsimp only at h
  split at h
  · cases h
  · rename_i herrors
    rw [if_neg herrors, if_neg herrors]

end

/-! ## Answers to imports -/

section
variable {batch : PackageNode → Analysis} {path : String}

theorem shown_ne_load (a : Analysis) (path : String) (e : LoadError) : a.shown path ≠ .error (.load e) := by
  unfold Analysis.shown
  cases a.checked <;> simp

/-- Only a single package without listing errors answers with a surface. -/
theorem exists_of_answer (hs : w.layout.isStandard path = false) {s : Surface}
    (h : w.batchImport disk batch path = .ok s) :
    ∃ z, w.freshPackages disk path = .ok [z] ∧ z.listErrors = [] ∧ (batch z).shown z.path = .ok s := by
  unfold batchImport at h
  rw [hs] at h
  simp only [Bool.false_eq_true, if_false] at h
  split at h
  · cases h
  · rename_i z hz
    split at h
    · cases h
    · rename_i herrors
      exact ⟨z, hz, herrors, h⟩
  · cases h

/-- A single package was loaded, so the answer is no failure to load. -/
theorem answer_ne_load (hs : w.layout.isStandard path = false) {z : PackageNode}
    (hz : w.freshPackages disk path = .ok [z]) (e : LoadError) :
    w.batchImport disk batch path ≠ .error (.load e) := by
  unfold batchImport
  rw [hs, hz]
  simp only [Bool.false_eq_true, if_false]
  split
  · simp
  · exact shown_ne_load (batch z) z.path e

/-- Unless an import path stands for a single package, it cannot be loaded. -/
theorem answer_load (hs : w.layout.isStandard path = false) (hz : ∀ z, w.freshPackages disk path ≠ .ok [z]) :
    ∃ e, ∀ batch, w.batchImport disk batch path = .error (.load e) := by
  unfold batchImport
  rw [hs]
  simp only [Bool.false_eq_true, if_false]
  cases hns : w.freshPackages disk path with
  | error e => exact ⟨.layout e, fun _ => rfl⟩
  | ok ns =>
    rcases ns with _ | ⟨z, _ | ⟨_, _⟩⟩
    · exact ⟨.packageCount path 0, fun _ => rfl⟩
    · exact absurd hns (hz z)
    · exact ⟨.packageCount path _, fun _ => rfl⟩

end

/-! ## Packages as they are listed -/

theorem Fresh.idlFiles {n : PackageNode} (h : w.Fresh disk n) : w.idlFiles disk n.dir = .ok n.files := by
  obtain ⟨l, hl, hf⟩ := h
  obtain ⟨files, hfiles, -, heq⟩ := of_freshPackage hf
  have hdir : n.dir = l.dir := congrArg PackageNode.dir heq
  have hsame : n.files = files := congrArg PackageNode.files heq
  rw [hdir, hsame]
  exact hfiles

theorem Fresh.of_mem_files (hd : disk.WellNamed) (hh : ∀ p ∈ w.held.keys, p.Normal) {n : PackageNode}
    (h : w.Fresh disk n) (hn : n.dir.Normal) {file : Path} (hf : file ∈ n.files) :
    file.Normal ∧ file.parent? = some n.dir :=
  (filesOf_of_idlFiles hd hh hn h.idlFiles).parent? hd hh hn hf

/-- An import path that means the directory of a package stands for this package. -/
theorem Fresh.freshPackages {n : PackageNode} (h : w.Fresh disk n) {path : String} (hp : Direct m w path n.dir) :
    w.freshPackages disk path = .ok [n.bare] := by
  obtain ⟨l, hl, hf⟩ := h
  rw [freshPackages_of_dir hp.1 hp.2.2, hl]
  simp only [bind, Except.bind, Option.toList, List.filterMapM_cons, hf, List.filterMapM_nil]
  rfl

/-- An import path either means a directory of the module or cannot be listed. -/
theorem direct_or_error (disk : Disk) (hl : g.layout.modules = [m]) (hnamed : m.Named) {path : String}
    (hneat : NeatPath path)
    (hs : g.layout.isStandard path = false) :
    (∃ dir, Direct m g path dir) ∨ ∃ e, ∀ g' : Graph, g'.layout = g.layout →
    g'.freshPackages disk path = .error e := by
  have habs := Layout.relative_of_not_standard hl hnamed hs
  cases hdir : Listed.patternDir g.layout path with
  | error e =>
    refine Or.inr ⟨e, fun g' hlayout => ?_⟩
    unfold Graph.freshPackages Listed.ofPattern
    simp only [hneat.2, hlayout, hdir, bind, Except.bind]
  | ok found =>
    cases found with
    | some dir => exact Or.inl ⟨dir, hneat.2, Listed.owns_of_patternDir hl habs hneat.1 hdir, hdir⟩
    | none =>
      unfold Listed.patternDir at hdir
      simp only [habs, hs, Bool.false_eq_true, if_false] at hdir
      split at hdir <;> cases hdir

/-! ## Graphs that look the same from scratch -/

def freshAt (disk : Disk) (g : Graph) (dir : Path) : Except LayoutError (List PackageNode) :=
  Listed.ofDir? disk g.layout (g.placeholders disk) dir >>= fun l => l.toList.filterMapM (g.freshPackage disk)

theorem SameAt.freshAt {dir : Path} (h : SameAt disk g g' dir) : g'.freshAt disk dir = g.freshAt disk dir := by
  unfold Graph.freshAt
  rw [h.listed]
  cases hl : Listed.ofDir? disk g.layout (g.placeholders disk) dir with
  | error e => rfl
  | ok found =>
    refine filterMapM_congr fun l hmem => ?_
    obtain rfl := Option.mem_toList.mp hmem
    rw [← (Listed.of_ofDir? hl).1] at h
    exact h.freshPackage

theorem fresh_iff {n : PackageNode} : w.Fresh disk n ↔ w.freshAt disk n.dir = .ok [n.bare] := by
  unfold Fresh freshAt
  cases Listed.ofDir? disk w.layout (w.placeholders disk) n.dir with
  | error e => simp [bind, Except.bind]
  | ok found =>
    cases found with
    | none => simp [bind, Except.bind, pure, Except.pure]
    | some l =>
      simp only [bind, Except.bind, Option.toList, List.filterMapM_cons, List.filterMapM_nil, Except.ok.injEq,
        Option.some.injEq, exists_eq_left']
      cases w.freshPackage disk l with
      | error e => simp
      | ok found => cases found <;> simp [pure, Except.pure]

/-- Where the host files cannot be read, nothing can be listed. -/
theorem freshAt_unlisted {dir : Path} (ho : (w.placeholders disk).Tidy disk) (hn : dir.Normal) (hd : disk.WellNamed)
    {e : LayoutError} (h : Listed.ofDir? disk w.layout {} dir = .error e) : w.freshAt disk dir = .error e := by
  unfold freshAt
  cases hat : (w.placeholders disk).at? dir with
  | some text =>
    unfold Listed.ofDir? hasHostFiles at h
    rw [ho.bare dir hn (by rw [hat]; rfl)] at h
    cases h
  | none =>
    rw [Overlay.ofDir?_bare hd ho w.layout hn hat, h]
    rfl

/-- A package is listed only where there is room for it. -/
theorem Fresh.houses (ho : (w.placeholders disk).Tidy disk) (hl : w.layout = ⟨[m]⟩) (hd : disk.WellNamed)
    (hm : m.dir.Rooted) {n : PackageNode} {path : String} (howns : m.Owns n.dir path) (h : w.Fresh disk n) :
    m.Houses disk n.dir := by
  refine ⟨⟨path, howns⟩, ?_⟩
  cases hx : Listed.ofDir? disk ⟨[m]⟩ {} n.dir with
  | ok listed => exact ⟨listed, rfl⟩
  | error e =>
    have herror := freshAt_unlisted ho (howns.rooted hm).normal hd (hl ▸ hx)
    rw [fresh_iff.mp h] at herror
    cases herror

section
variable {dir : Path} (ho : (w.placeholders disk).Tidy disk) (hn : dir.Normal)
  (hh : disk.filesWithExtension dir hostExtension = .ok [])
include ho hn hh

/-- In a directory without files nothing is listed, even if it has a placeholder. -/
theorem freshAt_bare (hd : disk.WellNamed) (hf : w.idlFiles disk dir = .ok []) {path : String}
    (hp : w.layout.importPathOf? dir = some path) : w.freshAt disk dir = .ok [] := by
  unfold freshAt
  cases hat : (w.placeholders disk).at? dir with
  | some text =>
    rw [Overlay.ofDir?_placeholder ho w.layout hn hat, hp]
    simp only [Option.elim, bind, Except.bind, Option.toList, List.filterMapM_cons, freshPackage, hf]
    rfl
  | none =>
    rw [Overlay.ofDir?_bare hd ho w.layout hn hat]
    unfold Listed.ofDir? hasHostFiles
    rw [hh]
    rfl

/-- Without host files there is nothing to disagree about. -/
theorem Fresh.listErrors_eq (hd : disk.WellNamed) {n : PackageNode} (h : w.Fresh disk n) (hdir : n.dir = dir) :
    n.listErrors = [] := by
  subst hdir
  obtain ⟨l, hl, hf⟩ := h
  obtain ⟨files, -, -, heq⟩ := of_freshPackage hf
  have herrors : n.listErrors = l.errors := congrArg PackageNode.listErrors heq
  rw [herrors]
  cases hat : (w.placeholders disk).at? n.dir with
  | some text =>
    rw [Overlay.ofDir?_placeholder ho w.layout hn hat] at hl
    cases hp : w.layout.importPathOf? n.dir with
    | none => rw [hp] at hl; cases hl
    | some path => rw [hp] at hl; cases hl; rfl
  | none =>
    rw [Overlay.ofDir?_bare hd ho w.layout hn hat] at hl
    unfold Listed.ofDir? hasHostFiles at hl
    rw [hh] at hl
    cases hl

end

/-- Two graphs list the same packages of a module, with the same texts, which they may hold in another order. -/
structure Alike (disk : Disk) (m : ModuleRoot) (g g' : Graph) : Prop where
  layout : g'.layout = g.layout
  read : ∀ n path, m.Owns n.dir path → g.Fresh disk n → ∀ f ∈ n.files, g'.read disk f = g.read disk f
  fresh : ∀ dir path, m.Owns dir path → g'.freshAt disk dir = g.freshAt disk dir

theorem SameView.alike (h : SameView disk m g g') : Alike disk m g g' := by
  refine ⟨h.layout, fun _ _ _ _ f _ => read_congr h.held f, fun dir path ho => ?_⟩
  rw [freshAt, freshAt, h.listed dir path ho, funext h.freshPackage]

section
variable (hd : disk.WellNamed) (hm : m.dir.Rooted) (hnamed : m.Named) (hi : Inv disk m g) (hneat : Neat disk g)
  (h : Alike disk m g g')
include hnamed hi h

theorem Alike.freshPackages {path : String} (hneat : NeatPath path) (hs : g.layout.isStandard path = false) :
    g'.freshPackages disk path = g.freshPackages disk path := by
  rcases direct_or_error disk hi.modules hnamed hneat hs with ⟨dir, hwild, howns, hdir⟩ | ⟨e, herror⟩
  · rw [freshPackages_of_dir hwild hdir, freshPackages_of_dir hwild (h.layout ▸ hdir)]
    exact h.fresh dir path howns
  · exact (herror g' h.layout).trans (herror g rfl).symm

include hd hm hneat

/-- Checking from scratch finds the same in both. -/
theorem Alike.batchWithin (fuel : Nat) : ∀ {n : PackageNode} {path : String},
    m.Owns n.dir path → g.Fresh disk n → g'.batchWithin disk fuel n = g.batchWithin disk fuel n := by
  induction fuel with
  | zero => exact fun _ _ => rfl
  | succ fuel ih =>
    intro n home ho hn
    have hpaths : ∀ path ∈ g.importPaths disk n, NeatPath path :=
      forall_importPaths (extension_of_idlFiles hn.idlFiles) hneat
    refine batchNode_congr (h.read n home ho hn) fun path hp => ?_
    by_cases hs : g.layout.isStandard path = true
    · unfold batchImport
      rw [h.layout, if_pos hs, if_pos hs]
    · have hs := Bool.eq_false_iff.mpr hs
      refine batchImport_congr h.layout (h.freshPackages hnamed hi (hpaths path hp) hs) fun z hz => ?_
      have howns := owns_freshPackages hi.modules hm hd (Or.inr (hpaths path hp).dotFree) hz z (by simp)
      exact ih howns (mem_freshPackages hz z (by simp)).1

theorem Alike.settles {n : PackageNode} {path : String} (ho : m.Owns n.dir path) (hn : g.Fresh disk n) {a : Analysis}
    (hs : g.Settles disk n a) : g'.Settles disk n a := by
  obtain ⟨depth, hs⟩ := hs
  refine ⟨depth, fun fuel hf => ?_⟩
  rw [h.batchWithin hd hm hnamed hi hneat fuel ho hn]
  exact hs fuel hf

end

end IdlWorkbench.Graph
