import IdlWorkbench.Proofs.Graph.Checks
import IdlWorkbench.Proofs.Graph.Follow

/-!
# Analyses record what they import

An edit is passed on to the packages that have recorded the edited one among their imports. So it matters that
nothing is missing there: whatever package an import path stood for when the types were checked is recorded.
-/

namespace IdlWorkbench.Graph

open IdlWorkbench.Path

variable {disk : Disk} {m : ModuleRoot} {w g g' : Graph}

/-- If the types of a package were checked, then the packages that its import paths stand for are recorded. -/
def Records (disk : Disk) (w : Graph) (n : PackageNode) : Prop :=
  ∀ a, n.analysis = some a → a.checked.isSome = true → ∀ path ∈ w.importPaths disk n,
    w.layout.isStandard path = false → ∀ z, w.freshPackages disk path = .ok [z] → z.path ∈ a.imports

structure Traced (disk : Disk) (m : ModuleRoot) (w g : Graph) : Prop extends Follows disk m w g where
  records : ∀ key n, g.packages.find? key = some n → Records disk w n

def Loaded (disk : Disk) (w g : Graph) (path : String) : Prop :=
  w.layout.isStandard path = false → ∀ z, w.freshPackages disk path = .ok [z] →
    z.path = path ∧ g.packages.contains path = true

theorem Loaded.extends {path : String} (h : Loaded disk w g path) (he : Extends g g') : Loaded disk w g' path :=
  fun hs z hz => (h hs z hz).imp_right he.contains

theorem records_unknown {n : PackageNode} (ha : n.analysis = none) : Records disk w n := by
  intro a h
  rw [ha] at h
  cases h

theorem importPaths_bare (n : PackageNode) : w.importPaths disk n.bare = w.importPaths disk n := rfl

theorem Records.congr {n n' : PackageNode} (h : Records disk w n) (hb : n.bare = n'.bare)
    (ha : n'.analysis = n.analysis) : Records disk w n' := by
  unfold Records
  rw [ha, ← importPaths_bare, ← hb, importPaths_bare]
  exact h

/-! ## Changes that record nothing -/

/-- The packages are those of before or new, and what is known about them is the same or lost. -/
theorem Traced.restate (h : Traced disk m w g) (hf : Follows disk m w g')
    (hn : ∀ key n', g'.packages.find? key = some n' → n'.analysis = none ∨
      ∃ n, g.packages.find? key = some n ∧ n.bare = n'.bare ∧ n'.analysis = n.analysis) : Traced disk m w g' := by
  refine ⟨hf, fun key n' hn' => ?_⟩
  rcases hn key n' hn' with ha | ⟨n, hfind, hb, ha⟩
  · exact records_unknown ha
  · exact (h.records key n hfind).congr hb ha

theorem Traced.markCycle (h : Traced disk m w g) (path : String) : Traced disk m w (g.markCycle path) := by
  obtain ⟨packages, heq, hfind⟩ := markCycle_eq g path
  refine h.restate (h.toFollows.markCycle path) fun key n' hn' => Or.inr ?_
  rw [heq] at hn'
  dsimp only at hn'
  rw [hfind] at hn'
  obtain ⟨n, hn, rfl⟩ := Option.map_eq_some_iff.mp hn'
  refine ⟨n, hn, ?_⟩
  split <;> exact ⟨rfl, rfl⟩

theorem Traced.grows (h : Traced disk m w g) (hf : Follows disk m w g') (hg : Grows g.packages g'.packages) :
    Traced disk m w g' := by
  refine h.restate hf fun key n' hn' => ?_
  rcases hg.added key n' hn' with hn | hn
  · exact Or.inr ⟨n', hn, rfl, rfl⟩
  · exact Or.inl (hn ▸ rfl)

theorem Traced.push (h : Traced disk m w g) {path : String}
    (hn : ∃ n, g.packages.find? path = some n ∧ n.state = .building) :
    Traced disk m w { g with building := path :: g.building } :=
  ⟨h.toFollows.push hn, h.records⟩

theorem Traced.pop (h : Traced disk m w g) : Traced disk m w { g with building := g.building.tail } :=
  ⟨h.toFollows.pop, h.records⟩

theorem Traced.startChecking (h : Traced disk m w g) {path : String} {n : PackageNode}
    (hn : g.packages.find? path = some n) (hs : n.state ≠ .building) : Traced disk m w (g.startChecking path) := by
  refine h.restate (h.toFollows.startChecking hn hs) fun key n' hn' => ?_
  rw [Graph.startChecking, find?_modifyPackage] at hn'
  split at hn'
  · obtain ⟨old, -, rfl⟩ := Option.map_eq_some_iff.mp hn'
    exact Or.inl rfl
  · exact Or.inr ⟨n', hn', rfl, rfl⟩

theorem Traced.finishChecking (h : Traced disk m w g) {path : String} {a : Analysis} {state : Lifecycle}
    (hi : Inv disk m (g.finishChecking path a state))
    (ha : ∀ n, g.packages.find? path = some n → Records disk w { n with analysis := some a }) :
    Traced disk m w (g.finishChecking path a state) := by
  refine ⟨h.toFollows.finishChecking hi, fun key n' hn' => ?_⟩
  rw [Graph.finishChecking, find?_modifyPackage] at hn'
  split at hn'
  · rename_i heq
    subst heq
    obtain ⟨old, hold, rfl⟩ := Option.map_eq_some_iff.mp hn'
    exact (ha old hold).congr rfl rfl
  · exact h.records key n' hn'

theorem records_publish (h : ∀ key n, g.packages.find? key = some n → Records disk w n) (path : String)
    (surface : Option Surface) : ∀ key n,
      (g.publish path surface).packages.find? key = some n → Records disk w n := by
  intro key n hn
  unfold Graph.publish at hn
  dsimp only at hn
  split at hn
  · rw [find?_invalidate] at hn
    obtain ⟨old, hold, rfl⟩ := Option.map_eq_some_iff.mp hn
    unfold invalidateNode
    split
    · exact h key old hold
    · exact records_unknown rfl
  · exact h key n hn

/-! ## Importing -/

def Recording (disk : Disk) (m : ModuleRoot) (w : Graph) (analyse : String → StateM Graph Unit) : Prop :=
  ∀ path g, Traced disk m w g → (∀ n, g.packages.find? path = some n → n.state ≠ .building) →
    Ends (analyse path) g fun _ g' => Traced disk m w g' ∧ Extends g g'

section
variable (hd : disk.WellNamed) (hm : m.dir.Rooted) (hnamed : m.Named)
include hd hm hnamed

omit hd hm in
/-- An import path that can be listed means a directory of the module. -/
theorem direct_of_freshPackages (hl : w.layout.modules = [m]) {path : String} (hneat : NeatPath path)
    (hs : w.layout.isStandard path = false) {ns : List PackageNode} (hns : w.freshPackages disk path = .ok ns) :
    ∃ dir, Direct m w path dir := by
  have habs := Layout.relative_of_not_standard hl hnamed hs
  obtain ⟨listed, hlisted, -⟩ := bind_eq_ok.mp hns
  obtain ⟨dir, hdir⟩ := exists_patternDir hneat.2 habs hs hlisted
  exact ⟨dir, hneat.2, Listed.owns_of_patternDir hl habs hneat.1 hdir, hdir⟩

theorem Traced.ends_loadOne (h : Traced disk m w g) {importPath : String} (hneat : NeatPath importPath)
    (hs : w.layout.isStandard importPath = false) : Ends (loadOne disk importPath).run g fun _ g' =>
      (Traced disk m w g' ∧ Extends g g') ∧ Loaded disk w g' importPath := by
  have hl : w.layout.modules = [m] := h.lists.view.layout ▸ h.inv.modules
  refine (h.toFollows.ends_loadOne hd hm hnamed hneat hs).mono fun r g' ⟨⟨hf, he, hgrow⟩, hr⟩ => ?_
  refine ⟨⟨h.grows hf hgrow, he⟩, fun _ z hz => ?_⟩
  rw [hz] at hr
  obtain ⟨-, n', hn', -⟩ := hr
  obtain ⟨dir, hdirect⟩ := direct_of_freshPackages hnamed hl hneat hs hz
  have hpath : z.path = importPath := hdirect.path_eq hd hm hl hneat.dotFree hz z (by simp)
  exact ⟨hpath, hpath ▸ contains_iff.mpr ⟨n', hn'⟩⟩

variable {analyse : String → StateM Graph Unit} (ha : Recording disk m w analyse)
include ha

theorem Traced.ends_importPackage (h : Traced disk m w g) {importPath : String} (hneat : NeatPath importPath) :
    Ends (importPackage disk analyse importPath).run g fun _ g' =>
      (Traced disk m w g' ∧ Extends g g') ∧ Loaded disk w g' importPath := by
  have hlayout := h.lists.view.layout
  refine kept_importPackage
    (P := fun t => (Traced disk m w t ∧ Extends g t) ∧ Loaded disk w t importPath) (fun hs => ?_)
    (fun hs => ?_) ?_ ?_
  · refine ⟨⟨h, .refl g⟩, fun hs' => ?_⟩
    rw [hlayout, hs'] at hs
    cases hs
  · exact h.ends_loadOne hd hm hnamed hneat (hlayout ▸ hs)
  · intro path t ⟨⟨ht, he⟩, hloaded⟩
    have hext := (ht.inv.markCycle path).2
    exact ⟨⟨ht.markCycle path, he.trans hext⟩, hloaded.extends hext⟩
  · intro path t ⟨⟨ht, he⟩, hloaded⟩ hs
    exact (ha path t ht hs).mono fun _ _ ⟨ht', he'⟩ => ⟨⟨ht', he.trans he'⟩, hloaded.extends he'⟩

theorem Traced.ends_importAll : ∀ {paths : List String} {g : Graph}, Traced disk m w g → (∀ p ∈ paths, NeatPath p) →
    Ends (importAll disk analyse paths) g fun imported g' => (Traced disk m w g' ∧ Extends g g') ∧
      imported.map Prod.fst = paths ∧ ∀ p ∈ paths, Loaded disk w g' p
  | [], g, h, _ => ⟨⟨h, .refl g⟩, rfl, fun _ hp => nomatch hp⟩
  | path :: rest, g, h, hneat => by
    rw [ends_importAll_cons]
    refine (h.ends_importPackage hd hm hnamed ha (hneat path (by simp))).mono fun r t ⟨⟨ht, he⟩, hloaded⟩ => ?_
    have ih := ht.ends_importAll fun p hp => hneat p (List.mem_cons_of_mem _ hp)
    refine ih.mono fun later u ⟨⟨hu, he'⟩, hkeys, hall⟩ => ?_
    refine ⟨⟨hu, he.trans he'⟩, congrArg (path :: ·) hkeys, fun p hp => ?_⟩
    rcases List.mem_cons.mp hp with rfl | hp
    · exact hloaded.extends he'
    · exact hall p hp

/-! ## Checking -/

theorem Traced.ends_checkTypes (h : Traced disk m w g) {n : PackageNode} {parsed : List ParsedFile}
    (hn : ∃ n', g.packages.find? n.path = some n' ∧ n'.state = .building)
    (hp : ∀ path ∈ Check.importPaths (parsed.map (·.source)), NeatPath path) :
    Ends (checkTypes disk analyse n parsed) g fun result g' => (Traced disk m w g' ∧ Extends g g') ∧
      result.imports = Check.importPaths (parsed.map (·.source)) ∧ ∀ p ∈ result.imports, Loaded disk w g' p := by
  unfold checkTypes
  simp only [ends_bind, ends_modify]
  refine ((h.push hn).ends_importAll hd hm hnamed ha hp).mono fun imported t ⟨⟨ht, he⟩, hkeys, hall⟩ => ?_
  exact ⟨⟨ht.pop, he.pop⟩, hkeys, fun p hp => hall p (hkeys ▸ hp)⟩

theorem Traced.ends_analyseNode (hneat : Neat disk w) (h : Traced disk m w g) {n n' : PackageNode}
    (hn : g.packages.find? n.path = some n') (hs : n'.state = .building) (hf : n'.files = n.files) :
    Ends (analyseNode disk analyse n) g fun a g' => (Traced disk m w g' ∧ Extends g g') ∧
      a.parsed = n.files.map (ParsedFile.ofPath disk g) ∧ Records disk w { n with analysis := some a } := by
  have hparsed : n.files.map (ParsedFile.ofPath disk g) = w.parsedFiles disk n := by
    rw [ofPath_congr h.lists.view.held]
    rfl
  have hpaths : ∀ path ∈ Check.importPaths
    ((n.files.map (ParsedFile.ofPath disk g)).map (·.source)), NeatPath path := by
    have hpaths := h.neat_importPaths hneat hn
    rw [importPaths, parsedFiles, hf] at hpaths
    rw [hparsed]
    exact hpaths
  unfold analyseNode
  simp only [ends_bind, ends_get]
  split
  · rw [ends_bind]
    have hcheck := h.ends_checkTypes hd hm hnamed ha ⟨n', hn, hs⟩ hpaths
    refine hcheck.mono fun result g' ⟨hg', himports, hloaded⟩ => ?_
    refine ⟨hg', rfl, ?_⟩
    rintro _ ⟨⟩ - path hpath hstd z hz
    have hmem : path ∈ result.imports := by
      rw [himports, hparsed]
      exact hpath
    obtain ⟨heq, hcontains⟩ := hloaded path hmem hstd z hz
    rw [heq]
    exact List.mem_filter.mpr ⟨hmem, hcontains⟩
  · refine ⟨⟨h, .refl g⟩, rfl, ?_⟩
    rintro _ ⟨⟩ hsome
    cases hsome

end

/-- Analyses of any depth record what they import. -/
theorem recording_analyseWithin (hd : disk.WellNamed) (hm : m.dir.Rooted) (hnamed : m.Named) (hneat : Neat disk w)
    (fuel : Nat) : Recording disk m w (analyseWithin disk fuel) := by
  induction fuel with
  | zero => exact fun path g h _ => ⟨h, .refl g⟩
  | succ fuel ih =>
    intro path g h hs
    rw [ends_analyseWithin]
    cases hn : g.packages.find? path with
    | none => exact ⟨h, .refl g⟩
    | some n =>
      have hpath := (h.inv.nodes path n hn).path
      have hstart : (g.startChecking path).packages.find? n.path = some { n.reset with state := .building } := by
        rw [hpath]
        exact find?_startChecking hn
      have hnode := (h.startChecking hn (hs n hn)).ends_analyseNode hd hm hnamed ih hneat hstart rfl rfl
      refine hnode.mono fun a t ⟨⟨ht, he⟩, hparsed, hrecords⟩ => ?_
      rw [ofPath_congr rfl] at hparsed
      have hfinish := h.inv.finishChecking hn (hs n hn) ht.inv he hparsed
      refine ⟨ht.finishChecking hfinish fun last hlast => ?_, extends_finishChecking hn he⟩
      have hbare : n.bare = last.bare := h.toFollows.bare_eq ht.toFollows hn hlast
      exact hrecords.congr hbare rfl

/-! ## Giving diagnostics -/

theorem Traced.ends_diagnose (hd : disk.WellNamed) (hm : m.dir.Rooted) (hnamed : m.Named) (hneat : Neat disk w)
    (h : Traced disk m w g) (hr : Resting disk m g) (path : String) :
    Ends (diagnose disk path) g fun _ g' => Traced disk m w g' := by
  have hrecords : Ends (diagnose disk path) g fun _ g' =>
      ∀ key n, g'.packages.find? key = some n → Records disk w n := by
    rw [Graph.ends_diagnose]
    cases hn : g.packages.find? path with
    | none => exact h.records
    | some n =>
      dsimp only
      split
      · exact h.records
      · have hanalyse : Ends (analyse disk path) g fun _ g' => Traced disk m w g' ∧ Extends g g' := by
          unfold analyse
          rw [ends_bind, ends_get]
          exact recording_analyseWithin hd hm hnamed hneat _ path g h fun n hn => hr.states path n hn
        refine hanalyse.mono fun _ g' hall => ?_
        have h' := hall.1
        have hcurrent : ∀ key n', (g'.markCurrent path).packages.find? key = some n' → Records disk w n' := by
          intro key n' hn'
          rw [markCurrent, find?_modifyPackage] at hn'
          split at hn'
          · obtain ⟨old, hold, rfl⟩ := Option.map_eq_some_iff.mp hn'
            exact (h'.records key old hold).congr rfl rfl
          · exact h'.records key n' hn'
        cases (g'.markCurrent path).packages.find? path with
        | none => exact hcurrent
        | some n' => exact records_publish hcurrent path n'.surface?
  exact ((h.toFollows.ends_diagnose hd hm hnamed hneat hr path).and hrecords).mono fun _ _ h' => ⟨h'.1, h'.2⟩

end IdlWorkbench.Graph
