import IdlWorkbench.Proofs.Check.Tables
import IdlWorkbench.Proofs.Graph.Sited

/-!
# Packages that types lead to

The tables of a checked package give the declared types that names mean, and with them the packages to look for
their declarations in. In a graph over a single module these are named by straight import paths: such a package is
the checked one itself, or its surface was imported, and then it was found in a directory of the module.

Results of checks come from analyses only. What else is done to a graph keeps them or drops them: `Sheds`.
-/

namespace IdlWorkbench

open IdlWorkbench.Path

/-- A package that was checked and the packages of the types in its tables have straight import paths. -/
structure CheckResult.Straight (m : ModuleRoot) (c : CheckResult) : Prop where
  path : m.Straight c.surface.path
  types : ∀ table ∈ c.types, ∀ e ∈ table, ∀ r, e.2 = ⟨.type, .named r⟩ → m.Straight r.package

theorem straight_check {m : ModuleRoot} {path name : String} {sources : List Source}
    {imported : Table String Imported}
    (hp : m.Straight path) (h : ∀ p s, imported.find? p = some (.ok s) → m.Straight s.path) :
    (check path name sources imported).Straight m := by
  refine ⟨hp, fun table htable e he r hr => ?_⟩
  rcases package_of_types htable he hr with hown | ⟨p, s, hs, hpackage⟩
  · exact hown ▸ hp
  · exact hpackage ▸ h p s hs

namespace Graph

variable {disk : Disk} {m : ModuleRoot} {g g' g'' : Graph}

def checkedAt? (g : Graph) (key : String) : Option CheckResult := (g.packages.find? key).bind PackageNode.checked?

def Typed (m : ModuleRoot) (g : Graph) : Prop := ∀ key c, g.checkedAt? key = some c → c.Straight m

/-! ## Nothing new is checked -/

def Sheds (g g' : Graph) : Prop := ∀ key c, g'.checkedAt? key = some c → g.checkedAt? key = some c

theorem Typed.sheds (h : Typed m g) (hs : Sheds g g') : Typed m g' := fun key c hc => h key c (hs key c hc)

theorem Sheds.refl (g : Graph) : Sheds g g := fun _ _ h => h

theorem Sheds.trans (h : Sheds g g') (h' : Sheds g' g'') : Sheds g g'' := fun key c hc => h key c (h' key c hc)

theorem sheds_of_packages (h : g'.packages = g.packages) : Sheds g g' := by
  intro key c hc
  rwa [checkedAt?, h] at hc

theorem sheds_of_find? (h : ∀ key n', g'.packages.find? key = some n' →
    n'.analysis = none ∨ ∃ n, g.packages.find? key = some n ∧ n.analysis = n'.analysis) : Sheds g g' := by
  intro key c hc
  obtain ⟨n', hn', hc⟩ := Option.bind_eq_some_iff.mp hc
  rcases h key n' hn' with hnone | ⟨n, hn, hsame⟩
  · rw [PackageNode.checked?, hnone] at hc
    cases hc
  · rw [checkedAt?, hn, Option.bind_some, PackageNode.checked?, hsame]
    exact hc

theorem sheds_modifyPackage (path : String) {f : PackageNode → PackageNode}
    (hf : ∀ n, (f n).analysis = none ∨ n.analysis = (f n).analysis) : Sheds g (g.modifyPackage path f) := by
  refine sheds_of_find? fun key n' hn' => ?_
  rw [find?_modifyPackage] at hn'
  split at hn'
  · obtain ⟨n, hn, rfl⟩ := Option.map_eq_some_iff.mp hn'
    exact (hf n).imp_right fun h => ⟨n, hn, h⟩
  · exact Or.inr ⟨n', hn', rfl⟩

theorem sheds_invalidate (path : String) : Sheds g (g.invalidate path) := by
  refine sheds_of_find? fun key n' hn' => ?_
  rw [find?_invalidate] at hn'
  obtain ⟨n, hn, rfl⟩ := Option.map_eq_some_iff.mp hn'
  unfold invalidateNode
  split
  · exact Or.inr ⟨n, hn, rfl⟩
  · exact Or.inl rfl

theorem sheds_noteEdit (path : String) : Sheds g (g.noteEdit path) :=
  (sheds_of_packages (packages_evictMemo (g := g.track [path]) path)).trans (sheds_invalidate path)

theorem sheds_publish (path : String) (surface : Option Surface) : Sheds g (g.publish path surface) := by
  unfold publish
  dsimp only
  split
  · exact sheds_invalidate path
  · exact .refl g

theorem sheds_evict (path : String) : Sheds g (g.evict path) := by
  refine sheds_of_find? fun key n' hn' => ?_
  simp only [Graph.evict, Table.find?_erase] at hn'
  split at hn'
  · cases hn'
  · exact Or.inr ⟨n', hn', rfl⟩

theorem sheds_markCycle (path : String) : Sheds g (g.markCycle path) := by
  have hall : ∀ (paths : List String) (g : Graph),
      Sheds g (paths.foldl (fun g p => g.modifyPackage p fun n => { n with inCycle := true }) g) := by
    intro paths
    induction paths with
    | nil => exact Sheds.refl
    | cons p paths ih =>
      intro g
      have hone : Sheds g (g.modifyPackage p fun n => { n with inCycle := true }) :=
        sheds_modifyPackage p fun _ => Or.inr rfl
      exact hone.trans (ih _)
  unfold markCycle
  split
  · exact hall _ g
  · exact .refl g

/-! ## Loading and editing -/

theorem analysis_relist (l : Listed) (name : String) (files : List Path) (n : PackageNode) :
    (relist l name files n).analysis = none ∨ n.analysis = (relist l name files n).analysis := by
  unfold relist
  dsimp only
  split
  · exact Or.inr rfl
  · exact Or.inl rfl

theorem sheds_enterListed (l : Listed) : Ends (enterListed disk l).run g fun _ g' => Sheds g g' := by
  rw [ends_enterListed]
  cases g.idlFiles disk l.dir with
  | error e => exact .refl g
  | ok files =>
    dsimp only
    split
    · exact .refl g
    · refine sheds_of_find? fun key n' hn' => ?_
      rcases Table.eq_or_find?_of_insert hn' with ⟨rfl, rfl⟩ | hold
      · rw [listedNode]
        cases hn : g.packages.find? l.path with
        | none => exact Or.inl rfl
        | some n => exact (analysis_relist l _ files n).imp_right fun h => ⟨n, rfl, h⟩
      · exact Or.inr ⟨n', hold, rfl⟩

theorem sheds_load (pattern : String) : Ends (load disk pattern).run g fun _ g' => Sheds g g' :=
  kept_load (.refl g) (fun _ _ _ h => h) fun l _ ht => (sheds_enterListed l).mono fun _ _ h => ht.trans h

theorem sheds_loadOne (pattern : String) : Ends (loadOne disk pattern).run g fun _ g' => Sheds g g' := by
  rw [ends_loadOne]
  refine (sheds_load pattern).mono fun r _ h => ?_
  split <;> exact h

theorem sheds_loadTracked (pattern : String) : Ends (loadTracked disk pattern).run g fun _ g' => Sheds g g' := by
  unfold loadTracked
  rw [ends_then]
  refine (sheds_load pattern).mono fun r _ h => ?_
  cases r <;> exact h

theorem sheds_markDirty (path : String) {f : PackageNode → PackageNode} :
    Sheds g (g.modifyPackage path fun n => (f n).markDirty) := sheds_modifyPackage path fun _ => Or.inl rfl

theorem sheds_loadNew (dir : Path) (text : String) : Ends (loadNew disk dir text).run g fun _ g' => Sheds g g' := by
  rw [ends_loadNew]
  split
  · exact .refl g
  · refine (sheds_loadOne dir.text).mono fun r _ h => ?_
    cases r with
    | error e => exact h
    | ok path => exact h.trans (sheds_markDirty path)

theorem sheds_addFile (file : Path) (text : String) :
    Ends (addFile disk file text).run g fun _ g' => Sheds g g' := by
  rw [← addFile_normalize, ends_addFile (normal_normalize file)]
  split
  · exact .refl g
  · split
    · exact (sheds_markDirty (g := g.hold file.normalize text) _).trans (sheds_noteEdit _)
    · refine (sheds_loadNew (g := g.hold file.normalize text) _ text).mono fun r _ h => ?_
      cases r with
      | error e => exact h
      | ok path => exact h.trans (sheds_noteEdit path)

theorem sheds_updateFile (file : Path) (text : String) :
    Ends (updateFile disk file text).run g fun _ g' => Sheds g g' := by
  rw [← updateFile_normalize, ends_updateFile (normal_normalize file)]
  split
  · exact .refl g
  · split
    · exact sheds_addFile file.normalize text
    · split
      · exact .refl g
      · exact (sheds_markDirty (g := g.hold file.normalize text) _).trans (sheds_noteEdit _)

theorem sheds_closeFile (file : Path) : Ends (closeFile disk file).run g fun _ g' => Sheds g g' := by
  have hreleased (path : String) : Sheds g (g.released file.normalize path) :=
    (sheds_of_packages (packages_evictMemo (g := g.release file.normalize) path)).trans (sheds_invalidate path)
  rw [← closeFile_normalize, ends_closeFile (normal_normalize file)]
  split
  · exact .refl g
  · split
    · exact .refl g
    · split
      · exact (hreleased _).trans (sheds_evict _)
      · exact (hreleased _).trans (sheds_markDirty _)

/-! ## Importing -/

theorem straight_standardSurface {path : String} {s : Surface}
    (h : standardSurface path = .ok s) : m.Straight s.path := by
  unfold standardSurface Surface.standard? at h
  split at h
  · rename_i hs
    split at hs
    · cases hs
      cases h
      have htime : PlainPattern "time" := by decide
      exact htime.straight
    · cases hs
  · cases h

theorem Typed.shown (h : Typed m g) {path : String} {s : Surface}
    (hs : g.shown path = .ok s) : m.Straight s.path := by
  unfold Graph.shown at hs
  split at hs
  · cases hs
  · rename_i n hn
    split at hs
    · cases hs
    · split at hs
      · rename_i s' hsurface
        cases hs
        obtain ⟨c, hc, rfl⟩ := Option.map_eq_some_iff.mp hsurface
        refine (h path c ?_).path
        rw [checkedAt?, hn]
        exact hc
      · cases hs

def KeepsTyped (disk : Disk) (m : ModuleRoot) (analyse : String → StateM Graph Unit) : Prop :=
  ∀ path g, Inv disk m g → Typed m g → (∀ n, g.packages.find? path = some n → n.state ≠ .building) →
    Ends (analyse path) g fun _ g' => Typed m g'

section
variable (hd : disk.WellNamed) (hm : m.dir.Rooted) {analyse : String → StateM Graph Unit}
  (ha : KeepsTyped disk m analyse)
include hd hm ha

theorem Typed.ends_importPackage (h : Typed m g) (hi : Inv disk m g) {importPath : String}
    (hp : DotFree importPath) :
    Ends (importPackage disk analyse importPath).run g fun r g' =>
      Typed m g' ∧ ∀ s, r = .ok s → m.Straight s.path := by
  rw [Graph.ends_importPackage]
  split
  · exact ⟨h, fun _ => straight_standardSurface⟩
  · have hload := (hi.ends_loadOne hd hm (PlainPattern.straight (Or.inr hp))).and (sheds_loadOne importPath)
    refine hload.mono fun r g' ⟨⟨hi', _, _⟩, hs⟩ => ?_
    have h' := h.sheds hs
    cases r with
    | error e => exact ⟨h', nofun⟩
    | ok path =>
      dsimp only
      cases hn : g'.packages.find? path with
      | none => exact ⟨h', nofun⟩
      | some n =>
        dsimp only
        cases n.listErrors with
        | cons e _ => exact ⟨h', nofun⟩
        | nil =>
          dsimp only
          split
          · exact ⟨h'.sheds (sheds_markCycle path), nofun⟩
          · rename_i hb
            split
            · have hrest : ∀ n', g'.packages.find? path = some n' → n'.state ≠ .building := by
                intro n' hn'
                rw [hn] at hn'
                cases hn'
                exact hb
              exact (ha path g' hi' h' hrest).mono fun _ _ h'' => ⟨h'', fun _ => h''.shown⟩
            · exact ⟨h', fun _ => h'.shown⟩

/-! ## Analysing -/

theorem Typed.ends_analyseNode (hinv : Analyses disk m analyse) (h : Typed m g) (hi : Inv disk m g)
    {n n' : PackageNode}
    (hn : g.packages.find? n.path = some n') (hb : n'.state = .building) (hf : n'.files = n.files) :
    Ends (analyseNode disk analyse n) g fun a g' => Typed m g' ∧ ∀ c, a.checked = some c → c.Straight m := by
  have hnode := hi.nodes _ n' hn
  have hplain := hi.plain_imports (extension_of_idlFiles hnode.files)
  rw [hf] at hplain
  unfold analyseNode
  simp only [ends_bind, ends_get]
  split
  · rw [ends_bind]
    -- an import may analyse other packages, so both invariants go from import to import
    have hpush : Inv disk m { g with building := n.path :: g.building } ∧
        Typed m { g with building := n.path :: g.building } := ⟨hi.push ⟨n', hn, hb⟩, h⟩
    have himport : ∀ path ∈ Check.importPaths ((n.files.map (ParsedFile.ofPath disk g)).map (·.source)), ∀ t,
        (Inv disk m t ∧ Typed m t) → Ends (importPackage disk analyse path).run t fun r t' =>
          (Inv disk m t' ∧ Typed m t') ∧ ∀ s, r = .ok s → m.Straight s.path := by
      rintro path hpath t ⟨hit, ht⟩
      have hinvariant := hit.ends_importPackage hd hm hinv (hplain path hpath)
      have htyped := ht.ends_importPackage hd hm ha hit (hplain path hpath)
      exact (hinvariant.and htyped).mono fun _ _ ⟨⟨hi', _⟩, ht', hr⟩ => ⟨⟨hi', ht'⟩, hr⟩
    refine (answered_checkTypes hpush himport).mono fun result g' => ?_
    rintro ⟨⟨t, ⟨-, ht⟩, rfl⟩, imported, rfl, hanswers⟩
    refine ⟨ht, ?_⟩
    rintro c ⟨⟩
    have hpath : m.Straight n.path := by
      obtain ⟨names, hnames, -, hkey⟩ := hnode.owned
      rw [hkey]
      exact m.straight_pathAt hnames
    exact straight_check hpath hanswers
  · exact ⟨h, nofun⟩

end

theorem Typed.finishChecking (h : Typed m g) (path : String) {a : Analysis} (ha : ∀ c, a.checked = some c →
      c.Straight m)
    (state : Lifecycle) : Typed m (g.finishChecking path a state) := by
  intro key c hc
  obtain ⟨n, hn, hc⟩ := Option.bind_eq_some_iff.mp hc
  rw [Graph.finishChecking, find?_modifyPackage] at hn
  split at hn
  · obtain ⟨old, -, rfl⟩ := Option.map_eq_some_iff.mp hn
    exact ha c hc
  · refine h key c ?_
    rw [checkedAt?, hn]
    exact hc

section
variable (hd : disk.WellNamed) (hm : m.dir.Rooted)
include hd hm

theorem keepsTyped_analyseWithin (fuel : Nat) : KeepsTyped disk m (analyseWithin disk fuel) := by
  induction fuel with
  | zero => exact fun _ _ _ h _ => h
  | succ fuel ha =>
    intro path g hi h hs
    rw [ends_analyseWithin]
    cases hn : g.packages.find? path with
    | none => exact h
    | some n =>
      have hi' := hi.startChecking hn (hs n hn)
      have hstart : (g.startChecking path).packages.find? n.path = some { n.reset with state := .building } := by
        rw [(hi.nodes path n hn).path]
        exact find?_startChecking hn
      have h' : Typed m (g.startChecking path) := h.sheds (sheds_modifyPackage path fun _ => Or.inl rfl)
      refine (h'.ends_analyseNode hd hm ha (analyses_analyseWithin hd hm fuel) hi' hstart rfl rfl).mono ?_
      exact fun a t ⟨ht, hchecked⟩ => ht.finishChecking path hchecked n.state

/-! ## Requests -/

theorem Typed.ends_analyse (h : Typed m g) (hr : Resting disk m g) (path : String) :
    Ends (analyse disk path) g fun _ g' => Typed m g' := by
  unfold analyse
  rw [ends_bind, ends_get]
  exact keepsTyped_analyseWithin hd hm _ path g hr.inv h fun n hn => hr.states path n hn

theorem Typed.ends_ensureAnalysed (h : Typed m g) (hr : Resting disk m g) (path : String) :
    Ends (ensureAnalysed disk path) g fun _ g' => Typed m g' := by
  unfold ensureAnalysed
  rw [ends_bind, ends_get]
  cases g.packages.find? path with
  | none => exact h
  | some n =>
    dsimp only
    split
    · rw [ends_bind]
      exact h.ends_analyse hd hm hr path
    · exact h

theorem Typed.ends_diagnose (h : Typed m g) (hr : Resting disk m g) (path : String) :
    Ends (diagnose disk path) g fun _ g' => Typed m g' := by
  rw [Graph.ends_diagnose]
  split
  · exact h
  · split
    · exact h
    · refine (h.ends_analyse hd hm hr path).mono fun _ g' h' => ?_
      have hcurrent : Typed m (g'.markCurrent path) := h'.sheds (sheds_modifyPackage path fun _ => Or.inr rfl)
      split
      · exact hcurrent
      · exact hcurrent.sheds (sheds_publish path _)

theorem Typed.request (h : Typed m g) (hr : Resting disk m g) (r : Request) : Typed m (r.after disk g) := by
  cases r with
  | load pattern => exact h.sheds (sheds_load pattern)
  | track pattern => exact h.sheds (sheds_loadTracked pattern)
  | analyse package => exact h.ends_ensureAnalysed hd hm hr package
  | diagnose package => exact h.ends_diagnose hd hm hr package
  | add file text => exact h.sheds (sheds_addFile (.ofString file) text)
  | update file text => exact h.sheds (sheds_updateFile (.ofString file) text)
  | close file => exact h.sheds (sheds_closeFile (.ofString file))

end

end Graph

end IdlWorkbench
