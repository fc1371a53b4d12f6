import IdlWorkbench.Proofs.Graph.Alike
import IdlWorkbench.Proofs.Graph.Record
import IdlWorkbench.Proofs.Session.Shown
import Mathlib.Data.Fintype.EquivFin

/-!
# What an edit touches

An edit is about one directory. Its package is to be analysed again, and so are the packages that have recorded it
among their imports. What is known about the others stays right as long as what they import answers with the same.
-/

namespace IdlWorkbench.Graph

open IdlWorkbench.Path

variable {disk : Disk} {m : ModuleRoot} {g g' : Graph}

/-! ## What is known about packages -/

/-- Everything that is known about packages is what checking from scratch finds, and imports are recorded. -/
structure Exact (disk : Disk) (m : ModuleRoot) (g : Graph) : Prop extends Steady disk m g where
  sound : ∀ key n, g.packages.find? key = some n → g.Sound disk n
  records : ∀ key n, g.packages.find? key = some n → Records disk g n

theorem Exact.traced (h : Exact disk m g) : Traced disk m g g := ⟨h.ready.follows h.resting.inv, h.records⟩

theorem Steady.neat_importPaths (h : Steady disk m g) {key : String} {n : PackageNode}
    (hn : g.packages.find? key = some n) : ∀ path ∈ g.importPaths disk n, NeatPath path :=
  (h.ready.follows h.resting.inv).neat_importPaths h.neat hn

/-! ## Edits -/

/-- From some depth on, checking from scratch answers an import with the same in two graphs. -/
def SameAnswer (disk : Disk) (g g' : Graph) (path : String) : Prop :=
  ∃ depth, ∀ fuel, depth ≤ fuel →
    g'.batchImport disk (g'.batchWithin disk fuel) path = g.batchImport disk (g.batchWithin disk fuel) path

def Differs (disk : Disk) (g g' : Graph) (path : String) : Prop :=
  ∃ depth, ∀ fuel, depth ≤ fuel → ∃ s s', g.batchImport disk (g.batchWithin disk fuel) path = .ok s ∧
    g'.batchImport disk (g'.batchWithin disk fuel) path = .ok s' ∧ s.same s' = false

def Wanted (g : Graph) (path : String) : Prop :=
  path ∈ g.tracked ∧ ∃ n ∈ g.packages.find? path, n.state ≠ .untracked

instance (g : Graph) (path : String) : Decidable (Wanted g path) :=
  inferInstanceAs (Decidable (path ∈ g.tracked ∧ ∃ n ∈ g.packages.find? path, n.state ≠ .untracked))

/-- What a package has imported without recording the edited one answers with the same after the edit, or else
someone has asked for the diagnostics of what it imports, which shows something else. -/
def Carries (disk : Disk) (g g' : Graph) (edited : String) : Prop :=
  ∀ key n a, g.packages.find? key = some n → n.analysis = some a → a.checked.isSome = true → key ≠ edited →
    edited ∉ a.imports → ∀ path ∈ g.importPaths disk n, g.layout.isStandard path = false →
      SameAnswer disk g g' path ∨ g.Wanted path ∧ Differs disk g g' path

/-- The texts of one directory have changed. Nothing is known about the package there, which may be new or gone, and
the packages that have recorded it among their imports are to be analysed again. A directory outside of the module
has no package, and then `path` is one that nobody knows. -/
structure Touched (disk : Disk) (m : ModuleRoot) (dir : Path) (path : String) (g g' : Graph) : Prop where
  home : ∀ p, m.Owns dir p → p = path
  place : ∀ n, g.packages.find? path = some n → n.dir = dir
  layout : g'.layout = g.layout
  read : ∀ n p, m.Owns n.dir p → n.dir ≠ dir → g.Fresh disk n → ∀ f ∈ n.files, g'.read disk f = g.read disk f
  fresh : ∀ d p, m.Owns d p → d ≠ dir → g'.freshAt disk d = g.freshAt disk d
  there : ∀ p, m.Owns dir p → g.packages.contains path = true ∨ g'.packages.contains path = true
  here : ∀ n, g'.packages.find? path = some n → n.analysis = none ∧ n.inCycle = false ∧ n.state = .dirty
  gone : ∀ p, m.Owns dir p → g'.packages.find? path = none → g'.idlFiles disk dir = .ok []
  elsewhere : ∀ key, key ≠ path → g'.packages.find? key = (g.packages.find? key).map (invalidateNode path)
  tracked : ∀ key ∈ g.tracked, g'.packages.contains key = true → key ∈ g'.tracked
  published : ∀ key, g'.published.find? key = g.published.find? key ∨ key = path ∧ g'.published.find? key = none

/-- What settles in the same way in two graphs answers with the same in both. -/
theorem sameAnswer_of_settles {path : String} {z : PackageNode} {a : Analysis}
    (hs : g.layout.isStandard path = false)
    (hs' : g'.layout.isStandard path = false) (hz : g.freshPackages disk path = .ok [z])
    (hz' : g'.freshPackages disk path = .ok [z]) (he : z.listErrors = []) (h : g.Settles disk z a)
    (h' : g'.Settles disk z a) : SameAnswer disk g g' path := by
  obtain ⟨depth, hanswer⟩ := h.answers hs hz he
  obtain ⟨depth', hanswer'⟩ := h'.answers hs' hz' he
  exact ⟨max depth depth', fun fuel hfuel => (hanswer' fuel (by omega)).trans (hanswer fuel (by omega)).symm⟩

theorem exists_depth {α : Type} {P : Nat → α → Prop} : ∀ {as : List α},
    (∀ a ∈ as, ∃ depth, ∀ fuel, depth ≤ fuel → P fuel a) → ∃ depth, ∀ fuel, depth ≤ fuel → ∀ a ∈ as, P fuel a
  | [], _ => ⟨0, fun _ _ _ ha => nomatch ha⟩
  | a :: as, h => by
    obtain ⟨d, hd⟩ := h a (by simp)
    obtain ⟨d', hd'⟩ := exists_depth fun b hb => h b (List.mem_cons_of_mem _ hb)
    refine ⟨max d d', fun fuel hf b hb => ?_⟩
    rcases List.mem_cons.mp hb with rfl | hb
    · exact hd fuel (by omega)
    · exact hd' fuel (by omega) b hb

namespace Touched

variable {dir : Path} {edited : String} (ht : Touched disk m dir edited g g')
include ht

section
variable (h : Exact disk m g)
include h

theorem dir_ne {key : String} {n : PackageNode} (hn : g.packages.find? key = some n) (hne : key ≠ edited) :
    n.dir ≠ dir :=
  fun heq => hne (ht.home key (heq ▸ (h.resting.inv.nodes key n hn).owned))

/-- The files of other packages are not touched. -/
theorem read_eq {key : String} {n : PackageNode} (hn : g.packages.find? key = some n) (hne : key ≠ edited) :
    ∀ f ∈ n.files, g'.read disk f = g.read disk f :=
  ht.read n key (h.resting.inv.nodes key n hn).owned (ht.dir_ne h hn hne) (h.ready.lists.fresh key n hn)

/-- What is known about a package stays right if everything that it imports answers with the same. -/
theorem settles {key : String} {n : PackageNode} (hn : g.packages.find? key = some n) (hne : key ≠ edited)
    {a : Analysis} (ha : n.analysis = some a) (hsame : a.checked.isSome = true → ∀ path ∈ g.importPaths disk n,
      g.layout.isStandard path = false → SameAnswer disk g g' path) : g'.Settles disk n a := by
  obtain ⟨depth, hsettled⟩ := (h.sound key n hn).settled a ha
  have hread := ht.read_eq h hn hne
  cases hcheck : a.checked with
  | none =>
    -- the files were not fit for a check, and nobody has looked at the imports
    refine ⟨depth + 1, fun fuel hfuel => ?_⟩
    obtain ⟨fuel, rfl⟩ : ∃ k, fuel = k + 1 := ⟨fuel - 1, by omega⟩
    have hmatches := hsettled (fuel + 1) (by omega)
    have hunfit : (g.batchNode disk (g.batchWithin disk fuel) n).checked = none := hmatches.2.1.trans hcheck
    have hnode : g'.batchWithin disk (fuel + 1) n = g.batchWithin disk (fuel + 1) n := batchNode_unfit hread hunfit
    rw [hnode]
    exact hmatches
  | some result =>
    have hanswers : ∃ depth, ∀ fuel, depth ≤ fuel → ∀ path ∈ g.importPaths disk n,
        g'.batchImport disk (g'.batchWithin disk fuel) path = g.batchImport disk (g.batchWithin disk fuel) path := by
      refine exists_depth fun path hpath => ?_
      by_cases hstd : g.layout.isStandard path = true
      · refine ⟨0, fun fuel _ => ?_⟩
        unfold batchImport
        rw [ht.layout, if_pos hstd, if_pos hstd]
      · exact hsame (by rw [hcheck]; rfl) path hpath (Bool.eq_false_iff.mpr hstd)
    obtain ⟨depth', hanswers⟩ := hanswers
    refine ⟨max depth depth' + 1, fun fuel hfuel => ?_⟩
    obtain ⟨fuel, rfl⟩ : ∃ k, fuel = k + 1 := ⟨fuel - 1, by omega⟩
    have hnode : g'.batchWithin disk (fuel + 1) n = g.batchWithin disk (fuel + 1) n :=
      batchNode_congr hread (hanswers fuel (by omega))
    rw [hnode]
    exact hsettled (fuel + 1) (by omega)

/-- Another package is as it was and has not recorded the edited one, or nothing is known about it. -/
theorem kept_or_unknown {key : String} {n' : PackageNode} (hn' : g'.packages.find? key = some n')
    (hne : key ≠ edited) : n'.analysis = none ∧ n'.inCycle = false ∨
      g.packages.find? key = some n' ∧ ∀ a, n'.analysis = some a → edited ∉ a.imports := by
  rw [ht.elsewhere key hne] at hn'
  obtain ⟨n, hn, rfl⟩ := Option.map_eq_some_iff.mp hn'
  have hpath : n.path ≠ edited := (h.resting.inv.nodes key n hn).path ▸ hne
  have hstate := h.resting.states key n hn
  by_cases hrecorded : edited ∈ n.imports
  · left
    simp [invalidateNode, hpath, hstate, hrecorded, PackageNode.reset]
  · right
    have hsame : invalidateNode edited n = n := by simp [invalidateNode, hrecorded]
    rw [hsame]
    refine ⟨hn, fun a ha hmem => hrecorded ?_⟩
    simpa [PackageNode.imports, ha] using hmem

/-- What is known about a package after the edit was known before. -/
theorem known_before {key : String} {n : PackageNode} (hn : g'.packages.find? key = some n) {a : Analysis}
    (ha : n.analysis = some a) : key ≠ edited ∧ g.packages.find? key = some n ∧ edited ∉ a.imports := by
  have hne : key ≠ edited := by
    rintro rfl
    rw [(ht.here n hn).1] at ha
    cases ha
  rcases ht.kept_or_unknown h hn hne with ⟨hnone, -⟩ | ⟨hbefore, hunrecorded⟩
  · rw [hnone] at ha
    cases ha
  · exact ⟨hne, hbefore, hunrecorded a ha⟩

variable (hd : disk.WellNamed) (hm : m.dir.Rooted) (hnamed : m.Named) (h' : Steady disk m g')
include hd hm hnamed h'

/-- An import path of a package that has not recorded the edited one stands for the same as before. -/
theorem freshPackages (hc : Carries disk g g' edited) {key : String} {n : PackageNode} {a : Analysis}
    (hn : g.packages.find? key = some n) (ha : n.analysis = some a) (hsome : a.checked.isSome = true)
    (hne : key ≠ edited) (hunrecorded : edited ∉ a.imports) {path : String} (hpath : path ∈ g.importPaths disk n)
    (hstd : g.layout.isStandard path = false) : g'.freshPackages disk path = g.freshPackages disk path := by
  have hneat := h.neat_importPaths hn path hpath
  have hl := h.resting.inv.modules
  rcases direct_or_error disk hl hnamed hneat hstd with ⟨d, hdirect⟩ | ⟨e, herror⟩
  · by_cases hdir : d = dir
    · subst hdir
      obtain rfl : path = edited := ht.home path hdirect.2.1
      -- the package would have been recorded, so it was not there before
      have hmissing : ∀ z, g.freshPackages disk path ≠ .ok [z] := fun z hz =>
        hunrecorded (hdirect.path_eq hd hm hl hneat.dotFree hz z (by simp) ▸
          h.records key n hn a ha hsome path hpath hstd z hz)
      have hnow : ∃ z, g'.freshPackages disk path = .ok [z] := by
        rcases ht.there path hdirect.2.1 with hbefore | hafter
        · obtain ⟨p, hp⟩ := contains_iff.mp hbefore
          have hpdir := (h.resting.inv.nodes path p hp).owned.dir_eq hdirect.2.1
          exact absurd ((h.ready.lists.fresh path p hp).freshPackages (hpdir ▸ hdirect)) (hmissing _)
        · obtain ⟨p, hp⟩ := contains_iff.mp hafter
          have hpdir := (h'.resting.inv.nodes path p hp).owned.dir_eq hdirect.2.1
          exact ⟨_, (h'.ready.lists.fresh path p hp).freshPackages (hpdir ▸ hdirect.congr ht.layout)⟩
      obtain ⟨z, hz⟩ := hnow
      obtain ⟨e, he⟩ : ∃ e, ∀ batch, g.batchImport disk batch path = .error (.load e) := answer_load hstd hmissing
      rcases hc key n a hn ha hsome hne hunrecorded path hpath hstd with ⟨depth, hsame⟩ | ⟨-, depth, hdiffers⟩
      · have hanswer := hsame depth (Nat.le_refl _)
        rw [he] at hanswer
        exact absurd hanswer (answer_ne_load (ht.layout ▸ hstd) hz e)
      · obtain ⟨s, -, hanswer, -⟩ := hdiffers depth (Nat.le_refl _)
        rw [he] at hanswer
        cases hanswer
    · rw [freshPackages_of_dir hdirect.1 hdirect.2.2, freshPackages_of_dir hdirect.1 (ht.layout ▸ hdirect.2.2)]
      exact ht.fresh d path hdirect.2.1 hdir
  · exact (herror g' ht.layout).trans (herror g rfl).symm

/-- What a package has recorded stays complete. -/
theorem records (hc : Carries disk g g' edited) {key : String} {n : PackageNode}
    (hn : g'.packages.find? key = some n) :
    Records disk g' n := by
  intro a ha hsome path hpath hstd z hz
  obtain ⟨hne, hbefore, hunrecorded⟩ := ht.known_before h hn ha
  rw [importPaths_congr (ht.read_eq h hbefore hne)] at hpath
  rw [ht.layout] at hstd
  rw [ht.freshPackages h hd hm hnamed h' hc hbefore ha hsome hne hunrecorded hpath hstd] at hz
  exact h.records key n hbefore a ha hsome path hpath hstd z hz

end

end Touched

/-! ## Notes that concern no package -/

/-- Nothing has changed that a package of the module depends on. -/
structure Bypassed (disk : Disk) (m : ModuleRoot) (g w : Graph) : Prop extends Alike disk m g w where
  packages : w.packages = g.packages
  tracked : w.tracked = g.tracked
  published : w.published = g.published

theorem Bypassed.refl (disk : Disk) (m : ModuleRoot) (g : Graph) : Bypassed disk m g g :=
  ⟨⟨rfl, fun _ _ _ _ _ _ => rfl, fun _ _ _ => rfl⟩, rfl, rfl, rfl⟩

theorem exists_unknown (g : Graph) : ∃ path, g.packages.find? path = none ∧
    ∀ key n, g.packages.find? key = some n → path ∉ n.imports := by
  obtain ⟨path, hpath⟩ := Infinite.exists_notMem_finset
    (g.packages.keys ++ g.packages.flatMap fun e => e.2.imports).toFinset
  rw [List.mem_toFinset, List.mem_append, not_or] at hpath
  refine ⟨path, ?_, fun key n hn himports => ?_⟩
  · cases hfind : g.packages.find? path with
    | none => rfl
    | some n => exact absurd (Table.mem_keys_iff.mpr ⟨n, hfind⟩) hpath.1
  · exact hpath.2 (List.mem_flatMap.mpr ⟨(key, n), Table.mem_of_find? hn, himports⟩)

/-- A path that is not absolute is no directory of the module, so it is as if the texts there had changed. -/
theorem Bypassed.touched (hm : m.dir.Rooted) (h : Bypassed disk m g g') : ∃ path, Touched disk m ⟨[]⟩ path g g' := by
  obtain ⟨path, hnone, hunrecorded⟩ := exists_unknown g
  have hout : ∀ p, ¬m.Owns ⟨[]⟩ p := fun p ho => Bool.false_ne_true (ho.rooted hm).absolute
  refine ⟨path, fun p ho => absurd ho (hout p), fun n hn => ?_, h.layout, fun n p ho _ => h.read n p ho,
    fun d p ho _ => h.fresh d p ho, fun p ho => absurd ho (hout p), fun n hn => ?_, fun p ho => absurd ho (hout p),
    fun key _ => ?_, fun key hkey _ => h.tracked ▸ hkey, fun key => Or.inl (by rw [h.published])⟩
  · rw [hnone] at hn
    cases hn
  · rw [h.packages, hnone] at hn
    cases hn
  · rw [h.packages]
    cases hn : g.packages.find? key with
    | none => rfl
    | some n => simp [invalidateNode, hunrecorded key n hn]

/-- Where graphs look the same from scratch, imports answer with the same. -/
theorem Alike.sameAnswer (hd : disk.WellNamed) (hm : m.dir.Rooted) (hnamed : m.Named) (hi : Inv disk m g)
    (hneat : Neat disk g) (h : Alike disk m g g') {path : String} (hpath : NeatPath path)
    (hs : g.layout.isStandard path = false) : SameAnswer disk g g' path := by
  refine ⟨0, fun fuel _ => batchImport_congr h.layout (h.freshPackages hnamed hi hpath hs) fun z hz => ?_⟩
  have howns := owns_freshPackages hi.modules hm hd (Or.inr hpath.dotFree) hz z (by simp)
  exact h.batchWithin hd hm hnamed hi hneat fuel howns (mem_freshPackages hz z (by simp)).1

theorem Bypassed.carries (hd : disk.WellNamed) (hm : m.dir.Rooted) (hnamed : m.Named) (hg : Steady disk m g)
    (h : Bypassed disk m g g') (edited : String) : Carries disk g g' edited :=
  fun _ _ _ hn _ _ _ _ path hpath hs => Or.inl
    (h.toAlike.sameAnswer hd hm hnamed hg.resting.inv hg.neat (hg.neat_importPaths hn path hpath) hs)

end IdlWorkbench.Graph
