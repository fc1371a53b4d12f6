import IdlWorkbench.Proofs.Graph.Follow
import IdlWorkbench.Proofs.Graph.Settle
import Mathlib.Data.List.TakeWhile

/-!
# Import cycles are found

While a package is checked, everything that it imports is analysed, down to what is known already. If an import
of the package itself turns up on the way, all packages that wait for imports are flagged, and so the import
that led there fails. Hence a package on a cycle gets an error if nothing is known about the others on the cycle,
or if one of those that it imports is flagged from before.
-/

namespace IdlWorkbench.Graph

open IdlWorkbench.Path

variable {disk : Disk} {m : ModuleRoot} {w g g' g'' : Graph} {outer : String}

/-! ## What is known and flagged -/

def Knows (g : Graph) (path : String) : Prop := ∃ n, g.packages.find? path = some n ∧ n.analysis.isSome = true

instance (g : Graph) (path : String) : Decidable (g.Knows path) :=
  decidable_of_iff _ (Option.any_eq_true (x := g.packages.find? path) (p := (·.analysis.isSome)))

def Flags (g : Graph) (path : String) : Prop := ∃ n, g.packages.find? path = some n ∧ n.inCycle = true

/-- Nothing is wrong with the listing of a package, with the syntax of its files and with the names they give it. -/
def Fit (disk : Disk) (w : Graph) (n : PackageNode) : Prop :=
  n.listErrors = [] ∧ (w.parsedFiles disk n).flatMap (·.errors disk w) = [] ∧
    Analysis.nameErrors (w.parsedFiles disk n) = []

instance (disk : Disk) (w : Graph) (n : PackageNode) : Decidable (w.Fit disk n) :=
  decidable_of_iff (n.listErrors.isEmpty ∧ ((w.parsedFiles disk n).flatMap (·.errors disk w)).isEmpty ∧
    (Analysis.nameErrors (w.parsedFiles disk n)).isEmpty) (by simp only [List.isEmpty_iff, Fit])

theorem Grows.knows_iff (h : Grows g.packages g'.packages) {path : String} : g'.Knows path ↔ g.Knows path := by
  constructor
  · rintro ⟨n, hn, ha⟩
    rcases h.added path n hn with hold | hbare
    · exact ⟨n, hold, ha⟩
    · rw [hbare] at ha
      cases ha
  · rintro ⟨n, hn, ha⟩
    exact ⟨n, h.kept path n hn, ha⟩

theorem Grows.flags_iff (h : Grows g.packages g'.packages) {path : String} : g'.Flags path ↔ g.Flags path := by
  constructor
  · rintro ⟨n, hn, hc⟩
    rcases h.added path n hn with hold | hbare
    · exact ⟨n, hold, hc⟩
    · rw [hbare] at hc
      cases hc
  · rintro ⟨n, hn, hc⟩
    exact ⟨n, h.kept path n hn, hc⟩

theorem knows_markCycle {path key : String} : (g.markCycle path).Knows key ↔ g.Knows key := by
  obtain ⟨packages, heq, hfind⟩ := markCycle_eq g path
  unfold Knows
  rw [heq, hfind]
  constructor
  · rintro ⟨n, hn, ha⟩
    obtain ⟨old, hold, rfl⟩ := Option.map_eq_some_iff.mp hn
    refine ⟨old, hold, ?_⟩
    split at ha <;> exact ha
  · rintro ⟨n, hn, ha⟩
    rw [hn]
    refine ⟨_, rfl, ?_⟩
    split <;> exact ha

theorem flags_markCycle {path key : String} :
    (g.markCycle path).Flags key ↔ g.Flags key ∨ g.packages.contains key = true ∧ key ∈ g.cycleThrough path := by
  obtain ⟨packages, heq, hfind⟩ := markCycle_eq g path
  unfold Flags
  rw [heq, hfind]
  constructor
  · rintro ⟨n, hn, hc⟩
    obtain ⟨old, hold, rfl⟩ := Option.map_eq_some_iff.mp hn
    split at hc
    · rename_i hmem
      exact Or.inr ⟨contains_iff.mpr ⟨old, hold⟩, hmem⟩
    · exact Or.inl ⟨old, hold, hc⟩
  · rintro (⟨n, hn, hc⟩ | ⟨hk, hmem⟩)
    · rw [hn]
      refine ⟨_, rfl, ?_⟩
      split
      · rfl
      · exact hc
    · obtain ⟨n, hn⟩ := contains_iff.mp hk
      rw [hn]
      exact ⟨_, rfl, by dsimp only; rw [if_pos hmem]⟩

/-! ## Packages that wait -/

/-- The packages that wait for imports have files, and no others are being checked. -/
structure Piled (g : Graph) : Prop where
  nodup : g.building.Nodup
  states : ∀ key n, g.packages.find? key = some n → n.state = .building → key ∈ g.building
  files : ∀ p ∈ g.building, ∃ n, g.packages.find? p = some n ∧ n.files ≠ []

structure Nested (outer : String) (g : Graph) : Prop extends Piled g where
  outermost : ∃ inner, g.building = inner ++ [outer]

theorem Nested.mem_building (h : Nested outer g) : outer ∈ g.building := by
  obtain ⟨inner, heq⟩ := h.outermost
  simp [heq]

theorem Nested.exists_inner (h : Nested outer g) : ∃ inner, g.building = inner ++ [outer] ∧ outer ∉ inner := by
  obtain ⟨inner, heq⟩ := h.outermost
  have hnodup := h.nodup
  rw [heq, ← List.concat_eq_append, List.nodup_concat] at hnodup
  exact ⟨inner, heq, hnodup.1⟩

theorem Nested.extends (h : Nested outer g) (hf : Follows disk m w g) (hf' : Follows disk m w g')
    (he : Extends g g') :
    Nested outer g' := by
  refine ⟨⟨he.building ▸ h.nodup, ?_, ?_⟩, he.building ▸ h.outermost⟩
  · intro key n' hn' hb
    rw [he.building]
    rcases he.added key n' hn' with hk | hu
    · obtain ⟨n, hn⟩ := contains_iff.mp hk
      obtain ⟨last, hlast, hstate⟩ := he.kept key n hn
      rw [hn'] at hlast
      cases hlast
      exact h.states key n hn (hstate.symm.trans hb)
    · rw [hb] at hu
      cases hu
  · intro p hp
    rw [he.building] at hp
    obtain ⟨n, hn, hfiles⟩ := h.files p hp
    obtain ⟨n', hn', -⟩ := he.kept p n hn
    exact ⟨n', hn', (PackageNode.of_bare_eq (hf.bare_eq hf' hn hn')).2.1 ▸ hfiles⟩

def enter (g : Graph) (path : String) : Graph :=
  { g.startChecking path with building := path :: g.building }

theorem find?_enter (path key : String) : (g.enter path).packages.find? key =
    if key = path then (g.packages.find? key).map fun n => { n.reset with state := .building }
    else g.packages.find? key :=
  find?_modifyPackage (g := g) path (fun n => { n.reset with state := .building }) key

theorem Piled.enter (h : Piled g) (hi : Inv disk m g) {path : String} {n : PackageNode}
    (hn : g.packages.find? path = some n) (hb : n.state ≠ .building) (hf : n.files ≠ []) : Piled (g.enter path) := by
  have hnot := hi.not_mem_building hn hb
  refine ⟨List.nodup_cons.mpr ⟨hnot, h.nodup⟩, ?_, ?_⟩
  · intro key n' hn' hb'
    by_cases heq : key = path
    · simp [Graph.enter, heq]
    · rw [find?_enter, if_neg heq] at hn'
      exact List.mem_cons_of_mem _ (h.states key n' hn' hb')
  · intro p hp
    rw [find?_enter]
    rcases List.mem_cons.mp hp with rfl | hp
    · rw [if_pos rfl, hn]
      exact ⟨_, rfl, hf⟩
    · rw [if_neg fun (e : p = path) => hnot (e ▸ hp)]
      exact h.files p hp

theorem Nested.enter (h : Nested outer g) (hi : Inv disk m g) {path : String} {n : PackageNode}
    (hn : g.packages.find? path = some n) (hb : n.state ≠ .building) (hf : n.files ≠ []) :
    Nested outer (g.enter path) := by
  obtain ⟨inner, heq⟩ := h.outermost
  refine ⟨h.toPiled.enter hi hn hb hf, path :: inner, ?_⟩
  rw [Graph.enter, heq]
  rfl

/-- An import of another package does not flag the outermost one. -/
theorem Nested.eq_of_mem_cycleThrough (h : Nested outer g) {path : String} (hm : outer ∈ g.cycleThrough path) :
    path = outer := by
  obtain ⟨inner, heq, hnot⟩ := h.exists_inner
  unfold cycleThrough at hm
  split at hm
  · rename_i hc
    rcases List.mem_append.mp hm with hm | hm
    · have hne : outer ≠ path := by simpa using List.mem_takeWhile_imp hm
      have hin : path ∈ inner := by
        rw [heq] at hc
        simpa [Ne.symm hne] using hc
      rw [heq, List.takeWhile_append] at hm
      split at hm
      · rename_i hall
        have hwhole := List.IsPrefix.eq_of_length (List.takeWhile_prefix (decide <| · ≠ path)) hall
        rw [← hwhole] at hin
        simpa using List.mem_takeWhile_imp hin
      · exact absurd (List.takeWhile_subset _ hm) hnot
    · exact (List.mem_singleton.mp hm).symm
  · cases hm

/-- An import of the outermost package flags everything that waits. -/
theorem Nested.mem_cycleThrough (h : Nested outer g) : ∀ p ∈ g.building, p ∈ g.cycleThrough outer := by
  obtain ⟨inner, heq, hnot⟩ := h.exists_inner
  have hpos : ∀ p ∈ inner, decide (p ≠ outer) = true := fun p hp => by
    simpa using fun e : p = outer => hnot (e ▸ hp)
  unfold cycleThrough
  rw [if_pos (by simp [heq]), heq, List.takeWhile_append_of_pos hpos]
  simp

/-! ## Advancing -/

/-- An import of the package at `path` has been looked up while packages are analysed from `g` to `g'`. -/
def Meets (outer : String) (g g' : Graph) (path : String) : Prop :=
  (g'.Knows path ∨ path ∈ g.building) ∧ (path = outer → g'.Flags outer)

/-- How a graph changes while packages are analysed for the sake of `outer`. -/
structure Advances (disk : Disk) (w : Graph) (outer : String) (g g' : Graph) : Prop where
  known : ∀ key, g.Knows key → g'.Knows key
  flagged : ∀ key, g.Flags key → g'.Flags key
  /-- If the outermost package gets its flag, all that wait are flagged. -/
  closed : g'.Flags outer → g.Flags outer ∨ ∀ key ∈ g.building, g'.Flags key
  /-- The imports of packages that became known have been looked up. -/
  followed : ∀ key n, g'.packages.find? key = some n → n.analysis.isSome = true → ¬g.Knows key → w.Fit disk n →
    ∀ z, w.Uses disk n z → z.listErrors = [] → Meets outer g g' z.path

theorem Fit.congr {n n' : PackageNode} (h : w.Fit disk n) (hb : n.bare = n'.bare) : w.Fit disk n' := by
  obtain ⟨-, hfiles, herrors⟩ := PackageNode.of_bare_eq hb
  unfold Fit parsedFiles at h ⊢
  rw [← hfiles, ← herrors]
  exact h

theorem Uses.congr {n n' z : PackageNode} (h : w.Uses disk n z) (hb : n.bare = n'.bare) : w.Uses disk n' z := by
  obtain ⟨-, hfiles, -⟩ := PackageNode.of_bare_eq hb
  unfold Uses importPaths parsedFiles at h ⊢
  rw [← hfiles]
  exact h

theorem advances_same (hk : ∀ key, g'.Knows key ↔ g.Knows key) (hf : ∀ key, g'.Flags key ↔ g.Flags key) :
    Advances disk w outer g g' := by
  refine ⟨fun key => (hk key).mpr, fun key => (hf key).mpr, fun h => Or.inl ((hf outer).mp h), ?_⟩
  intro key n hn ha hnot
  exact absurd ((hk key).mp ⟨n, hn, ha⟩) hnot

theorem Advances.refl (g : Graph) : Advances disk w outer g g := advances_same (fun _ => .rfl) fun _ => .rfl

theorem Meets.mono {path : String} (h : Meets outer g g' path) (ha : Advances disk w outer g' g'') :
    Meets outer g g'' path :=
  ⟨h.1.imp_left (ha.known path), fun e => ha.flagged outer (h.2 e)⟩

theorem Meets.before {path : String} (h : Meets outer g' g'' path) (hb : g'.building = g.building) :
    Meets outer g g'' path :=
  ⟨hb ▸ h.1, h.2⟩

theorem Advances.trans (h : Advances disk w outer g g') (h' : Advances disk w outer g' g'')
    (hb : g'.building = g.building) (hf' : Follows disk m w g') (hf'' : Follows disk m w g'') :
    Advances disk w outer g g'' := by
  refine ⟨fun key hk => h'.known key (h.known key hk), fun key hk => h'.flagged key (h.flagged key hk), ?_, ?_⟩
  · intro hflag
    rcases h'.closed hflag with hflag | hall
    · exact (h.closed hflag).imp_right fun hall key hk => h'.flagged key (hall key hk)
    · exact Or.inr (hb ▸ hall)
  · intro key n hn ha hnot hfit z hz he
    by_cases hknown : g'.Knows key
    · obtain ⟨n', hn', ha'⟩ := hknown
      have hbare := hf''.bare_eq hf' hn hn'
      exact (h.followed key n' hn' ha' hnot (hfit.congr hbare) z (hz.congr hbare) he).mono h'
    · exact (h'.followed key n hn ha hknown hfit z hz he).before hb

theorem Nested.advances_markCycle (h : Nested outer g) (hi : Inv disk m g) (path : String) :
    Advances disk w outer g (g.markCycle path) := by
  refine ⟨fun key => knows_markCycle.mpr, fun key hk => flags_markCycle.mpr (Or.inl hk), fun hflag => ?_, ?_⟩
  · refine (flags_markCycle.mp hflag).imp_right fun hflag key hk => ?_
    rw [h.eq_of_mem_cycleThrough hflag.2, flags_markCycle]
    obtain ⟨n, hn, -⟩ := hi.building key hk
    exact Or.inr ⟨contains_iff.mpr ⟨n, hn⟩, h.mem_cycleThrough key hk⟩
  · intro key n hn ha hnot
    exact absurd (knows_markCycle.mp ⟨n, hn, ha⟩) hnot

/-! ## Importing -/

/-- An analysis of single packages that looks up their imports, with room for more packages that wait. -/
def Traces (disk : Disk) (m : ModuleRoot) (w : Graph) (outer : String) (room : Nat)
    (analyse : String → StateM Graph Unit) : Prop :=
  ∀ path g n, Follows disk m w g → g.packages.find? path = some n → n.state ≠ .building → n.analysis = none →
    Nested outer g → w.size disk + 2 ≤ g.building.length + room →
    Ends (analyse path) g fun _ g' => (Follows disk m w g' ∧ Extends g g') ∧ Advances disk w outer g g' ∧
      g'.Knows path ∧ (g'.Flags outer → g.Flags outer ∨ g'.Flags path)

structure Resolves (disk : Disk) (m : ModuleRoot) (w : Graph) (outer importPath : String) (g : Graph)
    (r : Except ImportError Surface) (g' : Graph) : Prop where
  follows : Follows disk m w g'
  keeps : Extends g g'
  advances : Advances disk w outer g g'
  closed : g'.Flags outer → g.Flags outer ∨ r = .error .cycle
  meets : ∀ z, w.layout.isStandard importPath = false → w.freshPackages disk importPath = .ok [z] →
  z.listErrors = [] →
    Meets outer g g' z.path ∧ (g'.Flags z.path → r = .error .cycle)

theorem shown_of_flags {path : String} (h : g.Flags path) : g.shown path = .error .cycle := by
  obtain ⟨n, hn, hc⟩ := h
  unfold shown
  simp [hn, hc]

section
variable (hd : disk.WellNamed) (hm : m.dir.Rooted) (hnamed : m.Named) {room : Nat}
    {analyse : String → StateM Graph Unit}
  (ha : Traces disk m w outer room analyse)
include ha

theorem Nested.ends_importLoaded (hs : Nested outer g) (h : Follows disk m w g)
    (hroom : w.size disk + 2 ≤ g.building.length + room) {path : String} {n : PackageNode}
    (hn : g.packages.find? path = some n) {Q : Except ImportError Surface → Graph → Prop}
    (hbroken : ∀ e, n.listErrors ≠ [] → Q (.error (.broken e)) g)
    (hq : ∀ r g', Follows disk m w g' ∧ Extends g g' → Advances disk w outer g g' → Meets outer g g' path →
      (g'.Flags path → r = .error .cycle) → (g'.Flags outer → g.Flags outer ∨ r = .error .cycle) → Q r g') :
    match n.listErrors with
    | e :: _ => Q (.error (.broken e.message)) g
    | [] =>
      if n.state = .building then Q (.error .cycle) (g.markCycle path)
      else if n.analysis.isNone then Ends (analyse path) g fun _ g' => Q (g'.shown path) g'
      else Q (g.shown path) g := by
  cases he : n.listErrors with
  | cons e rest => exact hbroken _ (by rw [he]; simp)
  | nil =>
    dsimp only
    split
    · rename_i hb
      have hin := hs.states path n hn hb
      refine hq _ _ ⟨h.markCycle path, (h.inv.markCycle path).2⟩ (hs.advances_markCycle h.inv path)
        ⟨Or.inr hin, ?_⟩ (fun _ => rfl) fun _ => Or.inr rfl
      rintro rfl
      exact flags_markCycle.mpr (Or.inr ⟨contains_iff.mpr ⟨n, hn⟩, hs.mem_cycleThrough path hin⟩)
    · rename_i hb
      -- a package that is not on the stack is not the outermost one
      have hne : path ≠ outer := by
        rintro rfl
        exact h.inv.not_mem_building hn hb hs.mem_building
      split
      · rename_i hnone
        refine (ha path g n h hn hb (Option.isNone_iff_eq_none.mp hnone) hs hroom).mono fun _ g' hall => ?_
        obtain ⟨hf, hadv, hknown, hflag⟩ := hall
        refine hq _ _ hf hadv ⟨Or.inl hknown, fun e => absurd e hne⟩ shown_of_flags fun ho => ?_
        exact (hflag ho).imp_right shown_of_flags
      · rename_i hsome
        refine hq _ _ ⟨h, .refl g⟩ (.refl g) ⟨Or.inl ⟨n, hn, ?_⟩, fun e => absurd e hne⟩ shown_of_flags Or.inl
        simpa [Option.isSome_iff_ne_none] using hsome

include hd hm hnamed

theorem Nested.ends_importPackage (hs : Nested outer g) (h : Follows disk m w g)
    (hroom : w.size disk + 2 ≤ g.building.length + room) {importPath : String} (hneat : NeatPath importPath) :
    Ends (importPackage disk analyse importPath).run g (Resolves disk m w outer importPath g) := by
  rw [Graph.ends_importPackage, h.lists.view.layout]
  split
  · rename_i hstd
    refine ⟨h, .refl g, .refl g, Or.inl, fun z hs => ?_⟩
    rw [hstd] at hs
    cases hs
  · rename_i hstd
    refine (h.ends_loadOne hd hm hnamed hneat (Bool.eq_false_iff.mpr hstd)).mono fun r t ⟨⟨ht, he, hgrow⟩, hr⟩ => ?_
    have hload : Advances disk w outer g t := advances_same (fun _ => hgrow.knows_iff) fun _ => hgrow.flags_iff
    have hsame : t.Flags outer → g.Flags outer := hgrow.flags_iff.mp
    have hfails : ∀ e, (∀ z, w.freshPackages disk importPath = .ok [z] → z.listErrors ≠ []) →
        Resolves disk m w outer importPath g (.error e) t := fun e hne =>
      ⟨ht, he, hload, fun hf => Or.inl (hsame hf), fun z _ hz hnil => absurd hnil (hne z hz)⟩
    cases hns : w.freshPackages disk importPath with
    | error e =>
      rw [hns] at hr hfails
      dsimp only at hr
      subst hr
      exact hfails _ fun z hz => nomatch hz
    | ok ns =>
      rw [hns] at hr hfails
      rcases ns with _ | ⟨n, _ | ⟨n₂, ns⟩⟩
      · dsimp only at hr
        subst hr
        exact hfails _ fun z hz => by simp at hz
      · obtain ⟨rfl, n', hn', hbare⟩ := hr
        dsimp only
        rw [hn']
        dsimp only
        have herrors : n'.bare.listErrors = n.listErrors := congrArg PackageNode.listErrors hbare
        refine (hs.extends h ht he).ends_importLoaded ha ht (he.building ▸ hroom) hn'
          (Q := Resolves disk m w outer importPath g) ?_ ?_
        · intro e hne
          refine hfails _ fun z hz => ?_
          cases hz
          exact herrors ▸ hne
        · intro r g' ⟨hf, he'⟩ hadv hmeets hflag houter
          refine ⟨hf, he.trans he', hload.trans hadv he.building ht hf, fun ho => (houter ho).imp_left hsame, ?_⟩
          rintro z - hz -
          rw [hns] at hz
          cases hz
          exact ⟨hmeets.before he.building, hflag⟩
      · dsimp only at hr
        subst hr
        exact hfails _ fun z hz => by simp at hz

theorem Nested.ends_imports : ∀ {paths : List String} {g : Graph},
    Nested outer g → Follows disk m w g → w.size disk + 2 ≤ g.building.length + room → (∀ p ∈ paths, NeatPath p) →
    Ends (paths.mapM fun path => do
      let r ← (importPackage disk analyse path).run
      return (path, r.mapError ImportError.message)) g fun imported g' =>
        ((Follows disk m w g' ∧ Extends g g') ∧ Advances disk w outer g g') ∧ imported.map Prod.fst = paths ∧
        (g'.Flags outer → g.Flags outer ∨ ∃ path, (path, .error ImportError.cycle.message) ∈ imported) ∧
        ∀ path ∈ paths, ∀ z, w.layout.isStandard path = false → w.freshPackages disk path = .ok [z] →
          z.listErrors = [] → Meets outer g g' z.path ∧
            (g.Flags z.path → (path, .error ImportError.cycle.message) ∈ imported)
  | [], g, _, h, _, _ => by
    rw [List.mapM_nil, ends_pure]
    exact ⟨⟨⟨h, .refl g⟩, .refl g⟩, rfl, Or.inl, by simp⟩
  | path :: paths, g, hs, h, hroom, hneat => by
    rw [List.mapM_cons, ends_bind, ends_bind]
    refine (hs.ends_importPackage hd hm hnamed ha h hroom (hneat path (by simp))).mono fun r t ht => ?_
    rw [ends_pure, ends_bind]
    have hneat' : ∀ p ∈ paths, NeatPath p := fun p hp => hneat p (List.mem_cons_of_mem _ hp)
    have hrest := (hs.extends h ht.follows ht.keeps).ends_imports ht.follows (ht.keeps.building ▸ hroom) hneat'
    refine hrest.mono fun imported g' ⟨⟨⟨hf, he⟩, hadv⟩, hpaths, hclosed, hmeets⟩ => ?_
    rw [ends_pure]
    refine ⟨⟨⟨hf, ht.keeps.trans he⟩, ht.advances.trans hadv ht.keeps.building ht.follows hf⟩, ?_, ?_, ?_⟩
    · rw [List.map_cons, hpaths]
    · intro houter
      rcases hclosed houter with houter | ⟨p, hp⟩
      · refine (ht.closed houter).imp_right fun hr => ⟨path, ?_⟩
        rw [hr]
        exact List.mem_cons_self
      · exact Or.inr ⟨p, List.mem_cons_of_mem _ hp⟩
    · intro p hp z hstd hz hnil
      rcases List.mem_cons.mp hp with rfl | hp
      · obtain ⟨hmeet, hflag⟩ := ht.meets z hstd hz hnil
        refine ⟨hmeet.mono hadv, fun hf => ?_⟩
        rw [hflag (ht.advances.flagged _ hf)]
        exact List.mem_cons_self
      · obtain ⟨hmeet, hflag⟩ := hmeets p hp z hstd hz hnil
        exact ⟨hmeet.before ht.keeps.building, fun hf => List.mem_cons_of_mem _ (hflag (ht.advances.flagged _ hf))⟩

end

/-! ## Checking -/

def CycleError (files : List Path) (e : PackageError) : Prop :=
  e.file ∈ files ∧ e.kind = .type ∧
    ∃ importPath, e.message = "could not import " ++ importPath ++ " (" ++ "import cycle not allowed" ++ ")"

theorem exists_cycleError {n : PackageNode} {imported : Table String Imported} {importPath : String}
    (hk : imported.keys = w.importPaths disk n) (hi : (importPath, .error ImportError.cycle.message) ∈ imported) :
    ∃ e ∈ (check n.path n.name ((w.parsedFiles disk n).map (·.source)) imported).errors.filterMap
      (Analysis.ofCheckError (w.parsedFiles disk n)), CycleError n.files e := by
  have hfind := Table.find?_of_mem (hk ▸ Check.nodup_importPaths _) hi
  have hmem : importPath ∈ w.importPaths disk n := hk ▸ List.mem_map_of_mem (f := Prod.fst) hi
  have hreported : ∃ e ∈ (check n.path n.name ((w.parsedFiles disk n).map (·.source)) imported).errors,
      e.file < ((w.parsedFiles disk n).map (·.source)).length ∧
        e.cause = .badImport importPath ImportError.cycle.message := mem_errors_check hmem hfind
  obtain ⟨e, he, hlt, hcause⟩ := hreported
  rw [List.length_map] at hlt
  obtain ⟨f, hf⟩ : ∃ f, (w.parsedFiles disk n)[e.file]? = some f := ⟨_, List.getElem?_eq_getElem hlt⟩
  refine ⟨⟨.type, f.path, e.locate f.source, e.message⟩, List.mem_filterMap.mpr ⟨e, he, ?_⟩, ?_, rfl, importPath, ?_⟩
  · rw [Analysis.ofCheckError, hf]
    rfl
  · obtain ⟨file, hfile, rfl⟩ := List.mem_map.mp (List.mem_of_getElem? hf)
    exact hfile
  · rw [CheckError.message, hcause]
    rfl

/-- What is found out about a package while its imports are looked up. -/
structure Explores (disk : Disk) (m : ModuleRoot) (w : Graph) (outer : String) (g : Graph) (n : PackageNode)
    (a : Analysis) (t : Graph) : Prop where
  follows : Follows disk m w t
  keeps : Extends (g.startChecking n.path) t
  advances : Advances disk w outer (g.enter n.path) t
  meets : w.Fit disk n → ∀ z, w.Uses disk n z → z.listErrors = [] → Meets outer (g.enter n.path) t z.path
  closed : w.Fit disk n → t.Flags outer → (g.enter n.path).Flags outer ∨ ∃ e ∈ a.errors, CycleError n.files e
  reports : w.Fit disk n → ∀ z, w.Uses disk n z → z.listErrors = [] → (g.enter n.path).Flags z.path →
    ∃ e ∈ a.errors, CycleError n.files e

section
variable (hd : disk.WellNamed) (hm : m.dir.Rooted) (hnamed : m.Named) {room : Nat}
    {analyse : String → StateM Graph Unit}
  (ha : Traces disk m w outer room analyse)
include hd hm hnamed ha

theorem Nested.ends_analyseNode (hneat : Neat disk w) (hf : Follows disk m w g) {n : PackageNode}
    (hn : g.packages.find? n.path = some n) (hb : n.state ≠ .building)
    (hs : n.files ≠ [] → Nested outer (g.enter n.path))
    (hroom : w.size disk + 2 ≤ (g.enter n.path).building.length + room) :
    Ends (analyseNode disk analyse n) (g.startChecking n.path) fun a t =>
      Explores disk m w outer g n a t ∧ a.parsed = n.files.map (ParsedFile.ofPath disk g) := by
  have hstart := hf.startChecking hn hb
  have hheld : (g.startChecking n.path).held = w.held := hstart.lists.view.held
  have hparsed : n.files.map (ParsedFile.ofPath disk (g.startChecking n.path)) = w.parsedFiles disk n := by
    rw [ofPath_congr hheld]
    rfl
  have hparsed' : w.parsedFiles disk n = n.files.map (ParsedFile.ofPath disk g) := by
    rw [← hparsed]
    rfl
  unfold analyseNode
  simp only [ends_bind, ends_get, hparsed, errors_congr hheld]
  split
  · rename_i herr
    have hlisted : n.listErrors = [] := by
      simp only [List.isEmpty_iff, List.append_eq_nil_iff, PackageNode.listingErrors, List.map_eq_nil_iff] at herr
      exact herr.1.1
    have hnested := hs ((hf.lists.fresh _ n hn).files_ne_nil hlisted)
    have hbuilding : ∃ n', (g.startChecking n.path).packages.find? n.path = some n' ∧ n'.state = .building :=
      ⟨_, find?_startChecking hn, rfl⟩
    rw [ends_bind]
    unfold checkTypes
    simp only [ends_bind, ends_modify]
    refine (hnested.ends_imports hd hm hnamed ha (hstart.push hbuilding) hroom
      (hf.neat_importPaths hneat hn)).mono fun imported t hall => ?_
    obtain ⟨⟨⟨hfollows, he⟩, hadv⟩, hkeys, hclosed, hmeets⟩ := hall
    have hreport : ∀ {importPath}, (importPath, .error ImportError.cycle.message) ∈ imported → ∀ rules,
        ∃ e ∈ (check n.path n.name ((w.parsedFiles disk n).map (·.source)) imported).errors.filterMap
          (Analysis.ofCheckError (w.parsedFiles disk n)) ++ rules, CycleError n.files e := by
      intro importPath hmem rules
      obtain ⟨e, he, hcycle⟩ := exists_cycleError hkeys hmem
      exact ⟨e, List.mem_append_left _ he, hcycle⟩
    refine ⟨⟨hfollows.pop, he.pop, ⟨hadv.known, hadv.flagged, hadv.closed, hadv.followed⟩, ?_, ?_, ?_⟩, hparsed'⟩
    · rintro - z ⟨path, hpath, hstd, hz⟩ hnil
      exact (hmeets path hpath z hstd hz hnil).1
    · intro _ houter
      rcases hclosed houter with houter | ⟨path, hmem⟩
      · exact Or.inl houter
      · exact Or.inr (hreport hmem _)
    · rintro - z ⟨path, hpath, hstd, hz⟩ hnil hflag
      exact hreport ((hmeets path hpath z hstd hz hnil).2 hflag) _
  · rename_i herr
    have hunfit : ¬w.Fit disk n := by
      rintro ⟨hlist, hparse, hname⟩
      refine herr ?_
      rw [hparse, hname, PackageNode.listingErrors, hlist]
      rfl
    refine ⟨⟨hstart, .refl _, advances_same (fun _ => Iff.rfl) fun _ => Iff.rfl, ?_, ?_, ?_⟩, hparsed'⟩
    · exact fun h => absurd h hunfit
    · exact fun h => absurd h hunfit
    · exact fun h => absurd h hunfit

end

/-! ## Analysing -/

theorem knows_enter {path key : String} : (g.enter path).Knows key ↔ key ≠ path ∧ g.Knows key := by
  unfold Knows
  rw [find?_enter]
  split
  · rename_i heq
    refine ⟨?_, fun h => absurd heq h.1⟩
    rintro ⟨n, hn, ha⟩
    obtain ⟨old, -, rfl⟩ := Option.map_eq_some_iff.mp hn
    cases ha
  · rename_i hne
    exact ⟨fun h => ⟨hne, h⟩, fun h => h.2⟩

theorem flags_enter {path key : String} : (g.enter path).Flags key ↔ key ≠ path ∧ g.Flags key := by
  unfold Flags
  rw [find?_enter]
  split
  · rename_i heq
    refine ⟨?_, fun h => absurd heq h.1⟩
    rintro ⟨n, hn, hc⟩
    obtain ⟨old, -, rfl⟩ := Option.map_eq_some_iff.mp hn
    cases hc
  · rename_i hne
    exact ⟨fun h => ⟨hne, h⟩, fun h => h.2⟩

section
variable {path key : String} {a : Analysis} {state : Lifecycle}

theorem knows_finishChecking (hp : g.packages.contains path = true) :
    (g.finishChecking path a state).Knows key ↔ key = path ∨ g.Knows key := by
  unfold Knows finishChecking
  rw [find?_modifyPackage]
  split
  · rename_i heq
    refine ⟨fun _ => Or.inl heq, fun _ => ?_⟩
    obtain ⟨n, hn⟩ := contains_iff.mp hp
    rw [heq, hn]
    exact ⟨_, rfl, rfl⟩
  · rename_i hne
    exact ⟨Or.inr, fun h => h.resolve_left hne⟩

theorem flags_finishChecking : (g.finishChecking path a state).Flags key ↔ g.Flags key := by
  unfold Flags finishChecking
  rw [find?_modifyPackage]
  split
  · constructor
    · rintro ⟨n, hn, hc⟩
      obtain ⟨old, hold, rfl⟩ := Option.map_eq_some_iff.mp hn
      exact ⟨old, hold, hc⟩
    · rintro ⟨n, hn, hc⟩
      rw [hn]
      exact ⟨_, rfl, hc⟩
  · exact Iff.rfl

end

theorem Explores.finish {n : PackageNode} {a : Analysis} {t : Graph} (h : Explores disk m w outer g n a t)
    (hf : Follows disk m w g) (hn : g.packages.find? n.path = some n) (hb : n.state ≠ .building)
    (hnone : n.analysis = none) (hs : Nested outer g) (hf' : Follows disk m w (t.finishChecking n.path a n.state)) :
    Advances disk w outer g (t.finishChecking n.path a n.state) ∧
      (t.finishChecking n.path a n.state).Knows n.path ∧
      ((t.finishChecking n.path a n.state).Flags outer →
        g.Flags outer ∨ (t.finishChecking n.path a n.state).Flags n.path) := by
  have hnot := hf.inv.not_mem_building hn hb
  have hkept : t.packages.contains n.path = true :=
    h.keeps.contains (contains_iff.mpr ⟨_, find?_startChecking hn⟩)
  have hself : (t.finishChecking n.path a n.state).Knows n.path := (knows_finishChecking hkept).mpr (Or.inl rfl)
  have hne : outer ≠ n.path := fun e => hnot (e ▸ hs.mem_building)
  -- nothing was known about the package, so its reset takes nothing away
  have hunknown : ∀ key, g.Knows key → key ≠ n.path := by
    rintro key ⟨n', hn', ha'⟩ rfl
    rw [hn] at hn'
    cases hn'
    rw [hnone] at ha'
    cases ha'
  have hunflagged : ∀ key, g.Flags key → key ≠ n.path := by
    rintro key ⟨n', hn', hc⟩ rfl
    rw [hn] at hn'
    cases hn'
    rcases (hf.inv.nodes _ n hn).cycle hc with ha' | hb'
    · rw [hnone] at ha'
      cases ha'
    · exact hb hb'
  have hmet : ∀ {z : String}, Meets outer (g.enter n.path) t z →
      Meets outer g (t.finishChecking n.path a n.state) z := by
    rintro z ⟨hz, houter⟩
    refine ⟨?_, fun e => flags_finishChecking.mpr (houter e)⟩
    rcases hz with hz | hz
    · exact Or.inl ((knows_finishChecking hkept).mpr (Or.inr hz))
    · rcases List.mem_cons.mp hz with rfl | hz
      · exact Or.inl hself
      · exact Or.inr hz
  have hclosed : t.Flags outer → g.Flags outer ∨ ∀ key ∈ n.path :: g.building, t.Flags key := fun ho =>
    (h.advances.closed ho).imp_left fun ho => (flags_enter.mp ho).2
  refine ⟨⟨?_, ?_, ?_, ?_⟩, hself, ?_⟩
  · intro key hk
    refine (knows_finishChecking hkept).mpr (Or.inr (h.advances.known key ?_))
    exact knows_enter.mpr ⟨hunknown key hk, hk⟩
  · intro key hk
    refine flags_finishChecking.mpr (h.advances.flagged key ?_)
    exact flags_enter.mpr ⟨hunflagged key hk, hk⟩
  · intro ho
    refine (hclosed (flags_finishChecking.mp ho)).imp_right fun hall key hk => ?_
    exact flags_finishChecking.mpr (hall key (List.mem_cons_of_mem _ hk))
  · intro key n' hn' ha' hk hfit z hz hnil
    by_cases heq : key = n.path
    · subst heq
      have hbare := hf'.bare_eq hf hn' hn
      exact hmet (h.meets (hfit.congr hbare) z (hz.congr hbare) hnil)
    · rw [finishChecking, find?_modifyPackage, if_neg heq] at hn'
      exact hmet (h.advances.followed key n' hn' ha' (fun h => hk (knows_enter.mp h).2) hfit z hz hnil)
  · intro ho
    refine (hclosed (flags_finishChecking.mp ho)).imp_right fun hall => ?_
    exact flags_finishChecking.mpr (hall n.path (by simp))

/-- Analyses of any depth look up the imports of what they analyse, as long as there is room. -/
theorem traces_analyseWithin (hd : disk.WellNamed) (hm : m.dir.Rooted) (hnamed : m.Named) (hneat : Neat disk w)
    (fuel : Nat) : Traces disk m w outer fuel (analyseWithin disk fuel) := by
  induction fuel with
  | zero =>
    intro path g n h hn hb hnone hs hroom
    have hlength := h.inv.length_building_le hd hm hs.nodup hs.files
    rw [size_congr h.lists.view.held] at hlength
    omega
  | succ fuel ih =>
    intro path g n h hn hb hnone hs hroom
    obtain rfl : n.path = path := (h.inv.nodes path n hn).path
    have hnested : n.files ≠ [] → Nested outer (g.enter n.path) := hs.enter h.inv hn hb
    rw [ends_analyseWithin, hn]
    have hroom' : w.size disk + 2 ≤ (g.enter n.path).building.length + fuel := by
      rw [enter, List.length_cons]
      omega
    refine (Nested.ends_analyseNode hd hm hnamed ih hneat h hn hb hnested hroom').mono fun a t hall => ?_
    obtain ⟨hex, hparsed⟩ := hall
    have hf' := hex.follows.finishChecking (h.inv.finishChecking hn hb hex.follows.inv hex.keeps hparsed)
    exact ⟨⟨hf', extends_finishChecking hn hex.keeps⟩, hex.finish h hn hb hnone hs hf'⟩

/-! ## Packages on a cycle -/

/-- A cycle of imports through a package and others will be noticed when the package is checked: one of those that
it imports is flagged, or nothing is known about the others. -/
def Noticed (disk : Disk) (g : Graph) (n : PackageNode) (cycle : List PackageNode) : Prop :=
  (∃ z, g.Uses disk n z ∧ z.listErrors = [] ∧ g.Flags z.path) ∨ ∀ z ∈ cycle, z.path = n.path ∨ ¬g.Knows z.path

section
variable (hd : disk.WellNamed) (hm : m.dir.Rooted) (hneat : Neat disk w)
include hd hm hneat

/-- If nothing was known about the packages on a cycle, the import that closes it has been looked up. -/
theorem Explores.flags_of_cycle {n : PackageNode} {a : Analysis} {t : Graph} (h : Explores disk m w n.path g n a t)
    (hb : g.building = []) (hfit : w.Fit disk n) : ∀ {cycle : List PackageNode} {x y : PackageNode} {key : String},
    t.packages.find? key = some y → y.bare = x →
    (∀ z, w.Uses disk x z → z.listErrors = [] → Meets n.path (g.enter n.path) t z.path) →
    List.IsChain (w.Uses disk) (x :: cycle ++ [n.bare]) → (∀ z ∈ cycle, w.Fit disk z) →
    (∀ z ∈ cycle, z.path = n.path ∨ ¬g.Knows z.path) → t.Flags n.path
  | [], x, y, key, _, _, hmeets, hchain, _, _ => by
    have huses : w.Uses disk x n.bare := by simpa using hchain
    exact (hmeets n.bare huses hfit.1).2 rfl
  | z :: cycle, x, y, key, hy, hbare, hmeets, hchain, hfits, hnew => by
    obtain ⟨huses, hchain⟩ := List.isChain_cons_cons.mp hchain
    have hz := hfits z (by simp)
    obtain ⟨hknown, houter⟩ := hmeets z huses hz.1
    by_cases hsame : z.path = n.path
    · exact houter hsame
    · -- the next package has been analysed since, so its imports have been looked up
      have hnot : ¬(g.enter n.path).Knows z.path := fun hk =>
        (hnew z (by simp)).elim hsame fun hn => hn (knows_enter.mp hk).2
      have hin : z.path ∉ (g.enter n.path).building := by
        rw [enter, hb]
        simpa using hsame
      obtain ⟨y', hy', ha⟩ := hknown.resolve_right hin
      have hbare' : y'.bare = z := by
        have huses' : w.Uses disk y z := huses.congr (by rw [← hbare]; rfl)
        obtain ⟨importPath, hpath, -, hfresh⟩ := huses'
        exact h.follows.bare_of_fresh hd hm (h.follows.neat_importPaths hneat hy importPath hpath).dotFree hfresh hy'
      have heq : y'.bare = z.bare := by
        rw [← hbare']
        rfl
      refine flags_of_cycle h hb hfit hy' hbare' (fun z' hz' hnil => ?_) hchain
        (fun z' hz' => hfits z' (List.mem_cons_of_mem _ hz')) fun z' hz' => hnew z' (List.mem_cons_of_mem _ hz')
      exact h.advances.followed z.path y' hy' ha hnot (hz.congr heq.symm) z' (hz'.congr heq.symm) hnil

end

/-- A package on a cycle gets an error when it is analysed, if the cycle will be noticed. -/
theorem Follows.ends_analyse_cycle (hd : disk.WellNamed) (hm : m.dir.Rooted) (hnamed : m.Named) (hneat : Neat disk g)
    (h : Follows disk m g g) (hr : Resting disk m g) {path : String} {n : PackageNode}
    (hn : g.packages.find? path = some n) (hf : n.files ≠ []) {cycle : List PackageNode}
    (hchain : List.IsChain (g.Uses disk) (n.bare :: cycle ++ [n.bare])) (hfit : ∀ x ∈ n.bare :: cycle, g.Fit disk x)
    (hnoticed : g.Noticed disk n.bare cycle) :
    Ends (analyse disk path) g fun _ g' =>
      ∃ n', g'.packages.find? path = some n' ∧ ∃ e ∈ n'.errors, CycleError n.files e := by
  obtain rfl : n.path = path := (h.inv.nodes path n hn).path
  have hb := hr.states n.path n hn
  have hpiled : Piled g := by
    refine ⟨hr.building ▸ List.nodup_nil, fun key n hn hs => absurd hs (hr.states key n hn), ?_⟩
    rw [hr.building]
    simp
  have hnested : Nested n.path (g.enter n.path) := by
    refine ⟨hpiled.enter h.inv hn hb hf, [], ?_⟩
    rw [enter, hr.building]
    rfl
  have hroom : g.size disk + 2 ≤ (g.enter n.path).building.length + (g.size disk + 1) := by
    rw [enter, hr.building, List.length_singleton]
    omega
  unfold analyse
  rw [ends_bind, ends_get, ends_analyseWithin, hn]
  have htraces : Traces disk m g n.path (g.size disk + 1) (analyseWithin disk (g.size disk + 1)) :=
    traces_analyseWithin hd hm hnamed hneat _
  refine (Nested.ends_analyseNode hd hm hnamed htraces hneat h hn hb (fun _ => hnested) hroom).mono fun a t
    ⟨hex, _⟩ => ?_
  obtain ⟨last, hlast, -⟩ := hex.keeps.kept n.path _ (find?_startChecking hn)
  refine ⟨{ last with analysis := some a, state := n.state }, ?_, ?_⟩
  · rw [Graph.finishChecking, find?_modifyPackage, if_pos rfl, hlast]
    rfl
  · have hself : g.Fit disk n := (hfit n.bare (by simp)).congr rfl
    have hclosed : t.Flags n.path → ∃ e ∈ a.errors, CycleError n.files e := fun hf =>
      (hex.closed hself hf).resolve_left fun hf => (flags_enter.mp hf).1 rfl
    rcases hnoticed with ⟨z, huses, hnil, hz⟩ | hnew
    · have huses : g.Uses disk n z := huses.congr rfl
      by_cases hsame : z.path = n.path
      · exact hclosed ((hex.meets hself z huses hnil).2 hsame)
      · exact hex.reports hself z huses hnil (flags_enter.mpr ⟨hsame, hz⟩)
    · refine hclosed (hex.flags_of_cycle hd hm hneat hr.building hself hlast ?_ ?_ hchain
        (fun z hz => hfit z (List.mem_cons_of_mem _ hz)) hnew)
      · exact hex.follows.bare_eq h hlast hn
      · exact fun z hz hnil => hex.meets hself z (hz.congr rfl) hnil

end IdlWorkbench.Graph
