import IdlWorkbench.Proofs.Graph.Fresh
import Mathlib.Data.List.Nodup
import Mathlib.Data.List.Perm.Subperm

/-!
# Analysing on demand settles as the recursion does

The packages on the stack lead, import by import, to the one that is being checked. So where no package
imports itself through others, an import never meets a package on the stack. Each package on the stack has a
file in a directory of its own, so the fuel lasts. By induction on it, every analysis that is made is the one
that the plain recursion settles on.
-/

namespace IdlWorkbench.Graph

open IdlWorkbench.Path Relation

variable {disk : Disk} {m : ModuleRoot} {w o g g' : Graph} {far : String → PackageNode → Prop}

/-- What has been found out about a package is what the recursion settles on. -/
structure Sound (disk : Disk) (w : Graph) (n : PackageNode) : Prop where
  settled : ∀ a, n.analysis = some a → w.Settles disk n a
  straight : n.inCycle = false

structure UpToDate (disk : Disk) (m : ModuleRoot) (w g : Graph) : Prop where
  lists : Lists disk m w g
  recalls : Recalls disk w g
  sound : ∀ key n, g.packages.find? key = some n → w.Sound disk n

/-- Nothing in a graph is outdated but for some packages that are far from those at hand, and what was known in an
earlier graph is as it was there. -/
structure Agrees (disk : Disk) (m : ModuleRoot) (w o : Graph) (far : String → PackageNode → Prop) (g : Graph) :
    Prop where
  inv : Inv disk m g
  lists : Lists disk m w g
  recalls : Recalls disk w g
  kept : ∀ key n, o.packages.find? key = some n → n.analysis.isSome = true → g.packages.find? key = some n
  sound : ∀ key n, g.packages.find? key = some n → w.Sound disk n ∨ far key n

/-- The packages on the stack have files and lead to the one at hand, which leads to none that is far. -/
structure Stack (disk : Disk) (w : Graph) (far : String → PackageNode → Prop) (g : Graph) (c : PackageNode) :
    Prop where
  nodup : g.building.Nodup
  states : ∀ key n, g.packages.find? key = some n → n.state = .building → key ∈ g.building
  leads : ∀ p ∈ g.building, ∃ n, g.packages.find? p = some n ∧ n.files ≠ [] ∧
    ReflTransGen (w.Uses disk) n.bare c.bare
  near : ∀ key n, ReflTransGen (w.Uses disk) c.bare n.bare → ¬far key n
  straight : AcyclicBelow disk w c.bare

def Answers (disk : Disk) (w : Graph) (importPath : String) (r : Except ImportError Surface) : Prop :=
  ∃ depth, ∀ fuel, depth ≤ fuel → w.batchImport disk (w.batchWithin disk fuel) importPath = r

/-- The state of a package plays no part. -/
theorem Sound.congr {n n' : PackageNode} (h : w.Sound disk n) (hb : n.bare = n'.bare) (ha : n'.analysis = n.analysis)
    (hc : n'.inCycle = n.inCycle) : w.Sound disk n' := by
  refine ⟨?_, hc.trans h.straight⟩
  rw [ha]
  exact fun a hn => (h.settled a hn).congr hb

theorem sound_unknown {n : PackageNode} (ha : n.analysis = none) (hc : n.inCycle = false) : w.Sound disk n := by
  refine ⟨fun a h => ?_, hc⟩
  rw [ha] at h
  cases h

theorem Grows.sound (hg : Grows g.packages g'.packages)
    (h : ∀ key n, g.packages.find? key = some n → w.Sound disk n ∨ far key n) :
    ∀ key n, g'.packages.find? key = some n → w.Sound disk n ∨ far key n := by
  intro key n hn
  rcases hg.added key n hn with hn | hn
  · exact h key n hn
  · rw [hn]
    exact Or.inl (sound_unknown rfl rfl)

/-- A package that the one at hand leads to is not outdated. -/
theorem Stack.sound {c n : PackageNode} (hs : Stack disk w far g c) (h : Agrees disk m w o far g') {key : String}
    (hn : g'.packages.find? key = some n) (hlead : ReflTransGen (w.Uses disk) c.bare n.bare) : w.Sound disk n :=
  (h.sound key n hn).resolve_right (hs.near key n hlead)

/-! ## The stack -/

theorem Agrees.bare_eq (h : Agrees disk m w o far g) (h' : Agrees disk m w o far g') {key : String}
    {n n' : PackageNode}
    (hn : g.packages.find? key = some n) (hn' : g'.packages.find? key = some n') : n.bare = n'.bare := by
  refine (h.lists.fresh key n hn).bare_eq (h'.lists.fresh key n' hn') ?_
  exact (h.inv.nodes key n hn).owned.dir_eq (h'.inv.nodes key n' hn').owned

/-- Loading and analysing leave the stack as it was. -/
theorem Stack.extends {c : PackageNode} (hs : Stack disk w far g c) (h : Agrees disk m w o far g)
    (h' : Agrees disk m w o far g')
    (he : Extends g g') : Stack disk w far g' c := by
  refine ⟨he.building ▸ hs.nodup, ?_, ?_, hs.near, hs.straight⟩
  · intro key n' hn' hb
    rw [he.building]
    rcases he.added key n' hn' with hk | hu
    · obtain ⟨n, hn⟩ := contains_iff.mp hk
      obtain ⟨last, hlast, hstate⟩ := he.kept key n hn
      rw [hn'] at hlast
      cases hlast
      exact hs.states key n hn (hstate.symm.trans hb)
    · rw [hb] at hu
      cases hu
  · intro p hp
    rw [he.building] at hp
    obtain ⟨n, hn, hfiles, hlead⟩ := hs.leads p hp
    obtain ⟨n', hn', -⟩ := he.kept p n hn
    have hbare := h.bare_eq h' hn hn'
    refine ⟨n', hn', ?_, hbare ▸ hlead⟩
    exact (PackageNode.of_bare_eq hbare).2.1 ▸ hfiles

/-- An import leads one step further. -/
theorem Stack.step {c n : PackageNode} (hs : Stack disk w far g c) (hu : w.Uses disk c.bare n.bare) :
    Stack disk w far g n := by
  refine ⟨hs.nodup, hs.states, fun p hp => ?_, fun key z hlead => hs.near key z (hlead.head hu),
    hs.straight.of_lead (.single hu)⟩
  obtain ⟨n', hn', hfiles, hlead⟩ := hs.leads p hp
  exact ⟨n', hn', hfiles, hlead.tail hu⟩

theorem size_congr {g' : Graph} (h : g'.held = g.held) : g'.size disk = g.size disk := by
  rw [size, size, texts, texts, h]

/-- The directory of a package with files is that of an entry of the disk or of a held text. -/
theorem Inv.dir_mem (hd : disk.WellNamed) (hm : m.dir.Rooted) (hi : Inv disk m g) {key : String} {n : PackageNode}
    (hn : g.packages.find? key = some n) (hf : n.files ≠ []) :
    some n.dir ∈ disk.entries.map (fun e => some (ofNames true e.1.dropLast)) ++ g.held.keys.map Path.parent? := by
  have hr := hi.rooted_dir hm hn
  obtain ⟨file, hfile⟩ := List.exists_mem_of_ne_nil _ hf
  obtain ⟨onDisk, hdisk, hmem⟩ := (filesOf_of_idlFiles hd hi.held hr.normal (hi.nodes key n hn).files).known
  rcases (hmem file).mp hfile with h | h
  · obtain ⟨-, -, inside, hlist, s, hs, -⟩ := Disk.mem_filesWithExtension hdisk h
    rw [hr.eq_ofNames] at hlist
    obtain ⟨e, he, hdir⟩ := Disk.exists_of_mem_list (proper_resolved _) hlist hs
    refine List.mem_append_left _ (List.mem_map.mpr ⟨e, he, ?_⟩)
    rw [hdir, ← hr.eq_ofNames]
  · exact List.mem_append_right _ (List.mem_map.mpr ⟨file, h.1, h.2.1⟩)

/-- Packages that wait for imports have files in directories of their own. -/
theorem Inv.length_building_le (hd : disk.WellNamed) (hm : m.dir.Rooted) (hi : Inv disk m g) (hb : g.building.Nodup)
    (hf : ∀ p ∈ g.building, ∃ n, g.packages.find? p = some n ∧ n.files ≠ []) : g.building.length ≤ g.size disk := by
  have hnodup : (g.building.map fun p => (g.packages.find? p).map (·.dir)).Nodup := by
    refine List.Nodup.map_on ?_ hb
    intro p hp q hq heq
    obtain ⟨n, hn, -⟩ := hf p hp
    obtain ⟨n', hn', -⟩ := hf q hq
    rw [hn, hn'] at heq
    have hdir : n.dir = n'.dir := Option.some_inj.mp heq
    exact (hi.nodes p n hn).owned.path_eq hm (hdir ▸ (hi.nodes q n' hn').owned)
  have hsub : (g.building.map fun p => (g.packages.find? p).map (·.dir)) ⊆
      disk.entries.map (fun e => some (ofNames true e.1.dropLast)) ++ g.held.keys.map Path.parent? := by
    intro dir hdir
    obtain ⟨p, hp, rfl⟩ := List.mem_map.mp hdir
    obtain ⟨n, hn, hfiles⟩ := hf p hp
    rw [hn]
    exact hi.dir_mem hd hm hn hfiles
  have hlength : g.building.length ≤ disk.entries.length + g.held.length := by
    simpa [Table.keys] using (List.Nodup.subperm hnodup hsub).length_le
  exact Nat.le_trans hlength (Nat.le_add_right _ _)

theorem Stack.length_le (hd : disk.WellNamed) (hm : m.dir.Rooted) (hi : Inv disk m g) {c : PackageNode}
    (hs : Stack disk w far g c) : g.building.length ≤ g.size disk := by
  refine hi.length_building_le hd hm hs.nodup fun p hp => ?_
  obtain ⟨n, hn, hfiles, -⟩ := hs.leads p hp
  exact ⟨n, hn, hfiles⟩

/-! ## Packages being checked -/

theorem Lists.modifyPackage (hl : Lists disk m w g) {path : String} {f : PackageNode → PackageNode}
    (hf : ∀ n, n.bare = (f n).bare) : Lists disk m w (g.modifyPackage path f) := by
  refine hl.congr rfl rfl rfl fun key n hn => ?_
  rw [find?_modifyPackage] at hn
  split at hn
  · obtain ⟨old, hold, rfl⟩ := Option.map_eq_some_iff.mp hn
    exact (hl.fresh key old hold).congr (hf old)
  · exact hl.fresh key n hn

theorem Agrees.startChecking (h : Agrees disk m w o far g) {path : String} {n : PackageNode}
    (hn : g.packages.find? path = some n) (ha : n.analysis = none) (hb : n.state ≠ .building) :
    Agrees disk m w o far (g.startChecking path) := by
  refine ⟨h.inv.startChecking hn hb, h.lists.modifyPackage fun _ => rfl, h.recalls, ?_, ?_⟩
  · intro key n' hn' hsome
    have hkept := h.kept key n' hn' hsome
    have hne : key ≠ path := by
      rintro rfl
      rw [hn] at hkept
      cases hkept
      rw [ha] at hsome
      cases hsome
    rw [Graph.startChecking, find?_modifyPackage, if_neg hne]
    exact hkept
  intro key n' hn'
  rw [Graph.startChecking, find?_modifyPackage] at hn'
  split at hn'
  · obtain ⟨old, -, rfl⟩ := Option.map_eq_some_iff.mp hn'
    exact Or.inl (sound_unknown rfl rfl)
  · exact h.sound key n' hn'

/-! ## Importing -/

/-- An analysis of single packages that settles as the recursion does, with room for more packages on the stack. What
was known about the package itself plays no part. -/
def Finds (disk : Disk) (m : ModuleRoot) (w o : Graph) (far : String → PackageNode → Prop) (room : Nat)
    (analyse : String → StateM Graph Unit) : Prop :=
  ∀ path g n, Inv disk m g → Agrees disk m w o far (g.startChecking path) → g.packages.find? path = some n →
    n.state ≠ .building → Stack disk w far g n → w.size disk + 2 ≤ g.building.length + room →
    Ends (analyse path) g fun _ g' => (Agrees disk m w o far g' ∧ Extends g g') ∧
      ∃ n' a, g'.packages.find? path = some n' ∧ n'.analysis = some a

theorem Analysis.Matches.shown {a b : Analysis} (h : a.Matches b) (path : String) : a.shown path = b.shown path := by
  unfold Analysis.shown
  rw [h.2.1, h.2.2]

theorem Sound.shown {path : String} {n : PackageNode} (hs : w.Sound disk n) (hn : g.packages.find? path = some n)
    {a : Analysis} (ha : n.analysis = some a) : g.shown path = a.shown path := by
  unfold Graph.shown Analysis.shown
  simp only [hn, hs.straight, Bool.false_eq_true, if_false, PackageNode.surface?, PackageNode.checked?,
    PackageNode.errors, ha, Option.bind_some, Option.map_some, Option.getD_some]
  cases a.checked <;> rfl

theorem Settles.answers {importPath : String} (hs : w.layout.isStandard importPath = false) {n : PackageNode}
    (hn : w.freshPackages disk importPath = .ok [n]) (he : n.listErrors = []) {a : Analysis}
    (h : w.Settles disk n a) : Answers disk w importPath (a.shown n.path) := by
  obtain ⟨depth, h⟩ := h
  refine ⟨depth, fun fuel hf => ?_⟩
  unfold batchImport
  simp only [hs, hn, he, Bool.false_eq_true, if_false]
  exact Analysis.Matches.shown (h fuel hf) n.path

section
variable (hd : disk.WellNamed) (hm : m.dir.Rooted) (hnamed : m.Named)
include hd hm hnamed

theorem Agrees.ends_load (h : Agrees disk m w o far g) {pattern : String} (hp : PlainPattern pattern)
    (hn : (Path.ofString pattern).isAbsolute = true → Text.stripEnd? Listed.wildcard pattern = none →
      Overlay.Spells disk (Path.ofString pattern)) :
    Ends (load disk pattern).run g fun r g' => (Agrees disk m w o far g' ∧ Extends g g') ∧
      (∀ paths, r = .ok paths → ∀ p ∈ paths, g'.packages.contains p = true) ∧
      (w.layout.isStandard pattern = false →
        r = ((w.freshPackages disk pattern).map (·.map (·.path))).mapError .layout) := by
  have hload := (h.inv.ends_load hd hm hp.straight).and (h.lists.ends_load hd hm hnamed h.recalls h.inv hp hn)
  refine hload.mono fun r g' ⟨⟨hi, he, hpaths⟩, ⟨hl, hr, hgrow⟩, hanswer⟩ => ?_
  exact ⟨⟨⟨hi, hl, hr, fun key n hn hsome => hgrow.kept key n (h.kept key n hn hsome), hgrow.sound h.sound⟩, he⟩,
    hpaths,
    hanswer⟩

variable {room : Nat} {analyse : String → StateM Graph Unit} (ha : Finds disk m w o far room analyse)
include ha

omit hd hm hnamed in
/-- A package that an import stands for, once it has been loaded. -/
theorem Agrees.ends_importLoaded (h : Agrees disk m w o far g) {c : PackageNode} (hs : Stack disk w far g c)
    (hroom : w.size disk + 2 ≤ g.building.length + room) {importPath : String}
    (hin : importPath ∈ w.importPaths disk c) (hstd : w.layout.isStandard importPath = false) {n n' : PackageNode}
    (hn : w.freshPackages disk importPath = .ok [n]) (hn' : g.packages.find? n.path = some n') (hbare : n'.bare = n)
    {Q : Except ImportError Surface → Graph → Prop}
    (hq : ∀ r g', Agrees disk m w o far g' → Extends g g' → Answers disk w importPath r → Q r g') :
    match n'.listErrors with
    | e :: _ => Q (.error (.broken e.message)) g
    | [] =>
      if n'.state = .building then Q (.error .cycle) (g.markCycle n.path)
      else if n'.analysis.isNone then Ends (analyse n.path) g fun _ g' => Q (g'.shown n.path) g'
      else Q (g.shown n.path) g := by
  have herrors : n'.bare.listErrors = n.listErrors := congrArg PackageNode.listErrors hbare
  have huses : w.Uses disk c.bare n'.bare := ⟨importPath, hin, hstd, hbare ▸ hn⟩
  cases he : n'.listErrors with
  | cons e rest =>
    refine hq _ _ h (.refl g) ⟨0, fun fuel _ => ?_⟩
    unfold batchImport
    simp only [hstd, hn, herrors.symm.trans he, Bool.false_eq_true, if_false]
  | nil =>
    simp only
    split
    · -- a package on the stack would lead to itself
      rename_i hb
      obtain ⟨n₂, hn₂, -, hlead⟩ := hs.leads n.path (hs.states n.path n' hn' hb)
      rw [hn'] at hn₂
      cases hn₂
      exact absurd (TransGen.tail' hlead huses) (hs.straight _ (.single huses))
    · rename_i hb
      split
      · rename_i hnone
        have hstart := h.startChecking hn' (Option.isNone_iff_eq_none.mp hnone) hb
        refine (ha n.path g n' h.inv hstart hn' hb (hs.step huses) hroom).mono fun _ g' hall => ?_
        obtain ⟨⟨h', hext⟩, last, a, hlast, hlasta⟩ := hall
        have hlastbare := h.bare_eq h' hn' hlast
        have hsound := hs.sound h' hlast (hlastbare ▸ .single huses)
        rw [hsound.shown hlast hlasta]
        refine hq _ _ h' hext (Settles.answers hstd hn (herrors.symm.trans he) ?_)
        refine (hsound.settled a hlasta).congr ?_
        rw [← hlastbare, hbare]
        exact (mem_freshPackages hn n (by simp)).2.symm
      · rename_i hsome
        obtain ⟨a, hna⟩ := Option.isSome_iff_exists.mp (by simpa [Option.isSome_iff_ne_none] using hsome)
        have hsound := hs.sound h hn' (.single huses)
        rw [hsound.shown hn' hna]
        refine hq _ _ h (.refl g) (Settles.answers hstd hn (herrors.symm.trans he) ?_)
        refine (hsound.settled a hna).congr ?_
        rw [hbare]
        exact (mem_freshPackages hn n (by simp)).2.symm

theorem Agrees.ends_importPackage (h : Agrees disk m w o far g) {c : PackageNode} (hs : Stack disk w far g c)
    (hroom : w.size disk + 2 ≤ g.building.length + room) {importPath : String}
    (hin : importPath ∈ w.importPaths disk c) (hp : DotFree importPath) :
    Ends (importPackage disk analyse importPath).run g fun r g' =>
      (Agrees disk m w o far g' ∧ Extends g g') ∧ Answers disk w importPath r := by
  have hl : w.layout.modules = [m] := h.lists.view.layout ▸ h.inv.modules
  rw [Graph.ends_importPackage, h.lists.view.layout]
  split
  · rename_i hstd
    refine ⟨⟨h, .refl g⟩, 0, fun fuel _ => ?_⟩
    rw [batchImport, if_pos hstd]
  · rename_i hstd
    have hstd : w.layout.isStandard importPath = false := Bool.eq_false_iff.mpr hstd
    have habs := Layout.relative_of_not_standard hl hnamed hstd
    have hload := h.ends_load hd hm hnamed (Or.inr hp) fun hab => by rw [habs] at hab; cases hab
    rw [ends_loadOne]
    refine hload.mono fun r g' ⟨⟨h', he⟩, hpaths, hr⟩ => ?_
    have hr := hr hstd
    have hanswer : ∀ e, (∀ fuel, w.batchImport disk (w.batchWithin disk fuel) importPath = e) →
        Answers disk w importPath e := fun e h => ⟨0, fun fuel _ => h fuel⟩
    cases hns : w.freshPackages disk importPath with
    | error e =>
      rw [hns] at hr
      subst hr
      refine ⟨⟨h', he⟩, hanswer _ fun fuel => ?_⟩
      simp only [batchImport, hstd, hns, Bool.false_eq_true, if_false]
    | ok ns =>
      rw [hns] at hr
      subst hr
      rcases ns with _ | ⟨n, _ | ⟨n₂, ns⟩⟩
      · refine ⟨⟨h', he⟩, hanswer _ fun fuel => ?_⟩
        simp only [batchImport, hstd, hns, Bool.false_eq_true, if_false]
        rfl
      · obtain ⟨n', hn'⟩ := contains_iff.mp (hpaths [n.path] rfl n.path (by simp))
        have hfresh := mem_freshPackages hns n (by simp)
        have hdir := (h'.inv.nodes _ n' hn').owned.dir_eq (owns_freshPackages hl hm hd (Or.inr hp) hns n (by simp))
        have hbare : n'.bare = n := ((h'.lists.fresh _ n' hn').bare_eq hfresh.1 hdir).trans hfresh.2
        simp only [Except.map, Except.mapError, List.map_cons, List.map_nil, hn']
        exact h'.ends_importLoaded ha (hs.extends h h' he) (he.building ▸ hroom) hin hstd hns hn' hbare
          (Q := fun r g'' => (Agrees disk m w o far g'' ∧ Extends g g'') ∧ Answers disk w importPath r)
          fun r g'' h'' he' hr => ⟨⟨h'', he.trans he'⟩, hr⟩
      · refine ⟨⟨h', he⟩, hanswer _ fun fuel => ?_⟩
        simp only [batchImport, hstd, hns, Bool.false_eq_true, if_false]
        simp

/-! ## Checking -/

omit hd hm hnamed ha in
/-- Answers that each settle, settle all at once. -/
theorem settle_together {α β : Type} {f : Nat → α → β} : ∀ {as : List α} {bs : List β},
    List.Forall₂ (fun a b => ∃ depth, ∀ fuel, depth ≤ fuel → b = f fuel a) as bs →
    ∃ depth, ∀ fuel, depth ≤ fuel → bs = as.map (f fuel)
  | [], [], .nil => ⟨0, fun _ _ => rfl⟩
  | a :: as, b :: bs, .cons ⟨d, hd⟩ h => by
    obtain ⟨d', hd'⟩ := settle_together h
    refine ⟨max d d', fun fuel hf => ?_⟩
    rw [List.map_cons, ← hd fuel (by omega), ← hd' fuel (by omega)]

omit hd hm hnamed ha in
theorem errors_congr (h : g'.held = g.held) : ParsedFile.errors disk g' = ParsedFile.errors disk g := by
  funext f
  unfold ParsedFile.errors
  rw [read_congr h]

theorem Agrees.ends_checkTypes (h : Agrees disk m w o far g) {n : PackageNode}
    (hn : ∃ n', g.packages.find? n.path = some n' ∧ n'.state = .building)
    (hs : Stack disk w far { g with building := n.path :: g.building } n)
    (hroom : w.size disk + 2 ≤ g.building.length + (room + 1)) (hp : ∀ path ∈ w.importPaths disk n, DotFree path) :
    Ends (checkTypes disk analyse n (w.parsedFiles disk n)) g fun result g' =>
      (Agrees disk m w o far g' ∧ Extends g g') ∧
      ∃ depth, ∀ fuel, depth ≤ fuel → result =
        check n.path n.name ((w.parsedFiles disk n).map (·.source)) ((w.importPaths disk n).map fun path =>
          (path, (w.batchImport disk (w.batchWithin disk fuel) path).mapError ImportError.message)) := by
  unfold checkTypes
  simp only [ends_bind, ends_modify]
  have hpush : Agrees disk m w o far { g with building := n.path :: g.building } :=
    ⟨h.inv.push hn, h.lists.congr rfl rfl rfl h.lists.fresh, h.recalls, h.kept, h.sound⟩
  have hround : ∀ path ∈ w.importPaths disk n, ∀ t,
      (Agrees disk m w o far t ∧ Extends { g with building := n.path :: g.building } t) →
      Ends (do
        let r ← (importPackage disk analyse path).run
        return (path, r.mapError ImportError.message)) t fun b t' =>
          (Agrees disk m w o far t' ∧ Extends { g with building := n.path :: g.building } t') ∧
            ∃ depth, ∀ fuel, depth ≤ fuel →
              b = (path, (w.batchImport disk (w.batchWithin disk fuel) path).mapError ImportError.message) := by
    intro path hpath t ⟨ht, het⟩
    rw [ends_bind]
    have hlength : t.building.length = g.building.length + 1 := congrArg List.length het.building
    have himport := ht.ends_importPackage hd hm hnamed ha (hs.extends hpush ht het) (by omega) hpath
      (hp path hpath)
    refine himport.mono fun r t' ⟨⟨ht', het'⟩, depth, hanswer⟩ => ?_
    refine ⟨⟨ht', het.trans het'⟩, depth, fun fuel hf => ?_⟩
    rw [hanswer fuel hf]
    rfl
  refine (ends_mapM hround ⟨hpush, .refl _⟩).mono fun imported t ⟨⟨ht, het⟩, hall⟩ => ?_
  obtain ⟨depth, hdepth⟩ := settle_together hall
  refine ⟨⟨⟨ht.inv.pop, ht.lists.congr rfl rfl rfl ht.lists.fresh, ht.recalls, ht.kept, ht.sound⟩, het.pop⟩,
    depth, ?_⟩
  intro fuel hf
  rw [hdepth fuel hf]
  rfl

theorem Agrees.ends_analyseNode (h : Agrees disk m w o far g) {n n' : PackageNode}
    (hn : g.packages.find? n.path = some n')
    (hb : n'.state = .building) (hbare : n'.bare = n.bare)
    (hs : n.files ≠ [] → Stack disk w far { g with building := n.path :: g.building } n)
    (hroom : w.size disk + 2 ≤ g.building.length + (room + 1)) :
    Ends (analyseNode disk analyse n) g fun a g' => (Agrees disk m w o far g' ∧ Extends g g') ∧
      a.parsed = n.files.map (ParsedFile.ofPath disk g) ∧ w.Settles disk n a := by
  have hheld := h.lists.view.held
  have hparsed : n.files.map (ParsedFile.ofPath disk g) = w.parsedFiles disk n := by
    rw [ofPath_congr hheld]
    rfl
  obtain ⟨-, hfiles, herrors⟩ := PackageNode.of_bare_eq hbare
  unfold analyseNode
  simp only [ends_bind, ends_get, hparsed, errors_congr hheld]
  split
  · rename_i herr
    rw [ends_bind]
    have hplain : ∀ path ∈ w.importPaths disk n, DotFree path := by
      rw [importPaths, ← hparsed]
      exact h.inv.plain_imports (hfiles ▸ extension_of_idlFiles (h.inv.nodes _ n' hn).files)
    have hlisted : n.listErrors = [] := by
      simp only [List.isEmpty_iff, List.append_eq_nil_iff, PackageNode.listingErrors, List.map_eq_nil_iff] at herr
      exact herr.1.1
    have hne : n.files ≠ [] := by
      have := (h.lists.fresh _ n' hn).files_ne_nil (herrors.trans hlisted)
      exact fun hnil => this (hfiles.trans hnil)
    refine (h.ends_checkTypes hd hm hnamed ha ⟨n', hn, hb⟩ (hs hne) hroom hplain).mono ?_
    intro result g' ⟨hg', depth, hresult⟩
    refine ⟨hg', rfl, depth + 1, fun fuel hf => ?_⟩
    obtain ⟨fuel, rfl⟩ : ∃ k, fuel = k + 1 := ⟨fuel - 1, by omega⟩
    have hresult := hresult fuel (by omega)
    subst hresult
    unfold batchWithin batchNode
    simp only [herr, if_true]
    exact ⟨rfl, rfl, rfl⟩
  · rename_i herr
    refine ⟨⟨h, .refl g⟩, rfl, 1, fun fuel hf => ?_⟩
    obtain ⟨fuel, rfl⟩ : ∃ k, fuel = k + 1 := ⟨fuel - 1, by omega⟩
    unfold batchWithin batchNode
    simp only [herr, Bool.false_eq_true, if_false]
    exact ⟨rfl, rfl, rfl⟩

end

/-! ## Packages that go on the stack -/

/-- The package goes on the stack. -/
theorem Stack.startChecking (hi : Inv disk m g) {path : String} {n : PackageNode}
    (hn : g.packages.find? path = some n) (hb : n.state ≠ .building) (hs : Stack disk w far g n)
    (hf : n.files ≠ []) :
    Stack disk w far { g.startChecking path with building := path :: (g.startChecking path).building } n := by
  have hnot := hi.not_mem_building hn hb
  refine ⟨List.nodup_cons.mpr ⟨hnot, hs.nodup⟩, ?_, ?_, hs.near, hs.straight⟩
  · intro key n' hn' hb'
    by_cases heq : key = path
    · simp [heq]
    · simp only [Graph.startChecking, find?_modifyPackage, if_neg heq] at hn'
      exact List.mem_cons_of_mem _ (hs.states key n' hn' hb')
  · intro p hp
    rcases List.mem_cons.mp hp with rfl | hp
    · exact ⟨_, find?_startChecking hn, hf, .refl⟩
    · have hne : p ≠ path := fun e => hnot (e ▸ hp)
      obtain ⟨n', hn', hlead⟩ := hs.leads p hp
      refine ⟨n', ?_, hlead⟩
      simp only [Graph.startChecking, find?_modifyPackage, if_neg hne]
      exact hn'

theorem Agrees.finishChecking {path : String} (hi : Inv disk m g) (h : Agrees disk m w o far (g.startChecking path))
    {n : PackageNode}
    (hn : g.packages.find? path = some n) (hb : n.state ≠ .building) (hs : Stack disk w far g n) {t : Graph}
    {a : Analysis} (ht : Agrees disk m w o far t) (he : Extends (g.startChecking path) t)
    (hparsed : a.parsed = n.files.map (ParsedFile.ofPath disk g)) (ha : w.Settles disk n a) :
    Agrees disk m w o far (t.finishChecking path a n.state) := by
  refine ⟨hi.finishChecking hn hb ht.inv he hparsed, ht.lists.modifyPackage fun _ => rfl, ht.recalls, ?_, ?_⟩
  · intro key n' hn' hsome
    have hne : key ≠ path := by
      rintro rfl
      have hstart := h.kept key n' hn' hsome
      rw [find?_startChecking hn] at hstart
      cases hstart
      cases hsome
    rw [Graph.finishChecking, find?_modifyPackage, if_neg hne]
    exact ht.kept key n' hn' hsome
  intro key n' hn'
  rw [Graph.finishChecking, find?_modifyPackage] at hn'
  split at hn'
  · rename_i heq
    subst heq
    obtain ⟨last, hlast, rfl⟩ := Option.map_eq_some_iff.mp hn'
    have hbare : n.bare = last.bare := 
      h.bare_eq ht (n := { n.reset with state := .building }) (find?_startChecking hn) hlast
    refine Or.inl ⟨?_, (hs.sound ht hlast (hbare ▸ .refl)).straight⟩
    rintro _ ⟨⟩
    exact ha.congr hbare
  · exact ht.sound key n' hn'

/-- Analyses of any depth settle as the recursion does, as long as the stack has room. -/
theorem finds_analyseWithin (hd : disk.WellNamed) (hm : m.dir.Rooted) (hnamed : m.Named) (fuel : Nat) :
    Finds disk m w o far fuel (analyseWithin disk fuel) := by
  induction fuel with
  | zero =>
    intro path g n hi h hn hb hs hroom
    have hlength := hs.length_le hd hm hi
    have hsize : g.size disk = w.size disk := size_congr h.lists.view.held
    omega
  | succ fuel ih =>
    intro path g n hi h hn hb hs hroom
    obtain rfl : n.path = path := (hi.nodes path n hn).path
    rw [ends_analyseWithin, hn]
    have hnode := h.ends_analyseNode hd hm hnamed ih (n := n) (find?_startChecking hn) rfl rfl
      (Stack.startChecking hi hn hb hs) hroom
    refine hnode.mono fun a t ⟨⟨ht, he⟩, hparsed, ha⟩ => ?_
    rw [ofPath_congr rfl] at hparsed
    refine ⟨⟨h.finishChecking hi hn hb hs ht he hparsed ha, extends_finishChecking hn he⟩, ?_⟩
    obtain ⟨last, hlast, -⟩ := he.kept n.path _ (find?_startChecking hn)
    refine ⟨{ last with analysis := some a, state := n.state }, a, ?_, rfl⟩
    rw [Graph.finishChecking, find?_modifyPackage, if_pos rfl, hlast]
    rfl

end IdlWorkbench.Graph
