import IdlWorkbench.Proofs.Graph.Cycle
import IdlWorkbench.Proofs.Session.Shown

/-!
# Import cycles are shown

When a package on an import cycle has its turn, and the cycle will be noticed, an import error is shown for one of
its files, and stays until the next turn of the package.

A cycle need not be noticed: when a package has its turn again, its own flag is dropped first, and packages that
have been analysed are not looked into. So after another turn of every package on the cycle nothing may be left of
the errors.
-/

namespace IdlWorkbench

open IdlWorkbench.Path

namespace Graph

variable {disk : Disk} {m : ModuleRoot} {g : Graph}

/-- The turn of a package on a cycle that will be noticed lists an error. -/
theorem Steady.lists_cycle (hd : disk.WellNamed) (hm : m.dir.Rooted) (hnamed : m.Named) (lint : Bool)
    (h : Steady disk m g) {path : String} (hw : g.Waits path) {n : PackageNode} (hn : g.packages.find? path = some n)
    {cycle : List PackageNode} (hchain : List.IsChain (g.Uses disk) (n.bare :: cycle ++ [n.bare]))
    (hfit : ∀ x ∈ n.bare :: cycle, g.Fit disk x) (hnoticed : g.Noticed disk n.bare cycle) :
    ∃ e, CycleError n.files e ∧ FileDiagnostics.Lists (given disk lint (path, g)) e.file e.toDiagnostic := by
  have hdirty : n.state = .dirty := by
    obtain ⟨n', hn', hs⟩ := hw
    rw [hn] at hn'
    cases hn'
    exact hs
  have hanalyse := (h.ready.follows h.resting.inv).ends_analyse_cycle hd hm hnamed h.neat h.resting hn
    (h.filled path n hn (Or.inl hdirty)) hchain hfit hnoticed
  change Ends (publishPackage disk lint path) g fun ps _ =>
    ∃ e, CycleError n.files e ∧ FileDiagnostics.Lists ps e.file e.toDiagnostic
  rw [Graph.ends_publishPackage, Graph.ends_diagnose, hn]
  dsimp only
  rw [if_neg (not_not.mpr hdirty)]
  refine hanalyse.mono fun _ g' ⟨n', hn', e, he, hcycle⟩ => ?_
  have hfind : (g'.markCurrent path).packages.find? path = some { n' with state := .current } := by
    rw [markCurrent, find?_modifyPackage, if_pos rfl, hn']
    rfl
  have hlists := FileDiagnostics.lists_ofNode (n := { n' with state := .current }) he
  rw [hfind]
  dsimp only
  split
  · exact ⟨e, hcycle, hlists.foldl_add _⟩
  · exact ⟨e, hcycle, hlists⟩

end Graph

namespace Session

variable {disk : Disk} {m : ModuleRoot} {s : Session}

section
variable (hd : disk.WellNamed) (hm : m.dir.Rooted) (hnamed : m.Named) (hi : disk.NeatImports)
include hd hm hnamed hi

theorem steady_after : ∀ {notes : List Note} {s : Session} {g : Graph}, Graph.Steady disk m g → s.graph = some g →
    (∀ n ∈ notes, n.Neat) → ∃ g', (s.after disk notes).graph = some g' ∧ Graph.Steady disk m g'
  | [], s, g, h, hg, _ => ⟨g, hg, h⟩
  | n :: notes, s, g, h, hg, hn => by
    obtain ⟨now, g₁, g', hh⟩ := hears hd hm hnamed hi h hg (hn n (by simp))
    have hnext : (s.hear disk n).2.graph = some g' := by rw [hh.after]
    obtain ⟨g'', hg'', h''⟩ := steady_after hh.next hnext fun n' hn' => hn n' (List.mem_cons_of_mem _ hn')
    exact ⟨g'', hg'', h''⟩

/-- What is shown for a file of a package stays while the package has no turn and the file is not closed. -/
theorem last_rests {path : String} {g₀ : Graph} (h₀ : Graph.Steady disk m g₀) {n₀ : PackageNode}
    (hn₀ : g₀.packages.find? path = some n₀) {file : Path} (hf : file ∈ n₀.files) :
    ∀ {notes : List Note} {s : Session} {g : Graph}, Graph.Steady disk m g → s.graph = some g →
    (∀ n ∈ notes, n.Neat) →
      s.Rests disk path notes → (∀ n ∈ notes, n.text? = none → n.file ≠ file) → ∀ before : Published,
        Published.last (before ++ s.published disk notes) file = Published.last before file
  | [], s, g, _, _, _, _, _, before => by rw [published, List.append_nil]
  | n :: notes, s, g, h, hg, hn, hrests, hopen, before => by
    obtain ⟨now, g₁, g', hh⟩ := hears hd hm hnamed hi h hg (hn n (by simp))
    have hsilent : ∀ e ∈ (s.hear disk n).1, ¬(e.1 == file) = true := by
      intro e he hbeq
      rw [hh.published] at he
      rcases List.mem_append.mp he with he | he
      · obtain ⟨hclosed, hfile⟩ := hh.clears e he
        rw [hfile] at hbeq
        have hnormal := (h₀.resting.inv.of_mem_files hd hm hn₀ hf).1
        exact hopen n (by simp) hclosed (n.normal_file.eq_of_beq hnormal hbeq)
      · obtain ⟨turn, hturn, he⟩ := List.mem_flatMap.mp he
        have hne := hrests.1 turn hturn
        rw [hh.turns] at hturn
        obtain ⟨hsteady, ⟨n', hn', -⟩, -⟩ := hh.steady.forall_turns hd hm hnamed _ turn hturn
        exact h₀.given_other hd hm _ hn₀ hf hsteady hne (Graph.contains_iff.mpr ⟨n', hn'⟩) e he hbeq
    rw [published, ← List.append_assoc, last_rests h₀ hn₀ hf hh.next (by rw [hh.after])
      (fun n' hn' => hn n' (List.mem_cons_of_mem _ hn'))
        hrests.2 (fun n' hn' => hopen n' (List.mem_cons_of_mem _ hn')),
      Published.last_append_of_none hsilent]

end

theorem Opens.hears (hd : disk.WellNamed) (hi : disk.NeatImports) {settings : Settings} {root : String}
    (h : Opens disk settings root s) (hm : Layout.discover disk (Path.ofString root).normalize = .ok ⟨[m]⟩)
    (hnamed : m.Named) {notes : List Note} {note : Note} (hn : ∀ n ∈ notes, n.Neat) (hnote : note.Neat) :
    m.dir.Rooted ∧ ∃ now g g', Hears disk m (s.after disk notes) note now g g' := by
  obtain ⟨hrooted, g₀, rfl, h₀⟩ := h.steady hd hi hnamed hm
  have hstart : ({ settings, graph := some g₀ } : Session).graph = some g₀ := rfl
  obtain ⟨g₁, hg₁, h₁⟩ := steady_after hd hrooted hnamed hi h₀ hstart hn
  exact ⟨hrooted, Session.hears hd hrooted hnamed hi h₁ hg₁ hnote⟩

/-- A package on an import cycle has its turn after some notes, and none since. If the packages on the cycle can be
checked for types and the cycle will be noticed, an error that names the cycle is shown for a file of the package. -/
theorem cycle_shown (hd : disk.WellNamed) (hi : disk.NeatImports) {settings : Settings} {root : String}
    (h : Opens disk settings root s) (hm : Layout.discover disk (Path.ofString root).normalize = .ok ⟨[m]⟩)
    (hnamed : m.Named) {notes later : List Note} {note : Note} (hn : ∀ n ∈ notes ++ note :: later, n.Neat)
    {path : String} {g : Graph} (hturn : (path, g) ∈ (s.after disk notes).turns disk note) {n : PackageNode}
    (hnode : g.packages.find? path = some n) {cycle : List PackageNode}
    (hchain : List.IsChain (g.Uses disk) (n.bare :: cycle ++ [n.bare])) (hfit : ∀ x ∈ n.bare :: cycle, g.Fit disk x)
    (hnoticed : g.Noticed disk n.bare cycle)
    (hrests : (s.after disk (notes ++ [note])).Rests disk path later)
    (hopen : ∀ n' ∈ later, n'.text? = none → n'.file ∉ n.files) :
    ∃ file ∈ n.files, ∃ span importPath,
      .error .type span ("could not import " ++ importPath ++ " (" ++ "import cycle not allowed" ++ ")") ∈
        Published.last (s.published disk (notes ++ note :: later)) file := by
  obtain ⟨hrooted, now, g₁, g₂, hh⟩ := h.hears hd hi hm hnamed (fun n' hn' => hn n' (List.mem_append_left _ hn'))
    (hn note (by simp))
  have hsteady := hh.steady.forall_turns hd hrooted hnamed _ (path, g) (hh.turns ▸ hturn)
  obtain ⟨e, ⟨hfile, hkind, importPath, hmessage⟩, hlists⟩ :=
    hsteady.1.lists_cycle hd hrooted hnamed _ hsteady.2.1 hnode hchain hfit hnoticed
  refine ⟨e.file, hfile, e.span, importPath, ?_⟩
  rw [← hmessage, ← hkind, published_append, published, ← List.append_assoc]
  rw [after_snoc] at hrests
  have hlater : ∀ n' ∈ later, n'.Neat := fun n' hn' =>
    hn n' (List.mem_append_right _ (List.mem_cons_of_mem _ hn'))
  rw [last_rests hd hrooted hnamed hi hsteady.1 hnode hfile hh.next (by rw [hh.after]) hlater hrests
    (fun n' hn' hclosed heq => hopen n' hn' hclosed (heq ▸ hfile)), hh.published, ← List.append_assoc, hh.turns]
  exact hh.steady.mem_last_turns hd hrooted _ hnamed (hh.turns ▸ hturn) hnode hfile hlists _

/-! ## A sample -/

theorem opens_sample : Opens Graph.sampleDisk {} "/w/a" (opened Graph.sampleDisk {} "/w/a") :=
  opens_opened (by decide +kernel)

theorem discover_sample : Layout.discover Graph.sampleDisk (Path.ofString "/w/a").normalize =
    .ok ⟨[⟨"example.com/m", .ofString "/w"⟩]⟩ := rfl

theorem named_sample : ModuleRoot.Named ⟨"example.com/m", .ofString "/w"⟩ :=
  ⟨'e', "xample.com/m".toList, by decide, by decide⟩

/-- A package is made that imports the one on disk, which imports it. -/
def sampleClosing : Note := .opened "/w/b/b.gunk" "package b\n\nimport \"example.com/m/a\"\n"

def sampleLater : List Note := [.opened "/w/c/c.gunk" "package c\n", .closed "/w/c/c.gunk"]

theorem neat_sample : ∀ n ∈ sampleClosing :: sampleLater, n.Neat := by decide +kernel

theorem rests_sampleLater : ((opened Graph.sampleDisk {} "/w/a").after Graph.sampleDisk [sampleClosing]).Rests
    Graph.sampleDisk "example.com/m/b" sampleLater := by decide +kernel

def sampleTurn : String × Graph :=
  ((opened Graph.sampleDisk {} "/w/a").turns Graph.sampleDisk sampleClosing).headD ("", { layout := ⟨[]⟩ })

theorem neatImports_sampleDisk : Graph.sampleDisk.NeatImports := by
  intro file text _ hr
  obtain ⟨key, hk⟩ := Disk.mem_entries_of_read hr
  simp only [Graph.sampleDisk, List.mem_cons, Prod.mk.injEq, Entry.file.injEq, reduceCtorEq, and_false,
    false_or, or_false,
    List.not_mem_nil, Option.some_inj] at hk
  rcases hk with ⟨-, rfl⟩ | ⟨-, rfl⟩ <;> decide +kernel

theorem turn_sampleClosing : ("example.com/m/b", sampleTurn.2) ∈
    (opened Graph.sampleDisk {} "/w/a").turns Graph.sampleDisk sampleClosing := by
  have hpath : sampleTurn.1 = "example.com/m/b" := by decide +kernel
  have hsome : (opened Graph.sampleDisk {} "/w/a").turns Graph.sampleDisk sampleClosing ≠ [] := by
    rw [ne_eq, ← List.length_eq_zero_iff]
    decide +kernel
  rw [← hpath]
  unfold sampleTurn
  obtain ⟨turn, rest, heq⟩ := List.exists_cons_of_ne_nil hsome
  rw [heq]
  simp

/-- The two packages of the sample import each other, and nothing is known about the one on disk. The new one is in
the file that has been opened. -/
theorem cycle_sampleClosing : ∃ n z, sampleTurn.2.packages.find? "example.com/m/b" = some n ∧
    sampleTurn.2.Uses Graph.sampleDisk n.bare z ∧ sampleTurn.2.Uses Graph.sampleDisk z n.bare ∧
    sampleTurn.2.Fit Graph.sampleDisk n.bare ∧ sampleTurn.2.Fit Graph.sampleDisk z ∧ ¬sampleTurn.2.Knows z.path ∧
    n.files = [sampleClosing.file] := by
  have hnode : (sampleTurn.2.packages.find? "example.com/m/b").map (fun n =>
      (sampleTurn.2.importPaths Graph.sampleDisk n.bare, decide (sampleTurn.2.Fit Graph.sampleDisk n.bare),
        n.files)) =
        some (["example.com/m/a"], true, [sampleClosing.file]) := by decide +kernel
  have hfirst : (sampleTurn.2.freshPackages Graph.sampleDisk "example.com/m/a").toOption.map (·.map fun z =>
      (sampleTurn.2.importPaths Graph.sampleDisk z, decide (sampleTurn.2.Fit Graph.sampleDisk z),
        decide (sampleTurn.2.Knows z.path))) = some [(["example.com/m/b"], true, false)] := by decide +kernel
  have hsecond : (sampleTurn.2.freshPackages Graph.sampleDisk "example.com/m/b").toOption.map (·.map (·.path)) =
      some ["example.com/m/b"] := by decide +kernel
  have hstandard : sampleTurn.2.layout.isStandard "example.com/m/a" = false ∧
      sampleTurn.2.layout.isStandard "example.com/m/b" = false := by decide +kernel
  obtain ⟨n, hn, hnode⟩ := Option.map_eq_some_iff.mp hnode
  obtain ⟨zs, hzs, hfirst⟩ := Option.map_eq_some_iff.mp hfirst
  obtain ⟨ys, hys, hsecond⟩ := Option.map_eq_some_iff.mp hsecond
  obtain ⟨z, rfl, hz⟩ := List.map_eq_singleton_iff.mp hfirst
  obtain ⟨y, rfl, hy⟩ := List.map_eq_singleton_iff.mp hsecond
  simp only [Prod.mk.injEq, decide_eq_true_eq, decide_eq_false_iff_not] at hnode hz
  -- the package that is listed is the one in the graph
  have hd : Graph.sampleDisk.WellNamed := by decide
  have hnone : ∀ n ∈ ([] : List Note), n.Neat := by simp
  obtain ⟨hrooted, now, g, g', hh⟩ := opens_sample.hears hd neatImports_sampleDisk discover_sample named_sample hnone
    (neat_sample sampleClosing (by simp))
  have hturns := hh.turns
  rw [after, List.foldl_nil] at hturns
  have hturn := turn_sampleClosing
  rw [hturns] at hturn
  obtain ⟨hsteady, -⟩ := hh.steady.forall_turns hd hrooted named_sample _ _ hturn
  dsimp only at hsteady
  have hbare : n.bare = y := (hsteady.ready.follows hsteady.resting.inv).bare_of_fresh hd hrooted (by decide +kernel)
    (ok_of_toOption hys) (hy ▸ hn)
  have huses : "example.com/m/a" ∈ sampleTurn.2.importPaths Graph.sampleDisk n.bare := by
    rw [hnode.1]
    exact List.mem_singleton_self _
  refine ⟨n, z, hn, ⟨_, huses, hstandard.1, ok_of_toOption hzs⟩, ⟨_, hz.1 ▸ by simp, hstandard.2, ?_⟩,
    hnode.2.1, hz.2.1, hz.2.2, hnode.2.2⟩
  rw [hbare]
  exact ok_of_toOption hys

theorem cycle_shown_sample : ∃ n cycle, sampleTurn.2.packages.find? "example.com/m/b" = some n ∧
    List.IsChain (sampleTurn.2.Uses Graph.sampleDisk) (n.bare :: cycle ++ [n.bare]) ∧
    sampleTurn.2.Noticed Graph.sampleDisk n.bare cycle ∧
    ∃ file ∈ n.files, ∃ span importPath,
      .error .type span ("could not import " ++ importPath ++ " (" ++ "import cycle not allowed" ++ ")") ∈
        Published.last ((opened Graph.sampleDisk {} "/w/a").published Graph.sampleDisk
          (sampleClosing :: sampleLater))
          file := by
  obtain ⟨n, z, hn, huses, hused, hfit, hfit', hnew, hfiles⟩ := cycle_sampleClosing
  have hchain : List.IsChain (sampleTurn.2.Uses Graph.sampleDisk) (n.bare :: [z] ++ [n.bare]) := by
    simp [huses, hused]
  have hfits : ∀ x ∈ n.bare :: [z], sampleTurn.2.Fit Graph.sampleDisk x := by simp [hfit, hfit']
  have hnoticed : sampleTurn.2.Noticed Graph.sampleDisk n.bare [z] := Or.inr (by simp [hnew])
  have hopen : ∀ n' ∈ sampleLater, n'.text? = none → n'.file ∉ n.files := by
    have hother : ∀ n' ∈ sampleLater, n'.file ≠ sampleClosing.file := by decide +kernel
    intro n' hn' _
    rw [hfiles, List.mem_singleton]
    exact hother n' hn'
  have hnotes : ∀ n ∈ [] ++ sampleClosing :: sampleLater, n.Neat := neat_sample
  have hturn : ("example.com/m/b", sampleTurn.2) ∈
      ((opened Graph.sampleDisk {} "/w/a").after Graph.sampleDisk []).turns Graph.sampleDisk sampleClosing := by
    rw [after, List.foldl_nil]
    exact turn_sampleClosing
  refine ⟨n, [z], hn, hchain, hnoticed, ?_⟩
  exact cycle_shown (by decide) neatImports_sampleDisk opens_sample discover_sample named_sample hnotes hturn
    hn hchain hfits hnoticed rests_sampleLater hopen

end Session

end IdlWorkbench
