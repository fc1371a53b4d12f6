import IdlWorkbench.Graph.Analysis
import IdlWorkbench.Proofs.Check.Reports
import IdlWorkbench.Proofs.Graph.Files
import IdlWorkbench.Proofs.Workspace.Listing

/-!
# The invariant of the graph

`Graph.Inv` is what holds of a graph over a single module at every moment, also in the middle of an analysis:
each package stands under its own import path with the files of its directory, what is known about it comes
from these files, and whatever the graph remembers of a package is about one that is there. `Extends` says
what loading and analysing leave as it was.
-/

namespace IdlWorkbench

open IdlWorkbench.Path

/-! ## Imports of texts -/

/-- A text whose imports have no part to resolve. -/
def PlainImports (text : String) : Prop := ∀ path ∈ Check.importPaths [.ofText text], DotFree path

instance (text : String) : Decidable (PlainImports text) :=
  inferInstanceAs (Decidable (∀ path ∈ Check.importPaths [.ofText text], _))

def Disk.PlainImports (d : Disk) : Prop :=
  ∀ file text, file.extension? = some idlExtension → d.read file = .ok text → IdlWorkbench.PlainImports text

namespace Graph

/-! ## What depends on the held texts only -/

section
variable {disk : Disk} {g g' : Graph} (h : g'.held = g.held)
include h

theorem idlFiles_congr (dir : Path) : g'.idlFiles disk dir = g.idlFiles disk dir := by
  unfold idlFiles
  rw [h]

theorem read_congr (file : Path) : g'.read disk file = g.read disk file := by
  unfold Graph.read
  rw [h]

theorem ofPath_congr : ParsedFile.ofPath disk g' = ParsedFile.ofPath disk g := by
  funext file
  unfold ParsedFile.ofPath
  rw [read_congr h]

end

/-! ## The invariant -/

structure NodeInv (disk : Disk) (m : ModuleRoot) (g : Graph) (key : String) (n : PackageNode) : Prop where
  path : n.path = key
  owned : m.Owns n.dir key
  files : g.idlFiles disk n.dir = .ok n.files
  parsed : ∀ a, n.analysis = some a → a.parsed = n.files.map (ParsedFile.ofPath disk g)
  cycle : n.inCycle = true → n.analysis.isSome = true ∨ n.state = .building
  current : n.state = .current → n.analysis.isSome = true

/-- What the graph remembers of packages is about packages that are there. -/
structure Refs (g : Graph) : Prop where
  tracked : ∀ p ∈ g.tracked, g.packages.contains p = true
  memo : ∀ pattern paths, g.memo.find? pattern = some paths → ∀ p ∈ paths, g.packages.contains p = true
  published : ∀ p ∈ g.published.keys, g.packages.contains p = true

structure Inv (disk : Disk) (m : ModuleRoot) (g : Graph) : Prop where
  modules : g.layout.modules = [m]
  keys : g.packages.keys.Nodup
  held : ∀ p ∈ g.held.keys, p.Normal
  imports : ∀ file text, file.extension? = some idlExtension → g.read disk file = .ok text → PlainImports text
  nodes : ∀ key n, g.packages.find? key = some n → NodeInv disk m g key n
  refs : Refs g
  building : ∀ p ∈ g.building, ∃ n, g.packages.find? p = some n ∧ n.state = .building

/-- What loading and analysing leave as it was. -/
structure Extends (g g' : Graph) : Prop where
  layout : g'.layout = g.layout
  held : g'.held = g.held
  tracked : g'.tracked = g.tracked
  published : g'.published = g.published
  building : g'.building = g.building
  kept : ∀ key n, g.packages.find? key = some n → ∃ n', g'.packages.find? key = some n' ∧ n'.state = n.state
  added : ∀ key n, g'.packages.find? key = some n → g.packages.contains key = true ∨ n.state = .untracked
  known : ∀ key n, g.packages.find? key = some n → n.analysis.isSome = true →
    ∃ n', g'.packages.find? key = some n' ∧ n'.analysis.isSome = true

theorem contains_iff {g : Graph} {key : String} :
    g.packages.contains key = true ↔ ∃ n, g.packages.find? key = some n := by
  rw [Table.contains_eq, Option.isSome_iff_exists]

section
variable {disk : Disk} {m : ModuleRoot} {g g' g'' : Graph}

theorem Refs.mono (h : Refs g) (ht : g'.tracked = g.tracked) (hm : g'.memo = g.memo)
    (hp : g'.published = g.published)
    (hc : ∀ p, g.packages.contains p = true → g'.packages.contains p = true) : Refs g' := by
  refine ⟨?_, ?_, ?_⟩
  · rw [ht]
    exact fun p hp => hc p (h.tracked p hp)
  · rw [hm]
    exact fun pattern paths hfind p hp => hc p (h.memo pattern paths hfind p hp)
  · rw [hp]
    exact fun p hp => hc p (h.published p hp)

namespace Extends

theorem refl (g : Graph) : Extends g g :=
  ⟨rfl, rfl, rfl, rfl, rfl, fun _ n h => ⟨n, h, rfl⟩, fun _ _ h => Or.inl (contains_iff.mpr ⟨_, h⟩),
    fun _ n h ha => ⟨n, h, ha⟩⟩

theorem contains (h : Extends g g') {key : String} (hk : g.packages.contains key = true) :
    g'.packages.contains key = true := by
  obtain ⟨n, hn⟩ := contains_iff.mp hk
  obtain ⟨n', hn', -⟩ := h.kept key n hn
  exact contains_iff.mpr ⟨n', hn'⟩

theorem trans (h : Extends g g') (h' : Extends g' g'') : Extends g g'' := by
  refine ⟨h'.layout.trans h.layout, h'.held.trans h.held, h'.tracked.trans h.tracked,
    h'.published.trans h.published, h'.building.trans h.building, ?_, ?_, ?_⟩
  · intro key n hn
    obtain ⟨n', hn', hs⟩ := h.kept key n hn
    obtain ⟨n'', hn'', hs'⟩ := h'.kept key n' hn'
    exact ⟨n'', hn'', hs'.trans hs⟩
  · intro key n'' hn''
    rcases h'.added key n'' hn'' with hk | hs
    · obtain ⟨n', hn'⟩ := contains_iff.mp hk
      rcases h.added key n' hn' with hk | hs
      · exact Or.inl hk
      · right
        obtain ⟨n₂, hn₂, hs'⟩ := h'.kept key n' hn'
        rw [hn''] at hn₂
        cases hn₂
        exact hs'.trans hs
    · exact Or.inr hs
  · intro key n hn ha
    obtain ⟨n', hn', ha'⟩ := h.known key n hn ha
    exact h'.known key n' hn' ha'

end Extends

theorem NodeInv.congr {key : String} {n : PackageNode} (hi : NodeInv disk m g key n) (h : g'.held = g.held) :
    NodeInv disk m g' key n :=
  { hi with
    files := by rw [idlFiles_congr h]; exact hi.files
    parsed := by rw [ofPath_congr h]; exact hi.parsed }

theorem Inv.rooted_dir (hm : m.dir.Rooted) (hi : Inv disk m g) {key : String} {n : PackageNode}
    (hn : g.packages.find? key = some n) : n.dir.Rooted := (hi.nodes key n hn).owned.rooted hm

theorem extension_of_idlFiles {dir : Path} {files : List Path} (h : g.idlFiles disk dir = .ok files) :
    ∀ file ∈ files, file.extension? = some idlExtension := by
  unfold idlFiles at h
  obtain ⟨onDisk, hdisk, h⟩ := bind_eq_ok.mp h
  cases h
  intro file hfile
  have hmem : file ∈ onDisk ++ g.held.keys.filter fun p =>
    p.parent? == some dir && p.extension? = some idlExtension := by
    rw [sortedPaths] at hfile
    rw [← (Path.sort_perm _).mem_iff]
    split at hfile
    · cases hfile
    · rename_i heq
      rw [heq]
      exact List.cons_subset_cons _ (dropRepeats_subset _ _) hfile
  rcases List.mem_append.mp hmem with h | h
  · exact (Disk.mem_filesWithExtension hdisk h).1
  · have := (List.mem_filter.mp h).2
    rw [Bool.and_eq_true, decide_eq_true_eq] at this
    exact this.2

/-- What holds of the import paths in the texts of files holds of those in the files when they are parsed. -/
theorem forall_importPaths {P : String → Prop} {E : Path → Prop} {files : List Path} (hx : ∀ f ∈ files, E f)
    (h : ∀ file text, E file → g.read disk file = .ok text → ∀ path ∈ Check.importPaths [.ofText text], P path) :
    ∀ path ∈ Check.importPaths ((files.map (ParsedFile.ofPath disk g)).map (·.source)), P path := by
  intro path hp
  obtain ⟨s, hs, hps⟩ := Check.exists_of_mem_importPaths hp
  simp only [List.map_map, List.mem_map, Function.comp_apply] at hs
  obtain ⟨file, hfile, rfl⟩ := hs
  simp only [ParsedFile.ofPath] at hps
  cases hread : g.read disk file with
  | ok text =>
    rw [hread] at hps
    exact h file text (hx file hfile) hread path hps
  | error e =>
    rw [hread] at hps
    have : Check.importPaths [Source.ofText ""] = [] := by decide +kernel
    simp [Except.toOption, this] at hps

/-- Import paths in IDL files have no part to resolve. -/
theorem Inv.plain_imports (hi : Inv disk m g) {files : List Path}
    (hx : ∀ f ∈ files, f.extension? = some idlExtension) :
    ∀ path ∈ Check.importPaths ((files.map (ParsedFile.ofPath disk g)).map (·.source)), DotFree path :=
  forall_importPaths hx hi.imports

end

end Graph

end IdlWorkbench
