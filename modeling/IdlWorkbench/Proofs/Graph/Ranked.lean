import IdlWorkbench.Proofs.Graph.Alike
import IdlWorkbench.Proofs.Graph.Record

/-!
# Imports that lead downwards

The import paths of a module may be ranked so that each file imports paths of lower ranks only. This can be told
from the texts alone. Then there are no import cycles, and the rank of a package bounds how deep checking it from
scratch has to go. -/

namespace IdlWorkbench

open IdlWorkbench.Path

/-! ## Texts -/

/-- Files import packages of lower ranks than their own only. -/
def Ranked (l : Layout) (rank : String → Nat) (texts : List (Path × String)) : Prop :=
  ∀ e ∈ texts, ∀ path ∈ Check.importPaths [.ofText e.2], l.isStandard path = false → NeatPath path ∧
    ∀ dir ∈ e.1.parent?, ∀ own ∈ l.importPathOf? dir, rank path < rank own

instance (l : Layout) (rank : String → Nat) (texts : List (Path × String)) : Decidable (Ranked l rank texts) :=
  inferInstanceAs (Decidable (∀ e ∈ texts, ∀ path ∈ Check.importPaths [.ofText e.2], _ → _ ∧
    ∀ dir ∈ e.1.parent?, ∀ own ∈ l.importPathOf? dir, _))

namespace Graph

variable {disk : Disk} {m : ModuleRoot} {g w : Graph} {texts : List (Path × String)} {rank : String → Nat}

def Draws (texts : List (Path × String)) (held : Table Path String) : Prop :=
  ∀ p text, held.find? p = some text → ∃ f, f.Normal ∧ (p == f) = true ∧ (f, text) ∈ texts

/-- What is read is either held or on disk. -/
theorem Draws.of_read (h : Draws texts g.held) (hdisk : disk.texts ⊆ texts) {file : Path} {text : String}
    (hr : g.read disk file = .ok text) : ∃ f, (file.Normal → f = file) ∧ (f, text) ∈ texts := by
  unfold Graph.read at hr
  cases hfind : g.held.find? file with
  | some held =>
    rw [hfind] at hr
    cases hr
    obtain ⟨f, hf, hbeq, hmem⟩ := h file text hfind
    exact ⟨f, fun hn => (hn.eq_of_beq hf hbeq).symm, hmem⟩
  | none =>
    rw [hfind] at hr
    obtain ⟨f, heq, hmem⟩ := Disk.exists_of_read hr
    exact ⟨f, heq, hdisk hmem⟩

/-! ## Packages -/

/-- Packages of the module import packages of lower ranks only, as they are named. -/
structure Falls (disk : Disk) (m : ModuleRoot) (rank : String → Nat) (g : Graph) : Prop where
  neat : ∀ n, ∀ path ∈ g.importPaths disk n, g.layout.isStandard path = false → NeatPath path
  lower : ∀ n, g.Fresh disk n → m.Owns n.dir n.path → ∀ path ∈ g.importPaths disk n,
    g.layout.isStandard path = false →
    rank path < rank n.path

section
variable (hd : disk.WellNamed) (hm : m.dir.Rooted) (hnamed : m.Named) (hi : Inv disk m g)
include hd hm hi

theorem falls_of_ranked (hdisk : disk.texts ⊆ texts) (h : Draws texts g.held) (hr : Ranked g.layout rank texts) :
    Falls disk m rank g := by
  have hreads : ∀ file text, True → g.read disk file = .ok text → ∀ path ∈ Check.importPaths [.ofText text],
      g.layout.isStandard path = false → NeatPath path := by
    intro file text _ hread path hpath hstd
    obtain ⟨f, -, hmem⟩ := h.of_read hdisk hread
    exact (hr (f, text) hmem path hpath hstd).1
  refine ⟨fun n => forall_importPaths (fun _ _ => trivial) hreads, fun n hn howns => ?_⟩
  have hnormal := (howns.rooted hm).normal
  have hfiles := filesOf_of_idlFiles hd hi.held hnormal hn.idlFiles
  refine forall_importPaths (E := (· ∈ n.files)) (fun _ => id) fun file text hfile hread path hpath hstd => ?_
  obtain ⟨hf, hparent⟩ := hfiles.parent? hd hi.held hnormal hfile
  obtain ⟨f, heq, hmem⟩ := h.of_read hdisk hread
  exact (hr (f, text) hmem path hpath hstd).2 n.dir (heq hf ▸ hparent) n.path
    (Layout.importPathOf?_of_owns hi.modules hm howns)

include hnamed

/-- An imported package is one of the module. -/
theorem Falls.of_uses (h : Falls disk m rank g) {n z : PackageNode} (hu : g.Uses disk n z) :
    g.Fresh disk z ∧ m.Owns z.dir z.path ∧ z.path ∈ g.importPaths disk n ∧ g.layout.isStandard z.path = false := by
  obtain ⟨path, hpath, hstd, hz⟩ := hu
  have hneat := h.neat n path hpath hstd
  obtain ⟨dir, hdirect⟩ := direct_of_freshPackages hnamed hi.modules hneat hstd hz
  obtain rfl : z.path = path := hdirect.path_eq hd hm hi.modules hneat.dotFree hz z (by simp)
  exact ⟨(mem_freshPackages hz z (by simp)).1,
    owns_freshPackages hi.modules hm hd (Or.inr hneat.dotFree) hz z (by simp), hpath, hstd⟩

theorem Falls.acyclic (h : Falls disk m rank g) : Acyclic disk g := by
  intro n hcycle
  have hlower : ∀ {z : PackageNode}, Relation.TransGen (g.Uses disk) n z → g.Fresh disk n → m.Owns n.dir n.path →
      rank z.path < rank n.path := by
    intro z hlead hn howns
    induction hlead with
    | single hu =>
      obtain ⟨-, -, hpath, hstd⟩ := h.of_uses hd hm hnamed hi hu
      exact h.lower n hn howns _ hpath hstd
    | tail hlead hu ih =>
      obtain ⟨x, -, hx⟩ := Relation.TransGen.tail'_iff.mp hlead
      obtain ⟨hfresh, howns', -⟩ := h.of_uses hd hm hnamed hi hx
      obtain ⟨-, -, hpath, hstd⟩ := h.of_uses hd hm hnamed hi hu
      exact Nat.lt_trans (h.lower _ hfresh howns' _ hpath hstd) ih
  obtain ⟨x, -, hx⟩ := Relation.TransGen.tail'_iff.mp hcycle
  obtain ⟨hn, howns, -⟩ := h.of_uses hd hm hnamed hi hx
  exact Nat.lt_irrefl _ (hlower hcycle hn howns)

/-- The rank of a package bounds how deep its imports are nested. -/
theorem Falls.batchWithin (h : Falls disk m rank g) : ∀ (depth : Nat) (n : PackageNode),
    g.Fresh disk n → m.Owns n.dir n.path → rank n.path < depth → ∀ fuel, depth ≤ fuel →
      g.batchWithin disk fuel n = g.batchWithin disk depth n := by
  intro depth
  induction depth with
  | zero => exact fun n _ _ hrank => absurd hrank (Nat.not_lt_zero _)
  | succ depth ih =>
    intro n hn howns hrank fuel hfuel
    obtain ⟨fuel, rfl⟩ : ∃ k, fuel = k + 1 := ⟨fuel - 1, by omega⟩
    refine batchNode_congr (fun _ _ => rfl) fun path hpath => ?_
    by_cases hstd : g.layout.isStandard path = true
    · unfold batchImport
      rw [if_pos hstd, if_pos hstd]
    · have hstd := Bool.eq_false_iff.mpr hstd
      refine batchImport_congr rfl rfl fun z hz => ?_
      obtain ⟨hz', hzowns, hmem, hstd'⟩ := h.of_uses hd hm hnamed hi ⟨path, hpath, hstd, hz⟩
      have hlower := h.lower n hn howns z.path hmem hstd'
      exact ih z hz' hzowns (by omega) fuel (by omega)

/-- The rank of an import path bounds how deep it has to be looked into. -/
theorem Falls.batchImport (h : Falls disk m rank g) {path : String} (hneat : NeatPath path) {depth : Nat}
    (hrank : rank path < depth) {fuel : Nat} (hfuel : depth ≤ fuel) :
    g.batchImport disk (g.batchWithin disk fuel) path = g.batchImport disk (g.batchWithin disk depth) path := by
  by_cases hstd : g.layout.isStandard path = true
  · unfold Graph.batchImport
    rw [if_pos hstd, if_pos hstd]
  · have hstd := Bool.eq_false_iff.mpr hstd
    refine batchImport_congr rfl rfl fun z hz => ?_
    obtain ⟨dir, hdirect⟩ := direct_of_freshPackages hnamed hi.modules hneat hstd hz
    have hsame : z.path = path := hdirect.path_eq hd hm hi.modules hneat.dotFree hz z (by simp)
    exact h.batchWithin hd hm hnamed hi depth z (mem_freshPackages hz z (by simp)).1
      (owns_freshPackages hi.modules hm hd (Or.inr hneat.dotFree) hz z (by simp)) (hsame ▸ hrank) fuel hfuel

end

end Graph

end IdlWorkbench
