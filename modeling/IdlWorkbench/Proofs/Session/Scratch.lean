import IdlWorkbench.Proofs.Graph.Agree
import IdlWorkbench.Proofs.Session.Pass

/-!
# Diagnostics from scratch

What checking a package from scratch gives for its files, and the surface that it gives the package. A turn gives
what the node of its package says in the end, so it gives the same if this node is right. -/

namespace IdlWorkbench

open IdlWorkbench.Path

namespace FileDiagnostics

/-- What is given for a package in its turn: its diagnostics, with its lint warnings if they are wanted. -/
def ofTurn (lint : Bool) (n : PackageNode) : FileDiagnostics :=
  if lint then (Lint.ofNode n).foldl (fun t (file, ds) => FileDiagnostics.add t file ds) (.ofNode n) else .ofNode n

theorem ofTurn_congr (lint : Bool) {n n' : PackageNode} (hf : n.files = n'.files) (hp : n.parsed = n'.parsed)
    (he : n.errors = n'.errors) : ofTurn lint n = ofTurn lint n' := by
  have hlint : Lint.ofNode n = Lint.ofNode n' := by
    unfold Lint.ofNode
    rw [hp]
  unfold ofTurn
  rw [hlint, Graph.ofNode_congr hf he]

theorem listed_ofTurn (lint : Bool) {n : PackageNode} {file : Path} (hf : file ∈ n.files) :
    ∃ e ∈ ofTurn lint n, (e.1 == file) = true := by
  have hall : (ofTurn lint n).contains file = true := by
    unfold ofTurn
    split
    · exact contains_foldl_add _ (Or.inl (contains_ofNode hf))
    · exact contains_ofNode hf
  obtain ⟨ds, hfind⟩ := Option.isSome_iff_exists.mp hall
  obtain ⟨key, hkey, hbeq⟩ := Table.exists_key_of_find? hfind
  obtain ⟨e, he, rfl⟩ := List.mem_map.mp hkey
  exact ⟨e, he, BEq.symm hbeq⟩

end FileDiagnostics

namespace Graph

variable {disk : Disk} {lint : Bool} {w g : Graph}

/-! ## Diagnostics from scratch -/

/-- What is given for a package when it is checked from scratch, down to some depth. -/
def scratch (disk : Disk) (lint : Bool) (g : Graph) (fuel : Nat) (n : PackageNode) : FileDiagnostics :=
  .ofTurn lint { n with analysis := some (g.batchWithin disk fuel n) }

def Shows (disk : Disk) (lint : Bool) (ps : Published) (g : Graph) (file : Path) (n : PackageNode) : Prop :=
  ∃ depth, ∀ fuel, depth ≤ fuel → Published.last ps file = Published.last (g.scratch disk lint fuel n) file

theorem scratch_congr {n n' : PackageNode} (hb : n.bare = n'.bare) (fuel : Nat) :
    w.scratch disk lint fuel n = w.scratch disk lint fuel n' := by
  have hbatch : w.batchWithin disk fuel n = w.batchWithin disk fuel n' := by
    rw [← batchWithin_bare, hb, batchWithin_bare]
  unfold scratch
  rw [hbatch]
  exact FileDiagnostics.ofTurn_congr lint (PackageNode.of_bare_eq hb).2.1 rfl rfl

theorem Settles.scratch {n n' : PackageNode} {a : Analysis} (hs : w.Settles disk n a) (hf : n'.files = n.files)
    (ha : n'.analysis = some a) : ∃ depth, ∀ fuel, depth ≤ fuel →
      FileDiagnostics.ofTurn lint n' = w.scratch disk lint fuel n := by
  obtain ⟨depth, hs⟩ := hs
  refine ⟨depth, fun fuel hfuel => FileDiagnostics.ofTurn_congr lint hf ?_ ?_⟩
  · simp only [PackageNode.parsed, ha, Option.map_some, Option.getD_some]
    exact (hs fuel hfuel).1.symm
  · simp only [PackageNode.errors, ha, Option.map_some, Option.getD_some]
    exact (hs fuel hfuel).2.2.symm

/-! ## Surfaces from scratch -/

/-- From some depth on, checking a package from scratch gives it a surface, or none. -/
def Surfaced (disk : Disk) (w : Graph) (n : PackageNode) (surface : Option Surface) : Prop :=
  ∃ depth, ∀ fuel, depth ≤ fuel → (w.batchWithin disk fuel n).checked.map (·.surface) = surface

theorem Settles.surfaced {n : PackageNode} {a : Analysis} (h : w.Settles disk n a) :
    Surfaced disk w n (a.checked.map (·.surface)) := by
  obtain ⟨depth, h⟩ := h
  exact ⟨depth, fun fuel hfuel => by rw [(h fuel hfuel).2.1]⟩

theorem Surfaced.congr {n n' : PackageNode} {surface : Option Surface} (h : Surfaced disk w n surface)
    (hb : n.bare = n'.bare) : Surfaced disk w n' surface := by
  obtain ⟨depth, h⟩ := h
  refine ⟨depth, fun fuel hfuel => ?_⟩
  rw [← batchWithin_bare, ← hb, batchWithin_bare]
  exact h fuel hfuel

theorem Surfaced.unique {n : PackageNode} {surface surface' : Option Surface} (h : Surfaced disk w n surface)
    (h' : Surfaced disk w n surface') : surface = surface' := by
  obtain ⟨depth, h⟩ := h
  obtain ⟨depth', h'⟩ := h'
  exact (h (max depth depth') (by omega)).symm.trans (h' (max depth depth') (by omega))

/-! ## Turns -/

/-- A turn analyses its package. What it gives, and whether importers are to be analysed again, comes from the node
that this leaves. -/
theorem ends_turn {path : String} {n : PackageNode} (hn : g.packages.find? path = some n) (hs : n.state = .dirty)
    {Q : Published → Graph → Prop}
    (ha : Ends (analyse disk path) g fun _ g' => ∃ n', g'.packages.find? path = some n' ∧ n'.path = path ∧
      Q (FileDiagnostics.ofTurn lint { n' with state := .current })
        ((g'.markCurrent path).publish path n'.surface?)) :
    Ends (publishPackage disk lint path) g Q := by
  rw [Graph.ends_publishPackage, Graph.ends_diagnose, hn]
  dsimp only
  rw [if_neg (not_not.mpr hs)]
  refine ha.mono fun _ g' ⟨n', hn', hpath, hq⟩ => ?_
  have hcurrent : (g'.markCurrent path).packages.find? path = some { n' with state := .current } := by
    rw [markCurrent, find?_modifyPackage, if_pos rfl, hn']
    rfl
  have hlast := find?_publish hcurrent hpath n'.surface?
  rw [hcurrent]
  dsimp only
  rw [show PackageNode.surface? { n' with state := .current } = n'.surface? from rfl, hlast]
  cases lint <;> exact hq

/-- Publishing the surface of a package tells its importers if it has changed. -/
theorem find?_publish_eq (path key : String) (surface : Option Surface) :
    (g.publish path surface).packages.find? key =
      (g.packages.find? key).map (if g.surfaceChanged path surface then invalidateNode path else id) := by
  unfold Graph.publish
  dsimp only
  split
  · exact find?_invalidate ..
  · simp

theorem published_publish (path : String) (surface : Option Surface) :
    (g.publish path surface).published = g.published.insert path surface := by
  unfold Graph.publish
  dsimp only
  split <;> rfl

end Graph

end IdlWorkbench
