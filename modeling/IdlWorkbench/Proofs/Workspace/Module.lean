import IdlWorkbench.Workspace.Listing
import IdlWorkbench.Proofs.Graph.Files

/-!
# Packages of a single module

In a workspace with one module, a package is known by the names that lead from the root of the module to
its directory. Its import path puts them behind the path of the module, with slashes between them, so import
path and directory determine each other.
-/

namespace IdlWorkbench

open IdlWorkbench.Path

/-! ## Segments of a text -/

namespace Path

theorem splitOn_not_mem : ∀ (cs : List Char), ∀ part ∈ cs.splitOn '/', '/' ∉ part
  | [], part, h => by
    simp only [List.splitOn_nil, List.mem_singleton] at h
    simp [h]
  | c :: cs, part, h => by
    have ih := splitOn_not_mem cs
    rw [List.splitOn_cons_eq_if_modifyHead] at h
    split at h
    · rcases List.mem_cons.mp h with rfl | h
      · simp
      · exact ih part h
    · rename_i hc
      cases hs : cs.splitOn '/' with
      | nil => rw [hs] at h; cases h
      | cons first rest =>
        rw [hs] at h ih
        rcases List.mem_cons.mp h with rfl | h
        · intro hm
          rcases List.mem_cons.mp hm with heq | hm
          · exact hc (by simp [← heq])
          · exact ih first (by simp) hm
        · exact ih part (List.mem_cons_of_mem _ h)

theorem slash_not_mem_segments {text s : String} (h : s ∈ (ofString text).segments) : '/' ∉ s.toList := by
  obtain ⟨part, hp, rfl⟩ := List.mem_map.mp h
  rw [String.toList_ofList]
  exact splitOn_not_mem _ part hp

theorem segments_append (a b : String) :
    (ofString (a ++ "/" ++ b)).segments = (ofString a).segments ++ (ofString b).segments := by
  have h : (a ++ "/" ++ b).toList = a.toList ++ '/' :: b.toList := by simp
  simp only [ofString, h, List.splitOn_append_cons_self, List.map_append]

theorem mem_segments_of_mem_components {p : Path} {s : String} (h : .name s ∈ p.components) : s ∈ p.segments := by
  have hf (l : List String) (hl : .name s ∈ l.filterMap component?) : s ∈ l := by
    obtain ⟨t, ht, hc⟩ := List.mem_filterMap.mp hl
    exact (proper_of_component? hc).1 ▸ ht
  unfold components at h
  split at h
  · cases h
  · rename_i heq
    rcases List.mem_cons.mp h with h | h
    · cases h
    · rw [heq]; exact List.mem_cons_of_mem _ (hf _ h)
  · rename_i heq
    rcases List.mem_cons.mp h with h | h
    · cases h
    · rw [heq]; exact List.mem_cons_of_mem _ (hf _ h)
  · exact hf _ h

end Path

/-! ## Plain names -/

/-- Names that can stand between the slashes of an import path. -/
def PlainNames (names : List String) : Prop := ∀ s ∈ names, Proper s ∧ '/' ∉ s.toList

theorem PlainNames.proper {names : List String} (h : PlainNames names) : ∀ s ∈ names, Proper s :=
  fun s hs => (h s hs).1

theorem PlainNames.append {ns ms : List String} (hn : PlainNames ns) (hm : PlainNames ms) : PlainNames (ns ++ ms) :=
  fun s hs => (List.mem_append.mp hs).elim (hn s) (hm s)

/-- An absolute path in normal form, as it can be written. -/
def Path.Rooted (p : Path) : Prop := ∃ names, PlainNames names ∧ p = ofNames true names

namespace Path.Rooted

variable {p : Path}

theorem normal (h : Rooted p) : Normal p := by
  obtain ⟨names, hn, rfl⟩ := h
  exact normal_ofNames _ hn.proper

theorem absolute (h : Rooted p) : p.isAbsolute = true := by
  obtain ⟨names, hn, rfl⟩ := h
  exact isAbsolute_ofNames hn.proper true

theorem plain_resolved (h : Rooted p) : PlainNames p.resolved := by
  obtain ⟨names, hn, rfl⟩ := h
  rwa [resolved_ofNames _ hn.proper]

theorem eq_ofNames (h : Rooted p) : p = ofNames true p.resolved := h.absolute ▸ h.normal.eq_ofNames

end Path.Rooted

/-- An import path without a part that means something else than itself. -/
def DotFree (importPath : String) : Prop := ∀ s ∈ (Path.ofString importPath).segments, s ≠ "." ∧ s ≠ ".."

instance (importPath : String) : Decidable (DotFree importPath) :=
  inferInstanceAs (Decidable (∀ s ∈ (Path.ofString importPath).segments, _))

/-! ## Directories and import paths -/

namespace ModuleRoot

def dirAt (m : ModuleRoot) (names : List String) : Path := names.foldl Path.child m.dir

def pathAt (m : ModuleRoot) (names : List String) : String :=
  names.foldl (fun path name => path ++ "/" ++ name) m.path

/-- A directory of the module and its import path. -/
def Owns (m : ModuleRoot) (dir : Path) (path : String) : Prop :=
  ∃ names, PlainNames names ∧ dir = m.dirAt names ∧ path = m.pathAt names

section
variable {m : ModuleRoot}

theorem pathAt_toList (names : List String) :
    (m.pathAt names).toList = m.path.toList ++ names.flatMap fun s => '/' :: s.toList := by
  rw [pathAt]
  generalize m.path = p
  induction names generalizing p with
  | nil => simp
  | cons s names ih => rw [List.foldl_cons, ih]; simp

theorem slashed_injective : ∀ {ns ms : List String}, PlainNames ns → PlainNames ms →
    (ns.flatMap fun s => '/' :: s.toList) = (ms.flatMap fun s => '/' :: s.toList) → ns = ms
  | [], [], _, _, _ => rfl
  | [], _ :: _, _, _, h => by simp at h
  | _ :: _, [], _, _, h => by simp at h
  | s :: ns, t :: ms, hn, hm, h => by
    simp only [List.flatMap_cons, List.cons_append, List.cons.injEq, true_and] at h
    have hfirst : ∀ (u : String) (us : List String), '/' ∉ u.toList →
        (u.toList ++ us.flatMap fun s => '/' :: s.toList).takeWhile (· ≠ '/') = u.toList := by
      intro u us hu
      have hne : ∀ c ∈ u.toList, decide (c ≠ '/') = true := by
        intro c hc
        have : c ≠ '/' := fun e => hu (e ▸ hc)
        simpa using this
      rw [List.takeWhile_append_of_pos hne]
      cases us <;> simp
    have hst : s.toList = t.toList := by
      rw [← hfirst s ns (hn s (by simp)).2, ← hfirst t ms (hm t (by simp)).2, h]
    rw [hst] at h
    have htail := List.append_cancel_left h
    rw [String.toList_inj.mp hst, slashed_injective (fun u hu => hn u (List.mem_cons_of_mem _ hu))
      (fun u hu => hm u (List.mem_cons_of_mem _ hu)) htail]

theorem pathAt_injective {ns ms : List String} (hn : PlainNames ns) (hm : PlainNames ms)
    (h : m.pathAt ns = m.pathAt ms) : ns = ms := by
  have := congrArg String.toList h
  rw [pathAt_toList, pathAt_toList] at this
  exact slashed_injective hn hm (List.append_cancel_left this)

theorem dirAt_eq (hm : m.dir.Rooted) {names : List String} (h : PlainNames names) :
    m.dirAt names = ofNames true (m.dir.resolved ++ names) := by
  rw [dirAt]
  conv_lhs => rw [hm.eq_ofNames]
  exact foldl_child_ofNames (proper_resolved _) h.proper

namespace Owns

variable {dir dir' : Path} {path path' : String}

theorem rooted (hm : m.dir.Rooted) (h : m.Owns dir path) : dir.Rooted := by
  obtain ⟨names, hn, rfl, -⟩ := h
  exact ⟨_, hm.plain_resolved.append hn, dirAt_eq hm hn⟩

theorem dir_eq (h : m.Owns dir path) (h' : m.Owns dir' path) : dir = dir' := by
  obtain ⟨ns, hn, rfl, hp⟩ := h
  obtain ⟨ms, hm, rfl, hp'⟩ := h'
  rw [pathAt_injective hn hm (hp.symm.trans hp')]

theorem path_eq (hm : m.dir.Rooted) (h : m.Owns dir path) (h' : m.Owns dir path') : path = path' := by
  obtain ⟨ns, hn, hd, rfl⟩ := h
  obtain ⟨ms, hm', hd', rfl⟩ := h'
  rw [hd, dirAt_eq hm hn, dirAt_eq hm hm'] at hd'
  have := congrArg Path.resolved hd'
  rw [resolved_ofNames _ (hm.plain_resolved.append hn).proper,
    resolved_ofNames _ (hm.plain_resolved.append hm').proper] at this
  rw [List.append_cancel_left this]

end Owns

end

end ModuleRoot

end IdlWorkbench
