import IdlWorkbench.Graph.Basic
import IdlWorkbench.Proofs.Disk
import IdlWorkbench.Proofs.Table

/-!
# The files of a directory

`Graph.idlFiles` gives the IDL files of a directory in strict order: those on disk, and those that the
editor holds. Holding or releasing a file of another directory does not change them.
-/

namespace IdlWorkbench

open IdlWorkbench.Path

/-! ## Files on disk -/

namespace Disk

/-- No name on the disk is idle, leads upwards or has a slash in it. -/
def WellNamed (d : Disk) : Prop := ∀ e ∈ d.entries, ∀ s ∈ e.1, Proper s ∧ '/' ∉ s.toList

instance (d : Disk) : Decidable d.WellNamed := inferInstanceAs (Decidable (∀ e ∈ d.entries, ∀ s ∈ e.1, _))

theorem WellNamed.namesIn {d : Disk} (h : d.WellNamed) {names : List String} {s : String}
    (hs : s ∈ d.namesIn names) : Proper s ∧ '/' ∉ s.toList := by
  obtain ⟨⟨key, e⟩, he, hm⟩ := List.mem_filterMap.mp hs
  simp only at hm
  split at hm
  · rename_i name hlast
    split at hm
    · cases hm
      exact h _ he _ (List.mem_of_getLast? hlast)
    · cases hm
  · cases hm

theorem mem_filesWithExtension {d : Disk} {dir p : Path} {extension : String} {files : List Path}
    (h : d.filesWithExtension dir extension = .ok files) (hp : p ∈ files) :
    p.extension? = some extension ∧ d.isFile p = true ∧
      ∃ names, d.list dir = .ok names ∧ ∃ s ∈ names, p = dir.child s := by
  unfold filesWithExtension at h
  split at h
  · rename_i names hl
    cases h
    simp only [List.mem_filter, List.mem_map, Bool.and_eq_true, decide_eq_true_eq] at hp
    obtain ⟨⟨s, hs, rfl⟩, hext, hfile⟩ := hp
    exact ⟨hext, hfile, names, hl, s, hs, rfl⟩
  · cases h; cases hp
  · cases h

theorem mem_filesWithExtension_of_isFile {d : Disk} {dir p : Path} {extension : String} {files : List Path}
    (h : d.filesWithExtension dir extension = .ok files) (hn : p.Normal) (hp : p.parent? = some dir)
    (hx : p.extension? = some extension) (hfile : d.isFile p = true) : p ∈ files := by
  obtain ⟨names, hl, s, hs, heq⟩ := exists_child_of_isFile hn hp hfile
  unfold filesWithExtension at h
  rw [hl] at h
  cases h
  refine List.mem_filter.mpr ⟨List.mem_map.mpr ⟨s, hs, heq.symm⟩, ?_⟩
  simp [hx, hfile]

/-- Whether a directory can be listed does not depend on the extension. -/
theorem filesWithExtension_isOk {d : Disk} {dir : Path} {extension : String} {files : List Path}
    (h : d.filesWithExtension dir extension = .ok files) (extension' : String) :
    ∃ files', d.filesWithExtension dir extension' = .ok files' := by
  unfold filesWithExtension at h ⊢
  split at h
  · exact ⟨_, rfl⟩
  · exact ⟨_, rfl⟩
  · cases h

theorem filesWithExtension_of_isDirectory {d : Disk} {dir : Path} (h : d.isDirectory dir = true)
    (extension : String) : ∃ files, d.filesWithExtension dir extension = .ok files := by
  unfold isDirectory at h
  split at h
  · rename_i hlocate
    unfold filesWithExtension list
    rw [hlocate]
    exact ⟨_, rfl⟩
  · cases h

theorem WellNamed.list {d : Disk} (h : d.WellNamed) {dir : Path} {names : List String} (hl : d.list dir = .ok names)
    {s : String} (hs : s ∈ names) : Proper s ∧ '/' ∉ s.toList := by
  unfold Disk.list at hl
  split at hl
  · cases hl; exact h.namesIn hs
  · cases hl
  · cases hl

theorem WellNamed.files {d : Disk} (h : d.WellNamed) {dir p : Path} {extension : String} {files : List Path}
    (hn : dir.Normal) (hf : d.filesWithExtension dir extension = .ok files)
    (hp : p ∈ files) : p.Normal ∧ p.parent? = some dir := by
  obtain ⟨-, -, names, hl, s, hs, rfl⟩ := mem_filesWithExtension hf hp
  have := (h.list hl hs).1
  exact ⟨hn.child this, hn.parent?_child this⟩

end Disk

namespace Graph

/-! ## Sorting -/

theorem dropRepeats_before : ∀ {ps : List Path} {last : Path},
    (last :: ps).Pairwise (fun p q => p.le q = true) → (last :: dropRepeats last ps).Pairwise Before
  | [], _, _ => by simp [dropRepeats]
  | p :: ps, last, h => by
    have hlast := List.pairwise_cons.mp h
    have hp := List.pairwise_cons.mp hlast.2
    rw [dropRepeats]
    split
    · exact dropRepeats_before (List.pairwise_cons.mpr ⟨fun q hq => hlast.1 q (List.mem_cons_of_mem _ hq), hp.2⟩)
    · rename_i hne
      have ih := dropRepeats_before hlast.2
      have hb : Before last p := ⟨hlast.1 p (by simp), hne⟩
      refine List.pairwise_cons.mpr ⟨fun q hq => ?_, ih⟩
      rcases List.mem_cons.mp hq with rfl | hq
      · exact hb
      · exact hb.trans ((List.pairwise_cons.mp ih).1 q hq)

theorem dropRepeats_subset : ∀ (ps : List Path) (last : Path), dropRepeats last ps ⊆ ps
  | [], _ => by simp [dropRepeats]
  | p :: ps, last => by
    rw [dropRepeats]
    split
    · exact fun q hq => List.mem_cons_of_mem _ (dropRepeats_subset ps last hq)
    · exact List.cons_subset_cons _ (dropRepeats_subset ps p)

theorem mem_dropRepeats : ∀ (ps : List Path) (last : Path), ∀ p ∈ ps,
    (last == p) = true ∨ ∃ q ∈ dropRepeats last ps, (q == p) = true
  | [], _, _, h => nomatch h
  | q :: ps, last, p, h => by
    rw [dropRepeats]
    split
    · rename_i hq
      rcases List.mem_cons.mp h with rfl | h
      · exact Or.inl hq
      · exact mem_dropRepeats ps last p h
    · rcases List.mem_cons.mp h with rfl | h
      · exact Or.inr ⟨p, by simp, BEq.rfl⟩
      · rcases mem_dropRepeats ps q p h with h | ⟨r, hr, h⟩
        · exact Or.inr ⟨q, by simp, h⟩
        · exact Or.inr ⟨r, List.mem_cons_of_mem _ hr, h⟩

theorem sortedPaths_before (ps : List Path) : (sortedPaths ps).Pairwise Before := by
  have h := Path.pairwise_sort ps
  rw [sortedPaths]
  split
  · exact List.Pairwise.nil
  · rename_i p rest heq
    exact dropRepeats_before (heq ▸ h)

theorem mem_sortedPaths {ps : List Path} (hn : ∀ p ∈ ps, p.Normal) {p : Path} : p ∈ sortedPaths ps ↔ p ∈ ps := by
  have hsort : ∀ q, q ∈ Path.sort ps ↔ q ∈ ps := fun q => (Path.sort_perm ps).mem_iff
  rw [sortedPaths]
  split
  · rename_i heq
    rw [← hsort, heq]
  · rename_i first rest heq
    rw [← hsort, heq]
    refine ⟨fun h => List.cons_subset_cons _ (dropRepeats_subset rest first) h, fun h => ?_⟩
    have hnormal : ∀ q ∈ first :: rest, q.Normal := fun q hq => hn q ((hsort q).mp (heq ▸ hq))
    rcases List.mem_cons.mp h with rfl | hr
    · simp
    · rcases mem_dropRepeats rest first p hr with he | ⟨q, hq, he⟩
      · rw [(hnormal first (by simp)).eq_of_beq (hnormal p h) he]
        simp
      · have hqn := hnormal q (List.mem_cons_of_mem _ (dropRepeats_subset _ _ hq))
        rw [← hqn.eq_of_beq (hnormal p h) he]
        exact List.mem_cons_of_mem _ hq

/-! ## Files on disk and in the editor -/

def HeldIn (g : Graph) (dir p : Path) : Prop :=
  p ∈ g.held.keys ∧ p.parent? = some dir ∧ p.extension? = some idlExtension

/-- The IDL files of a directory, on disk and in the editor, each once and in order. -/
structure FilesOf (disk : Disk) (g : Graph) (dir : Path) (files : List Path) : Prop where
  sorted : files.Pairwise Before
  known : ∃ onDisk, disk.filesWithExtension dir idlExtension = .ok onDisk ∧
    ∀ p, p ∈ files ↔ p ∈ onDisk ∨ g.HeldIn dir p

section
variable {disk : Disk} {g : Graph} {dir : Path} {files : List Path}
variable (hd : disk.WellNamed) (hh : ∀ p ∈ g.held.keys, p.Normal) (hn : dir.Normal)
include hd hh hn

theorem filesOf_of_idlFiles (h : g.idlFiles disk dir = .ok files) : FilesOf disk g dir files := by
  unfold idlFiles at h
  cases hf : disk.filesWithExtension dir idlExtension with
  | error e => rw [hf] at h; cases h
  | ok onDisk =>
    rw [hf] at h
    cases h
    refine ⟨sortedPaths_before _, onDisk, hf, fun p => ?_⟩
    have hheld : ∀ q, q ∈ g.held.keys.filter (fun p => p.parent? == some dir && p.extension? = some idlExtension) ↔
        g.HeldIn dir q := by
      intro q
      rw [List.mem_filter, HeldIn, Bool.and_eq_true, decide_eq_true_eq]
      refine and_congr_right fun hq => and_congr_left fun _ => ?_
      exact (hh q hq).parent?_beq hn
    rw [mem_sortedPaths, List.mem_append, hheld]
    intro q hq
    rcases List.mem_append.mp hq with hq | hq
    · exact (hd.files hn hf hq).1
    · exact hh q (List.mem_filter.mp hq).1

theorem idlFiles_iff : g.idlFiles disk dir = .ok files ↔ FilesOf disk g dir files := by
  refine ⟨filesOf_of_idlFiles hd hh hn, fun h => ?_⟩
  obtain ⟨onDisk, hf, hm⟩ := h.known
  have hok : g.idlFiles disk dir = .ok (sortedPaths (onDisk ++ g.held.keys.filter fun p =>
      p.parent? == some dir && p.extension? = some idlExtension)) := by
    rw [idlFiles, hf]; rfl
  have h' := filesOf_of_idlFiles hd hh hn hok
  obtain ⟨onDisk', hf', hm'⟩ := h'.known
  rw [hf] at hf'
  cases hf'
  rw [hok, eq_of_before h'.sorted h.sorted fun p => (hm' p).trans (hm p).symm]

theorem FilesOf.parent? (h : FilesOf disk g dir files) {p : Path} (hp : p ∈ files) :
    p.Normal ∧ p.parent? = some dir := by
  obtain ⟨onDisk, hf, hm⟩ := h.known
  rcases (hm p).mp hp with hp | hp
  · exact hd.files hn hf hp
  · exact ⟨hh p hp.1, hp.2.1⟩

end

end Graph

end IdlWorkbench
