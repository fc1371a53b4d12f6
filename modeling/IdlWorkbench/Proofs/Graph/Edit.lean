import IdlWorkbench.Graph.Edit
import IdlWorkbench.Proofs.Graph.Analysis

/-!
# Edits keep the invariant

A text that is held or released concerns the package of its directory alone: the files of other directories
and their texts stay as they were. That package gets its files anew and loses what was known about it.
-/

namespace IdlWorkbench.Graph

open IdlWorkbench.Path

variable {disk : Disk} {m : ModuleRoot} {g g' : Graph}

/-! ## Held texts -/

structure ChangedAt (file : Path) (g g' : Graph) : Prop where
  text : ∀ p, ¬(p == file) = true → g'.held.find? p = g.held.find? p
  keys : ∀ p, p ≠ file → (p ∈ g'.held.keys ↔ p ∈ g.held.keys)

theorem changedAt_hold (g : Graph) (file : Path) (text : String) : ChangedAt file g (g.hold file text) := by
  constructor
  · intro p hp
    simp only [hold, Table.find?_insert]
    rw [if_neg hp]
  · intro p hp
    simp only [hold, Table.keys_insert]
    split
    · exact Iff.rfl
    · simp [hp]

theorem changedAt_release (hh : ∀ p ∈ g.held.keys, p.Normal) {file : Path} (hf : file.Normal) :
    ChangedAt file g (g.release file) := by
  constructor
  · intro p hp
    simp only [release, Table.find?_erase]
    rw [if_neg hp]
  · intro p hp
    simp only [release, Table.keys_erase, List.mem_filter, Bool.not_eq_true', and_iff_left_iff_imp]
    intro hk
    rw [Bool.eq_false_iff]
    exact fun he => hp ((hh p hk).eq_of_beq hf he)

theorem normal_hold (hh : ∀ p ∈ g.held.keys, p.Normal) {file : Path} (hf : file.Normal) (text : String) :
    ∀ p ∈ (g.hold file text).held.keys, p.Normal := by
  intro p hp
  by_cases he : p = file
  · exact he ▸ hf
  · exact hh p (((changedAt_hold g file text).keys p he).mp hp)

theorem normal_release (hh : ∀ p ∈ g.held.keys, p.Normal) (file : Path) :
    ∀ p ∈ (g.release file).held.keys, p.Normal := by
  intro p hp
  simp only [release, Table.keys_erase, List.mem_filter] at hp
  exact hh p hp.1

theorem mem_keys_hold (hh : ∀ p ∈ g.held.keys, p.Normal) {file : Path} (hf : file.Normal) (text : String) :
    file ∈ (g.hold file text).held.keys := by
  simp only [hold, Table.keys_insert]
  split
  · rename_i h
    obtain ⟨p, hp, he⟩ := List.any_eq_true.mp h
    exact (hh p hp).eq_of_beq hf he ▸ hp
  · simp

/-- The files of a directory depend on which of its files are held. -/
theorem idlFiles_of_heldIn (hd : disk.WellNamed) (hh : ∀ p ∈ g.held.keys, p.Normal)
    (hh' : ∀ p ∈ g'.held.keys, p.Normal)
    {d : Path} (hn : d.Normal) (h : ∀ p, g'.HeldIn d p ↔ g.HeldIn d p) : g'.idlFiles disk d = g.idlFiles disk d := by
  cases hdisk : disk.filesWithExtension d idlExtension with
  | error e =>
    unfold Graph.idlFiles
    rw [hdisk]
    rfl
  | ok onDisk =>
    obtain ⟨files, hfiles⟩ : ∃ files, g.idlFiles disk d = .ok files := by
      unfold Graph.idlFiles
      rw [hdisk]
      exact ⟨_, rfl⟩
    obtain ⟨hsorted, onDisk', hdisk', hmem⟩ := filesOf_of_idlFiles hd hh hn hfiles
    rw [hfiles, idlFiles_iff hd hh' hn]
    refine ⟨hsorted, onDisk', hdisk', fun p => ?_⟩
    rw [hmem, h]

section
variable {file dir : Path} (hc : ChangedAt file g g') (hp : file.parent? = some dir)
include hc hp

theorem ChangedAt.heldIn {d : Path} (hne : d ≠ dir) (p : Path) : g'.HeldIn d p ↔ g.HeldIn d p := by
  unfold HeldIn
  by_cases he : p = file
  · subst he
    constructor
    · rintro ⟨-, h, -⟩
      exact absurd (Option.some_inj.mp (h.symm.trans hp)) hne
    · rintro ⟨-, h, -⟩
      exact absurd (Option.some_inj.mp (h.symm.trans hp)) hne
  · rw [hc.keys p he]

variable (hd : disk.WellNamed) (hm : m.dir.Rooted) (hf : file.Normal) (hh : ∀ p ∈ g.held.keys, p.Normal)
  (hh' : ∀ p ∈ g'.held.keys, p.Normal)
include hd hm hf hh hh'

omit hm hf in
/-- The files of other directories stay as they were. -/
theorem ChangedAt.idlFiles {d : Path} (hn : d.Normal) (hne : d ≠ dir) : g'.idlFiles disk d = g.idlFiles disk d :=
  idlFiles_of_heldIn hd hh hh' hn fun p => hc.heldIn hp hne p

/-- A package in another directory does not notice. -/
theorem NodeInv.elsewhere {key : String} {n : PackageNode} (hn : NodeInv disk m g key n) (hne : n.dir ≠ dir) :
    NodeInv disk m g' key n := by
  have hr := hn.owned.rooted hm
  have hfiles := filesOf_of_idlFiles hd hh hr.normal hn.files
  refine { hn with files := (hc.idlFiles hp hd hh hh' hr.normal hne).trans hn.files, parsed := ?_ }
  intro a ha
  rw [hn.parsed a ha]
  refine List.map_congr_left fun p hpf => ?_
  obtain ⟨hpn, hparent⟩ := hfiles.parent? hd hh hr.normal hpf
  have hne' : ¬(p == file) = true := by
    intro he
    rw [hpn.eq_of_beq hf he, hp] at hparent
    exact hne (Option.some_inj.mp hparent).symm
  unfold ParsedFile.ofPath Graph.read
  rw [hc.text p hne']

end

/-! ## Files of the edited package -/

theorem idlFiles_isOk {dir : Path} {files : List Path} (h : g.idlFiles disk dir = .ok files) (g' : Graph) :
    ∃ files', g'.idlFiles disk dir = .ok files' := by
  unfold idlFiles at h ⊢
  obtain ⟨onDisk, hdisk, -⟩ := bind_eq_ok.mp h
  rw [hdisk]
  exact ⟨_, rfl⟩

/-- Adding a file to those of a package gives the files of its directory. -/
theorem files_addToNode (hd : disk.WellNamed) (hh : ∀ p ∈ g.held.keys, p.Normal) {file dir : Path} (hf : file.Normal)
    (hp : file.parent? = some dir) (hx : file.extension? = some idlExtension) (hr : dir.Rooted) {n : PackageNode}
    (hn : g.idlFiles disk dir = .ok n.files) (text : String) :
    (g.hold file text).idlFiles disk dir = .ok (addToNode file n).files := by
  have hh' := normal_hold hh hf text
  have hfiles := filesOf_of_idlFiles hd hh hr.normal hn
  have hnormal : ∀ p ∈ n.files, p.Normal := fun p h => (hfiles.parent? hd hh hr.normal h).1
  rw [idlFiles_iff hd hh' hr.normal]
  obtain ⟨onDisk, hdisk, hmem⟩ := hfiles.known
  have hheld : ∀ p, (g.hold file text).HeldIn dir p ↔ g.HeldIn dir p ∨ p = file := by
    intro p
    unfold HeldIn
    by_cases he : p = file
    · subst he
      simp [mem_keys_hold hh hf text, hp, hx]
    · rw [(changedAt_hold g file text).keys p he]
      simp [he]
  have hmem' : ∀ p, p ∈ onDisk ∨ (g.hold file text).HeldIn dir p ↔ p ∈ n.files ∨ p = file := by
    intro p
    rw [hheld, hmem, or_assoc]
  unfold addToNode
  simp only [PackageNode.markDirty, PackageNode.reset]
  split
  · rename_i hin
    obtain ⟨q, hq, he⟩ := List.contains_iff_exists_mem_beq.mp hin
    have : file ∈ n.files := hf.eq_of_beq (hnormal q hq) he ▸ hq
    refine ⟨hfiles.sorted, onDisk, hdisk, fun p => ?_⟩
    rw [hmem']
    exact ⟨Or.inl, fun h => h.elim id fun e => e ▸ this⟩
  · rename_i hin
    have hperm := Path.sort_perm (n.files ++ [file])
    refine ⟨?_, onDisk, hdisk, fun p => ?_⟩
    · have hdistinct : (n.files ++ [file]).Pairwise fun p q => ¬(p == q) = true := by
        refine List.pairwise_append.mpr ⟨hfiles.sorted.imp fun h => h.2, by simp, ?_⟩
        intro p hpf q hq he
        rw [List.mem_singleton.mp hq] at he
        exact hin (List.contains_iff_exists_mem_beq.mpr ⟨p, hpf, BEq.symm he⟩)
      have hdistinct' := (hperm.pairwise_iff fun h he => h (BEq.symm he)).mpr hdistinct
      exact (Path.pairwise_sort _).imp₂ (fun _ _ h h' => ⟨h, h'⟩) hdistinct'
    · rw [hmem', hperm.mem_iff]
      simp

/-! ## Between calls -/

structure Resting (disk : Disk) (m : ModuleRoot) (g : Graph) : Prop where
  inv : Inv disk m g
  building : g.building = []
  states : ∀ key n, g.packages.find? key = some n → n.state ≠ .building

theorem Resting.extends (h : Resting disk m g) (hi : Inv disk m g') (he : Extends g g') : Resting disk m g' := by
  refine ⟨hi, he.building.trans h.building, ?_⟩
  intro key n hn hb
  rcases he.added key n hn with hk | hs
  · obtain ⟨old, hold⟩ := contains_iff.mp hk
    obtain ⟨n', hn', hs⟩ := he.kept key old hold
    rw [hn] at hn'
    cases hn'
    exact h.states key old hold (hs.symm.trans hb)
  · rw [hb] at hs
    cases hs

theorem Inv.find?_of_packageIn? (hi : Inv disk m g) {dir : Path} {n : PackageNode} (h : g.packageIn? dir = some n) :
    g.packages.find? n.path = some n ∧ (n.dir == dir) = true := by
  unfold packageIn? at h
  have hdir := List.find?_some h
  obtain ⟨⟨key, n'⟩, he, rfl⟩ := List.mem_map.mp (List.mem_of_find?_eq_some h)
  have hfind := Table.find?_of_mem hi.keys he
  rw [(hi.nodes key n' hfind).path]
  exact ⟨hfind, hdir⟩

/-- What is found for the directory of a file is the package there. -/
theorem Inv.found_packageIn? (hi : Inv disk m g) (hm : m.dir.Rooted) {file dir : Path} (hf : file.Normal)
    (hp : file.parent? = some dir) {n : PackageNode} (hin : g.packageIn? dir = some n) :
    g.packages.find? n.path = some n ∧ n.dir = dir ∧ m.Owns dir n.path := by
  obtain ⟨hfind, hbeq⟩ := hi.find?_of_packageIn? hin
  have heq : n.dir = dir := (hi.rooted_dir hm hfind).normal.eq_of_beq (hf.of_parent? hp) hbeq
  exact ⟨hfind, heq, heq ▸ (hi.nodes _ n hfind).owned⟩

theorem ne_of_packageIn?_none {dir : Path} (h : g.packageIn? dir = none) {key : String} {n : PackageNode}
    (hn : g.packages.find? key = some n) : n.dir ≠ dir := by
  rintro rfl
  have := List.find?_eq_none.mp h n (List.mem_map.mpr ⟨(key, n), Table.mem_of_find? hn, rfl⟩)
  exact this BEq.rfl

/-- The package in a directory is the only one there. -/
theorem Inv.only_in_dir (hm : m.dir.Rooted) (hi : Inv disk m g) {key key' : String} {n n' : PackageNode}
    (hn : g.packages.find? key = some n) (hn' : g.packages.find? key' = some n') (h : n'.dir = n.dir) : key' = key :=
  ((hi.nodes key n hn).owned.path_eq hm (h ▸ (hi.nodes key' n' hn').owned)).symm

theorem imports_changedAt (hi : Inv disk m g) {file : Path} (hc : ChangedAt file g g')
    (hf : ∀ p text, (p == file) = true → g'.read disk p = .ok text → p.extension? = some idlExtension →
      PlainImports text) :
    ∀ p text, p.extension? = some idlExtension → g'.read disk p = .ok text → PlainImports text := by
  intro p text hx hr
  by_cases he : (p == file) = true
  · exact hf p text he hr hx
  · unfold Graph.read at hr
    rw [hc.text p he] at hr
    exact hi.imports p text hx hr

section
variable {file dir : Path} (hd : disk.WellNamed) (hm : m.dir.Rooted) (hf : file.Normal)
  (hp : file.parent? = some dir)

include hd hm hf hp

/-- A text of a directory without a package is held or released. -/
theorem Resting.changeOutside (h : Resting disk m g) (held : Table Path String)
    (hc : ChangedAt file g { g with held })
    (hh : ∀ p ∈ held.keys, p.Normal)
    (himports : ∀ p text, p.extension? = some idlExtension → ({ g with held } : Graph).read disk p = .ok text →
      PlainImports text)
    (hnone : ∀ key n, g.packages.find? key = some n → n.dir ≠ dir) : Resting disk m { g with held } := by
  refine ⟨{ h.inv with held := hh, imports := himports, nodes := ?_, refs := { h.inv.refs with } },
    h.building, h.states⟩
  intro key n hn
  exact (h.inv.nodes key n hn).elsewhere hc hp hd hm hf h.inv.held hh (hnone key n hn)

/-- A text of a package is held or released, and the package gets its files anew. -/
theorem Resting.changeInside (h : Resting disk m g) (held : Table Path String)
    (hc : ChangedAt file g { g with held })
    (hh : ∀ p ∈ held.keys, p.Normal)
    (himports : ∀ p text, p.extension? = some idlExtension → ({ g with held } : Graph).read disk p = .ok text →
      PlainImports text)
    {n : PackageNode} (hn : g.packages.find? n.path = some n) (hdir : n.dir = dir) {files : List Path}
    (hfiles : ({ g with held } : Graph).idlFiles disk dir = .ok files) {f : PackageNode → PackageNode}
    (hfn : f n = { n with files }.markDirty) :
    Resting disk m (({ g with held } : Graph).modifyPackage n.path f) := by
  have hnode := h.inv.nodes _ n hn
  have hrefs : Refs { g with held } := { h.inv.refs with }
  refine ⟨⟨h.inv.modules, (keys_modifyPackage _ _).symm ▸ h.inv.keys, hh, himports, ?_, hrefs.modifyPackage _ _, ?_⟩,
    h.building, ?_⟩
  · intro key n' hn'
    rw [find?_modifyPackage] at hn'
    split at hn'
    · rename_i heq
      subst heq
      rw [show ({ g with held } : Graph).packages = g.packages from rfl, hn] at hn'
      cases hn'
      rw [hfn]
      refine ⟨hnode.path, hnode.owned, ?_, by simp [PackageNode.markDirty, PackageNode.reset],
        by simp [PackageNode.markDirty, PackageNode.reset], by simp [PackageNode.markDirty]⟩
      rw [idlFiles_congr rfl]
      exact hdir ▸ hfiles
    · rename_i hne
      have hother : n'.dir ≠ dir := fun e => hne (h.inv.only_in_dir hm hn hn' (e.trans hdir.symm))
      exact ((h.inv.nodes key n' hn').elsewhere hc hp hd hm hf h.inv.held hh hother).congr rfl
  · intro p hp
    rw [show (({ g with held } : Graph).modifyPackage _ _).building = g.building from rfl, h.building] at hp
    cases hp
  · intro key n' hn'
    rw [find?_modifyPackage] at hn'
    split at hn'
    · rename_i heq
      subst heq
      rw [show ({ g with held } : Graph).packages = g.packages from rfl, hn] at hn'
      cases hn'
      simp [hfn, PackageNode.markDirty]
    · exact h.states key n' hn'

end

/-! ## Taking note of edits -/

theorem Resting.track (h : Resting disk m g) {paths : List String}
    (hp : ∀ p ∈ paths, g.packages.contains p = true) : Resting disk m (g.track paths) := by
  have htracked : ∀ p ∈ (g.track paths).tracked, g.packages.contains p = true := by
    intro p hin
    have := (mem_foldl_once (fun p : String => p) paths g.tracked (b := p)).mp hin
    rw [List.map_id'] at this
    exact this.elim (h.inv.refs.tracked p) (hp p)
  refine ⟨{ h.inv with nodes := ?_, refs := { h.inv.refs with tracked := htracked } }, h.building, h.states⟩
  exact fun key n hn => (h.inv.nodes key n hn).congr rfl

theorem Resting.withMemo (h : Resting disk m g) (memo : Table String (List String))
    (hm : ∀ pattern paths, memo.find? pattern = some paths → ∀ p ∈ paths, g.packages.contains p = true) :
    Resting disk m { g with memo } :=
  ⟨h.inv.withMemo memo hm, h.building, h.states⟩

theorem Refs.memo_erase (h : Refs g) (pattern : String) : ∀ pattern' paths,
    (g.memo.erase pattern).find? pattern' = some paths → ∀ p ∈ paths, g.packages.contains p = true := by
  intro pattern' paths hfind
  exact h.memo pattern' paths (Table.find?_of_erase hfind).2

theorem Resting.evictMemo (h : Resting disk m g) (path : String) : Resting disk m (g.evictMemo path) := by
  unfold Graph.evictMemo
  have h' := h.withMemo (g.memo.erase path) (h.inv.refs.memo_erase path)
  simp only
  split
  · exact h'.withMemo _ (h'.inv.refs.memo_erase _)
  · exact h'

theorem evictMemo_release (path : String) (file : Path) :
    (g.release file).evictMemo path = (g.evictMemo path).release file := by
  unfold Graph.evictMemo release
  simp only
  cases g.packages.find? path <;> rfl

theorem packages_evictMemo (path : String) : (g.evictMemo path).packages = g.packages := by
  unfold Graph.evictMemo
  simp only
  split <;> rfl

theorem held_evictMemo (path : String) : (g.evictMemo path).held = g.held := by
  unfold Graph.evictMemo
  simp only
  split <;> rfl

theorem find?_invalidate (path key : String) :
    (g.invalidate path).packages.find? key = (g.packages.find? key).map (invalidateNode path) :=
  Table.find?_mapValues _ _ _

theorem invalidateNode_cases (path : String) (n : PackageNode) :
    invalidateNode path n = n ∨ (invalidateNode path n).analysis = none ∧
    (invalidateNode path n).inCycle = false := by
  unfold invalidateNode
  split
  · exact Or.inl rfl
  · exact Or.inr ⟨rfl, rfl⟩

theorem asked_invalidateNode {n : PackageNode} (h : n.state ≠ .untracked) (path : String) :
    (invalidateNode path n).state ≠ .untracked := by
  unfold invalidateNode
  split
  · exact h
  · dsimp only
    split
    · simp
    · exact h

theorem untracked_invalidateNode {n : PackageNode} (h : n.state = .untracked) (path : String) :
    (invalidateNode path n).state = .untracked := by
  unfold invalidateNode
  split
  · exact h
  · simp [h]

theorem analysis_invalidateNode {path : String} {n : PackageNode} (hne : n.path ≠ path) (hin : path ∈ n.imports)
    (hs : n.state ≠ .building) :
    (invalidateNode path n).analysis = none ∧ (invalidateNode path n).state ≠ .current := by
  unfold invalidateNode
  rw [if_neg (by simp [hne, hin, hs])]
  refine ⟨rfl, ?_⟩
  by_cases hc : n.state = .current
  · simp [hc]
  · simp [hc]

theorem contains_invalidate (path key : String) :
    (g.invalidate path).packages.contains key = g.packages.contains key := by
  rw [Table.contains_eq, Table.contains_eq, find?_invalidate, Option.isSome_map]

theorem NodeInv.invalidateNode {key : String} {n : PackageNode} (h : NodeInv disk m g key n) (path : String) :
    NodeInv disk m g key (invalidateNode path n) := by
  unfold Graph.invalidateNode
  split
  · exact h
  · refine ⟨h.path, h.owned, h.files, by simp [PackageNode.reset], by simp [PackageNode.reset], ?_⟩
    simp only
    split <;> simp_all

theorem Resting.invalidate (h : Resting disk m g) (path : String) : Resting disk m (g.invalidate path) := by
  have hkeys : (g.invalidate path).packages.keys = g.packages.keys := Table.keys_mapValues _ _
  refine ⟨⟨h.inv.modules, hkeys.symm ▸ h.inv.keys, h.inv.held, h.inv.imports, ?_, ?_, ?_⟩, h.building, ?_⟩
  · intro key n hn
    rw [find?_invalidate] at hn
    obtain ⟨old, hold, rfl⟩ := Option.map_eq_some_iff.mp hn
    exact ((h.inv.nodes key old hold).invalidateNode path).congr rfl
  · refine h.inv.refs.mono rfl rfl rfl fun p hp => ?_
    rw [contains_invalidate]
    exact hp
  · intro p hp
    rw [show (g.invalidate path).building = g.building from rfl, h.building] at hp
    cases hp
  · intro key n hn
    rw [find?_invalidate] at hn
    obtain ⟨old, hold, rfl⟩ := Option.map_eq_some_iff.mp hn
    have hs := h.states key old hold
    unfold invalidateNode
    split
    · exact hs
    · simp only
      split
      · simp
      · exact hs

theorem Resting.noteEdit (h : Resting disk m g) {path : String} (hp : g.packages.contains path = true) :
    Resting disk m (g.noteEdit path) := by
  have htrack : Resting disk m (g.track [path]) := h.track (by simpa using hp)
  exact (htrack.evictMemo path).invalidate path

theorem Resting.evict (h : Resting disk m g) (path : String) : Resting disk m (g.evict path) := by
  have hfind : ∀ key, (g.evict path).packages.find? key = if key = path then none else g.packages.find? key := by
    intro key
    simp only [Graph.evict, Table.find?_erase, beq_iff_eq]
  have hcontains : ∀ p, p ≠ path → g.packages.contains p = true → (g.evict path).packages.contains p = true := by
    intro p hne hp
    rw [Table.contains_eq, hfind, if_neg hne]
    exact hp
  refine ⟨⟨h.inv.modules, Table.nodup_keys_erase h.inv.keys path, h.inv.held, h.inv.imports, ?_, ⟨?_, ?_, ?_⟩, ?_⟩,
    h.building, ?_⟩
  · intro key n hn
    rw [hfind] at hn
    split at hn
    · cases hn
    · exact (h.inv.nodes key n hn).congr rfl
  · intro p hp
    obtain ⟨hp, hne⟩ := List.mem_filter.mp hp
    exact hcontains p (of_decide_eq_true hne) (h.inv.refs.tracked p hp)
  · intro pattern paths hmemo p hp
    simp only [Graph.evict, Table.find?_mapValues] at hmemo
    obtain ⟨old, hold, rfl⟩ := Option.map_eq_some_iff.mp hmemo
    obtain ⟨hp, hne⟩ := List.mem_filter.mp hp
    exact hcontains p (of_decide_eq_true hne) (h.inv.refs.memo pattern old hold p hp)
  · intro p hp
    simp only [Graph.evict, Table.keys_erase, List.mem_filter] at hp
    exact hcontains p (by simpa using hp.2) (h.inv.refs.published p hp.1)
  · intro p hp
    rw [show (g.evict path).building = g.building from rfl, h.building] at hp
    cases hp
  · intro key n hn
    rw [hfind] at hn
    split at hn
    · cases hn
    · exact h.states key n hn

theorem Resting.markDirty (h : Resting disk m g) (path : String) :
    Resting disk m (g.modifyPackage path PackageNode.markDirty) := by
  refine ⟨h.inv.modifyNode ?_ ?_, h.building, ?_⟩
  · intro n hn
    have hnode := h.inv.nodes path n hn
    exact ⟨hnode.path, hnode.owned, hnode.files, by simp [PackageNode.markDirty, PackageNode.reset],
      by simp [PackageNode.markDirty, PackageNode.reset], by simp [PackageNode.markDirty]⟩
  · intro hb
    rw [h.building] at hb
    cases hb
  · intro key n hn
    rw [find?_modifyPackage] at hn
    split at hn
    · obtain ⟨old, -, rfl⟩ := Option.map_eq_some_iff.mp hn
      simp [PackageNode.markDirty]
    · exact h.states key n hn

/-! ## Editing -/

theorem directoryOf?_eq {file dir : Path} (h : directoryOf? file = some dir) :
    file.parent? = some dir ∧ dir.components ≠ [] := by
  obtain ⟨hp, hc⟩ := Option.filter_eq_some_iff.mp h
  exact ⟨hp, of_decide_eq_true hc⟩

section
variable {text : String}

theorem imports_hold (hi : Inv disk m g) {file : Path} (ht : PlainImports text) :
    ∀ p t, p.extension? = some idlExtension → (g.hold file text).read disk p = .ok t → PlainImports t := by
  refine imports_changedAt hi (changedAt_hold g file text) ?_
  intro p t he hr _
  simp only [Graph.read, hold, Table.find?_insert, he, if_true] at hr
  cases hr
  exact ht

theorem imports_release (hdisk : disk.PlainImports) (hi : Inv disk m g) {file : Path} (hf : file.Normal) :
    ∀ p t, p.extension? = some idlExtension → (g.release file).read disk p = .ok t → PlainImports t := by
  refine imports_changedAt hi (changedAt_release hi.held hf) ?_
  intro p t he hr hx
  simp only [Graph.read, release, Table.find?_erase, he, if_true] at hr
  exact hdisk p t hx hr

theorem plainPattern_directoryOf? {file dir : Path} (hw : PlainNames file.resolved)
    (h : directoryOf? file.normalize = some dir) : PlainPattern dir.text := by
  obtain ⟨hp, -⟩ := directoryOf?_eq h
  rw [normalize_eq, parent?_ofNames hw.proper] at hp
  split at hp
  · cases hp
  · cases hp
    exact plainPattern_text fun s hs => hw s (List.dropLast_subset _ hs)

variable (hd : disk.WellNamed) (hm : m.dir.Rooted)
include hd hm

theorem Resting.ends_loadNew (h : Resting disk m g) {dir : Path} (hp : PlainPattern dir.text) :
    Ends (loadNew disk dir text).run g fun r g' =>
      Resting disk m g' ∧ ∀ p, r = .ok p → g'.packages.contains p = true := by
  unfold loadNew
  simp only [ends_then, ends_get_run, ends_lift]
  cases g.overlay.addForNewPackage disk dir ((Token.packageClauseName text).getD dir.fileName) with
  | error e => exact ⟨h, fun _ h => nomatch h⟩
  | ok r =>
    simp only [Except.mapError, ends_set_run, ends_adapt]
    have h' : Resting disk m { g with overlay := r.2, memo := g.memo.erase dir.text } :=
      ⟨(h.inv.withOverlay r.2).withMemo _ (h.inv.refs.memo_erase dir.text), h.building, h.states⟩
    refine (h'.inv.ends_loadOne hd hm hp.straight).mono fun r g' ⟨hi, he, hr⟩ => ?_
    have hrest := h'.extends hi he
    cases r with
    | error e => exact ⟨hrest, fun _ h => nomatch h⟩
    | ok path =>
      refine ⟨hrest.markDirty path, ?_⟩
      rintro _ ⟨⟩
      exact (contains_modifyPackage path PackageNode.markDirty path).trans (hr path rfl)

theorem Resting.ends_addFile (h : Resting disk m g) {file : Path} (hw : PlainNames file.resolved)
    (hx : file.normalize.extension? = some idlExtension) (ht : PlainImports text) :
    Ends (addFile disk file text).run g fun _ g' => Resting disk m g' := by
  unfold addFile
  have hn := normal_normalize file
  simp only
  cases hdir : directoryOf? file.normalize with
  | none => exact h
  | some dir =>
    obtain ⟨hp, -⟩ := directoryOf?_eq hdir
    simp only [ends_then, ends_modify_run, ends_get_run]
    have hheld := normal_hold h.inv.held hn text
    have himports := @imports_hold disk m g text h.inv file.normalize ht
    cases hin : (g.hold file.normalize text).packageIn? dir with
    | some n =>
      obtain ⟨hfind, heq, howns⟩ := h.inv.found_packageIn? hm hn hp hin
      have hfiles := files_addToNode hd h.inv.held hn hp hx (howns.rooted hm) (heq ▸ (h.inv.nodes _ n hfind).files)
        text
      have hrest := h.changeInside hd hm hn hp _ (changedAt_hold g _ text) hheld himports hfind heq hfiles
        (f := addToNode file.normalize) rfl
      refine hrest.noteEdit ?_
      rw [contains_modifyPackage]
      exact contains_iff.mpr ⟨n, hfind⟩
    | none =>
      have hrest := h.changeOutside hd hm hn hp _ (changedAt_hold g _ text) hheld himports fun key n hkey =>
        ne_of_packageIn?_none hin hkey
      simp only [ends_then]
      refine (hrest.ends_loadNew hd hm (plainPattern_directoryOf? hw hdir)).mono fun r g' ⟨h', hr⟩ => ?_
      cases r with
      | error e => exact h'
      | ok path => exact h'.noteEdit (hr path rfl)

theorem Resting.ends_updateFile (h : Resting disk m g) {file : Path} (hw : PlainNames file.resolved)
    (hx : file.normalize.extension? = some idlExtension) (ht : PlainImports text) :
    Ends (updateFile disk file text).run g fun _ g' => Resting disk m g' := by
  unfold updateFile
  have hn := normal_normalize file
  simp only
  cases hdir : directoryOf? file.normalize with
  | none => exact h
  | some dir =>
    obtain ⟨hp, -⟩ := directoryOf?_eq hdir
    simp only [ends_then, ends_get_run]
    cases hin : g.packageIn? dir with
    | none =>
      refine h.ends_addFile hd hm ?_ ?_ ht
      · rw [normalize_eq, resolved_ofNames _ hw.proper]
        exact hw
      · rw [normalize_normalize]
        exact hx
    | some n =>
      obtain ⟨hfind, heq, -⟩ := h.inv.found_packageIn? hm hn hp hin
      simp only [ends_then, ends_modify_run, ends_get_run, ends_lift]
      have hdirOk : g.idlFiles disk dir = .ok n.files := heq ▸ (h.inv.nodes _ n hfind).files
      obtain ⟨files, hfiles⟩ := idlFiles_isOk hdirOk (g.hold file.normalize text)
      rw [hfiles]
      have hrest := h.changeInside hd hm hn hp _ (changedAt_hold g _ text) (normal_hold h.inv.held hn text)
        (imports_hold h.inv ht) hfind heq hfiles (f := fun n => { n with files }.markDirty) rfl
      refine hrest.noteEdit ?_
      rw [contains_modifyPackage]
      exact contains_iff.mpr ⟨n, hfind⟩

theorem Resting.ends_closeFile (hplain : disk.PlainImports) (h : Resting disk m g) (file : Path) :
    Ends (closeFile disk file).run g fun _ g' => Resting disk m g' := by
  unfold closeFile
  have hn := normal_normalize file
  simp only [ends_then, ends_get_run]
  cases hin : (directoryOf? file.normalize).bind g.packageIn? with
  | none => exact h
  | some n =>
    obtain ⟨dir, hdir, hin⟩ := Option.bind_eq_some_iff.mp hin
    obtain ⟨hp, -⟩ := directoryOf?_eq hdir
    obtain ⟨hfind, heq, -⟩ := h.inv.found_packageIn? hm hn hp hin
    simp only [ends_then, ends_modify_run, ends_get_run, ends_lift]
    obtain ⟨files, hfiles⟩ := idlFiles_isOk (h.inv.nodes _ n hfind).files (g.release file.normalize)
    rw [hfiles]
    -- what is remembered and what is held change independently of each other
    simp only [Except.mapError]
    rw [evictMemo_release]
    have h' := (h.evictMemo n.path).invalidate n.path
    have hfind' : ((g.evictMemo n.path).invalidate n.path).packages.find? n.path = some n := by
      rw [find?_invalidate, packages_evictMemo, hfind]
      simp [invalidateNode]
    have hfiles' : (((g.evictMemo n.path).invalidate n.path).release file.normalize).idlFiles
      disk dir = .ok files := by
      rw [← heq, ← hfiles]
      refine idlFiles_congr (congrArg (Table.erase · file.normalize) ?_) n.dir
      exact held_evictMemo n.path
    have hc := changedAt_release h'.inv.held hn
    have hh := normal_release h'.inv.held file.normalize
    have himports := imports_release hplain h'.inv hn
    split
    · have hevict := h'.evict n.path
      refine hevict.changeOutside hd hm hn hp _ ⟨hc.text, hc.keys⟩ hh ?_ ?_
      · exact himports
      · intro key n' hn' he
        simp only [Graph.evict, Table.find?_erase] at hn'
        split at hn'
        · cases hn'
        · rename_i hne
          exact hne (beq_iff_eq.mpr (h'.inv.only_in_dir hm hfind' hn' (he.trans heq.symm)))
    · exact h'.changeInside hd hm hn hp _ hc hh himports hfind' heq hfiles' rfl

end

end IdlWorkbench.Graph
