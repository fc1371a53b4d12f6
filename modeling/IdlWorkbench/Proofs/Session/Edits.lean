import IdlWorkbench.Proofs.Session.Held
import IdlWorkbench.Proofs.Session.Touch

/-!
# What notes touch

A note about a file of a package touches the directory of this package, which may be made for the file or lose its
last one. Any other note concerns no package: there is no room for one in the directory of the file, or none is
loaded when the file is closed. -/

namespace IdlWorkbench.Graph

open IdlWorkbench.Path

variable {disk : Disk} {m : ModuleRoot} {g w : Graph}

def acted (disk : Disk) (g : Graph) (n : Note) : Graph := ((n.act disk).run g).2

/-- There is a package for the file of a note: after a text, or before the file is closed. -/
def Housed (disk : Disk) (g : Graph) (n : Note) : Prop :=
  ((if n.text?.isSome then g.acted disk n else g).packageOf? n.file).isSome = true

theorem housed_of_text {n : Note} (h : n.text?.isSome = true) :
    Housed disk g n ↔ ((g.acted disk n).packageOf? n.file).isSome = true := by
  rw [Housed, if_pos h]

theorem housed_of_closed {n : Note} (h : n.text? = none) :
    Housed disk g n ↔ (g.packageOf? n.file).isSome = true := by
  rw [Housed, if_neg (by simp [h])]

/-- Only a note about a file of a package clears something. -/
theorem housed_of_cleared (n : Note) : Ends (n.act disk) g fun now _ => ∀ e ∈ now, Housed disk g n := by
  cases n with
  | opened file text => exact fun e he => nomatch he
  | changed file text => exact fun e he => nomatch he
  | closed file =>
    rw [Note.ends_closed, ends_closeFile (Note.normal_file _)]
    cases hp : g.packageOf? (Note.closed file).file with
    | none => exact fun e he => nomatch he
    | some p =>
      have hhoused : Housed disk g (.closed file) := (housed_of_closed rfl).mpr (by rw [hp]; rfl)
      dsimp only
      cases (g.release (Note.closed file).file).idlFiles disk p.dir with
      | error e => exact fun _ _ => hhoused
      | ok files =>
        dsimp only
        split <;> exact fun _ _ => hhoused

/-- There is room for a package in the directory of a file. -/
def Inside (disk : Disk) (m : ModuleRoot) (file : Path) : Prop :=
  ∃ dir, file.parent? = some dir ∧ m.Houses disk dir

theorem Steady.tidy_placeholders (hd : disk.WellNamed) (hm : m.dir.Rooted) (h : Steady disk m g) :
    (g.placeholders disk).Tidy disk :=
  h.ready.lists.tidy.ensureScanned h.resting.inv.modules hd hm

/-- There is room for every package that is loaded. -/
theorem Steady.houses (hd : disk.WellNamed) (hm : m.dir.Rooted) (h : Steady disk m g) {key : String}
    {p : PackageNode} (hp : g.packages.find? key = some p) : m.Houses disk p.dir :=
  (h.ready.lists.fresh key p hp).houses (h.tidy_placeholders hd hm) h.resting.inv.layout_eq hd hm
    (h.resting.inv.nodes key p hp).owned

theorem directoryOf?_of_owns (hm : m.dir.Rooted) {file dir : Path} {path : String} (hp : file.parent? = some dir)
    (howns : m.Owns dir path) : directoryOf? file = some dir := by
  have habs := (howns.rooted hm).absolute
  refine Option.filter_eq_some_iff.mpr ⟨hp, decide_eq_true fun hnil => ?_⟩
  rw [isAbsolute, hnil] at habs
  cases habs

theorem not_inside_of_directoryOf? (hm : m.dir.Rooted) {file : Path} (h : directoryOf? file = none) :
    ¬Inside disk m file := by
  rintro ⟨dir, hp, ⟨path, howns⟩, -⟩
  rw [directoryOf?_of_owns hm hp howns] at h
  cases h

theorem isSome_packageOf? {file dir : Path} (hdir : directoryOf? file = some dir) {key : String} {p : PackageNode}
    (hfind : g.packages.find? key = some p) (hp : p.dir = dir) : (g.packageOf? file).isSome = true := by
  rw [packageOf?, hdir, Option.bind_some]
  by_contra hnone
  exact ne_of_packageIn?_none (Option.not_isSome_iff_eq_none.mp hnone) hfind hp

/-- A file of which there is a package is in a directory with room for it. -/
theorem Steady.inside_of_packageOf? (hd : disk.WellNamed) (hm : m.dir.Rooted) (h : Steady disk m g) {file : Path}
    (hf : file.Normal) (hp : (g.packageOf? file).isSome = true) : Inside disk m file := by
  obtain ⟨p, hp⟩ := Option.isSome_iff_exists.mp hp
  obtain ⟨dir, hdir, hin⟩ := Option.bind_eq_some_iff.mp hp
  have hparent := (directoryOf?_eq hdir).1
  obtain ⟨hfind, rfl, -⟩ := h.resting.inv.found_packageIn? hm hf hparent hin
  exact ⟨p.dir, hparent, h.houses hd hm hfind⟩

theorem tracked_noteEdit (path key : String) : key ∈ (g.noteEdit path).tracked ↔ key ∈ g.tracked ∨ key = path := by
  have htracked : (g.noteEdit path).tracked = (g.track [path]).tracked := tracked_evictMemo path
  rw [htracked]
  refine (mem_foldl_once (fun p : String => p) [path] g.tracked).trans ?_
  simp

theorem published_evictMemo (path : String) : (g.evictMemo path).published = g.published := by
  unfold evictMemo
  dsimp only
  split <;> rfl

/-- A change in a directory leaves the files of packages in other directories. -/
theorem ChangedAt.read_files {file dir : Path} (hc : ChangedAt file g w) (hf : file.Normal)
    (hp : file.parent? = some dir) (hd : disk.WellNamed) (hh : ∀ p ∈ g.held.keys, p.Normal) {n : PackageNode}
    (hn : g.Fresh disk n) (hnormal : n.dir.Normal) (hne : n.dir ≠ dir) :
    ∀ f ∈ n.files, w.read disk f = g.read disk f := by
  intro f hmem
  obtain ⟨hf', hparent⟩ := hn.of_mem_files hd hh hnormal hmem
  have hother : ¬(f == file) = true := by
    intro hbeq
    obtain rfl := hf'.eq_of_beq hf hbeq
    rw [hp, Option.some_inj] at hparent
    exact hne hparent.symm
  unfold Graph.read
  rw [hc.text f hother]

section
variable (hm : m.dir.Rooted) (h : Resting disk m g) {file dir : Path} (hf : file.Normal)
  (hdir : directoryOf? file = some dir)
include hm h hf hdir

section
variable (hd : disk.WellNamed) {p : PackageNode} (hin : g.packageIn? dir = some p)
include hd hin

/-- A change in the directory of a package that leaves the placeholders alone. -/
theorem touched_of_package (hi : Inv disk m w) (hc : ChangedAt file g w) (hl : w.layout = g.layout)
    (ho : w.overlay = g.overlay)
    (here : ∀ n, w.packages.find? p.path = some n → n.analysis = none ∧ n.inCycle = false ∧ n.state = .dirty)
    (gone : w.packages.find? p.path = none → w.idlFiles disk dir = .ok [])
    (elsewhere : ∀ key, key ≠ p.path → w.packages.find? key = (g.packages.find? key).map (invalidateNode p.path))
    (tracked : ∀ key ∈ g.tracked, w.packages.contains key = true → key ∈ w.tracked)
    (published : ∀ key, w.published.find? key = g.published.find? key ∨
      key = p.path ∧ w.published.find? key = none) : Touched disk m dir p.path g w := by
  have hp := (directoryOf?_eq hdir).1
  obtain ⟨hfind, -, howns⟩ := h.inv.found_packageIn? hm hf hp hin
  have hsame : ∀ d path, m.Owns d path → d ≠ dir → w.freshAt disk d = g.freshAt disk d := fun d path hown hne =>
    (sameAt_of_changedAt hd hp h.inv hi hc hl ho (hown.rooted hm).normal hne).freshAt
  have hread : ∀ n path, m.Owns n.dir path → n.dir ≠ dir → g.Fresh disk n → ∀ f ∈ n.files,
      w.read disk f = g.read disk f :=
    fun n _ hown hne hn => hc.read_files hf hp hd h.inv.held hn (hown.rooted hm).normal hne
  exact ⟨fun _ ho => ho.path_eq hm howns, fun n hn => (h.inv.nodes _ n hn).owned.dir_eq howns, hl, hread, hsame,
    fun _ _ => Or.inl (contains_iff.mpr ⟨p, hfind⟩), here, fun _ _ => gone, elsewhere, tracked, published⟩

/-- A text is held in a package, which gets its files anew. -/
theorem touched_noteEdit (text : String) {f : PackageNode → PackageNode} {files : List Path}
    (hedit : f p = { p with files }.markDirty)
    (hi : Inv disk m (((g.hold file text).modifyPackage p.path f).noteEdit p.path)) :
    Touched disk m dir p.path g (((g.hold file text).modifyPackage p.path f).noteEdit p.path) := by
  have hfind : (g.hold file text).packages.find? p.path = some p :=
    (h.inv.found_packageIn? hm hf (directoryOf?_eq hdir).1 hin).1
  obtain ⟨ho, hl, hh⟩ := overlay_noteEdit (g := (g.hold file text).modifyPackage p.path f) p.path
  have hchanged := changedAt_hold g file text
  have hhere : (((g.hold file text).modifyPackage p.path f).noteEdit p.path).packages.find? p.path =
      some { p with files }.markDirty := by
    rw [find?_noteEdit, find?_modifyPackage, if_pos rfl, hfind, Option.map_some, Option.map_some, hedit]
    simp [invalidateNode, PackageNode.markDirty, PackageNode.reset]
  apply touched_of_package hm h hf hdir hd hin hi ⟨hh ▸ hchanged.text, hh ▸ hchanged.keys⟩ hl ho
  case here =>
    intro n hn
    rw [hhere] at hn
    cases hn
    exact ⟨rfl, rfl, rfl⟩
  case gone => exact fun hnone => absurd (hhere.symm.trans hnone) (by simp)
  case elsewhere =>
    intro key hne
    rw [find?_noteEdit, find?_modifyPackage, if_neg hne]
    rfl
  case tracked => exact fun key hkey _ => (tracked_noteEdit p.path key).mpr (Or.inl hkey)
  case published => exact fun key => Or.inl (congrArg (Table.find? · key) (published_evictMemo p.path))

/-- A file is released, and its package falls back to other files. -/
theorem touched_released {files : List Path}
    (hi : Inv disk m ((g.released file p.path).modifyPackage p.path fun n => { n with files }.markDirty)) :
    Touched disk m dir p.path g ((g.released file p.path).modifyPackage p.path fun n =>
      { n with files }.markDirty) := by
  have hfind := (h.inv.found_packageIn? hm hf (directoryOf?_eq hdir).1 hin).1
  obtain ⟨hl, ho, hh⟩ := released_eq (g := g) file p.path
  have hchanged := changedAt_release h.inv.held hf
  have hhere : ((g.released file p.path).modifyPackage p.path fun n => { n with files }.markDirty).packages.find?
    p.path =
      some { p with files }.markDirty := by
    rw [find?_modifyPackage, if_pos rfl, find?_released, hfind]
    simp [invalidateNode]
  apply touched_of_package hm h hf hdir hd hin hi ⟨hh ▸ hchanged.text, hh ▸ hchanged.keys⟩ hl ho
  case here =>
    intro n hn
    rw [hhere] at hn
    cases hn
    exact ⟨rfl, rfl, rfl⟩
  case gone => exact fun hnone => absurd (hhere.symm.trans hnone) (by simp)
  case elsewhere =>
    intro key hne
    rw [find?_modifyPackage, if_neg hne, find?_released]
  case tracked => exact fun key hkey _ => (tracked_evictMemo (g := g.release file) p.path).symm ▸ hkey
  case published => exact fun key => Or.inl (congrArg (Table.find? · key) (published_evictMemo p.path))

/-- A file is released, which was the last one of its package. -/
theorem touched_evicted (hi : Inv disk m ((g.released file p.path).evict p.path))
    (hnone : (g.release file).idlFiles disk dir = .ok []) :
    Touched disk m dir p.path g ((g.released file p.path).evict p.path) := by
  obtain ⟨hl, ho, hh⟩ := released_eq (g := g) file p.path
  have hchanged := changedAt_release h.inv.held hf
  have hgone : ((g.released file p.path).evict p.path).packages.find? p.path = none := by
    rw [Graph.evict, Table.find?_erase, if_pos BEq.rfl]
  apply touched_of_package hm h hf hdir hd hin hi ⟨hh ▸ hchanged.text, hh ▸ hchanged.keys⟩ hl ho
  case here => exact fun n hn => absurd (hn.symm.trans hgone) (by simp)
  case gone => exact fun _ => (idlFiles_congr hh dir).trans hnone
  case elsewhere =>
    intro key hne
    rw [Graph.evict, Table.find?_erase, if_neg (by simpa using hne), find?_released]
  case tracked =>
    intro key hkey hcontains
    have hne : key ≠ p.path := by
      rintro rfl
      rw [Table.contains_eq, hgone] at hcontains
      cases hcontains
    have hkey' : key ∈ (g.released file p.path).tracked :=
      (tracked_evictMemo (g := g.release file) p.path).symm ▸ hkey
    exact List.mem_filter.mpr ⟨hkey', by simpa using hne⟩
  case published =>
    intro key
    have hsame : (g.released file p.path).published = g.published := published_evictMemo p.path
    rw [Graph.evict, Table.find?_erase, hsame]
    split
    · rename_i hbeq
      exact Or.inr ⟨eq_of_beq hbeq, rfl⟩
    · exact Or.inl rfl

end

end

/-- What making the first package of a directory leaves as it was: everything about other directories. Where there is
no room for a package, it fails and leaves the packages too. -/
structure Enters (disk : Disk) (m : ModuleRoot) (dir file : Path) (text : String) (g : Graph)
    (r : Except AddError String) (t : Graph) : Prop where
  layout : t.layout = g.layout
  held : t.held = (g.hold file text).held
  tracked : t.tracked = g.tracked
  published : t.published = g.published
  fresh : ∀ d path, m.Owns d path → d ≠ dir → t.freshAt disk d = g.freshAt disk d
  failed : ∀ e, r = .error e → t.packages = g.packages ∧ ¬m.Houses disk dir
  entered : ∀ path, r = .ok path → m.Owns dir path ∧
    (∃ n : PackageNode, t.packages.find? path = some n.markDirty) ∧
    ∀ key, key ≠ path → t.packages.find? key = g.packages.find? key

/-- What a note has touched, about the file of which there is a package. -/
def Touches (disk : Disk) (m : ModuleRoot) (n : Note) (g w : Graph) : Prop :=
  ∃ dir path, n.file.parent? = some dir ∧ m.Owns dir path ∧ Touched disk m dir path g w ∧
    (n.text?.isSome = true → path ∈ w.tracked)

section
variable (hd : disk.WellNamed) (hm : m.dir.Rooted) (h : Steady disk m g)
include hd hm h

section
variable {file dir : Path} {text : String} {r : Except AddError String} {t : Graph}
  (ht : Enters disk m dir file text g r t) (hf : file.Normal) (hp : file.parent? = some dir)
include ht hf hp

omit hm in
theorem Enters.read_files {n : PackageNode} (hn : g.Fresh disk n) (hnormal : n.dir.Normal) (hne : n.dir ≠ dir) :
    ∀ f ∈ n.files, t.read disk f = g.read disk f := by
  have hhold := changedAt_hold g file text
  have hc : ChangedAt file g t := ⟨ht.held ▸ hhold.text, ht.held ▸ hhold.keys⟩
  exact hc.read_files hf hp hd h.resting.inv.held hn hnormal hne

/-- A text is held in a directory that gets its package by it. -/
theorem Enters.touched {path : String} (hr : r = .ok path) : Touched disk m dir path g (t.noteEdit path) := by
  obtain ⟨howns, ⟨n, hn⟩, hothers⟩ := ht.entered path hr
  obtain ⟨ho', hl', hh'⟩ := overlay_noteEdit (g := t) path
  have hhere : (t.noteEdit path).packages.find? path = some (invalidateNode path n.markDirty) := by
    rw [find?_noteEdit, hn]
    rfl
  constructor
  case home => exact fun _ ho => ho.path_eq hm howns
  case place => exact fun p hfind => (h.resting.inv.nodes path p hfind).owned.dir_eq howns
  case layout => exact hl'.trans ht.layout
  case read =>
    exact fun n _ hown hne hn f hmem =>
      (read_congr hh' f).trans (ht.read_files hd h hf hp hn (hown.rooted hm).normal hne f hmem)
  case fresh =>
    intro d q hown hne
    have hsame : SameAt disk t (t.noteEdit path) d := by
      refine ⟨hl', ?_, idlFiles_congr hh' d⟩
      rw [placeholders, placeholders, hl', ho']
    exact hsame.freshAt.trans (ht.fresh d q hown hne)
  case there => exact fun _ _ => Or.inr (contains_iff.mpr ⟨_, hhere⟩)
  case here =>
    intro n' hn'
    rw [hhere] at hn'
    cases hn'
    unfold invalidateNode
    split <;> exact ⟨rfl, rfl, rfl⟩
  case gone => exact fun _ _ hnone => absurd (hhere.symm.trans hnone) (by simp)
  case elsewhere =>
    intro key hne
    rw [find?_noteEdit, hothers key hne]
  case tracked =>
    intro key hkey _
    rw [tracked_noteEdit]
    exact Or.inl (ht.tracked.symm ▸ hkey)
  case published =>
    intro key
    have hsame : (t.noteEdit path).published = t.published := published_evictMemo path
    rw [hsame, ht.published]
    exact Or.inl rfl

/-- A text is held in a directory without room for a package: there, nothing is listed before and after. -/
theorem Enters.bypassed (h' : Steady disk m t) {e : AddError} (hr : r = .error e) : Bypassed disk m g t := by
  obtain ⟨hpackages, hnone⟩ := ht.failed e hr
  have hl := h.resting.inv.layout_eq
  refine ⟨⟨ht.layout, fun n path hown hn => ?_, fun d path hown => ?_⟩, hpackages, ht.tracked, ht.published⟩
  · refine ht.read_files hd h hf hp hn (hown.rooted hm).normal ?_
    rintro rfl
    exact hnone (hn.houses (h.tidy_placeholders hd hm) hl hd hm hown)
  · by_cases hdir : d = dir
    · subst hdir
      have hnormal := (hown.rooted hm).normal
      cases hx : Listed.ofDir? disk ⟨[m]⟩ {} d with
      | ok listed => exact absurd ⟨⟨path, hown⟩, listed, hx⟩ hnone
      | error e =>
        rw [freshAt_unlisted (h.tidy_placeholders hd hm) hnormal hd (hl ▸ hx),
          freshAt_unlisted (h'.tidy_placeholders hd hm) hnormal hd (h'.resting.inv.layout_eq ▸ hx)]
    · exact ht.fresh d path hown hdir

end

variable {n : Note} (hn : n.Neat)
include hn

theorem enters_loadNew {text : String} (htext : n.text? = some text) {dir : Path}
    (hdir : directoryOf? n.file = some dir) (hin : g.packageIn? dir = none) :
    Ends (loadNew disk dir text).run (g.hold n.file text) fun r t => Enters disk m dir n.file text g r t := by
  have hf := n.normal_file
  obtain ⟨habs, hx, hplain, hwild⟩ := hn.1 text htext
  have hp := (directoryOf?_eq hdir).1
  have hvacant : ∀ key p, g.packages.find? key = some p → p.dir ≠ dir := fun _ _ => ne_of_packageIn?_none hin
  have hinv := (h.resting.changeOutside hd hm hf hp _ (changedAt_hold g n.file text)
    (normal_hold h.resting.inv.held hf text) (imports_hold h.resting.inv hplain) hvacant).inv
  rw [ends_loadNew, addForNewPackage_eq]
  cases hhosts : disk.filesWithExtension dir hostExtension with
  | error e =>
    refine ⟨rfl, rfl, rfl, rfl, fun d path hown hne => ?_, fun _ _ => ⟨rfl, fun ⟨_, listed, hlisted⟩ => ?_⟩, nofun⟩
    · exact (sameAt_of_changedAt hd hp h.resting.inv hinv (changedAt_hold g n.file text) rfl rfl
        (hown.rooted hm).normal hne).freshAt
    · obtain ⟨hosts, hok⟩ := Overlay.hosts_of_ofDir? hlisted
      rw [hhosts] at hok
      cases hok
  | ok hosts =>
    have hopening := opening_hold h.resting hinv hf hp hx hvacant hhosts
      ((Token.packageClauseName text).getD dir.fileName) rfl
    have hspelled : Spelled dir := spelled_directoryOf? n.plainNames (by rw [hf]; exact hdir) (hwild dir hdir)
    have hrooted : dir.isAbsolute = true := (hf.isAbsolute_parent? hp).trans habs
    refine (hopening.ends_added hd hm h.ready h.resting.inv hspelled hrooted).mono fun r t ⟨hsame, hadded⟩ => ?_
    obtain ⟨hl, hh, htracked, hpublished, hsame⟩ := hsame
    have hfresh : ∀ d path, m.Owns d path → d ≠ dir → t.freshAt disk d = g.freshAt disk d := fun d path hown hne =>
      (hsame d path hown hne).freshAt
    cases r with
    | error e => exact ⟨hl, hh, htracked, hpublished, hfresh, fun _ _ => hadded, nofun⟩
    | ok path =>
      obtain ⟨howns, hcontains, hothers⟩ := hadded
      obtain ⟨p, hp⟩ := contains_iff.mp hcontains
      refine ⟨hl, hh, htracked, hpublished, hfresh, nofun, ?_⟩
      rintro _ ⟨⟩
      refine ⟨howns, ⟨p, ?_⟩, fun key hne => ?_⟩
      · rw [find?_modifyPackage, if_pos rfl, hp]
        rfl
      · rw [find?_modifyPackage, if_neg hne, hothers key hne]

/-- A text touches its directory if there is room for a package there, and concerns no package otherwise. -/
theorem ends_addFile_cases {text : String} (htext : n.text? = some text) :
    Ends (addFile disk n.file text).run g fun _ w => Steady disk m w →
      Touches disk m n g w ∨ ¬Inside disk m n.file ∧ Bypassed disk m g w := by
  have hf := n.normal_file
  rw [ends_addFile hf]
  cases hdir : directoryOf? n.file with
  | none =>
    exact fun _ => Or.inr ⟨not_inside_of_directoryOf? hm hdir, .refl disk m g⟩
  | some dir =>
    have hp := (directoryOf?_eq hdir).1
    dsimp only
    cases hin : g.packageIn? dir with
    | some p =>
      exact fun h' => Or.inl ⟨dir, p.path, hp, (h.resting.inv.found_packageIn? hm hf hp hin).2.2,
        touched_noteEdit hm h.resting hf hdir hd hin text rfl h'.resting.inv,
        fun _ => (tracked_noteEdit _ _).mpr (Or.inr rfl)⟩
    | none =>
      refine (enters_loadNew hd hm h hn htext hdir hin).mono fun r t ht => ?_
      cases r with
      | error e =>
        refine fun h' => Or.inr ⟨fun ⟨d, hd', hhouses⟩ => ?_, ht.bypassed hd hm h hf hp h' rfl⟩
        obtain rfl : dir = d := Option.some_inj.mp (hp.symm.trans hd')
        exact (ht.failed e rfl).2 hhouses
      | ok path =>
        exact fun _ => Or.inl ⟨dir, path, hp, (ht.entered path rfl).1, ht.touched hd hm h hf hp rfl,
          fun _ => (tracked_noteEdit _ _).mpr (Or.inr rfl)⟩

/-- A text touches its directory or concerns no package. -/
theorem acted_text (h' : Steady disk m (g.acted disk n)) (htext : n.text?.isSome = true) :
    Touches disk m n g (g.acted disk n) ∨ ¬Inside disk m n.file ∧ Bypassed disk m g (g.acted disk n) := by
  have hf := n.normal_file
  have hall : Ends (n.act disk) g fun _ w => Steady disk m w →
      Touches disk m n g w ∨ ¬Inside disk m n.file ∧ Bypassed disk m g w := by
    cases n with
    | opened file text => exact ends_addFile_cases hd hm h hn rfl
    | changed file text =>
      rw [Note.ends_changed, ends_updateFile hf]
      cases hdir : directoryOf? (Note.changed file text).file with
      | none =>
        exact fun _ => Or.inr ⟨not_inside_of_directoryOf? hm hdir, .refl disk m g⟩
      | some dir =>
        dsimp only
        cases hin : g.packageIn? dir with
        | none => exact ends_addFile_cases hd hm h hn rfl
        | some p =>
          obtain ⟨hfind, rfl, howns⟩ := h.resting.inv.found_packageIn? hm hf (directoryOf?_eq hdir).1 hin
          obtain ⟨files, hfiles⟩ :=
            idlFiles_isOk (h.resting.inv.nodes _ p hfind).files (g.hold (Note.changed file text).file text)
          dsimp only
          rw [hfiles]
          exact fun h' => Or.inl ⟨p.dir, p.path, (directoryOf?_eq hdir).1, howns,
            touched_noteEdit hm h.resting hf hdir hd hin text rfl h'.resting.inv,
            fun _ => (tracked_noteEdit _ _).mpr (Or.inr rfl)⟩
    | closed file => cases htext
  exact ends_iff.mp hall h'

/-- A file is closed: it is released if there is a package for it, and nothing is done otherwise. -/
theorem acted_closed (h' : Steady disk m (g.acted disk n)) (htext : n.text? = none) :
    if (g.packageOf? n.file).isSome then Touches disk m n g (g.acted disk n) else g.acted disk n = g := by
  have hf := n.normal_file
  have hall : Ends (n.act disk) g fun _ w => Steady disk m w →
      if (g.packageOf? n.file).isSome then Touches disk m n g w else w = g := by
    cases n with
    | opened file text => cases htext
    | changed file text => cases htext
    | closed file =>
      rw [Note.ends_closed, ends_closeFile hf]
      cases hp : g.packageOf? (Note.closed file).file with
      | none => exact fun _ => rfl
      | some p =>
        obtain ⟨dir, hdir, hin⟩ := Option.bind_eq_some_iff.mp hp
        obtain ⟨hfind, rfl, howns⟩ := h.resting.inv.found_packageIn? hm hf (directoryOf?_eq hdir).1 hin
        obtain ⟨files, hfiles⟩ :=
          idlFiles_isOk (h.resting.inv.nodes _ p hfind).files (g.release (Note.closed file).file)
        dsimp only
        rw [hfiles, if_pos (by rfl)]
        dsimp only
        split
        · rename_i hempty
          rw [List.isEmpty_iff.mp hempty] at hfiles
          exact fun h' => ⟨p.dir, p.path, (directoryOf?_eq hdir).1, howns,
            touched_evicted hm h.resting hf hdir hd hin h'.resting.inv hfiles,
            fun hsome => absurd hsome (by simp [htext])⟩
        · exact fun h' => ⟨p.dir, p.path, (directoryOf?_eq hdir).1, howns,
            touched_released hm h.resting hf hdir hd hin h'.resting.inv, fun hsome => absurd hsome (by simp [htext])⟩
  exact ends_iff.mp hall h'

/-- A note about a file of a package touches its directory. -/
theorem touches_acted (h' : Steady disk m (g.acted disk n)) (hhoused : Housed disk g n) :
    Touches disk m n g (g.acted disk n) := by
  cases htext : n.text? with
  | some text =>
    have hsome : n.text?.isSome = true := by rw [htext]; rfl
    have hinside := h'.inside_of_packageOf? hd hm n.normal_file ((housed_of_text hsome).mp hhoused)
    exact (acted_text hd hm h hn h' hsome).resolve_right fun hnot => hnot.1 hinside
  | none =>
    have hcase := acted_closed hd hm h hn h' htext
    rwa [if_pos ((housed_of_closed htext).mp hhoused)] at hcase

/-- A note about another file concerns no package. -/
theorem bypassed_acted (h' : Steady disk m (g.acted disk n)) (hnot : ¬Housed disk g n) :
    Bypassed disk m g (g.acted disk n) ∧ (n.text?.isSome = true → ¬Inside disk m n.file) := by
  cases htext : n.text? with
  | some text =>
    have hsome : n.text?.isSome = true := by rw [htext]; rfl
    rcases acted_text hd hm h hn h' hsome with ⟨dir, path, hp, howns, -, htracked⟩ | ⟨hout, hbypassed⟩
    · obtain ⟨p, hfind⟩ := contains_iff.mp (h'.resting.inv.refs.tracked path (htracked hsome))
      have hdir := (h'.resting.inv.nodes path p hfind).owned.dir_eq howns
      have hpackage := isSome_packageOf? (directoryOf?_of_owns hm hp howns) hfind hdir
      exact absurd ((housed_of_text hsome).mpr hpackage) hnot
    · exact ⟨hbypassed, fun _ => hout⟩
  | none =>
    have hcase := acted_closed hd hm h hn h' htext
    rw [if_neg (mt (housed_of_closed htext).mpr hnot)] at hcase
    rw [hcase]
    exact ⟨.refl disk m g, fun hsome => absurd hsome (by simp)⟩

end

end IdlWorkbench.Graph
