import IdlWorkbench.Proofs.Graph.Edit
import IdlWorkbench.Proofs.Graph.Fresh

/-!
# What an edit leaves up to date

An edit concerns a single directory. What is listed for the others stays the same, so their packages stay as
they would be listed, and so does what is remembered for their import paths. The import path of the directory
itself is forgotten, unless the edit fails; but then nothing was remembered for it.
-/

namespace IdlWorkbench

open IdlWorkbench.Path

/-! ## Import paths without empty parts -/

theorem Path.flatMap_splitOn : ∀ cs : List Char, ((cs.splitOn '/').flatMap fun part => '/' :: part) = '/' :: cs
  | [] => rfl
  | c :: cs => by
    have ih := flatMap_splitOn cs
    rw [List.splitOn_cons_eq_if_modifyHead]
    split
    · rename_i hc
      rw [List.flatMap_cons, ih, eq_of_beq hc]
      rfl
    · cases hs : cs.splitOn '/' with
      | nil => rw [hs] at ih; cases ih
      | cons first rest =>
        rw [hs] at ih
        simp only [List.flatMap_cons, List.cons_append, List.cons.injEq, true_and] at ih
        simp [ih]

/-- An import path without empty parts is the one of its directory. -/
theorem ModuleRoot.pathAt_parts {m : ModuleRoot} {importPath rest : String}
    (hp : ∀ s ∈ (Path.ofString importPath).segments, Proper s) (h : m.rest? importPath = some rest) :
    m.pathAt (Layout.parts rest) = importPath := by
  obtain ⟨heq, hrest⟩ := eq_append_of_rest? h
  apply String.toList_inj.mp
  rw [pathAt_toList, heq, String.toList_append]
  refine congrArg (m.path.toList ++ ·) ?_
  rcases hrest with rfl | ⟨tail, rfl⟩
  · rfl
  · have hsplit : (ofString ("/" ++ tail)).segments = "" :: (ofString tail).segments := segments_append "" tail
    have hparts : Layout.parts ("/" ++ tail) = (ofString tail).segments := by
      rw [Layout.parts, hsplit, List.filter_cons_of_neg (by simp), List.filter_eq_self]
      intro s hs
      have hmem : s ∈ (ofString importPath).segments := by
        rw [heq, ← String.append_assoc, segments_append]
        exact List.mem_append_right _ hs
      simpa using (hp s hmem).1
    rw [hparts, ofString, List.flatMap_map]
    simp only [String.toList_ofList, flatMap_splitOn]
    simp

/-- A relative pattern without empty parts is the import path of the directory that it means. -/
theorem Listed.owns_of_patternDir {l : Layout} {m : ModuleRoot} (hl : l.modules = [m]) {pattern : String}
    (ha : (Path.ofString pattern).isAbsolute = false) (hp : ∀ s ∈ (Path.ofString pattern).segments, Proper s)
    {dir : Path} (h : patternDir l pattern = .ok (some dir)) : m.Owns dir pattern := by
  unfold patternDir at h
  simp only [ha, Bool.false_eq_true, if_false] at h
  split at h
  · cases h
  · rw [Layout.resolve?_eq hl] at h
    cases hr : m.rest? pattern with
    | none => rw [hr] at h; cases h
    | some rest =>
      rw [hr] at h
      cases h
      exact ⟨_, ModuleRoot.plain_parts (fun s hs => (hp s hs).2) hr, rfl, (ModuleRoot.pathAt_parts hp hr).symm⟩

/-- There is room for a package in a directory of the module, unless its host files cannot be read. -/
def ModuleRoot.Houses (m : ModuleRoot) (disk : Disk) (dir : Path) : Prop :=
  (∃ path, m.Owns dir path) ∧ ∃ listed, Listed.ofDir? disk ⟨[m]⟩ {} dir = .ok listed

theorem ModuleRoot.houses_of_bare {m : ModuleRoot} {disk : Disk} {dir : Path} {path : String}
    (howns : m.Owns dir path) (hhosts : disk.filesWithExtension dir hostExtension = .ok []) : m.Houses disk dir := by
  refine ⟨⟨path, howns⟩, none, ?_⟩
  unfold Listed.ofDir? hasHostFiles
  rw [hhosts]
  rfl

namespace Graph

variable {disk : Disk} {m : ModuleRoot} {g g' : Graph}

theorem Inv.layout_eq (h : Inv disk m g) : g.layout = ⟨[m]⟩ := by
  have hmodules := h.modules
  cases hl : g.layout
  rw [hl] at hmodules
  rw [← hmodules]

/-! ## Directories that an edit does not concern -/

structure SameAt (disk : Disk) (g g' : Graph) (dir : Path) : Prop where
  layout : g'.layout = g.layout
  listed : Listed.ofDir? disk g'.layout (g'.placeholders disk) dir =
    Listed.ofDir? disk g.layout (g.placeholders disk) dir
  files : g'.idlFiles disk dir = g.idlFiles disk dir

theorem freshPackages_of_dir {pattern : String} (hw : Text.stripEnd? Listed.wildcard pattern = none) {dir : Path}
    (hp : Listed.patternDir g.layout pattern = .ok (some dir)) : g.freshPackages disk pattern =
      Listed.ofDir? disk g.layout (g.placeholders disk) dir >>= fun l =>
        l.toList.filterMapM (g.freshPackage disk) := by
  unfold freshPackages Listed.ofPattern
  simp only [hw, hp, bind, Except.bind]
  cases Listed.ofDir? disk g.layout (g.placeholders disk) dir <;> rfl

namespace SameAt

theorem freshPackage {l : Listed} (h : SameAt disk g g' l.dir) : g'.freshPackage disk l = g.freshPackage disk l := by
  unfold Graph.freshPackage
  rw [h.files]

theorem fresh {n : PackageNode} (h : SameAt disk g g' n.dir) (hn : g.Fresh disk n) : g'.Fresh disk n := by
  obtain ⟨l, hl, hf⟩ := hn
  refine ⟨l, h.listed.trans hl, ?_⟩
  rw [← (Listed.of_ofDir? hl).1] at h
  rw [h.freshPackage]
  exact hf

theorem freshPackages {dir : Path} (h : SameAt disk g g' dir) {pattern : String}
    (hw : Text.stripEnd? Listed.wildcard pattern = none) (hp : Listed.patternDir g.layout pattern = .ok (some dir)) :
    g'.freshPackages disk pattern = g.freshPackages disk pattern := by
  rw [freshPackages_of_dir hw hp, freshPackages_of_dir hw (h.layout ▸ hp), h.listed]
  cases hl : Listed.ofDir? disk g.layout (g.placeholders disk) dir with
  | error e => rfl
  | ok found =>
    cases found with
    | none => rfl
    | some l =>
      rw [← (Listed.of_ofDir? hl).1] at h
      simp only [bind, Except.bind, Option.toList, List.filterMapM_cons, h.freshPackage, List.filterMapM_nil]

end SameAt

/-! ## Graphs that can be edited -/

/-- Remembered import paths are written as those of directories of the module are. -/
def Direct (m : ModuleRoot) (g : Graph) (pattern : String) (dir : Path) : Prop :=
  Text.stripEnd? Listed.wildcard pattern = none ∧ m.Owns dir pattern ∧
    Listed.patternDir g.layout pattern = .ok (some dir)

/-- Nothing that is loaded is outdated, and nothing that is remembered for directories other than `except`. -/
structure ReadyBut (disk : Disk) (m : ModuleRoot) (g : Graph) (except : Path → Prop) : Prop where
  lists : Lists disk m g g
  memo : ∀ pattern paths, g.memo.find? pattern = some paths → g.layout.isStandard pattern = false →
    ∃ dir, Direct m g pattern dir ∧ (¬except dir →
      DotFree pattern ∧ (g.freshPackages disk pattern).map (·.map (·.path)) = .ok paths)

abbrev Ready (disk : Disk) (m : ModuleRoot) (g : Graph) : Prop := ReadyBut disk m g fun _ => False

theorem Ready.recalls (h : Ready disk m g) : Recalls disk g g := by
  intro pattern paths hfind hs
  obtain ⟨dir, -, hrecall⟩ := h.memo pattern paths hfind hs
  exact hrecall id

theorem Direct.congr (hl : g'.layout = g.layout) {pattern : String} {dir : Path} (h : Direct m g pattern dir) :
    Direct m g' pattern dir := ⟨h.1, h.2.1, hl ▸ h.2.2⟩

/-! ## Taking note of edits -/

theorem bare_invalidateNode (path : String) (n : PackageNode) : (invalidateNode path n).bare = n.bare := by
  unfold invalidateNode
  split <;> rfl

theorem find?_noteEdit (path key : String) :
    (g.noteEdit path).packages.find? key = (g.packages.find? key).map (invalidateNode path) := by
  rw [noteEdit, find?_invalidate, packages_evictMemo]
  rfl

theorem of_find?_evictMemo {path pattern : String} {paths : List String}
    (h : (g.evictMemo path).memo.find? pattern = some paths) :
    g.memo.find? pattern = some paths ∧ pattern ≠ path := by
  have herase : ∀ {t : Table String (List String)} {key : String}, (t.erase key).find? pattern = some paths →
      t.find? pattern = some paths ∧ pattern ≠ key := by
    intro t key h
    obtain ⟨hne, hold⟩ := Table.find?_of_erase h
    exact ⟨hold, fun e => hne (beq_iff_eq.mpr e)⟩
  unfold evictMemo at h
  simp only at h
  split at h
  · exact herase (herase h).1
  · exact herase h

theorem overlay_noteEdit (path : String) : (g.noteEdit path).overlay = g.overlay ∧
    (g.noteEdit path).layout = g.layout ∧
    (g.noteEdit path).held = g.held := by
  unfold noteEdit evictMemo
  simp only
  split <;> exact ⟨rfl, rfl, rfl⟩

/-! ## Edits of a package -/

/-- A package that is listed as before, with other files. -/
theorem Fresh.refiled {n n' : PackageNode} (h : g.Fresh disk n)
    (hl : Listed.ofDir? disk g'.layout (g'.placeholders disk) n.dir =
      Listed.ofDir? disk g.layout (g.placeholders disk) n.dir)
    (hb : n'.bare = { n with files := n'.files }.bare) (hf : g'.idlFiles disk n.dir = .ok n'.files)
    (hne : n'.files ≠ []) : g'.Fresh disk n' := by
  obtain ⟨l, hlisted, hfresh⟩ := h
  obtain ⟨files, -, -, heq⟩ := of_freshPackage hfresh
  unfold PackageNode.bare at heq
  injection heq with hpath hdir hname _ _ herrors
  refine ⟨l, ?_, ?_⟩
  · rw [(PackageNode.of_bare_eq hb).1]
    exact hl.trans hlisted
  · have hnonempty : (n'.files.isEmpty && l.errors.isEmpty) = false := by simp [hne]
    unfold freshPackage
    rw [hb, ← hdir, hf]
    simp only [bind, Except.bind, hnonempty, Bool.false_eq_true, if_false]
    simp only [PackageNode.bare, hpath, hname, herrors, hdir]
    rfl

section
variable (hd : disk.WellNamed) (hm : m.dir.Rooted) {file dir : Path} (hp : file.parent? = some dir)
include hd hm hp

omit hm in
theorem sameAt_of_changedAt (hi : Inv disk m g) (hi' : Inv disk m g') (hc : ChangedAt file g g')
    (hl : g'.layout = g.layout) (ho : g'.overlay = g.overlay) {d : Path} (hn : d.Normal) (hne : d ≠ dir) :
    SameAt disk g g' d := by
  refine ⟨hl, ?_, hc.idlFiles hp hd hi.held hi'.held hn hne⟩
  rw [placeholders, placeholders, hl, ho]

/-- A package gets its files anew, and its import path is forgotten. -/
theorem Ready.inside (h : Ready disk m g) (hi : Inv disk m g) (hi' : Inv disk m g') (hc : ChangedAt file g g')
    (hl : g'.layout = g.layout) (ho : g'.overlay = g.overlay) {n : PackageNode}
    (hn : g.packages.find? n.path = some n) (hdir : n.dir = dir)
    (hnodes : ∀ key n', g'.packages.find? key = some n' →
      ∃ old, g.packages.find? key = some old ∧ n'.bare = { old with files := n'.files }.bare)
    (hne : ∀ n', g'.packages.find? n.path = some n' → n'.files ≠ [])
    (hmemo : ∀ pattern paths, g'.memo.find? pattern = some paths → g.layout.isStandard pattern = false →
      g.memo.find? pattern = some paths ∧ pattern ≠ n.path) : Ready disk m g' := by
  have hsame : ∀ d : Path, d.Rooted → d ≠ dir → SameAt disk g g' d := fun d hr hne =>
    sameAt_of_changedAt hd hp hi hi' hc hl ho hr.normal hne
  have hown := (hi.nodes n.path n hn).owned
  refine ⟨⟨.refl disk m g', ho ▸ h.lists.tidy, ho ▸ h.lists.complete, ?_⟩, ?_⟩
  · intro key n' hn'
    obtain ⟨old, hold, hbare⟩ := hnodes key n' hn'
    have hdir' : n'.dir = old.dir := (PackageNode.of_bare_eq hbare).1
    have hfiles := (hi'.nodes key n' hn').files
    by_cases hkey : key = n.path
    · subst hkey
      rw [hn] at hold
      cases hold
      refine (h.lists.fresh _ n hn).refiled ?_ hbare (hdir' ▸ hfiles) (hne n' hn')
      rw [placeholders, placeholders, hl, ho]
    · have hother : old.dir ≠ dir := fun e => hkey (hi.only_in_dir hm hn hold (e.trans hdir.symm))
      have hsameOld := hsame old.dir (hi.rooted_dir hm hold) hother
      have hfiles' : n'.files = old.files := by
        rw [hdir', hsameOld.files, (hi.nodes key old hold).files] at hfiles
        exact (Except.ok.inj hfiles).symm
      refine (hsameOld.fresh (h.lists.fresh key old hold)).congr ?_
      rw [hbare, hfiles']
  · intro pattern paths hfind hs
    rw [hl] at hs
    obtain ⟨hfind, hne⟩ := hmemo pattern paths hfind hs
    obtain ⟨d, hdirect, hrecall⟩ := h.memo pattern paths hfind hs
    have hdne : d ≠ dir := by
      rintro rfl
      exact hne (hdirect.2.1.path_eq hm (hdir ▸ hown))
    refine ⟨d, hdirect.congr hl, fun _ => ⟨(hrecall id).1, ?_⟩⟩
    rw [(hsame d (hdirect.2.1.rooted hm) hdne).freshPackages hdirect.1 hdirect.2.2]
    exact (hrecall id).2

end

/-! ## Edits of a directory without a package -/

theorem addForNewPackage_eq (o : Overlay) (dir : Path) (name : String) : o.addForNewPackage disk dir name =
    (disk.filesWithExtension dir hostExtension).map fun hosts =>
      if hosts.isEmpty then (true, o.insertPlaceholder dir name) else (false, o) := by
  unfold Overlay.addForNewPackage
  cases disk.filesWithExtension dir hostExtension with
  | error e => rfl
  | ok hosts =>
    simp only [bind, Except.bind, Except.map]
    split <;> rfl

/-- A directory that is loaded by its path gets a placeholder if it can have one. -/
theorem readied_eq {dir : Path} {hosts : List Path} (hhosts : disk.filesWithExtension dir hostExtension = .ok hosts)
    (hwild : Text.stripEnd? Listed.wildcard dir.text = none) (htext : Path.ofString dir.text = dir) :
    g.readied disk dir.text = .ok ((g.placeholders disk).withPlaceholder disk dir) := by
  unfold Graph.readied
  simp only [htext, hwild, Option.isNone_none, Bool.and_true]
  split
  · obtain ⟨found, hfound⟩ := Overlay.nameFor_isOk hhosts
    exact Overlay.addForDir_map hfound (g.placeholders disk)
  · rename_i habs
    rw [Overlay.withPlaceholder_relative (Bool.eq_false_iff.mpr habs)]
    rfl

section
variable (hd : disk.WellNamed) (hm : m.dir.Rooted) {dir : Path} (hn : dir.Normal)
include hd hm hn

/-- What the placeholders are when a directory gets its first package: those of other directories are as they
would be anyway, and it has one itself unless it has host files. -/
structure NewPlace (disk : Disk) (m : ModuleRoot) (g : Graph) (dir : Path) (o : Overlay) : Prop where
  tidy : o.Tidy disk
  scanned : o.scanned.contains m.dir = true
  complete : o.Complete disk m
  elsewhere : ∀ d path, m.Owns d path → d ≠ dir → o.at? d = (g.placeholders disk).at? d
  here : ∀ path, m.Owns dir path → disk.filesWithExtension dir hostExtension = .ok [] → (o.at? dir).isSome = true

theorem Lists.newPlace (h : Lists disk m g g) (hl : g.layout.modules = [m]) {hosts : List Path}
    (hhosts : disk.filesWithExtension dir hostExtension = .ok hosts) (name : String)
    (hwild : Text.stripEnd? Listed.wildcard dir.text = none) (htext : Path.ofString dir.text = dir)
    (hlayout : g'.layout = g.layout)
    (hoverlay : g'.overlay = if hosts.isEmpty then g.overlay.insertPlaceholder dir name else g.overlay) :
    ∃ o, g'.readied disk dir.text = .ok o ∧ NewPlace disk m g dir o := by
  have hl' : g'.layout.modules = [m] := hlayout ▸ hl
  have htidy : g'.overlay.Tidy disk := by
    rw [hoverlay]
    split
    · rename_i hempty
      rw [List.isEmpty_iff] at hempty
      exact h.tidy.insertPlaceholder name fun d hdn hbeq => hdn.eq_of_beq hn hbeq ▸ hempty ▸ hhosts
    · exact h.tidy
  have hscanned : g'.overlay.scanned = g.overlay.scanned := by
    rw [hoverlay]
    split <;> rfl
  have hat : ∀ d : Path, d.Normal → d ≠ dir → g'.overlay.at? d = g.overlay.at? d := by
    intro d hdn hne
    rw [hoverlay]
    split
    · rw [Overlay.at?_insertPlaceholder, if_neg fun hbeq => hne (hdn.eq_of_beq hn hbeq)]
    · rfl
  have haway : ∀ d path, m.Owns d path → d ≠ dir →
      ((g'.placeholders disk).withPlaceholder disk dir).at? d = (g.placeholders disk).at? d := by
    intro d path ho hne
    have hdn := (ho.rooted hm).normal
    rw [Overlay.at?_withPlaceholder]
    simp only [if_neg fun hbeq => hne (hdn.eq_of_beq hn hbeq)]
    have hscan := Overlay.at?_ensureScanned_congr hl hd hm h.tidy htidy hscanned ho (hat d hdn hne)
    rw [← hlayout] at hscan
    rw [placeholders, placeholders]
    split
    · rw [hscan, hlayout]
    · rw [hscan, hlayout]
  refine ⟨_, readied_eq hhosts hwild htext, ?_⟩
  constructor
  case tidy => exact (htidy.ensureScanned hl' hd hm).withPlaceholder (.of_normal hn)
  case scanned =>
    rw [Overlay.scanned_withPlaceholder]
    exact Overlay.contains_ensureScanned hl' hd hm htidy
  case complete =>
    intro d path name' ho hname
    by_cases hdir : d = dir
    · subst hdir
      rw [Overlay.at?_withPlaceholder, hname]
      exact if_pos BEq.rfl
    · rw [haway d path ho hdir]
      exact Overlay.complete_ensureScanned hl hd hm h.tidy h.complete d path name' ho hname
  case elsewhere => exact haway
  case here =>
    intro path ho hempty
    rw [hhosts] at hempty
    cases hempty
    have hsome : (g'.overlay.at? dir).isSome = true := by
      rw [hoverlay]
      simp [Overlay.at?_insertPlaceholder]
    rw [Overlay.at?_withPlaceholder]
    split
    · simp
    · exact Overlay.isSome_ensureScanned hl' hd hm htidy ho hsome

variable {o : Overlay} (hplace : NewPlace disk m g dir o) (hl : g.layout.modules = [m])
    (hlayout : g'.layout = g.layout)
  (ho : g'.overlay = o)
include hplace hl hlayout ho

omit hd hm hn in
theorem NewPlace.placeholders : g'.placeholders disk = o := by
  rw [Graph.placeholders, ho]
  exact Overlay.ensureScanned_of_contains (hlayout ▸ hl) hplace.scanned

omit hn in
theorem NewPlace.sameAt (h : Lists disk m g g) {file : Path} (hc : ChangedAt file g g')
    (hp : file.parent? = some dir)
    (hh : ∀ p ∈ g.held.keys, p.Normal) (hh' : ∀ p ∈ g'.held.keys, p.Normal) {d : Path} {path : String}
    (hown : m.Owns d path) (hne : d ≠ dir) : SameAt disk g g' d := by
  have hdn := (hown.rooted hm).normal
  refine ⟨hlayout, ?_, hc.idlFiles hp hd hh hh' hdn hne⟩
  rw [hplace.placeholders hl hlayout ho, hlayout]
  exact Overlay.ofDir?_congr hd hplace.tidy (h.tidy.ensureScanned hl hd hm) _ hdn (hplace.elsewhere d path hown hne)

omit ho in
/-- A directory that could be listed, whichever placeholder it had, gets its package. -/
theorem NewPlace.package (hh' : ∀ p ∈ g'.held.keys, p.Normal) {file : Path} (hheld : g'.HeldIn dir file)
    {before : Overlay} (htidy : before.Tidy disk) {x : Option Listed}
    (hx : Listed.ofDir? disk g.layout before dir = .ok x) {path : String} (hown : m.Owns dir path) :
    ∃ l n, Listed.ofDir? disk g'.layout o dir = .ok (some l) ∧ g'.freshPackage disk l = .ok (some n) ∧
      n.path = path := by
  obtain ⟨l, hlisted, hpath, hdir⟩ := Overlay.ofDir?_isSome hd htidy hplace.tidy hn
    (Layout.importPathOf?_of_owns hl hm hown) hx (hplace.here path hown)
  obtain ⟨hosts, hhosts⟩ := Overlay.hosts_of_ofDir? hx
  obtain ⟨onDisk, hdisk⟩ := Disk.filesWithExtension_isOk hhosts idlExtension
  obtain ⟨files, hfiles⟩ : ∃ files, g'.idlFiles disk dir = .ok files := by
    unfold Graph.idlFiles
    rw [hdisk]
    exact ⟨_, rfl⟩
  have hmem : file ∈ files := by
    obtain ⟨onDisk', -, hmem⟩ := (filesOf_of_idlFiles hd hh' hn hfiles).known
    exact (hmem file).mpr (Or.inr hheld)
  have hnonempty : (files.isEmpty && l.errors.isEmpty) = false := by
    cases files with
    | nil => cases hmem
    | cons first files => rfl
  refine ⟨l, { path := l.path, dir := l.dir, name := l.name.getD l.dir.fileName, files, listErrors := l.errors },
    hlayout ▸ hlisted, ?_, hpath⟩
  unfold freshPackage
  rw [hdir, hfiles]
  simp only [bind, Except.bind, hnonempty, Bool.false_eq_true, if_false]
  rfl

omit ho in
/-- A directory whose import path is remembered gets its package. -/
theorem NewPlace.listed (h : Ready disk m g) (hh' : ∀ p ∈ g'.held.keys, p.Normal) {file : Path}
    (hheld : g'.HeldIn dir file) (hwild : Text.stripEnd? Listed.wildcard dir.text = none)
    (htext : Path.ofString dir.text = dir) {pattern : String} {paths : List String}
    (hfind : g.memo.find? pattern = some paths) (hs : g.layout.isStandard pattern = false)
    (hown : m.Owns dir pattern) :
    ∃ l n, Listed.ofPattern disk g'.layout o dir.text = .ok [l] ∧ g'.freshPackage disk l = .ok (some n) ∧
      n.path = pattern := by
  obtain ⟨d, hdirect, hrecall⟩ := h.memo pattern paths hfind hs
  obtain rfl : d = dir := hdirect.2.1.dir_eq hown
  -- the directory could be listed before, so it can be now
  have hbefore : ∃ x, Listed.ofDir? disk g.layout (g.placeholders disk) d = .ok x := by
    have hok := (hrecall id).2
    rw [freshPackages_of_dir hdirect.1 hdirect.2.2] at hok
    cases hx : Listed.ofDir? disk g.layout (g.placeholders disk) d with
    | ok x => exact ⟨x, rfl⟩
    | error e => rw [hx] at hok; cases hok
  obtain ⟨x, hx⟩ := hbefore
  have htidy := h.lists.tidy.ensureScanned hl hd hm
  obtain ⟨l, n, hlisted, hfresh, hpath⟩ := hplace.package hd hm hn hl hlayout hh' hheld htidy hx hown
  refine ⟨l, n, ?_, hfresh, hpath⟩
  have habs := (hown.rooted hm).absolute
  have hpattern : Listed.patternDir g'.layout d.text = .ok (some d) := by
    unfold Listed.patternDir
    simp only [htext, habs, if_true]
    rw [show d.normalize = d from hn]
  unfold Listed.ofPattern
  simp only [hwild, hpattern, bind, Except.bind, hlisted]
  rfl

end

theorem Lists.self (h : Lists disk m g g') (hi : Inv disk m g') : Lists disk m g' g' :=
  ⟨.refl disk m g', h.tidy, h.complete, fun key n hn => h.view.fresh (hi.nodes key n hn).owned (h.fresh key n hn)⟩

/-- A directory gets its first package: the graphs before it is listed, with its placeholder, and at some time
afterwards. -/
structure Opened (disk : Disk) (m : ModuleRoot) (dir : Path) (g w t : Graph) : Prop where
  inv : Inv disk m t
  view : Lists disk m w t
  layout : w.layout = g.layout
  same : ∀ d path, m.Owns d path → d ≠ dir → SameAt disk g w d

section
variable (hd : disk.WellNamed) (hm : m.dir.Rooted) (hnamed : m.Named) {dir : Path} {w t : Graph}
include hd hm hnamed

omit hm in
/-- What was remembered stays true for other directories. -/
theorem Opened.readyBut (h : Ready disk m g) (ht : Opened disk m dir g w t)
    (hmemo : ∀ pattern paths, t.memo.find? pattern = some paths → w.layout.isStandard pattern = false →
      g.memo.find? pattern = some paths ∨ ∃ d, Direct m w pattern d ∧
        DotFree pattern ∧ (w.freshPackages disk pattern).map (·.map (·.path)) = .ok paths) :
    ReadyBut disk m t (· = dir) := by
  have hlw : w.layout.modules = [m] := ht.view.view.layout ▸ ht.inv.modules
  have hview : ∀ pattern, w.layout.isStandard pattern = false → DotFree pattern →
      t.freshPackages disk pattern = w.freshPackages disk pattern := fun pattern hs hdot =>
    ht.view.view.freshPackages hd hlw (Layout.relative_of_not_standard hlw hnamed hs) hdot
  refine ⟨ht.view.self ht.inv, fun pattern paths hfind hs => ?_⟩
  rw [ht.view.view.layout] at hs
  rcases hmemo pattern paths hfind hs with hold | ⟨d, hdirect, hdot, hrecall⟩
  · obtain ⟨d, hdirect, hrecall⟩ := h.memo pattern paths hold (ht.layout ▸ hs)
    refine ⟨d, hdirect.congr (ht.view.view.layout.trans ht.layout), fun hne => ⟨(hrecall id).1, ?_⟩⟩
    rw [hview pattern hs (hrecall id).1, (ht.same d pattern hdirect.2.1 hne).freshPackages hdirect.1 hdirect.2.2]
    exact (hrecall id).2
  · refine ⟨d, hdirect.congr ht.view.view.layout, fun _ => ⟨hdot, ?_⟩⟩
    rw [hview pattern hs hdot]
    exact hrecall

omit hd hm hnamed in
theorem exists_patternDir {l : Layout} {o : Overlay} {pattern : String}
    (hw : Text.stripEnd? Listed.wildcard pattern = none) (ha : (Path.ofString pattern).isAbsolute = false)
    (hs : l.isStandard pattern = false) {listed : List Listed} (h : Listed.ofPattern disk l o pattern = .ok listed) :
    ∃ dir, Listed.patternDir l pattern = .ok (some dir) := by
  unfold Listed.ofPattern at h
  simp only [hw] at h
  obtain ⟨found, hfound, -⟩ := bind_eq_ok.mp h
  cases found with
  | some dir => exact ⟨dir, hfound⟩
  | none =>
    unfold Listed.patternDir at hfound
    simp only [ha, hs, Bool.false_eq_true, if_false] at hfound
    split at hfound <;> cases hfound

structure Spelled (dir : Path) : Prop where
  normal : dir.Normal
  text : Path.ofString dir.text = dir
  wild : Text.stripEnd? Listed.wildcard dir.text = none
  proper : dir.isAbsolute = false → ∀ s ∈ dir.segments, Proper s

omit hd hm hnamed in
theorem Spelled.plainPattern (h : Spelled dir) : PlainPattern dir.text := by
  unfold PlainPattern DotFree
  rw [h.text]
  cases ha : dir.isAbsolute with
  | true => exact Or.inl rfl
  | false => exact Or.inr fun s hs => (h.proper ha s hs).2

omit hd hm hnamed in
theorem Spelled.rooted (h : Spelled dir) (habs : dir.isAbsolute = true) : dir.Rooted := by
  have hrooted := @rooted_normalize dir.text (by rw [h.text]; exact habs)
  rwa [h.text, show dir.normalize = dir from h.normal] at hrooted

omit hd hm hnamed in
/-- A path of a directory is a pattern for what is there. -/
theorem Spelled.ofPattern (h : Spelled dir) (habs : dir.isAbsolute = true) (layout : Layout) (o : Overlay) :
    Listed.ofPattern disk layout o dir.text = (Listed.ofDir? disk layout o dir).map Option.toList := by
  have hpattern : Listed.patternDir layout dir.text = .ok (some dir) := by
    unfold Listed.patternDir
    simp only [h.text, habs, if_true]
    rw [show dir.normalize = dir from h.normal]
  unfold Listed.ofPattern
  simp only [h.wild, hpattern, bind, Except.bind]
  cases Listed.ofDir? disk layout o dir <;> rfl

/-- A text is held in a directory without a package, which has got its placeholder. -/
structure Opening (disk : Disk) (m : ModuleRoot) (dir file : Path) (g t : Graph) : Prop where
  inv : Inv disk m t
  changed : ChangedAt file g t
  parent : file.parent? = some dir
  held : t.HeldIn dir file
  layout : t.layout = g.layout
  packages : t.packages = g.packages
  vacant : ∀ key n, g.packages.find? key = some n → n.dir ≠ dir
  memo : t.memo = g.memo.erase dir.text
  overlay : ∃ hosts name, disk.filesWithExtension dir hostExtension = .ok hosts ∧
    t.overlay = if hosts.isEmpty then g.overlay.insertPlaceholder dir name else g.overlay

omit hnamed in
/-- The directory is listed with its placeholder; the others are listed as before. -/
theorem Opening.exists_place (h : Ready disk m g) (hi : Inv disk m g) (hdir : Spelled dir) {file : Path}
    (ht : Opening disk m dir file g t) : ∃ o, t.readied disk dir.text = .ok o ∧ NewPlace disk m g dir o ∧
      (∀ d path, m.Owns d path → d ≠ dir → SameAt disk g { t with overlay := o } d) ∧
      Lists disk m { t with overlay := o } { t with overlay := o } := by
  obtain ⟨hosts, name, hhosts, hoverlay⟩ := ht.overlay
  obtain ⟨o, ho, hplace⟩ :=
    h.lists.newPlace hd hm hdir.normal hi.modules hhosts name hdir.wild hdir.text ht.layout hoverlay
  have hlayout : ({ t with overlay := o } : Graph).layout = g.layout := ht.layout
  have hchanged : ChangedAt file g { t with overlay := o } := ⟨ht.changed.text, ht.changed.keys⟩
  have hsame : ∀ d path, m.Owns d path → d ≠ dir → SameAt disk g { t with overlay := o } d := fun d path hown hne =>
    hplace.sameAt hd hm hi.modules hlayout rfl h.lists hchanged ht.parent hi.held ht.inv.held hown hne
  refine ⟨o, ho, hplace, hsame, .refl disk m _, hplace.tidy, fun _ => hplace.complete, fun key n hn => ?_⟩
  have hn' : g.packages.find? key = some n := ht.packages ▸ hn
  exact (hsame n.dir key (hi.nodes key n hn').owned (ht.vacant key n hn')).fresh (h.lists.fresh key n hn')

omit hd hm hnamed in
theorem Opening.memo_old {file : Path} (ht : Opening disk m dir file g t) {pattern : String} {paths : List String}
    (h : t.memo.find? pattern = some paths) : g.memo.find? pattern = some paths :=
  (Table.find?_of_erase (ht.memo ▸ h)).2

omit hd hm hnamed in
theorem Opening.remembered?_eq_none {file : Path} (ht : Opening disk m dir file g t) :
    t.remembered? dir.text = none := by
  unfold remembered?
  rw [ht.memo, Table.find?_erase]
  simp

/-- Loading the first package of a directory. If its import path is remembered, it is the answer. -/
theorem Opening.ends_load (h : Ready disk m g) (hi : Inv disk m g) (hdir : Spelled dir) {file : Path}
    (ht : Opening disk m dir file g t) :
    Ends (load disk dir.text).run t fun r t' => ReadyBut disk m t' (· = dir) ∧
      ∀ pattern paths, t'.memo.find? pattern = some paths → t'.layout.isStandard pattern = false →
        m.Owns dir pattern → r = .ok [pattern] := by
  obtain ⟨o, ho, hplace, hsame, hlists⟩ := ht.exists_place hd hm h hi hdir
  have hplaces : ({ t with overlay := o } : Graph).placeholders disk = o :=
    hplace.placeholders hi.modules ht.layout rfl
  have hinv : Inv disk m { t with overlay := o } := ht.inv.withOverlay o
  have hlayout : ({ t with overlay := o } : Graph).layout = g.layout := ht.layout
  have hknown : ∀ pattern paths, g.memo.find? pattern = some paths → g.layout.isStandard pattern = false →
      m.Owns dir pattern → ∃ l n, Listed.ofPattern disk t.layout o dir.text = .ok [l] ∧
        ({ t with overlay := o } : Graph).freshPackage disk l = .ok (some n) ∧ n.path = pattern :=
    fun pattern paths hfind hs hown =>
      hplace.listed hd hm hdir.normal hi.modules hlayout h hinv.held ht.held hdir.wild
        hdir.text hfind hs hown
  rw [Graph.ends_load, ht.remembered?_eq_none, ho]
  simp only
  cases hlisted : Listed.ofPattern disk t.layout o dir.text with
  | error e =>
    have hopened : Opened disk m dir g { t with overlay := o } { t with overlay := o } :=
      ⟨hinv, hlists, ht.layout, hsame⟩
    refine ⟨hopened.readyBut hd hnamed h fun pattern paths hfind _ => Or.inl (ht.memo_old hfind), ?_⟩
    intro pattern paths hfind hs hown
    obtain ⟨l, n, hok, -⟩ := hknown pattern paths (ht.memo_old hfind) (ht.layout ▸ hs) hown
    rw [hlisted] at hok
    cases hok
  | ok listed =>
    have hall := hlists.listed_of_ofPattern hd hm hinv.modules hdir.plainPattern.straight (hplaces.symm ▸ hlisted)
    have henter := (hlists.ends_enterAll hinv hall).and (hinv.ends_enterAll fun l hmem => (hall l hmem).1)
    refine henter.mono fun r t' ⟨⟨⟨hview, _⟩, hmemo, hr⟩, hinv', _, hpaths⟩ => ?_
    have hopened : Opened disk m dir g { t with overlay := o } t' := ⟨hinv', hview, ht.layout, hsame⟩
    have hanswer : ∀ pattern paths, g.memo.find? pattern = some paths → g.layout.isStandard pattern = false →
        m.Owns dir pattern → r = .ok [pattern] := by
      intro pattern paths hfind hs hown
      obtain ⟨l, n, hok, hfresh, rfl⟩ := hknown pattern paths hfind hs hown
      rw [hlisted] at hok
      cases hok
      rw [hr, List.filterMapM_cons, hfresh]
      rfl
    have hlayout' : t'.layout = g.layout := hview.view.layout.trans ht.layout
    cases r with
    | error e =>
      have hopened' := hopened.readyBut hd hnamed h fun pattern paths hfind _ => Or.inl (ht.memo_old (hmemo ▸ hfind))
      refine ⟨hopened', fun pattern paths hfind hs hown => ?_⟩
      exact hanswer pattern paths (ht.memo_old (hmemo ▸ hfind)) (hlayout' ▸ hs) hown
    | ok paths =>
      have hinv'' : Inv disk m { t' with memo := t'.memo.insert dir.text paths } :=
        hinv'.remember dir.text (hpaths paths rfl)
      have hview' : Lists disk m { t with overlay := o } { t' with memo := t'.memo.insert dir.text paths } :=
        hview.congr rfl rfl rfl hview.fresh
      refine ⟨Opened.readyBut hd hnamed h ⟨hinv'', hview', ht.layout, hsame⟩ fun pattern paths' hfind hs => ?_, ?_⟩
      · rcases Table.eq_or_find?_of_insert hfind with ⟨rfl, rfl⟩ | hfind
        · have habs := Layout.relative_of_not_standard ht.inv.modules hnamed hs
          have hproper : ∀ s ∈ (Path.ofString dir.text).segments, Proper s := by
            rw [hdir.text] at habs ⊢
            exact hdir.proper habs
          obtain ⟨d, hpattern⟩ := exists_patternDir hdir.wild habs hs hlisted
          refine Or.inr ⟨d, ⟨hdir.wild, Listed.owns_of_patternDir ht.inv.modules habs hproper hpattern, hpattern⟩,
            fun s hs => (hproper s hs).2, ?_⟩
          rw [freshPackages, hplaces, hlisted]
          simp only [bind, Except.bind]
          cases hns : listed.filterMapM (({ t with overlay := o } : Graph).freshPackage disk) with
          | error e => rw [hns] at hr; cases hr
          | ok ns =>
            rw [hns] at hr
            cases hr
            rfl
        · exact Or.inl (ht.memo_old (hmemo ▸ hfind))
      · intro pattern paths' hfind hs hown
        rcases Table.eq_or_find?_of_insert hfind with ⟨rfl, -⟩ | hfind
        · have habs := Layout.relative_of_not_standard hinv''.modules hnamed hs
          rw [hdir.text, (hown.rooted hm).absolute] at habs
          cases habs
        · exact hanswer pattern paths' (ht.memo_old (hmemo ▸ hfind)) (hlayout' ▸ hs) hown

/-! ## Editing -/

omit hd hm hnamed in
theorem freshPackages_congr (hl : g'.layout = g.layout) (ho : g'.overlay = g.overlay) (hh : g'.held = g.held)
    (pattern : String) : g'.freshPackages disk pattern = g.freshPackages disk pattern := by
  have hfresh : g'.freshPackage disk = g.freshPackage disk := by
    funext l
    unfold freshPackage
    rw [idlFiles_congr hh]
  unfold freshPackages placeholders
  rw [hl, ho, hfresh]

omit hd hm hnamed in
/-- Other states of the packages, and less that is remembered. -/
theorem ReadyBut.restate {except : Path → Prop} (h : ReadyBut disk m g except) (hl : g'.layout = g.layout)
    (ho : g'.overlay = g.overlay) (hh : g'.held = g.held)
    (hnodes : ∀ key n, g'.packages.find? key = some n → ∃ old, g.packages.find? key = some old ∧ old.bare = n.bare)
    (hmemo : ∀ pattern paths, g'.memo.find? pattern = some paths → g.layout.isStandard pattern = false →
      g.memo.find? pattern = some paths ∧ ∀ d, m.Owns d pattern → ¬except d) : Ready disk m g' := by
  refine ⟨⟨.refl disk m g', ho ▸ h.lists.tidy, ho ▸ h.lists.complete, ?_⟩, ?_⟩
  · intro key n hn
    obtain ⟨old, hold, hbare⟩ := hnodes key n hn
    obtain ⟨l, hlisted, hf⟩ := (h.lists.fresh key old hold).congr hbare
    refine ⟨l, ?_, ?_⟩
    · rw [placeholders, hl, ho]
      exact hlisted
    · rw [freshPackage, idlFiles_congr hh]
      exact hf
  · intro pattern paths hfind hs
    rw [hl] at hs
    obtain ⟨hold, hnot⟩ := hmemo pattern paths hfind hs
    obtain ⟨d, hdirect, hrecall⟩ := h.memo pattern paths hold hs
    refine ⟨d, hdirect.congr hl, fun _ => ?_⟩
    rw [freshPackages_congr hl ho hh]
    exact hrecall (hnot d hdirect.2.1)

/-- Making the first package of a directory. -/
theorem Opening.ends_loadOne (h : Ready disk m g) (hi : Inv disk m g) (hdir : Spelled dir) {file : Path}
    (ht : Opening disk m dir file g t) :
    Ends (loadOne disk dir.text).run t fun r t' =>
      match r with
      | .error _ => Ready disk m t'
      | .ok path => Ready disk m ((t'.modifyPackage path PackageNode.markDirty).noteEdit path) := by
  rw [Graph.ends_loadOne]
  refine (ht.ends_load hd hm hnamed h hi hdir).mono fun r t' ⟨hready, hanswer⟩ => ?_
  have hfailed : (∀ path, r ≠ .ok [path]) → Ready disk m t' := by
    intro hr
    refine hready.restate rfl rfl rfl (fun key n hn => ⟨n, hn, rfl⟩) fun pattern paths hfind hs => ⟨hfind, ?_⟩
    rintro _ hown rfl
    exact hr pattern (hanswer pattern paths hfind hs hown)
  rcases r with e | paths
  · exact hfailed fun path hr => nomatch hr
  · rcases paths with _ | ⟨path, _ | ⟨_, _⟩⟩
    · exact hfailed fun path hr => nomatch hr
    · obtain ⟨ho, hl, hh⟩ := overlay_noteEdit (g := t'.modifyPackage path PackageNode.markDirty) path
      refine hready.restate hl ho hh ?_ ?_
      · intro key n hn
        rw [find?_noteEdit, find?_modifyPackage] at hn
        obtain ⟨n', hn', rfl⟩ := Option.map_eq_some_iff.mp hn
        rw [bare_invalidateNode]
        split at hn'
        · obtain ⟨old, hold, rfl⟩ := Option.map_eq_some_iff.mp hn'
          exact ⟨old, hold, rfl⟩
        · exact ⟨n', hn', rfl⟩
      · intro pattern paths hfind hs
        obtain ⟨hfind, hne⟩ := of_find?_evictMemo hfind
        refine ⟨hfind, ?_⟩
        rintro _ hown rfl
        have heq := hanswer pattern paths hfind hs hown
        cases heq
        exact hne rfl
    · refine hfailed fun path hr => ?_
      cases hr

omit hnamed in
/-- Making the first package of a directory adds this one and no other. It fails and adds none only where there is no
room for it. The other directories are listed as before. -/
theorem Opening.ends_added (h : Ready disk m g) (hi : Inv disk m g) (hdir : Spelled dir)
    (habs : dir.isAbsolute = true)
    {file : Path} (ht : Opening disk m dir file g t) :
    Ends (loadOne disk dir.text).run t fun r t' =>
      (t'.layout = g.layout ∧ t'.held = t.held ∧ t'.tracked = t.tracked ∧ t'.published = t.published ∧
        ∀ d path, m.Owns d path → d ≠ dir → SameAt disk g t' d) ∧
      match r with
      | .error _ => t'.packages = g.packages ∧ ¬m.Houses disk dir
      | .ok path => m.Owns dir path ∧ t'.packages.contains path = true ∧
          ∀ key, key ≠ path → t'.packages.find? key = g.packages.find? key := by
  obtain ⟨o, ho, hplace, hsame, -⟩ := ht.exists_place hd hm h hi hdir
  have hsame' : ∀ t' : Graph, t'.layout = t.layout → t'.held = t.held → t'.overlay = o →
      ∀ d path, m.Owns d path → d ≠ dir → SameAt disk g t' d := by
    intro t' hl hh hoverlay d path hown hne
    have hd := hsame d path hown hne
    refine ⟨hl.trans ht.layout, ?_, (idlFiles_congr hh d).trans hd.files⟩
    rw [← hd.listed, Graph.placeholders, Graph.placeholders, hl, hoverlay]
  have hvain : (∀ l files, Listed.ofDir? disk t.layout o dir = .ok (some l) →
      ({ t with overlay := o } : Graph).idlFiles disk l.dir = .ok files →
        (files.isEmpty && l.errors.isEmpty) = true) → ¬m.Houses disk dir := by
    rintro hnone ⟨⟨path, hown⟩, x, hx⟩
    rw [← hi.layout_eq] at hx
    obtain ⟨l, n, hlisted, hfresh, -⟩ := hplace.package hd hm hdir.normal hi.modules ht.layout ht.inv.held
      ht.held (Overlay.tidy_empty disk) hx hown
    obtain ⟨files, hfiles, hsome, -⟩ := of_freshPackage hfresh
    exact hsome (hnone l files hlisted hfiles)
  rw [Graph.ends_loadOne, Graph.ends_load, ht.remembered?_eq_none, ho]
  dsimp only
  rw [hdir.ofPattern habs]
  cases hlisted : Listed.ofDir? disk t.layout o dir with
  | error e =>
    exact ⟨⟨ht.layout, rfl, rfl, rfl, hsame' _ rfl rfl rfl⟩, ht.packages,
      hvain fun l files hl _ => absurd (hlisted.symm.trans hl) (by simp)⟩
  | ok found =>
    cases found with
    | none =>
      exact ⟨⟨ht.layout, rfl, rfl, rfl, hsame' _ rfl rfl rfl⟩, ht.packages,
        hvain fun l files hl _ => absurd (hlisted.symm.trans hl) (by simp)⟩
    | some l =>
      obtain ⟨rfl, hpath⟩ := Listed.of_ofDir? hlisted
      have hown : m.Owns l.dir l.path :=
        Layout.owns_of_importPathOf? (ht.layout ▸ hi.modules) hm (hdir.rooted habs) hpath
      dsimp only [Except.map, Option.toList]
      rw [List.filterMapM_cons, ends_then, Graph.ends_enterListed]
      cases hfiles : ({ t with overlay := o } : Graph).idlFiles disk l.dir with
      | error e =>
        refine ⟨⟨ht.layout, rfl, rfl, rfl, hsame' _ rfl rfl rfl⟩, ht.packages, hvain fun l' files hl hok => ?_⟩
        rw [hlisted] at hl
        cases hl
        rw [hfiles] at hok
        cases hok
      | ok files =>
        dsimp only
        split
        · rename_i hempty
          refine ⟨⟨ht.layout, rfl, rfl, rfl, hsame' _ rfl rfl rfl⟩, ht.packages, hvain fun l' files' hl hok => ?_⟩
          rw [hlisted] at hl
          cases hl
          rw [hfiles] at hok
          cases hok
          exact hempty
        · refine ⟨⟨ht.layout, rfl, rfl, rfl, hsame' _ rfl rfl rfl⟩, hown, ?_, fun key hne => ?_⟩
          · exact contains_iff.mpr ⟨_, Table.find?_insert_self _ _ _⟩
          · change (t.packages.insert l.path _).find? key = _
            rw [Table.find?_insert, if_neg fun hbeq => hne (eq_of_beq hbeq), ht.packages]

omit hd hm hnamed in
theorem spelled_directoryOf? {file : Path} (hw : PlainNames file.resolved)
    (h : directoryOf? file.normalize = some dir)
    (hwild : Text.stripEnd? Listed.wildcard dir.text = none) : Spelled dir := by
  obtain ⟨hp, hc⟩ := directoryOf?_eq h
  have hn := (normal_normalize file).of_parent? hp
  rw [normalize_eq, parent?_ofNames hw.proper] at hp
  split at hp
  · cases hp
  · cases hp
    have hplain : PlainNames file.resolved.dropLast := fun s hs => hw s (List.dropLast_subset _ hs)
    refine ⟨hn, ofString_text_ofNames hplain, hwild, fun ha => ?_⟩
    rw [isAbsolute_ofNames hplain.proper] at ha
    rw [ha] at hc ⊢
    cases hnames : file.resolved.dropLast with
    | nil => rw [hnames] at hc; exact absurd rfl hc
    | cons first rest =>
      rw [hnames] at hplain
      exact hplain.proper

variable {text : String} {file : Path}

omit hnamed in
/-- A text is held in a package, which gets its files anew. -/
theorem Ready.edited (h : Ready disk m g) (hr : Resting disk m g) (hf : file.Normal) (hp : file.parent? = some dir)
    (hx : file.extension? = some idlExtension) {n : PackageNode} (hn : g.packages.find? n.path = some n)
    (hdir : n.dir = dir) {f : PackageNode → PackageNode}
    (hbare : ∀ old, (f old).bare = { old with files := (f old).files }.bare)
    (hrest : Resting disk m (((g.hold file text).modifyPackage n.path f).noteEdit n.path)) :
    Ready disk m (((g.hold file text).modifyPackage n.path f).noteEdit n.path) := by
  obtain ⟨ho, hl, hh⟩ := overlay_noteEdit (g := (g.hold file text).modifyPackage n.path f) n.path
  have hchanged : ChangedAt file g (((g.hold file text).modifyPackage n.path f).noteEdit n.path) := by
    constructor
    · rw [hh]
      exact (changedAt_hold g file text).text
    · rw [hh]
      exact (changedAt_hold g file text).keys
  refine h.inside hd hm hp hr.inv hrest.inv hchanged hl ho hn hdir ?_ ?_ ?_
  · intro key n' hn'
    rw [find?_noteEdit, find?_modifyPackage] at hn'
    obtain ⟨last, hlast, rfl⟩ := Option.map_eq_some_iff.mp hn'
    have hfiles : (invalidateNode n.path last).files = last.files :=
      (PackageNode.of_bare_eq (bare_invalidateNode n.path last)).2.1
    rw [bare_invalidateNode, hfiles]
    split at hlast
    · obtain ⟨old, hold, rfl⟩ := Option.map_eq_some_iff.mp hlast
      exact ⟨old, hold, hbare old⟩
    · exact ⟨last, hlast, rfl⟩
  · intro n' hn'
    have hnode := hrest.inv.nodes n.path n' hn'
    have hdir' : n'.dir = dir := (hnode.owned.dir_eq (hr.inv.nodes _ n hn).owned).trans hdir
    obtain ⟨onDisk, -, hmem⟩ :=
      (filesOf_of_idlFiles hd hrest.inv.held (hrest.inv.rooted_dir hm hn').normal hnode.files).known
    have hin : file ∈ n'.files := by
      refine (hmem file).mpr (Or.inr ⟨?_, hdir'.symm ▸ hp, hx⟩)
      rw [hh]
      exact mem_keys_hold hr.inv.held hf text
    exact List.ne_nil_of_mem hin
  · exact fun pattern paths hfind _ =>
      of_find?_evictMemo (g := ((g.hold file text).modifyPackage n.path f).track [n.path]) hfind

omit hnamed in
/-- A text is held in a directory that cannot be listed. -/
theorem Ready.unlisted (h : Ready disk m g) (hr : Resting disk m g) (hi : Inv disk m (g.hold file text))
    (hp : file.parent? = some dir) (hvacant : ∀ key n, g.packages.find? key = some n → n.dir ≠ dir) {e : LayoutError}
    (hfail : disk.filesWithExtension dir hostExtension = .error e) : Ready disk m (g.hold file text) := by
  have hsame : ∀ d : Path, d.Rooted → d ≠ dir → SameAt disk g (g.hold file text) d := fun d hd' hne =>
    sameAt_of_changedAt hd hp hr.inv hi (changedAt_hold g file text) rfl rfl hd'.normal hne
  refine ⟨⟨.refl disk m _, h.lists.tidy, h.lists.complete, ?_⟩, ?_⟩
  · intro key n hn
    exact (hsame n.dir (hr.inv.rooted_dir hm hn) (hvacant key n hn)).fresh (h.lists.fresh key n hn)
  · intro pattern paths hfind hs
    obtain ⟨d, hdirect, hrecall⟩ := h.memo pattern paths hfind hs
    refine ⟨d, hdirect, fun _ => ⟨(hrecall id).1, ?_⟩⟩
    have hne : d ≠ dir := by
      rintro rfl
      have hok := (hrecall id).2
      rw [freshPackages_of_dir hdirect.1 hdirect.2.2] at hok
      cases hx : Listed.ofDir? disk g.layout (g.placeholders disk) d with
      | error e => rw [hx] at hok; cases hok
      | ok x =>
        obtain ⟨hosts, hhosts⟩ := Overlay.hosts_of_ofDir? hx
        rw [hhosts] at hfail
        cases hfail
    rw [(hsame d (hdirect.2.1.rooted hm) hne).freshPackages hdirect.1 hdirect.2.2]
    exact (hrecall id).2

omit hd hm hnamed in
theorem opening_hold (hr : Resting disk m g) (hi : Inv disk m (g.hold file text)) (hf : file.Normal)
    (hp : file.parent? = some dir) (hx : file.extension? = some idlExtension)
    (hvacant : ∀ key n, g.packages.find? key = some n → n.dir ≠ dir) {hosts : List Path}
    (hhosts : disk.filesWithExtension dir hostExtension = .ok hosts) (name : String) {o : Bool × Overlay}
    (ho : o = if hosts.isEmpty then (true, g.overlay.insertPlaceholder dir name) else (false, g.overlay)) :
    Opening disk m dir file g { g.hold file text with overlay := o.2, memo := g.memo.erase dir.text } := by
  have hchanged := changedAt_hold g file text
  have hinv := (hi.withOverlay o.2).withMemo (g.memo.erase dir.text) (hr.inv.refs.memo_erase dir.text)
  refine ⟨hinv, ⟨hchanged.text, hchanged.keys⟩, hp, ⟨mem_keys_hold hr.inv.held hf text, hp, hx⟩, rfl, rfl,
    hvacant, rfl,
    hosts, name, hhosts, ?_⟩
  rw [ho]
  split <;> rfl

theorem Ready.ends_addFile (h : Ready disk m g) (hr : Resting disk m g) (hw : PlainNames file.resolved)
    (hx : file.normalize.extension? = some idlExtension) (ht : PlainImports text)
    (hwild : ∀ dir, directoryOf? file.normalize = some dir → Text.stripEnd? Listed.wildcard dir.text = none) :
    Ends (addFile disk file text).run g fun _ g' => Ready disk m g' := by
  have hrest := hr.ends_addFile hd hm hw hx ht
  have hn := normal_normalize file
  unfold addFile at hrest ⊢
  simp only at hrest ⊢
  cases hdir : directoryOf? file.normalize with
  | none => exact h
  | some dir =>
    obtain ⟨hp, -⟩ := directoryOf?_eq hdir
    simp only [hdir, ends_then, ends_modify_run, ends_get_run] at hrest ⊢
    have hchanged := changedAt_hold g file.normalize text
    have hheld := normal_hold hr.inv.held hn text
    have himports := @imports_hold disk m g text hr.inv file.normalize ht
    cases hin : (g.hold file.normalize text).packageIn? dir with
    | some n =>
      simp only [hin, ends_then, ends_modify_run, ends_ok] at hrest ⊢
      obtain ⟨hfind, heq, -⟩ := hr.inv.found_packageIn? hm hn hp hin
      exact h.edited hd hm hr hn hp hx hfind heq (fun old => rfl) hrest
    | none =>
      have hvacant : ∀ key n, g.packages.find? key = some n → n.dir ≠ dir :=
        fun key n hkey => ne_of_packageIn?_none hin hkey
      have houtside := hr.changeOutside hd hm hn hp _ hchanged hheld himports hvacant
      simp only [hin] at hrest ⊢
      rw [ends_then]
      unfold loadNew
      simp only [ends_then, ends_get_run, ends_lift]
      rw [addForNewPackage_eq]
      cases hhosts : disk.filesWithExtension dir hostExtension with
      | error e => exact h.unlisted hd hm hr houtside.inv hp hvacant hhosts
      | ok hosts =>
        simp only [Except.map, Except.mapError, ends_set_run, ends_adapt]
        have hdir' := spelled_directoryOf? hw hdir (hwild dir hdir)
        have hopening := opening_hold hr houtside.inv hn hp hx hvacant hhosts
          ((Token.packageClauseName text).getD dir.fileName) rfl
        refine (hopening.ends_loadOne hd hm hnamed h hr.inv hdir').mono fun r t' ht' => ?_
        cases r with
        | error e => exact ht'
        | ok path => exact ht'

theorem Ready.ends_updateFile (h : Ready disk m g) (hr : Resting disk m g) (hw : PlainNames file.resolved)
    (hx : file.normalize.extension? = some idlExtension) (ht : PlainImports text)
    (hwild : ∀ dir, directoryOf? file.normalize = some dir → Text.stripEnd? Listed.wildcard dir.text = none) :
    Ends (updateFile disk file text).run g fun _ g' => Ready disk m g' := by
  have hrest := hr.ends_updateFile hd hm hw hx ht
  have hn := normal_normalize file
  unfold updateFile at hrest ⊢
  simp only at hrest ⊢
  cases hdir : directoryOf? file.normalize with
  | none => exact h
  | some dir =>
    obtain ⟨hp, -⟩ := directoryOf?_eq hdir
    simp only [hdir, ends_then, ends_get_run] at hrest ⊢
    cases hin : g.packageIn? dir with
    | none =>
      refine h.ends_addFile hd hm hnamed hr ?_ ?_ ht ?_
      · rw [normalize_eq, resolved_ofNames _ hw.proper]
        exact hw
      · rw [normalize_normalize]
        exact hx
      · rw [normalize_normalize]
        exact hwild
    | some n =>
      simp only [hin, ends_then, ends_modify_run, ends_get_run, ends_lift] at hrest ⊢
      obtain ⟨hfind, heq, -⟩ := hr.inv.found_packageIn? hm hn hp hin
      have hdirOk : g.idlFiles disk dir = .ok n.files := heq ▸ (hr.inv.nodes _ n hfind).files
      obtain ⟨files, hfiles⟩ := idlFiles_isOk hdirOk (g.hold file.normalize text)
      rw [hfiles] at hrest ⊢
      exact h.edited hd hm hr hn hp hx hfind heq (fun old => rfl) hrest

end

end Graph

end IdlWorkbench
