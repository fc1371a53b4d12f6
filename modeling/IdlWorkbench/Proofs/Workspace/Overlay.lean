import IdlWorkbench.Proofs.Workspace.Listing

/-!
# Placeholders

Placeholders stand in directories without host files, one in each, so what is listed for a directory depends
on the disk and on the text of its own placeholder. A scan gives every directory of a module that holds IDL
files alone the placeholder that its first IDL file asks for, and adding it again changes nothing.
-/

namespace IdlWorkbench

open IdlWorkbench.Path

namespace Overlay

variable {disk : Disk}

def at? (o : Overlay) (dir : Path) : Option String := o.get? (dir.child placeholder)

theorem proper_placeholder : Proper placeholder := by decide

/-- The placeholders stand in directories without host files, one in each. The directories may be written in any
way. -/
structure Tidy (disk : Disk) (o : Overlay) : Prop where
  distinct : o.files.keys.Pairwise fun p q => ¬(p == q) = true
  form : ∀ p ∈ o.files.keys, ∃ dir : Path, p = dir.child placeholder
  bare : ∀ dir, dir.Normal → (o.at? dir).isSome = true → disk.filesWithExtension dir hostExtension = .ok []

theorem beq_placeholder (d d' : Path) : (d.child placeholder == d'.child placeholder) = (d == d') := by
  rw [Bool.eq_iff_iff, beq_iff, beq_iff, components_child _ proper_placeholder,
    components_child _ proper_placeholder]
  exact List.append_left_inj _

theorem parent?_placeholder (d dir : Path) : ((d.child placeholder).parent? == some dir) = (d == dir) := by
  obtain ⟨q, hq, hc⟩ := exists_parent? (components_child d proper_placeholder)
  rw [hq, Option.some_beq_some, Bool.eq_iff_iff, beq_iff, beq_iff, hc]

theorem tidy_empty (disk : Disk) : Tidy disk {} := ⟨.nil, by simp [Table.keys], by simp [at?, get?, Table.find?]⟩

theorem at?_insertPlaceholder (o : Overlay) (d d' : Path) (name : String) :
    (o.insertPlaceholder d name).at? d' = if d' == d then some ("package " ++ name) else o.at? d' := by
  simp only [at?, get?, insertPlaceholder, Table.find?_insert, beq_placeholder]

theorem Tidy.visited {o : Overlay} (h : Tidy disk o) (scanned : List Path) : Tidy disk { o with scanned } :=
  ⟨h.distinct, h.form, h.bare⟩

theorem Tidy.insertPlaceholder {o : Overlay} (h : Tidy disk o) {dir : Path} (name : String)
    (hf : ∀ d : Path, d.Normal → (d == dir) = true → disk.filesWithExtension d hostExtension = .ok []) :
    Tidy disk (o.insertPlaceholder dir name) := by
  refine ⟨?_, ?_, ?_⟩
  · simp only [Overlay.insertPlaceholder, Table.keys_insert]
    split
    · exact h.distinct
    · rename_i hany
      refine List.pairwise_append.mpr ⟨h.distinct, by simp, fun p hp q hq he => hany ?_⟩
      rw [List.mem_singleton.mp hq] at he
      exact List.any_eq_true.mpr ⟨p, hp, he⟩
  · intro p hp
    simp only [Overlay.insertPlaceholder, Table.keys_insert] at hp
    split at hp
    · exact h.form p hp
    · rcases List.mem_append.mp hp with hp | hp
      · exact h.form p hp
      · exact ⟨dir, List.mem_singleton.mp hp⟩
  · intro d hd hs
    rw [at?_insertPlaceholder] at hs
    split at hs
    · rename_i hbeq
      exact hf d hd hbeq
    · exact h.bare d hd hs

/-- The placeholders in a directory are just its own one. -/
theorem Tidy.filesIn_cases {o : Overlay} (h : Tidy disk o) (dir : Path) :
    o.filesIn dir = [] ∧ o.at? dir = none ∨ ∃ e, o.filesIn dir = [e] ∧ o.at? dir = some e.2 := by
  have hgen : ∀ files : Table Path String, files.keys.Pairwise (fun p q => ¬(p == q) = true) →
      (∀ p ∈ files.keys, ∃ d : Path, p = d.child placeholder) →
      (files.filter fun e => e.1.parent? == some dir) = [] ∧ files.find? (dir.child placeholder) = none ∨
        ∃ e, (files.filter fun e => e.1.parent? == some dir) = [e] ∧
        files.find? (dir.child placeholder) = some e.2 := by
    intro files
    induction files with
    | nil => exact fun _ _ => Or.inl ⟨rfl, rfl⟩
    | cons e files ih =>
      obtain ⟨p, text⟩ := e
      intro hk hform
      rw [Table.keys, List.map_cons, List.pairwise_cons] at hk
      obtain ⟨d, rfl⟩ := hform p (by simp [Table.keys])
      have ih := ih hk.2 fun q hq => hform q (List.mem_cons_of_mem _ hq)
      rw [List.filter_cons, parent?_placeholder]
      simp only [Table.find?, List.lookup_cons, beq_placeholder] at ih ⊢
      cases hbeq : d == dir with
      | true =>
        right
        have hnone : (files.filter fun e => e.1.parent? == some dir) = [] := by
          rw [List.filter_eq_nil_iff]
          intro q hq hparent
          obtain ⟨d', hq'⟩ := hform q.1 (List.mem_cons_of_mem _ (List.mem_map_of_mem hq))
          rw [hq', parent?_placeholder] at hparent
          refine hk.1 q.1 (List.mem_map_of_mem hq) ?_
          rw [hq', beq_placeholder]
          exact BEq.trans hbeq (BEq.symm hparent)
        refine ⟨(d.child placeholder, text), ?_, ?_⟩
        · rw [if_pos rfl, hnone]
        · rw [BEq.symm hbeq]
      | false =>
        have hbeq' : (dir == d) = false := by
          rw [BEq.comm]
          exact hbeq
        rw [hbeq', if_neg Bool.false_ne_true]
        exact ih
  exact hgen o.files h.distinct h.form

theorem Tidy.get?_host {o : Overlay} (h : Tidy disk o) (hd : disk.WellNamed) {dir : Path} (hn : dir.Normal)
    {hosts : List Path} (hf : disk.filesWithExtension dir hostExtension = .ok hosts) {file : Path}
    (hin : file ∈ hosts) : o.get? file = none := by
  obtain ⟨hfn, hparent⟩ := hd.files hn hf hin
  rw [← Option.not_isSome_iff_eq_none]
  intro hs
  obtain ⟨⟨key, text⟩, hmem, hkey⟩ := List.lookup_isSome_iff.mp hs
  obtain ⟨d, rfl⟩ := h.form key (List.mem_map_of_mem hmem)
  -- the file would be the placeholder of its own directory, which then has no host files
  have hself : (d == dir) = true := by
    obtain ⟨s, hc⟩ := hfn.components_eq hparent
    rw [beq_iff, hc, components_child _ proper_placeholder] at hkey
    exact beq_iff.mpr (List.append_inj' hkey rfl).1.symm
  have hat : (o.at? dir).isSome = true := by
    have hsame := BEq.trans hkey ((beq_placeholder d dir).trans hself)
    rw [at?, get?, ← Table.find?_congr o.files hsame]
    exact hs
  rw [h.bare dir hn hat] at hf
  cases hf
  cases hin

/-! ## Listing -/

theorem hasHostFiles_eq {o : Overlay} (h : Tidy disk o) {dir : Path} {hosts : List Path}
    (hf : disk.filesWithExtension dir hostExtension = .ok hosts) :
    hasHostFiles disk o dir = .ok ((o.at? dir).isSome || !hosts.isEmpty) := by
  unfold hasHostFiles
  rw [hf]
  rcases h.filesIn_cases dir with ⟨hnone, hat⟩ | ⟨e, hone, hat⟩
  · rw [hnone, hat]
    rfl
  · rw [hone, hat]
    rfl

/-- A directory with a placeholder or with host files is a package if its host files can be read. -/
theorem ofDir?_eq {o : Overlay} {l : Layout} {dir : Path} {path : String} (hp : l.importPathOf? dir = some path)
    (hh : hasHostFiles disk o dir = .ok true) : Listed.ofDir? disk l o dir =
      (Listed.clauses disk o dir).map fun cs =>
        some ⟨path, dir, cs.head?.map (·.1), Listed.disagreement dir cs⟩ := by
  unfold Listed.ofDir? Listed.ofDir
  rw [hh, hp]
  cases Listed.clauses disk o dir <;> rfl

/-- A directory with a placeholder is a package, and the placeholder names it. -/
theorem ofDir?_placeholder {o : Overlay} (h : Tidy disk o) (l : Layout) {dir : Path} (hn : dir.Normal)
    {text : String}
    (hat : o.at? dir = some text) : Listed.ofDir? disk l o dir =
      (l.importPathOf? dir).elim (.error (.outsideModule dir))
        fun path => .ok (some ⟨path, dir, Token.packageClauseName text, []⟩) := by
  have hbare := h.bare dir hn (by rw [hat]; rfl)
  have hhas := hasHostFiles_eq h hbare
  rw [hat] at hhas
  cases hp : l.importPathOf? dir with
  | none =>
    unfold Listed.ofDir? Listed.ofDir
    rw [hhas, hp]
    rfl
  | some path =>
    obtain ⟨-, hnone⟩ | ⟨e, hone, htext⟩ := h.filesIn_cases dir
    · rw [hat] at hnone
      cases hnone
    · rw [hat, Option.some_inj] at htext
      subst htext
      rw [ofDir?_eq hp hhas, Listed.clauses, hbare, hone]
      cases hname : Token.packageClauseName e.2 <;>
        simp [bind, Except.bind, pure, Except.pure, hname, Listed.disagreement, Except.map]

/-- Without a placeholder, the host files on disk say what is listed. -/
theorem ofDir?_bare {o : Overlay} (hd : disk.WellNamed) (h : Tidy disk o) (l : Layout) {dir : Path} (hn : dir.Normal)
    (hat : o.at? dir = none) : Listed.ofDir? disk l o dir = Listed.ofDir? disk l {} dir := by
  obtain ⟨hnone, -⟩ | ⟨e, -, hsome⟩ := h.filesIn_cases dir
  · have hempty : ({} : Overlay).filesIn dir = [] := rfl
    unfold Listed.ofDir? Listed.ofDir hasHostFiles Listed.clauses
    rw [hnone, hempty]
    cases hf : disk.filesWithExtension dir hostExtension with
    | error e => rfl
    | ok hosts =>
      have hall : hosts.filter (fun f => (o.get? f).isNone) = hosts := by
        rw [List.filter_eq_self]
        intro f hin
        rw [h.get?_host hd hn hf hin]
        rfl
      have hall' : hosts.filter (fun f => (({} : Overlay).get? f).isNone) = hosts :=
        List.filter_eq_self.mpr fun f _ => rfl
      simp only [bind, Except.bind, hall, hall']
  · rw [hat] at hsome
    cases hsome

/-- What is listed for a directory depends on its own placeholder alone. -/
theorem ofDir?_congr {o o' : Overlay} (hd : disk.WellNamed) (h : Tidy disk o) (h' : Tidy disk o') (l : Layout)
    {dir : Path} (hn : dir.Normal) (heq : o.at? dir = o'.at? dir) :
    Listed.ofDir? disk l o dir = Listed.ofDir? disk l o' dir := by
  cases hat : o.at? dir with
  | none => rw [ofDir?_bare hd h l hn hat, ofDir?_bare hd h' l hn (heq ▸ hat)]
  | some text => rw [ofDir?_placeholder h l hn hat, ofDir?_placeholder h' l hn (heq ▸ hat)]

/-- A directory can only be listed as a whole. -/
theorem hosts_of_ofDir? {o : Overlay} {l : Layout} {dir : Path} {x : Option Listed}
    (h : Listed.ofDir? disk l o dir = .ok x) : ∃ hosts, disk.filesWithExtension dir hostExtension = .ok hosts := by
  cases hf : disk.filesWithExtension dir hostExtension with
  | ok hosts => exact ⟨hosts, rfl⟩
  | error e =>
    unfold Listed.ofDir? hasHostFiles Listed.ofDir Listed.clauses at h
    rw [hf] at h
    obtain ⟨b, hb, h⟩ := bind_eq_ok.mp h
    split at h
    · obtain ⟨y, hy, -⟩ := bind_eq_ok.mp h
      split at hy <;> cases hy
    · rename_i hfalse
      split at hb
      · cases hb
        exact absurd rfl hfalse
      · cases hb

/-- A directory that could be listed still can be with other placeholders, if it has one unless it has host files. -/
theorem ofDir?_isSome {o o' : Overlay} (hd : disk.WellNamed) (h : Tidy disk o) (h' : Tidy disk o') {l : Layout}
    {dir : Path} (hn : dir.Normal) {path : String} (hp : l.importPathOf? dir = some path) {x : Option Listed}
    (hx : Listed.ofDir? disk l o dir = .ok x)
    (hsome : disk.filesWithExtension dir hostExtension = .ok [] → (o'.at? dir).isSome = true) :
    ∃ y, Listed.ofDir? disk l o' dir = .ok (some y) ∧ y.path = path ∧ y.dir = dir := by
  cases hat : o'.at? dir with
  | some text =>
    rw [ofDir?_placeholder h' l hn hat, hp]
    exact ⟨_, rfl, rfl, rfl⟩
  | none =>
    obtain ⟨hosts, hf⟩ := hosts_of_ofDir? hx
    have hne : hosts ≠ [] := by
      rintro rfl
      have hs := hsome hf
      rw [hat] at hs
      cases hs
    -- with host files there is no placeholder, so nothing is different
    have hnone : o.at? dir = none := by
      rw [← Option.not_isSome_iff_eq_none]
      intro hs
      rw [h.bare dir hn hs] at hf
      cases hf
      exact hne rfl
    rw [← ofDir?_congr hd h h' l hn (hnone.trans hat.symm)]
    have hhas : hasHostFiles disk o dir = .ok true := by
      rw [hasHostFiles_eq h hf, hnone]
      simp [hne]
    rw [ofDir?_eq hp hhas] at hx ⊢
    cases hc : Listed.clauses disk o dir with
    | error e =>
      rw [hc] at hx
      cases hx
    | ok cs => exact ⟨_, rfl, rfl, rfl⟩

/-! ## Adding placeholders -/

/-- The name in the placeholder that a directory with IDL files alone gets. -/
def nameFor (disk : Disk) (dir : Path) : Except LayoutError (Option String) := do
  if !(← disk.filesWithExtension dir hostExtension).isEmpty then
    return none
  match ← disk.filesWithExtension dir idlExtension with
  | [] => return none
  | first :: _ => return some (((disk.read first).toOption.bind Token.packageClauseName).getD dir.fileName)

theorem nameFor_isOk {dir : Path} {hosts : List Path} (h : disk.filesWithExtension dir hostExtension = .ok hosts) :
    ∃ name, nameFor disk dir = .ok name := by
  obtain ⟨files, hfiles⟩ := Disk.filesWithExtension_isOk h idlExtension
  unfold nameFor
  rw [h, hfiles]
  simp only [bind, Except.bind]
  split
  · exact ⟨_, rfl⟩
  · cases files <;> exact ⟨_, rfl⟩

theorem addForDir_eq (disk : Disk) (dir : Path) (o : Overlay) :
    o.addForDir disk dir = (nameFor disk dir).map fun
      | none => (false, o)
      | some name => (true, o.insertPlaceholder dir name) := by
  unfold addForDir nameFor
  cases disk.filesWithExtension dir hostExtension with
  | error e => rfl
  | ok hosts =>
    simp only [bind, Except.bind]
    split
    · rfl
    · cases disk.filesWithExtension dir idlExtension with
      | error e => rfl
      | ok files => cases files <;> rfl

theorem hosts_of_nameFor {dir : Path} {name : String} (h : nameFor disk dir = .ok (some name)) :
    disk.filesWithExtension dir hostExtension = .ok [] := by
  unfold nameFor at h
  obtain ⟨hosts, hf, h⟩ := bind_eq_ok.mp h
  split at h
  · cases h
  · rename_i he
    rw [hf]
    cases hosts with
    | nil => rfl
    | cons _ _ => exact absurd rfl he

def withPlaceholder (disk : Disk) (o : Overlay) (dir : Path) : Overlay :=
  match o.addForDir disk dir with
  | .ok (_, o) => o
  | .error _ => o

theorem withPlaceholder_eq (disk : Disk) (o : Overlay) (dir : Path) :
    o.withPlaceholder disk dir =
      match nameFor disk dir with
      | .ok (some name) => o.insertPlaceholder dir name
      | _ => o := by
  unfold withPlaceholder
  rw [addForDir_eq]
  cases nameFor disk dir with
  | error e => rfl
  | ok name => cases name <;> rfl

theorem addForDir_map {dir : Path} {name : Option String} (h : nameFor disk dir = .ok name) (o : Overlay) :
    (o.addForDir disk dir).map (·.2) = .ok (o.withPlaceholder disk dir) := by
  rw [withPlaceholder_eq, addForDir_eq, h]
  cases name <;> rfl

/-- A relative directory has no files. -/
theorem withPlaceholder_relative {dir : Path} (h : dir.isAbsolute = false) (o : Overlay) :
    o.withPlaceholder disk dir = o := by
  rw [withPlaceholder_eq]
  split
  · rename_i name hname
    unfold nameFor at hname
    obtain ⟨hosts, -, hname⟩ := bind_eq_ok.mp hname
    split at hname
    · cases hname
    · obtain ⟨files, hfiles, hname⟩ := bind_eq_ok.mp hname
      cases files with
      | nil => cases hname
      | cons first files =>
        obtain ⟨-, -, inside, hlist, -⟩ := Disk.mem_filesWithExtension hfiles List.mem_cons_self
        rw [Disk.isAbsolute_of_list hlist] at h
        cases h
  · rfl

def Spells (disk : Disk) (dir : Path) : Prop :=
  ∀ d : Path, d.Normal → (d == dir) = true → ∀ name, nameFor disk dir = .ok (some name) →
    nameFor disk d = .ok (some name)

theorem Spells.of_normal {dir : Path} (hn : dir.Normal) : Spells disk dir :=
  fun _ hd hbeq _ hname => hd.eq_of_beq hn hbeq ▸ hname

theorem Tidy.withPlaceholder {o : Overlay} (h : Tidy disk o) {dir : Path} (hs : Spells disk dir) :
    Tidy disk (o.withPlaceholder disk dir) := by
  rw [withPlaceholder_eq]
  split
  · rename_i name hname
    exact h.insertPlaceholder name fun d hd hbeq => hosts_of_nameFor (hs d hd hbeq name hname)
  · exact h

theorem at?_withPlaceholder (o : Overlay) (d d' : Path) :
    (o.withPlaceholder disk d).at? d' =
      match nameFor disk d with
      | .ok (some name) => if d' == d then some ("package " ++ name) else o.at? d'
      | _ => o.at? d' := by
  rw [withPlaceholder_eq]
  split
  · exact at?_insertPlaceholder o d d' _
  · rfl

theorem scanned_withPlaceholder (o : Overlay) (dir : Path) : (o.withPlaceholder disk dir).scanned = o.scanned := by
  rw [withPlaceholder_eq]
  split <;> rfl

/-! ## Scanning -/

/-- The directories that are visited when a root is scanned. -/
def visits (disk : Disk) (root : Path) : List Path :=
  (disk.directories root).map fun names => names.foldl Path.child root

theorem exists_nameFor_of_visits {root dir : Path} (h : dir ∈ visits disk root) :
    ∃ name, nameFor disk dir = .ok name := by
  obtain ⟨names, hn, rfl⟩ := List.mem_map.mp h
  have hdir := Disk.isDirectory_of_mem_directories hn
  obtain ⟨hosts, hhosts⟩ := Disk.filesWithExtension_of_isDirectory hdir hostExtension
  exact nameFor_isOk hhosts

theorem ends_scanDir {dir : Path} {name : Option String} (h : nameFor disk dir = .ok name) {o : Overlay}
    {Q : Except LayoutError Unit → Overlay → Prop} :
    Ends (scanDir disk dir).run o Q ↔ Q (.ok ()) (o.withPlaceholder disk dir) := by
  have hadd : o.addForDir disk dir = .ok (name.isSome, o.withPlaceholder disk dir) := by
    rw [withPlaceholder_eq, addForDir_eq, h]
    cases name <;> rfl
  unfold scanDir
  rw [ends_then, ends_get_run]
  simp only [hadd]
  exact Iff.rfl

theorem ends_scanDirs {Q : Except LayoutError Unit → Overlay → Prop} : ∀ {dirs : List Path} {o : Overlay},
    (∀ dir ∈ dirs, ∃ name, nameFor disk dir = .ok name) →
      (Ends (dirs.forM (scanDir disk)).run o Q ↔ Q (.ok ()) (dirs.foldl (withPlaceholder disk) o))
  | [], _, _ => Iff.rfl
  | dir :: dirs, o, h => by
    obtain ⟨name, hname⟩ := h dir List.mem_cons_self
    rw [List.forM_eq_forM, List.forM_cons, ends_then, ends_scanDir hname]
    exact ends_scanDirs fun d hd => h d (List.mem_cons_of_mem _ hd)

/-- A scan reads every directory that it visits, so it does not fail. -/
theorem ends_scanRoot {o : Overlay} {root : Path} {Q : Except LayoutError Unit → Overlay → Prop} :
    Ends (scanRoot disk root).run o Q ↔ Q (.ok ()) ((visits disk root).foldl (withPlaceholder disk) o) := by
  have hdirs : scanRoot disk root = (visits disk root).forM (scanDir disk) := by
    unfold scanRoot visits
    rw [List.forM_eq_forM, List.forM_eq_forM, List.forM_map]
  rw [hdirs]
  exact ends_scanDirs fun _ => exists_nameFor_of_visits

/-- The placeholders when the root of a module has been scanned. -/
def sweep (disk : Disk) (o : Overlay) (m : ModuleRoot) : Overlay :=
  if o.scanned.contains m.dir then o
  else (visits disk m.dir).foldl (withPlaceholder disk) { o with scanned := m.dir :: o.scanned }

theorem ends_scanModule {o : Overlay} {m : ModuleRoot} {Q : Except LayoutError Unit → Overlay → Prop} :
    Ends (scanModule disk m).run o Q ↔ Q (.ok ()) (o.sweep disk m) := by
  unfold scanModule sweep
  rw [ends_then, ends_get_run]
  simp only
  cases o.scanned.contains m.dir with
  | true => exact Iff.rfl
  | false => exact ends_scanRoot

theorem ends_scanModules {Q : Except LayoutError Unit → Overlay → Prop} : ∀ {ms : List ModuleRoot} {o : Overlay},
    Ends (ms.forM (scanModule disk)).run o Q ↔ Q (.ok ()) (ms.foldl (sweep disk) o)
  | [], _ => Iff.rfl
  | m :: ms, o => by
    rw [List.forM_eq_forM, List.forM_cons, ends_then, ends_scanModule]
    exact ends_scanModules

theorem ensureScanned_eq_foldl (l : Layout) (o : Overlay) :
    o.ensureScanned disk l = l.modules.foldl (sweep disk) o :=
  (ends_scanModules.mpr rfl : Ends (scanAll disk l).run o fun _ t => t = l.modules.foldl (sweep disk) o)

theorem run_scanAll (l : Layout) (o : Overlay) : (scanAll disk l).run.run o = (.ok (), o.ensureScanned disk l) := by
  have hok : Ends (scanAll disk l).run o fun r _ => r = .ok () := ends_scanModules.mpr rfl
  exact Prod.ext hok rfl

theorem scanDirs_spec : ∀ {dirs : List Path} {o : Overlay}, (∀ d ∈ dirs, d.Normal) → Tidy disk o →
    Tidy disk (dirs.foldl (withPlaceholder disk) o) ∧ (dirs.foldl (withPlaceholder disk) o).scanned = o.scanned ∧
      (∀ d ∈ dirs, ∀ name, nameFor disk d = .ok (some name) →
        (dirs.foldl (withPlaceholder disk) o).at? d = some ("package " ++ name)) ∧
      ∀ d, d.Normal → (dirs.foldl (withPlaceholder disk) o).at? d = o.at? d ∨
        ∃ name, nameFor disk d = .ok (some name) ∧
          (dirs.foldl (withPlaceholder disk) o).at? d = some ("package " ++ name)
  | [], o, _, h => ⟨h, rfl, by simp, fun d _ => Or.inl rfl⟩
  | dir :: dirs, o, hn, h => by
    have hdir := hn dir (by simp)
    obtain ⟨htidy, hscanned, hnamed, hother⟩ :=
      scanDirs_spec (fun d hd => hn d (List.mem_cons_of_mem _ hd)) (h.withPlaceholder (.of_normal hdir))
    rw [List.foldl_cons]
    refine ⟨htidy, hscanned.trans (scanned_withPlaceholder o dir), ?_, ?_⟩
    · intro d hd name hname
      rcases List.mem_cons.mp hd with rfl | hd
      · rcases hother d hdir with he | ⟨name', hname', he⟩
        · rw [he, at?_withPlaceholder, hname]
          exact if_pos BEq.rfl
        · rw [hname] at hname'
          cases hname'
          exact he
      · exact hnamed d hd name hname
    · intro d hd
      rcases hother d hd with he | he
      · rw [he, at?_withPlaceholder]
        split
        · rename_i name hname
          split
          · rename_i hbeq
            exact Or.inr ⟨name, hd.eq_of_beq hdir hbeq ▸ hname, rfl⟩
          · exact Or.inl rfl
        · exact Or.inl rfl
      · exact Or.inr he

section
variable {l : Layout} {m : ModuleRoot} (hl : l.modules = [m])
include hl

theorem ensureScanned_eq (o : Overlay) : o.ensureScanned disk l =
    if o.scanned.contains m.dir then o
    else (visits disk m.dir).foldl (withPlaceholder disk) { o with scanned := m.dir :: o.scanned } := by
  rw [ensureScanned_eq_foldl, hl]
  rfl

theorem ensureScanned_of_contains {o : Overlay} (h : o.scanned.contains m.dir = true) :
    o.ensureScanned disk l = o := by
  rw [ensureScanned_eq hl, if_pos h]

variable (hd : disk.WellNamed) (hm : m.dir.Rooted)
include hd hm

omit hl in
theorem normal_visits : ∀ d ∈ visits disk m.dir, d.Normal := by
  intro d h
  obtain ⟨names, hn, rfl⟩ := List.mem_map.mp h
  exact (hm.foldl_child (hd.directories hn)).normal

theorem Tidy.ensureScanned {o : Overlay} (h : Tidy disk o) : Tidy disk (o.ensureScanned disk l) := by
  rw [ensureScanned_eq hl]
  split
  · exact h
  · exact (scanDirs_spec (normal_visits hd hm) (h.visited (m.dir :: o.scanned))).1

theorem contains_ensureScanned {o : Overlay} (h : Tidy disk o) :
    (o.ensureScanned disk l).scanned.contains m.dir = true := by
  rw [ensureScanned_eq hl]
  split
  · assumption
  · rw [(scanDirs_spec (normal_visits hd hm) (h.visited (m.dir :: o.scanned))).2.1]
    simp

omit hl hd in
/-- A directory of the module with IDL files is one of those that a scan visits. -/
theorem mem_visits {dir : Path} {path : String} (ho : m.Owns dir path) {name : String}
    (hname : nameFor disk dir = .ok (some name)) :
    dir ∈ visits disk m.dir := by
  obtain ⟨names, hplain, rfl, -⟩ := ho
  have hall := hm.plain_resolved.append hplain
  unfold nameFor at hname
  obtain ⟨hosts, -, hname⟩ := bind_eq_ok.mp hname
  split at hname
  · cases hname
  · obtain ⟨files, hfiles, hname⟩ := bind_eq_ok.mp hname
    cases files with
    | nil => cases hname
    | cons first files =>
      obtain ⟨-, -, inside, hlist, -⟩ := Disk.mem_filesWithExtension hfiles List.mem_cons_self
      have hdir := Disk.isDirectory_of_list hlist
      rw [ModuleRoot.dirAt_eq hm hplain] at hlist
      unfold Disk.list at hlist
      split at hlist
      · rename_i found hlocate
        have hfront := Disk.locate_front hall.proper hlocate (Or.inr rfl)
        rw [← hm.eq_ofNames] at hfront
        obtain ⟨-, hfind⟩ := Disk.find?_of_locate hall.proper hlocate
        exact List.mem_map.mpr ⟨names, Disk.mem_directories hfront hfind hdir, rfl⟩
      · cases hlist
      · cases hlist

/-- Every directory of the module with IDL files alone has the placeholder that they ask for. -/
def Complete (disk : Disk) (m : ModuleRoot) (o : Overlay) : Prop :=
  ∀ dir path name, m.Owns dir path → nameFor disk dir = .ok (some name) → o.at? dir = some ("package " ++ name)

theorem complete_ensureScanned {o : Overlay} (h : Tidy disk o) (hs : o.scanned.contains m.dir = true →
      Complete disk m o) :
    Complete disk m (o.ensureScanned disk l) := by
  rw [ensureScanned_eq hl]
  split
  · rename_i hc
    exact hs hc
  · intro dir path name ho hname
    exact (scanDirs_spec (normal_visits hd hm) (h.visited (m.dir :: o.scanned))).2.2.1 dir
      (mem_visits hm ho hname) name hname

omit hl in
/-- A scan of a directory that asks for a placeholder gives it that one, and leaves the others alone. -/
theorem at?_visits {o : Overlay} (h : Tidy disk o) {dir : Path} {path : String} (ho : m.Owns dir path) :
    ((visits disk m.dir).foldl (withPlaceholder disk) o).at? dir =
      match nameFor disk dir with
      | .ok (some name) => some ("package " ++ name)
      | _ => o.at? dir := by
  obtain ⟨-, -, hnamed, hother⟩ := scanDirs_spec (normal_visits hd hm) h
  split
  · rename_i name hname
    exact hnamed dir (mem_visits hm ho hname) name hname
  · rename_i hname
    rcases hother dir (ho.rooted hm).normal with he | ⟨name, hname', -⟩
    · exact he
    · exact absurd hname' (hname name)

/-- A scan does not take a placeholder away. -/
theorem isSome_ensureScanned {o : Overlay} (h : Tidy disk o) {dir : Path} {path : String} (ho : m.Owns dir path)
    (hs : (o.at? dir).isSome = true) : ((o.ensureScanned disk l).at? dir).isSome = true := by
  rw [ensureScanned_eq hl]
  split
  · exact hs
  · rw [at?_visits hd hm (h.visited _) ho]
    split
    · rfl
    · exact hs

/-- Where placeholders agree, they agree after a scan. -/
theorem at?_ensureScanned_congr {o o' : Overlay} (h : Tidy disk o) (h' : Tidy disk o') (hs : o'.scanned = o.scanned)
    {dir : Path} {path : String} (ho : m.Owns dir path) (hat : o'.at? dir = o.at? dir) :
    (o'.ensureScanned disk l).at? dir = (o.ensureScanned disk l).at? dir := by
  rw [ensureScanned_eq hl, ensureScanned_eq hl, hs]
  split
  · exact hat
  · rw [at?_visits hd hm (h.visited _) ho, at?_visits hd hm (h'.visited _) ho]
    split
    · rfl
    · exact hat

end

end Overlay

end IdlWorkbench
