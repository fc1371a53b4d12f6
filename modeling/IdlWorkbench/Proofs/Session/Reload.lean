import IdlWorkbench.Proofs.Session.Cycle
import IdlWorkbench.Proofs.Session.Ranked

/-!
# What is shown depends on the texts only

Where each note leaves shown what checking from scratch gives, the notes that came before do not matter: a session
that only opens the files that are open in the end shows the same for them. -/

namespace IdlWorkbench

open IdlWorkbench.Path

namespace Session

variable {disk : Disk} {m : ModuleRoot} {s : Session}

/-! ## Two ways to the same texts -/

theorem settings_after (disk : Disk) : ∀ (s : Session) (notes : List Note),
    (s.after disk notes).settings = s.settings
  | _, [] => rfl
  | s, n :: notes => by
    have hone : (s.hear disk n).2.settings = s.settings := by
      rw [hear_eq, note]
      cases s.graph <;> rfl
    exact (settings_after disk _ notes).trans hone

section
variable {g g' : Graph} {past past' : List Note} {ps ps' : Published} {s' : Session}
  (hd : disk.WellNamed) (hm : m.dir.Rooted) (h : Faithful disk m past ps s g) (h' : Faithful disk m past' ps' s' g')
  (hsame : ∀ p : Path, p.Normal → Note.lastText? past' p = Note.lastText? past p)
include h

theorem Faithful.mem_held {p : Path} (hp : p.Normal) : p ∈ g.held.keys ↔ (Note.lastText? past p).isSome = true := by
  rw [← h.find?_held hp]
  constructor
  · exact fun hmem => by rw [← Table.contains_eq]; exact Table.contains_of_mem_keys hmem
  · intro hsome
    obtain ⟨text, htext⟩ := Option.isSome_iff_exists.mp hsome
    obtain ⟨k, hk, hbeq⟩ := Table.exists_key_of_find? htext
    exact hp.eq_of_beq (h.placed k hk).1 hbeq ▸ hk

include hd hm

/-- A directory with an open file and without host files lists the package that is loaded for it. -/
theorem Faithful.freshAt_of_held {dir file : Path} {path : String} (howns : m.Owns dir path)
    (hhosts : disk.filesWithExtension dir hostExtension = .ok []) (hfile : file ∈ g.held.keys)
    (hp : file.parent? = some dir) :
    ∃ n, g.packages.find? path = some n ∧ n.dir = dir ∧ g.freshAt disk dir = .ok [n.bare] := by
  obtain ⟨key, n, hn, hf, -⟩ := h.told file hfile ⟨dir, hp, ModuleRoot.houses_of_bare howns hhosts⟩
  have hdir := (h.resting.inv.of_mem_files hd hm hn hf).2
  rw [hp, Option.some_inj] at hdir
  subst hdir
  obtain rfl : key = path := (h.resting.inv.nodes key n hn).owned.path_eq hm howns
  exact ⟨n, hn, rfl, Graph.fresh_iff.mp (h.ready.lists.fresh key n hn)⟩

include h' hsame

omit hd hm in
theorem Faithful.held_iff (p : Path) : p ∈ g'.held.keys ↔ p ∈ g.held.keys := by
  by_cases hp : p.Normal
  · rw [h.mem_held hp, h'.mem_held hp, hsame p hp]
  · exact iff_of_false (fun hin => hp (h'.placed p hin).1) fun hin => hp (h.placed p hin).1

theorem Faithful.idlFiles_eq {dir : Path} {path : String} (howns : m.Owns dir path) :
    g'.idlFiles disk dir = g.idlFiles disk dir := by
  refine Graph.idlFiles_of_heldIn hd h.resting.inv.held h'.resting.inv.held (howns.rooted hm).normal fun p => ?_
  rw [Graph.HeldIn, Graph.HeldIn, h.held_iff h' hsame]

omit hsame in
/-- A placeholder that is not there in both has been made for a text that is or was open, and not for what is on
disk. -/
theorem Faithful.bare_disk {dir : Path} {path : String} (howns : m.Owns dir path)
    (hat : (g.placeholders disk).at? dir ≠ (g'.placeholders disk).at? dir) :
    disk.filesWithExtension dir hostExtension = .ok [] ∧ disk.filesWithExtension dir idlExtension = .ok [] := by
  have hn := (howns.rooted hm).normal
  have hhosts : disk.filesWithExtension dir hostExtension = .ok [] := by
    rcases hsome : (g.placeholders disk).at? dir with _ | text
    · rw [hsome] at hat
      exact (h'.tidy_placeholders hd hm).bare dir hn (Option.isSome_iff_ne_none.mpr (Ne.symm hat))
    · exact (h.tidy_placeholders hd hm).bare dir hn (by rw [hsome]; rfl)
  obtain ⟨onDisk, hdisk⟩ := Disk.filesWithExtension_isOk hhosts idlExtension
  refine ⟨hhosts, ?_⟩
  cases onDisk with
  | nil => exact hdisk
  | cons first rest =>
    have hname : Overlay.nameFor disk dir =
        .ok (some (((disk.read first).toOption.bind Token.packageClauseName).getD dir.fileName)) := by
      unfold Overlay.nameFor
      rw [hhosts, hdisk]
      rfl
    have hcomplete := Overlay.complete_ensureScanned h.resting.inv.modules hd hm h.ready.lists.tidy
      h.ready.lists.complete dir path _ howns hname
    have hcomplete' := Overlay.complete_ensureScanned h'.resting.inv.modules hd hm h'.ready.lists.tidy
      h'.ready.lists.complete dir path _ howns hname
    exact absurd (hcomplete.trans hcomplete'.symm) hat

variable (hnames : ∀ key n n', g.packages.find? key = some n → g'.packages.find? key = some n' → n'.name = n.name)
include hnames

/-- A directory with an open file and without host files lists its package, which is loaded in both. -/
theorem Faithful.freshAt_held {dir file : Path} {path : String} (howns : m.Owns dir path)
    (hhosts : disk.filesWithExtension dir hostExtension = .ok []) (hfile : file ∈ g.held.keys)
    (hp : file.parent? = some dir) : g'.freshAt disk dir = g.freshAt disk dir := by
  have htidy := h.tidy_placeholders hd hm
  have htidy' := h'.tidy_placeholders hd hm
  obtain ⟨n, hfind, hdir, hfresh⟩ := h.freshAt_of_held hd hm howns hhosts hfile hp
  obtain ⟨n', hfind', hdir', hfresh'⟩ :=
    h'.freshAt_of_held hd hm howns hhosts ((h.held_iff h' hsame file).mpr hfile) hp
  have hnode := h.resting.inv.nodes path n hfind
  have hnode' := h'.resting.inv.nodes path n' hfind'
  have hfiles : n'.files = n.files := by
    have hlists := h.idlFiles_eq hd hm h' hsame howns
    rw [← hdir', hnode'.files, hdir', ← hdir, hnode.files] at hlists
    exact Except.ok.inj hlists
  have hn := (howns.rooted hm).normal
  have herrors := (h.ready.lists.fresh path n hfind).listErrors_eq htidy hn hhosts hd hdir
  have herrors' := (h'.ready.lists.fresh path n' hfind').listErrors_eq htidy' hn hhosts hd hdir'
  have hbare : n'.bare = n.bare := by
    unfold PackageNode.bare
    rw [hnode.path, hnode'.path, hdir, hdir', hnames path n n' hfind hfind', hfiles, herrors, herrors']
  rw [hfresh, hfresh', hbare]

/-- Directories list the same packages. What is on disk decides about them, or else the texts that are open there. -/
theorem Faithful.freshAt_eq {dir : Path} {path : String} (howns : m.Owns dir path) :
    g'.freshAt disk dir = g.freshAt disk dir := by
  have hl : g.layout.modules = [m] := h.resting.inv.modules
  have hl' : g'.layout.modules = [m] := h'.resting.inv.modules
  have htidy := h.tidy_placeholders hd hm
  have htidy' := h'.tidy_placeholders hd hm
  have hn := (howns.rooted hm).normal
  have hlayout : g'.layout = g.layout := h'.resting.inv.layout_eq.trans h.resting.inv.layout_eq.symm
  have hfiles := h.idlFiles_eq hd hm h' hsame howns
  by_cases hat : (g.placeholders disk).at? dir = (g'.placeholders disk).at? dir
  · have hlisted := Overlay.ofDir?_congr hd htidy htidy' g.layout hn hat
    exact Graph.SameAt.freshAt ⟨hlayout, hlayout ▸ hlisted.symm, hfiles⟩
  · obtain ⟨hhosts, hempty⟩ := h.bare_disk hd hm h' howns hat
    obtain ⟨files, hlist⟩ : ∃ files, g.idlFiles disk dir = .ok files := by
      unfold Graph.idlFiles
      rw [hempty]
      exact ⟨_, rfl⟩
    cases files with
    | nil =>
      have hhome : ∀ g : Graph, g.layout.modules = [m] → g.layout.importPathOf? dir = some path := fun g hl =>
        Layout.importPathOf?_of_owns hl hm howns
      rw [Graph.freshAt_bare htidy hn hhosts hd hlist (hhome g hl),
        Graph.freshAt_bare htidy' hn hhosts hd (hfiles.trans hlist) (hhome g' hl')]
    | cons file files =>
      obtain ⟨onDisk, hdisk, hmem⟩ := (Graph.filesOf_of_idlFiles hd h.resting.inv.held hn hlist).known
      rw [hempty] at hdisk
      cases hdisk
      have hheld := ((hmem file).mp (by simp)).resolve_left (by simp)
      exact h.freshAt_held hd hm h' hsame hnames howns hhosts hheld.1 hheld.2.1

/-- Where the editor has the same texts, checking from scratch finds the same. -/
theorem Faithful.alike : Graph.Alike disk m g g' := by
  have hlayout : g'.layout = g.layout := h'.resting.inv.layout_eq.trans h.resting.inv.layout_eq.symm
  refine ⟨hlayout, fun n path howns hn file hf => ?_, fun dir path howns =>
    h.freshAt_eq hd hm h' hsame hnames howns⟩
  have hnormal := (hn.of_mem_files hd h.resting.inv.held (howns.rooted hm).normal hf).1
  unfold Graph.read
  rw [h.find?_held hnormal, h'.find?_held hnormal, hsame file hnormal]

/-- What is shown for the files of a package is what checking it from scratch gives. -/
theorem Faithful.last_inside (hnamed : m.Named) (hsettings : s'.settings = s.settings) {file : Path}
    (hopen : file ∈ g.held.keys) (hinside : Graph.Inside disk m file) :
    Published.last ps' file = Published.last ps file := by
  have halike := h.alike hd hm h' hsame hnames
  have hopen' : file ∈ g'.held.keys := (h.held_iff h' hsame file).mpr hopen
  obtain ⟨key, n, hn, hf, -, -, depth, hshows⟩ := h.told file hopen hinside
  obtain ⟨key', n', hn', hf', -, -, depth', hshows'⟩ := h'.told file hopen' hinside
  have hfresh := h.ready.lists.fresh key n hn
  have howned := (h.resting.inv.nodes key n hn).owned
  have hdir : n'.dir = n.dir := by
    have hparent := (h'.resting.inv.of_mem_files hd hm hn' hf').2
    rw [(h.resting.inv.of_mem_files hd hm hn hf).2, Option.some_inj] at hparent
    exact hparent.symm
  have hbare : n'.bare = n.bare := by
    have hlisted := Graph.fresh_iff.mp (h'.ready.lists.fresh key' n' hn')
    rw [hdir, halike.fresh n.dir key howned, Graph.fresh_iff.mp hfresh, Except.ok.injEq, List.cons.injEq] at hlisted
    exact hlisted.1.symm
  have hscratch : ∀ fuel, g'.scratch disk s'.settings.lint fuel n' = g.scratch disk s.settings.lint fuel n := by
    intro fuel
    rw [hsettings, Graph.scratch_congr hbare]
    unfold Graph.scratch
    rw [halike.batchWithin hd hm hnamed h.resting.inv h.neat fuel howned hfresh]
  rw [hshows (max depth depth') (by omega), hshows' (max depth depth') (by omega), hscratch]

/-- What is shown for an open file depends on the texts that the editor has. -/
theorem Faithful.last_eq (hnamed : m.Named) (hsettings : s'.settings = s.settings) {file : Path}
    (hopen : file ∈ g.held.keys) : Published.last ps' file = Published.last ps file := by
  by_cases hinside : Graph.Inside disk m file
  · exact h.last_inside hd hm h' hsame hnames hnamed hsettings hopen hinside
  · have hnormal := (h.placed file hopen).1
    rw [h.quiet.last hnormal hinside, h'.quiet.last hnormal hinside]

end

def SameNames (s s' : Session) : Prop :=
  ∀ g ∈ s.graph, ∀ g' ∈ s'.graph, ∀ e ∈ g.packages, ∀ n' ∈ g'.packages.find? e.1, n'.name = e.2.name

instance (s s' : Session) : Decidable (SameNames s s') :=
  inferInstanceAs (Decidable (∀ g ∈ s.graph, ∀ g' ∈ s'.graph, ∀ e ∈ g.packages, ∀ n' ∈ g'.packages.find? e.1, _))

/-- What is shown for an open file is what is shown when the workspace is opened again and gets the same texts. For
this, edits must be passed on to all packages that they concern, and packages that are only in the editor must have
the same names. -/
theorem shown_by_texts (hd : disk.WellNamed) (hi : disk.NeatImports) {settings : Settings} {root : String}
    (h : Opens disk settings root s) (hm : Layout.discover disk (Path.ofString root).normalize = .ok ⟨[m]⟩)
    (hnamed : m.Named) {notes again : List Note} (hn : ∀ n ∈ notes ++ again, n.Neat)
    (hs : s.PassesOn disk notes) (hs' : s.PassesOn disk again)
    (hnames : SameNames (s.after disk notes) (s.after disk again))
    (hsame : ∀ p, Note.lastText? again p = Note.lastText? notes p) {file : Path}
    (hopen : (Note.lastText? notes file).isSome = true) :
    Published.last (s.published disk again) file = Published.last (s.published disk notes) file := by
  obtain ⟨hrooted, g₀, h₀⟩ := h.faithful hd hi hm hnamed
  obtain ⟨g, hg⟩ := h₀.after hd hrooted hnamed hi (fun n hin => hn n (List.mem_append_left _ hin)) hs
  obtain ⟨g', hg'⟩ := h₀.after hd hrooted hnamed hi (fun n hin => hn n (List.mem_append_right _ hin)) hs'
  have hnormal : file.Normal := by
    obtain ⟨text, htext⟩ := Option.isSome_iff_exists.mp hopen
    obtain ⟨n, -, rfl, -⟩ := Note.exists_of_lastText? htext
    exact n.normal_file
  have hsameNames : ∀ key n n', g.packages.find? key = some n → g'.packages.find? key = some n' → n'.name = n.name :=
    fun key n n' hn hn' => hnames g hg.graph g' hg'.graph (key, n) (Table.mem_of_find? hn) n' hn'
  refine hg.last_eq hd hrooted hg' (fun p _ => hsame p) hsameNames hnamed ?_ ((hg.mem_held hnormal).mpr hopen)
  rw [settings_after, settings_after]

def chainDisk : Disk :=
  ⟨[(["w"], .directory), (["w", "a"], .directory),
    (["w", "a", "a.gunk"], .file (some "package a\n\nconst X = 1\n")),
    (["w", "b"], .directory),
    (["w", "b", "b.gunk"], .file (some "package b\n\nimport \"example.com/m/a\"\n\nconst Y = a.X\n")),
    (["w", "go.mod"], .file (some "module example.com/m\n"))]⟩

/-- A third package, in the editor only, imports the second one. The constant that it gets from the first one by way
of the second one becomes a string. A file outside of the module is opened, and one is closed that was not open. -/
def chainNotes : List Note :=
  [.opened "/w/a/a.gunk" "package a\n\nconst X = 1\n",
    .opened "/v/v.gunk" "package v\n",
    .closed "/w/d/d.gunk",
    .opened "/w/c/c.gunk" "package c\n\nimport \"example.com/m/b\"\n\nconst Z int = b.Y\n",
    .opened "/w/b/b.gunk" "package b\n\nimport \"example.com/m/a\"\n\nconst Y = a.X\n",
    .changed "/w/a/a.gunk" "package a\n\nconst X = \"s\"\n"]

def chainAgain : List Note :=
  [.opened "/w/a/a.gunk" "package a\n\nconst X = \"s\"\n",
    .opened "/v/v.gunk" "package v\n",
    .opened "/w/c/c.gunk" "package c\n\nimport \"example.com/m/b\"\n\nconst Z int = b.Y\n",
    .opened "/w/b/b.gunk" "package b\n\nimport \"example.com/m/a\"\n\nconst Y = a.X\n"]

def chainRank (path : String) : Nat :=
  if path = "example.com/m/c" then 2 else if path = "example.com/m/b" then 1 else 0

theorem chainRank_lt (path : String) : chainRank path < 3 := by
  unfold chainRank
  split
  · omega
  · split <;> omega

theorem neatImports_chainDisk : chainDisk.NeatImports := by
  intro file text _ hr
  obtain ⟨key, hk⟩ := Disk.mem_entries_of_read hr
  simp only [chainDisk, List.mem_cons, Prod.mk.injEq, Entry.file.injEq, reduceCtorEq, and_false, false_or, or_false,
    List.not_mem_nil, Option.some_inj] at hk
  rcases hk with ⟨-, rfl⟩ | ⟨-, rfl⟩ | ⟨-, rfl⟩ <;> decide +kernel

theorem lastText?_chain (p : Path) : Note.lastText? chainAgain p = Note.lastText? chainNotes p := by
  have hdistinct : ["/w/a/a.gunk", "/w/b/b.gunk", "/w/c/c.gunk", "/v/v.gunk", "/w/d/d.gunk"].Pairwise fun x y =>
      (Path.ofString x).normalize ≠ (Path.ofString y).normalize := by decide +kernel
  simp only [List.pairwise_cons, List.mem_cons, List.not_mem_nil, or_false, forall_eq_or_imp, forall_eq] at hdistinct
  obtain ⟨⟨hab, hac, hav, -⟩, ⟨hbc, hbv, -⟩, ⟨hcv, -⟩, hvd, -⟩ := hdistinct
  unfold Note.lastText? chainAgain chainNotes
  by_cases ha : (Path.ofString "/w/a/a.gunk").normalize = p
  · subst ha
    simp [Note.file, hab.symm, hac.symm, hav.symm, Note.text?]
  · by_cases hb : (Path.ofString "/w/b/b.gunk").normalize = p
    · subst hb
      simp [Note.file, hab, Note.text?]
    · by_cases hc : (Path.ofString "/w/c/c.gunk").normalize = p
      · subst hc
        simp [Note.file, hac, hbc, Note.text?]
      · by_cases hv : (Path.ofString "/v/v.gunk").normalize = p
        · subst hv
          simp [Note.file, hav, hbv, hcv, hvd.symm, Note.text?]
        · by_cases hd : (Path.ofString "/w/d/d.gunk").normalize = p <;>
            simp [Note.file, ha, hb, hc, hv, hd, Note.text?]

theorem shown_by_texts_chain : Opens chainDisk {} "/w" (opened chainDisk {} "/w") ∧
    Published.last ((opened chainDisk {} "/w").published chainDisk chainAgain) (Path.ofString "/w/c/c.gunk") =
      Published.last ((opened chainDisk {} "/w").published chainDisk chainNotes) (Path.ofString "/w/c/c.gunk") := by
  have hd : chainDisk.WellNamed := by decide
  have h : Opens chainDisk {} "/w" (opened chainDisk {} "/w") := opens_opened (by decide +kernel)
  have hneat : ∀ n ∈ chainNotes ++ chainAgain, n.Neat := by decide +kernel
  have hranked : Ranked ⟨[⟨"example.com/m", .ofString "/w"⟩]⟩ chainRank
    (chainDisk.texts ++ Note.texts chainNotes) := by decide +kernel
  have hranked' : Ranked ⟨[⟨"example.com/m", .ofString "/w"⟩]⟩ chainRank
    (chainDisk.texts ++ Note.texts chainAgain) := by decide +kernel
  have hchecks : (opened chainDisk {} "/w").Checks chainDisk 3 chainNotes := by decide +kernel
  have hchecks' : (opened chainDisk {} "/w").Checks chainDisk 3 chainAgain := by decide +kernel
  have hnames : SameNames ((opened chainDisk {} "/w").after chainDisk chainNotes)
      ((opened chainDisk {} "/w").after chainDisk chainAgain) := by decide +kernel
  have hs := h.passesOn hd neatImports_chainDisk rfl named_sample chainRank_lt
    (fun n hin => hneat n (List.mem_append_left _ hin)) hranked hchecks
  have hs' := h.passesOn hd neatImports_chainDisk rfl named_sample chainRank_lt
    (fun n hin => hneat n (List.mem_append_right _ hin)) hranked' hchecks'
  refine ⟨h, ?_⟩
  exact shown_by_texts hd neatImports_chainDisk h rfl named_sample hneat hs hs' hnames lastText?_chain
    (by decide +kernel)

end Session

end IdlWorkbench
