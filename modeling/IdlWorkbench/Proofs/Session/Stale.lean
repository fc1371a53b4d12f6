import IdlWorkbench.Proofs.Graph.Edited
import IdlWorkbench.Proofs.Session.Held

/-!
# No diagnostics stay behind

Every diagnostic of a package is shown for one of its files, since only packages with files are ever dirty. A
file leaves the files of a package only when it is closed and is not on disk. If the package goes with it, an
empty list is published for the file; if the package lives on, nothing is, and what was shown for the file stays
in the editor. Apart from such files that are left behind, diagnostics are shown for files of loaded packages
only.
-/

namespace IdlWorkbench

open IdlWorkbench.Path

namespace Graph

variable {disk : Disk} {m : ModuleRoot} {g g' : Graph}

/-! ## Files of the loaded packages -/

def Has (g : Graph) (p : Path) : Prop := ∃ key n, g.packages.find? key = some n ∧ p ∈ n.files

section
variable (hd : disk.WellNamed) (hm : m.dir.Rooted) (hi : Inv disk m g) (hi' : Inv disk m g') {key : String}
  {n : PackageNode} (hn : g.packages.find? key = some n)
include hi hi' hn

/-- While the held texts stay the same, so do the files of a package. -/
theorem Inv.files_eq (hh : g'.held = g.held) {n' : PackageNode} (hn' : g'.packages.find? key = some n') :
    n'.files = n.files := by
  have hnode := hi.nodes key n hn
  have h := (hi'.nodes key n' hn').files
  rw [(hi'.nodes key n' hn').owned.dir_eq hnode.owned, idlFiles_congr hh, hnode.files] at h
  exact (Except.ok.inj h).symm

include hd hm

/-- A file of a package stays one as long as the package is there and the file is held or on disk. -/
theorem Inv.has (hk : g'.packages.contains key = true) {p : Path} (hp : p ∈ n.files)
    (hh : p ∈ g.held.keys → p ∈ g'.held.keys ∨ disk.isFile p = true) : g'.Has p := by
  obtain ⟨n', hn'⟩ := contains_iff.mp hk
  have hnode := hi.nodes key n hn
  have hnode' := hi'.nodes key n' hn'
  have hdir : n'.dir = n.dir := hnode'.owned.dir_eq hnode.owned
  have hr := hi.rooted_dir hm hn
  have hfiles := filesOf_of_idlFiles hd hi.held hr.normal hnode.files
  have hfiles' := filesOf_of_idlFiles hd hi'.held hr.normal (hdir ▸ hnode'.files)
  obtain ⟨onDisk, hdisk, hmem⟩ := hfiles.known
  obtain ⟨onDisk', hdisk', hmem'⟩ := hfiles'.known
  rw [hdisk] at hdisk'
  cases hdisk'
  refine ⟨key, n', hn', (hmem' p).mpr ?_⟩
  rcases (hmem p).mp hp with h | ⟨hheld, hparent, hx⟩
  · exact Or.inl h
  · rcases hh hheld with h | h
    · exact Or.inr ⟨h, hparent, hx⟩
    · exact Or.inl (Disk.mem_filesWithExtension_of_isFile hdisk (hi.held p hheld) hparent hx h)

end

/-! ## Dirty packages have files -/

/-- Packages that have diagnostics, or need them, have files. -/
def Filled (g : Graph) : Prop :=
  ∀ key n, g.packages.find? key = some n → n.state = .dirty ∨ n.state = .current → n.files ≠ []

theorem Filled.extends (h : Filled g) (hi : Inv disk m g) (hi' : Inv disk m g') (he : Extends g g') : Filled g' := by
  intro key n hn hs
  rcases he.added key n hn with hk | hu
  · obtain ⟨old, hold⟩ := contains_iff.mp hk
    obtain ⟨n', hn', hstate⟩ := he.kept key old hold
    rw [hn] at hn'
    cases hn'
    rw [hi.files_eq hi' hold he.held hn]
    exact h key old hold (hstate ▸ hs)
  · simp [hu] at hs

theorem Filled.modifyPackage (h : Filled g) {path : String} {f : PackageNode → PackageNode}
    (hf : ∀ n, g.packages.find? path = some n → (f n).files ≠ []) : Filled (g.modifyPackage path f) := by
  intro key n hn hs
  rw [find?_modifyPackage] at hn
  split at hn
  · rename_i heq
    subst heq
    obtain ⟨old, hold, rfl⟩ := Option.map_eq_some_iff.mp hn
    exact hf old hold
  · exact h key n hn hs

theorem Filled.invalidate (h : Filled g) (path : String) : Filled (g.invalidate path) := by
  intro key n hn hs
  rw [find?_invalidate] at hn
  obtain ⟨old, hold, rfl⟩ := Option.map_eq_some_iff.mp hn
  have hkey := h key old hold
  unfold invalidateNode at hs ⊢
  split at hs
  · rename_i hsame
    rw [if_pos hsame]
    exact hkey hs
  · rename_i hsame
    rw [if_neg hsame]
    apply hkey
    simp only at hs
    split at hs
    · rename_i hc
      exact Or.inr hc
    · exact hs

theorem Filled.publish (h : Filled g) (path : String) (surface : Option Surface) :
    Filled (g.publish path surface) := by
  unfold Graph.publish
  simp only
  split
  · exact Filled.invalidate h path
  · exact h

theorem Filled.noteEdit (h : Filled g) (path : String) : Filled (g.noteEdit path) := by
  apply Filled.invalidate
  intro key n hn
  rw [packages_evictMemo] at hn
  exact h key n hn

/-! ## Diagnostics are about files of the package -/

/-- A path that leads to a file of a package, however it is written. -/
theorem contains_files {files : List Path} {p : Path} (h : ∃ q ∈ files, p = q) : files.contains p = true :=
  List.contains_iff_exists_mem_beq.mpr (h.imp fun _ ⟨hq, he⟩ => ⟨hq, he ▸ BEq.rfl⟩)

section
variable {files : List Path}

theorem file_of_parsed {f : ParsedFile} (h : f ∈ files.map (ParsedFile.ofPath disk g)) :
    files.contains f.path = true := by
  obtain ⟨p, hp, rfl⟩ := List.mem_map.mp h
  exact contains_files ⟨p, hp, rfl⟩

theorem file_of_parseErrors {e : PackageError}
    (h : e ∈ (files.map (ParsedFile.ofPath disk g)).flatMap (·.errors disk g)) : files.contains e.file = true := by
  obtain ⟨f, hf, he⟩ := List.mem_flatMap.mp h
  have hfile : e.file = f.path := by
    unfold ParsedFile.errors ParsedFile.syntaxErrors at he
    rcases List.mem_append.mp he with he | he
    · split at he
      · cases he
      · rw [List.mem_singleton.mp he]
    · obtain ⟨_, -, rfl⟩ := List.mem_map.mp he
      rfl
  exact hfile ▸ file_of_parsed hf

theorem file_of_violations {vs : List Violation} {e : PackageError}
    (h : e ∈ vs.filterMap (Analysis.ofViolation (files.map (ParsedFile.ofPath disk g)))) :
    files.contains e.file = true := by
  obtain ⟨v, -, hv⟩ := List.mem_filterMap.mp h
  unfold Analysis.ofViolation at hv
  obtain ⟨f, hf, rfl⟩ := Option.map_eq_some_iff.mp hv
  exact file_of_parsed (List.mem_of_getElem? hf)

theorem file_of_checkErrors {cs : List CheckError} {e : PackageError}
    (h : e ∈ cs.filterMap (Analysis.ofCheckError (files.map (ParsedFile.ofPath disk g)))) :
    files.contains e.file = true := by
  obtain ⟨c, -, hc⟩ := List.mem_filterMap.mp h
  unfold Analysis.ofCheckError at hc
  obtain ⟨f, hf, rfl⟩ := Option.map_eq_some_iff.mp hc
  exact file_of_parsed (List.mem_of_getElem? hf)

end

theorem file_of_listingErrors {n : PackageNode} (hf : n.files ≠ []) {e : PackageError} (h : e ∈ n.listingErrors) :
    n.files.contains e.file = true := by
  unfold PackageNode.listingErrors at h
  obtain ⟨l, -, rfl⟩ := List.mem_map.mp h
  simp only
  split
  · rename_i hc
    exact hc
  · cases hfiles : n.files with
    | nil => exact absurd hfiles hf
    | cons q rest => simp

/-- If it is so with its listing, then an analysis finds errors in the files of the package only. -/
theorem files_analyseNode {analyse : String → StateM Graph Unit} {n : PackageNode}
    (hl : ∀ e ∈ n.listingErrors, n.files.contains e.file = true) :
    Ends (analyseNode disk analyse n) g fun a _ => ∀ e ∈ a.errors, n.files.contains e.file = true := by
  unfold analyseNode
  simp only [ends_bind, ends_get]
  have hrules : ∀ e ∈ (if ((n.files.map (ParsedFile.ofPath disk g)).flatMap (·.errors disk g)).isEmpty = true then
      Analysis.structErrors (n.files.map (ParsedFile.ofPath disk g)) else []), n.files.contains e.file = true := by
    intro e he
    split at he
    · exact file_of_violations he
    · cases he
  split
  · unfold Ends
    intro e he
    rcases List.mem_append.mp he with he | he
    · exact file_of_checkErrors he
    · exact hrules e he
  · intro e he
    rcases List.mem_append.mp he with he | he
    · rcases List.mem_append.mp he with he | he
      · rcases List.mem_append.mp he with he | he
        · exact hl e he
        · exact file_of_parseErrors he
      · exact file_of_violations he
    · exact hrules e he

/-- After an analysis the errors of a package are in the files that it had. -/
theorem files_analyseWithin {fuel : Nat} {path : String} {n : PackageNode} (hn : g.packages.find? path = some n)
    (hl : ∀ e ∈ n.listingErrors, n.files.contains e.file = true) :
    Ends (analyseWithin disk (fuel + 1) path) g fun _ g' =>
      ∀ n', g'.packages.find? path = some n' → ∀ e ∈ n'.errors, n.files.contains e.file = true := by
  rw [ends_analyseWithin, hn]
  refine (files_analyseNode hl).mono fun a t ha => ?_
  intro n' hn'
  rw [finishChecking, find?_modifyPackage, if_pos rfl] at hn'
  obtain ⟨last, -, rfl⟩ := Option.map_eq_some_iff.mp hn'
  exact ha

end Graph

/-! ## Diagnostics by file -/

namespace FileDiagnostics

variable {P : Path → Prop}

theorem forall_add {t : FileDiagnostics} (h : ∀ e ∈ t, P e.1) {file : Path} (hf : P file) (ds : List Diagnostic) :
    ∀ e ∈ t.add file ds, P e.1 := by
  intro e he
  have hk : e.1 ∈ (t.add file ds).keys := List.mem_map_of_mem he
  rw [add, Table.keys_insert] at hk
  have hold : ∀ p ∈ t.keys, P p := by
    intro p hp
    obtain ⟨e', he', rfl⟩ := List.mem_map.mp hp
    exact h e' he'
  split at hk
  · exact hold _ hk
  · rcases List.mem_append.mp hk with hk | hk
    · exact hold _ hk
    · rw [List.mem_singleton.mp hk]
      exact hf

theorem forall_foldl_add {α : Type} {file : α → Path} {ds : α → List Diagnostic} :
    ∀ {as : List α} {t : FileDiagnostics},
    (∀ e ∈ t, P e.1) → (∀ a ∈ as, P (file a)) →
      ∀ e ∈ as.foldl (fun t a => FileDiagnostics.add t (file a) (ds a)) t, P e.1
  | [], _, ht, _ => ht
  | a :: as, t, ht, ha => by
    rw [List.foldl_cons]
    exact forall_foldl_add (forall_add ht (ha a (by simp)) (ds a)) fun b hb => ha b (List.mem_cons_of_mem _ hb)

theorem forall_ofNode {n : PackageNode} (hf : ∀ p ∈ n.files, P p) (he : ∀ e ∈ n.errors, P e.file) :
    ∀ e ∈ ofNode n, P e.1 :=
  forall_foldl_add (forall_foldl_add (fun _ h => nomatch h) hf) he

end FileDiagnostics

namespace Graph

variable {disk : Disk} {m : ModuleRoot} {g g' : Graph}

/-- A file of a loaded package, however it is written. -/
def Covers (g : Graph) (p : Path) : Prop := ∃ key n, g.packages.find? key = some n ∧ n.files.contains p = true

def CoversAt (g : Graph) (path : String) (p : Path) : Prop :=
  ∃ n, g.packages.find? path = some n ∧ n.files.contains p = true

/-! ## Publishing -/

/-- Between requests, with files in every package that is to be diagnosed, and nothing lost since `g₀`. -/
structure Publishes (disk : Disk) (m : ModuleRoot) (g₀ g : Graph) : Prop where
  resting : Resting disk m g
  filled : Filled g
  keeps : Keeps g₀ g

section
variable (hd : disk.WellNamed) (hm : m.dir.Rooted) {g₀ : Graph} (h₀ : Inv disk m g₀)
include hd hm h₀

theorem Publishes.ends_diagnose (h : Publishes disk m g₀ g) {path : String} (hp : g₀.packages.contains path = true) :
    Ends (diagnose disk path) g fun ds g' => Publishes disk m g₀ g' ∧ ∀ e ∈ ds, g₀.CoversAt path e.1 := by
  suffices hfiles : Ends (diagnose disk path) g fun ds g' => Filled g' ∧ ∀ e ∈ ds, g₀.CoversAt path e.1 by
    refine (((h.resting.ends_diagnose hd hm path).and (keeps_diagnose path)).and hfiles).mono fun ds g' hall => ?_
    exact ⟨⟨hall.1.1, hall.2.1, h.keeps.trans hall.1.2⟩, hall.2.2⟩
  rw [Graph.ends_diagnose]
  obtain ⟨n₀, hn₀⟩ := contains_iff.mp hp
  cases hn : g.packages.find? path with
  | none => exact ⟨h.filled, fun _ h => nomatch h⟩
  | some n =>
    dsimp only
    split
    · exact ⟨h.filled, fun _ h => nomatch h⟩
    · rename_i hs
      have hdirty : n.state = .dirty := not_not.mp hs
      have hfiles : n.files ≠ [] := h.filled path n hn (Or.inl hdirty)
      have hsame : n.files = n₀.files := h₀.files_eq h.resting.inv hn₀ h.keeps.held hn
      unfold analyse
      rw [ends_bind, ends_get]
      have hrun := analyses_analyseWithin hd hm (g.size disk + 2) path g h.resting.inv fun n hn =>
        h.resting.states path n hn
      refine (hrun.and (files_analyseWithin hn fun _ => file_of_listingErrors hfiles)).mono fun _ g'
        ⟨⟨hi', he⟩, herrors⟩ => ?_
      have hfilled' : Filled (g'.markCurrent path) := by
        refine (h.filled.extends h.resting.inv hi' he).modifyPackage fun n' hn' => ?_
        rw [h.resting.inv.files_eq hi' hn he.held hn']
        exact hfiles
      cases hn' : (g'.markCurrent path).packages.find? path with
      | none => exact ⟨hfilled', fun _ h => nomatch h⟩
      | some n'' =>
        refine ⟨hfilled'.publish path n''.surface?, ?_⟩
        rw [markCurrent, find?_modifyPackage, if_pos rfl] at hn'
        obtain ⟨n', hlast, rfl⟩ := Option.map_eq_some_iff.mp hn'
        have hcover : ∀ p, n.files.contains p = true → g₀.CoversAt path p := fun p hp => ⟨n₀, hn₀, hsame ▸ hp⟩
        apply FileDiagnostics.forall_ofNode
        · intro p hp
          have hmem : p ∈ n'.files := hp
          rw [h.resting.inv.files_eq hi' hn he.held hlast] at hmem
          exact hcover p (contains_files ⟨p, hmem, rfl⟩)
        · exact fun e he => hcover e.file (herrors n' hlast e he)

theorem Publishes.ends_publishPackage (h : Publishes disk m g₀ g) (lint : Bool) {path : String}
    (hp : g₀.packages.contains path = true) :
    Ends (publishPackage disk lint path) g fun ps g' => Publishes disk m g₀ g' ∧ ∀ e ∈ ps, g₀.CoversAt path e.1 := by
  rw [Graph.ends_publishPackage]
  refine (h.ends_diagnose hd hm h₀ hp).mono fun ds g' ⟨h', hds⟩ => ?_
  split
  · rename_i n hn
    refine ⟨h', ?_⟩
    obtain ⟨n₀, hn₀⟩ := contains_iff.mp hp
    apply FileDiagnostics.forall_foldl_add hds
    intro e he
    obtain ⟨f, hf, rfl⟩ := List.mem_map.mp (List.mem_filter.mp he).1
    refine ⟨n₀, hn₀, ?_⟩
    rw [← h₀.files_eq h'.resting.inv hn₀ h'.keeps.held hn]
    unfold PackageNode.parsed at hf
    cases ha : n.analysis with
    | none => rw [ha] at hf; cases hf
    | some a =>
      rw [ha] at hf
      have hparsed := (h'.resting.inv.nodes path n hn).parsed a ha
      rw [Option.map_some, Option.getD_some, hparsed] at hf
      exact file_of_parsed hf
  · exact ⟨h', hds⟩

end

/-- What is published is about files of loaded packages. -/
theorem Resting.publishes (hd : disk.WellNamed) (hm : m.dir.Rooted) (h : Resting disk m g) (hf : Filled g)
    (lint : Bool) :
    Ends (publishAll disk lint) g fun ps g' => Publishes disk m g g' ∧ ∀ e ∈ ps, g.Covers e.1 := by
  have htracked : ∀ t, Publishes disk m g t → ∀ path ∈ t.dirty, g.packages.contains path = true := by
    intro t ht path hpath
    have := (List.mem_filter.mp hpath).1
    rw [ht.keeps.tracked] at this
    exact h.inv.refs.tracked path this
  refine Graph.ends_publishAll htracked (fun path t hp ht => ?_) ⟨h, hf, .refl g⟩
  refine (ht.ends_publishPackage hd hm h.inv lint hp).mono fun ps t' ⟨ht', hps⟩ => ⟨ht', fun e he => ?_⟩
  exact ⟨path, hps e he⟩

/-! ## Edits -/

theorem contains_noteEdit (path key : String) :
    (g.noteEdit path).packages.contains key = g.packages.contains key := by
  rw [Table.contains_eq, Table.contains_eq, find?_noteEdit, Option.isSome_map]

theorem files_addToNode_ne_nil (file : Path) (n : PackageNode) : (addToNode file n).files ≠ [] := by
  unfold addToNode
  simp only [PackageNode.markDirty, PackageNode.reset]
  split
  · rename_i h
    intro he
    rw [he] at h
    cases h
  · intro he
    have hperm := Path.sort_perm (n.files ++ [file])
    rw [he] at hperm
    simp at hperm

theorem paths_enterAll {listed : List Listed} {g : Graph} :
    Ends (listed.filterMapM (enterListed disk)).run g fun r _ =>
      ∀ paths, r = .ok paths → ∀ p ∈ paths, ∃ l ∈ listed, p = l.path := by
  have hround : ∀ l ∈ listed, ∀ t : Graph, True → Ends (enterListed disk l).run t fun r _ =>
      True ∧ ∀ p, r = .ok (some p) → p = l.path := by
    intro l _ t _
    rw [ends_enterListed]
    cases t.idlFiles disk l.dir with
    | error e => exact ⟨trivial, nofun⟩
    | ok files =>
      dsimp only
      split
      · exact ⟨trivial, nofun⟩
      · refine ⟨trivial, ?_⟩
        rintro p ⟨⟩
        rfl
  exact (ends_filterMapM hround trivial).mono fun _ _ h => h.2

section
variable (hd : disk.WellNamed) (hm : m.dir.Rooted)
include hd hm

/-- A directory that is loaded by its text gives the package in that directory. -/
theorem Inv.owns_loadOne (hi : Inv disk m g) {dir : Path} (hdir : Spelled dir) (ha : dir.isAbsolute = true)
    (hmemo : g.memo.find? dir.text = none) :
    Ends (loadOne disk dir.text).run g fun r _ => ∀ path, r = .ok path → m.Owns dir path := by
  rw [Graph.ends_loadOne, Graph.ends_load, remembered?, hmemo, Option.filter_none]
  dsimp only
  cases g.readied disk dir.text with
  | error e => exact fun _ h => nomatch h
  | ok overlay =>
    dsimp only
    cases hlist : Listed.ofPattern disk g.layout overlay dir.text with
    | error e => exact fun _ h => nomatch h
    | ok listed =>
      have hplace : ∀ l ∈ listed, l.dir = dir := by
        unfold Listed.ofPattern Listed.patternDir at hlist
        simp only [hdir.wild, hdir.text, ha, if_true] at hlist
        obtain ⟨found, hfound, hlist⟩ := bind_eq_ok.mp hlist
        cases hfound
        obtain ⟨l?, hl?, hlist⟩ := bind_eq_ok.mp hlist
        cases hlist
        intro l hl
        rw [Option.mem_toList] at hl
        rw [hl, hdir.normal] at hl?
        exact (Listed.of_ofDir? hl?).1
      have howns := Listed.owns_of_ofPattern hi.modules hm hd hdir.plainPattern.straight hlist
      refine paths_enterAll.mono fun r _ hr => ?_
      rcases r with e | paths
      · exact fun _ h => nomatch h
      · rcases paths with _ | ⟨path, _ | ⟨_, _⟩⟩
        · exact fun _ h => nomatch h
        · rintro p ⟨⟩
          obtain ⟨l, hl, rfl⟩ := hr [path] rfl path (by simp)
          exact hplace l hl ▸ howns l hl
        · exact fun _ h => nomatch h

/-- The IDL files that are held in the directory of a package are files of it. -/
theorem Inv.mem_files (hi : Inv disk m g) {key : String} {n : PackageNode} (hn : g.packages.find? key = some n)
    {p : Path}
    (hp : g.HeldIn n.dir p) : p ∈ n.files := by
  have hr := hi.rooted_dir hm hn
  obtain ⟨onDisk, -, hmem⟩ := (filesOf_of_idlFiles hd hi.held hr.normal (hi.nodes key n hn).files).known
  exact (hmem p).mpr (Or.inr hp)

variable {note : Note} (hplain : note.Plain) {text : String} (ht : note.text? = some text)
include hplain ht

omit hd hm in
theorem heldIn_hold (hh : ∀ p ∈ g.held.keys, p.Normal) {dir : Path} (hdir : directoryOf? note.file = some dir) :
    (g.hold note.file text).HeldIn dir note.file :=
  ⟨mem_keys_hold hh note.normal_file text, (directoryOf?_eq hdir).1, (hplain text ht).2.1⟩

theorem Filled.ends_addFile (h : Resting disk m g) (hf : Filled g) :
    Ends (addFile disk note.file text).run g fun _ g' =>
      Filled g' ∧ ∀ key, g.packages.contains key = true → g'.packages.contains key = true := by
  have hn := note.normal_file
  obtain ⟨ha, hx, himports, hwild⟩ := hplain text ht
  rw [Graph.ends_addFile hn]
  cases hdir : directoryOf? note.file with
  | none => exact ⟨hf, fun _ hk => hk⟩
  | some dir =>
    dsimp only
    have hp := (directoryOf?_eq hdir).1
    cases hin : g.packageIn? dir with
    | some n =>
      have hf' : Filled ((g.hold note.file text).modifyPackage n.path (addToNode note.file)) :=
        Filled.modifyPackage hf fun n _ => files_addToNode_ne_nil note.file n
      refine ⟨hf'.noteEdit n.path, fun key hk => ?_⟩
      rw [contains_noteEdit, contains_modifyPackage]
      exact hk
    | none =>
      have hheld := normal_hold h.inv.held hn text
      have hrest := h.changeOutside hd hm hn hp _ (changedAt_hold g _ text) hheld (imports_hold h.inv himports)
        fun key n hkey => ne_of_packageIn?_none hin hkey
      have hdir' : directoryOf? note.file.normalize = some dir := by rw [hn]; exact hdir
      have hspelled := spelled_directoryOf? note.plainNames hdir' (hwild dir hdir)
      have habs : dir.isAbsolute = true := by
        rw [hn.parent?_eq] at hp
        split at hp
        · cases hp
        · cases hp
          rw [isAbsolute_ofNames fun s hs => proper_resolved _ s (List.dropLast_subset _ hs)]
          exact ha
      rw [Graph.ends_loadNew]
      cases (g.hold note.file text).overlay.addForNewPackage disk dir
        ((Token.packageClauseName text).getD dir.fileName) with
      | error e => exact ⟨hf, fun _ hk => hk⟩
      | ok placed =>
        have hi' : Inv disk m { g.hold note.file text with overlay := placed.2, memo := g.memo.erase dir.text } :=
          (hrest.inv.withOverlay placed.2).withMemo _ (hrest.inv.refs.memo_erase dir.text)
        have hmemo : (g.memo.erase dir.text).find? dir.text = none := by simp [Table.find?_erase]
        have hrun :=
          ((hi'.ends_loadOne hd hm hspelled.plainPattern.straight).and
          (hi'.owns_loadOne hd hm hspelled habs hmemo)).and
          (keeps_loadOne dir.text)
        refine hrun.mono fun r g' ⟨⟨⟨hi'', he, _⟩, howns⟩, hkeeps⟩ => ?_
        have hstart : Filled { g.hold note.file text with overlay := placed.2, memo := g.memo.erase dir.text } := hf
        have hf' : Filled g' := hstart.extends hi' hi'' he
        cases r with
        | error e => exact ⟨hf', hkeeps.packages⟩
        | ok path =>
          refine ⟨(hf'.modifyPackage fun n hfind => ?_).noteEdit path, fun key hk => ?_⟩
          · have hown := (hi''.nodes path n hfind).owned.dir_eq (howns path rfl)
            have hin' : g'.HeldIn n.dir note.file := by
              have := heldIn_hold hplain ht h.inv.held hdir
              unfold HeldIn at this ⊢
              rw [hown, he.held]
              exact this
            exact List.ne_nil_of_mem (hi''.mem_files hd hm hfind hin')
          · rw [contains_noteEdit, contains_modifyPackage]
            exact hkeeps.packages key hk

theorem Filled.ends_updateFile (h : Resting disk m g) (hf : Filled g) :
    Ends (updateFile disk note.file text).run g fun _ g' =>
      Filled g' ∧ ∀ key, g.packages.contains key = true → g'.packages.contains key = true := by
  have hn := note.normal_file
  rw [Graph.ends_updateFile hn]
  cases hdir : directoryOf? note.file with
  | none => exact ⟨hf, fun _ hk => hk⟩
  | some dir =>
    dsimp only
    cases hin : g.packageIn? dir with
    | none => exact hf.ends_addFile hd hm hplain ht h
    | some n =>
      dsimp only
      cases hfiles : (g.hold note.file text).idlFiles disk dir with
      | error e => exact ⟨hf, fun _ hk => hk⟩
      | ok files =>
        have hnormal := hn.of_parent? (directoryOf?_eq hdir).1
        obtain ⟨onDisk, -, hmem⟩ := (filesOf_of_idlFiles hd (normal_hold h.inv.held hn text) hnormal hfiles).known
        have hfile : note.file ∈ files := (hmem _).mpr (Or.inr (heldIn_hold hplain ht h.inv.held hdir))
        have hf' : Filled ((g.hold note.file text).modifyPackage n.path fun n => { n with files }.markDirty) :=
          Filled.modifyPackage hf fun _ _ => List.ne_nil_of_mem hfile
        refine ⟨hf'.noteEdit n.path, fun key hk => ?_⟩
        rw [contains_noteEdit, contains_modifyPackage]
        exact hk

end

/-! ## Files that are left behind -/

/-- Whether the package of a file is still there when the file is closed. -/
def survives (disk : Disk) (g : Graph) (file : Path) : Bool :=
  match ((closeFile disk file).run.run g).1 with
  | .ok (.dirty _) => true
  | _ => false

/-- A note leaves its file behind if it closes a file that only the editor has, but not its package. -/
def LeavesBehind (disk : Disk) (g : Graph) : Note → Prop
  | n@(.closed _) => g.held.contains n.file = true ∧ disk.isFile n.file = false ∧ g.survives disk n.file = true
  | _ => False

instance (disk : Disk) (g : Graph) : (n : Note) → Decidable (g.LeavesBehind disk n)
  | .opened _ _ => inferInstanceAs (Decidable False)
  | .changed _ _ => inferInstanceAs (Decidable False)
  | .closed _ => inferInstanceAs (Decidable (_ ∧ _ ∧ _))

theorem Filled.released (h : Filled g) (file : Path) (path : String) : Filled (g.released file path) := by
  apply Filled.invalidate
  intro key n hn
  rw [packages_evictMemo] at hn
  exact h key n hn

theorem mem_keys_release (hh : ∀ p ∈ g.held.keys, p.Normal) {file p : Path} (hf : file.Normal) (hp : p ∈ g.held.keys)
    (hne : p ≠ file) : p ∈ (g.release file).held.keys := ((changedAt_release hh hf).keys p hne).mpr hp

section
variable (hd : disk.WellNamed) (hm : m.dir.Rooted)
include hd hm

/-- A closed file is the only one that a package may lose, and then the package survives or goes with it. -/
theorem Resting.ends_close (hi : disk.PlainImports) (h : Resting disk m g) (hf : Filled g) {file : Path}
    (hn : file.Normal) :
    Ends (closeFile disk file).run g fun r g' => Filled g' ∧ ∀ q, g.Has q → g'.Has q ∨
      q = file ∧ ((∃ path, r = .ok (.evicted path)) ∨
        (∃ path, r = .ok (.dirty path)) ∧ q ∈ g.held.keys ∧ disk.isFile q = false) := by
  refine ((h.ends_closeFile hd hm hi file).and ?_).mono fun r g' (hr : Resting disk m g' ∧
    (Resting disk m g' → _)) =>
    hr.2 hr.1
  rw [Graph.ends_closeFile hn]
  cases hof : g.packageOf? file with
  | none => exact fun _ => ⟨hf, fun q hq => Or.inl hq⟩
  | some n₀ =>
    obtain ⟨dir, hdir, hin⟩ := Option.bind_eq_some_iff.mp hof
    have hp := (directoryOf?_eq hdir).1
    obtain ⟨hfind, heq, -⟩ := h.inv.found_packageIn? hm hn hp hin
    have hnormal : n₀.dir.Normal := (h.inv.rooted_dir hm hfind).normal
    obtain ⟨files, hfiles⟩ := idlFiles_isOk (h.inv.nodes _ n₀ hfind).files (g.release file)
    dsimp only
    rw [hfiles]
    dsimp only
    have hf' := hf.released file n₀.path
    have hheld : (g.released file n₀.path).held = (g.release file).held := held_evictMemo n₀.path
    have hkept : ∀ q ∈ g.held.keys, q ≠ file → q ∈ (g.released file n₀.path).held.keys := by
      rw [hheld]
      exact fun q hq hne => mem_keys_release h.inv.held hn hq hne
    -- a file of another package is not the closed one
    have hother : ∀ {key n q}, g.packages.find? key = some n → q ∈ n.files → key ≠ n₀.path → q ≠ file := by
      rintro key n q hkey hq hne rfl
      have hr := h.inv.rooted_dir hm hkey
      have hparent := ((filesOf_of_idlFiles hd h.inv.held hr.normal (h.inv.nodes key n hkey).files).parent? hd
        h.inv.held hr.normal hq).2
      rw [hp] at hparent
      exact hne (h.inv.only_in_dir hm hfind hkey ((Option.some_inj.mp hparent).symm.trans heq.symm))
    split
    · rename_i hempty
      intro hrest
      refine ⟨fun key n hkey hs => ?_, ?_⟩
      · simp only [Graph.evict, Table.find?_erase] at hkey
        split at hkey
        · cases hkey
        · exact hf' key n hkey hs
      rintro q ⟨key, n, hkey, hq⟩
      by_cases hsame : key = n₀.path
      · subst hsame
        rw [hfind] at hkey
        cases hkey
        refine Or.inr ⟨Classical.not_not.mp fun hne => ?_, Or.inl ⟨_, rfl⟩⟩
        obtain ⟨onDisk, hdisk, hmem⟩ :=
          (filesOf_of_idlFiles hd h.inv.held hnormal (h.inv.nodes _ n₀ hfind).files).known
        obtain ⟨onDisk', hdisk', hmem'⟩ :=
          (filesOf_of_idlFiles hd (normal_release h.inv.held file) hnormal hfiles).known
        rw [hdisk] at hdisk'
        cases hdisk'
        have hin' : q ∈ files := by
          rcases (hmem q).mp hq with hon | hin
          · exact (hmem' q).mpr (Or.inl hon)
          · exact (hmem' q).mpr (Or.inr ⟨mem_keys_release h.inv.held hn hin.1 hne, hin.2⟩)
        rw [List.isEmpty_iff.mp hempty] at hin'
        cases hin'
      · refine Or.inl (h.inv.has hd hm hrest.inv hkey ?_ hq fun hheld =>
          Or.inl (hkept q hheld (hother hkey hq hsame)))
        simp only [Graph.evict, Table.contains_eq, Table.find?_erase, beq_iff_eq, if_neg hsame]
        rw [find?_released, hkey]
        rfl
    · rename_i hsome
      intro hrest
      have hne : files ≠ [] := by simpa using hsome
      refine ⟨hf'.modifyPackage fun _ _ => hne, ?_⟩
      rintro q ⟨key, n, hkey, hq⟩
      have hcontains : ((g.released file n₀.path).modifyPackage n₀.path
          fun n => { n with files }.markDirty).packages.contains key = true := by
        rw [contains_modifyPackage, Table.contains_eq, find?_released, hkey]
        rfl
      by_cases hlost : q = file ∧ q ∈ g.held.keys ∧ disk.isFile q = false
      · exact Or.inr ⟨hlost.1, Or.inr ⟨⟨_, rfl⟩, hlost.2⟩⟩
      · refine Or.inl (h.inv.has hd hm hrest.inv hkey hcontains hq fun hheld => ?_)
        by_cases hne : q = file
        · right
          rw [← Bool.not_eq_false]
          exact fun hfile => hlost ⟨hne, hheld, hfile⟩
        · exact Or.inl (hkept q hheld hne)

/-- A note that leaves nothing behind: every file of a package stays one, or its diagnostics are cleared. -/
theorem Resting.ends_act_files (hi : disk.PlainImports) (h : Resting disk m g) (hf : Filled g) {n : Note}
    (hn : n.Plain)
    (hl : ¬g.LeavesBehind disk n) : Ends (n.act disk) g fun now g' => Filled g' ∧ (∀ e ∈ now, e.2 = []) ∧
      ∀ q, g.Has q → g'.Has q ∨ now = [(q, [])] := by
  have hadd : ∀ g' : Graph, Resting disk m g' → g'.held = g.heldAfter n → n.text?.isSome →
      (∀ key, g.packages.contains key = true → g'.packages.contains key = true) → ∀ q, g.Has q → g'.Has q := by
    rintro g' hrest hheld htext hkeys q ⟨key, node, hkey, hq⟩
    refine h.inv.has hd hm hrest.inv hkey (hkeys key (contains_iff.mpr ⟨node, hkey⟩)) hq fun hmem => Or.inl ?_
    obtain ⟨text, htext⟩ := Option.isSome_iff_exists.mp htext
    rw [hheld, heldAfter, htext]
    dsimp only
    split
    · rw [Table.keys_insert]
      split
      · exact hmem
      · exact List.mem_append_left _ hmem
    · exact hmem
  cases n with
  | opened file text =>
    rw [Note.ends_opened]
    have hrest : Ends (addFile disk (Note.opened file text).file text).run g fun _ g' =>
        Resting disk m g' ∧ g'.held = g.heldAfter (.opened file text) := (h.ends_act hd hm hi hn).and (held_act _)
    refine (hrest.and (hf.ends_addFile hd hm hn rfl h)).mono fun _ g' hall => ?_
    exact ⟨hall.2.1, by simp, fun q hq => Or.inl (hadd g' hall.1.1 hall.1.2 rfl hall.2.2 q hq)⟩
  | changed file text =>
    rw [Note.ends_changed]
    have hrest : Ends (updateFile disk (Note.changed file text).file text).run g fun _ g' =>
        Resting disk m g' ∧ g'.held = g.heldAfter (.changed file text) := (h.ends_act hd hm hi hn).and (held_act _)
    refine (hrest.and (hf.ends_updateFile hd hm hn rfl h)).mono fun _ g' hall => ?_
    exact ⟨hall.2.1, by simp, fun q hq => Or.inl (hadd g' hall.1.1 hall.1.2 rfl hall.2.2 q hq)⟩
  | closed file =>
    have hanswer : Ends (closeFile disk (Note.closed file).file).run g fun r _ =>
        r = ((closeFile disk (Note.closed file).file).run.run g).1 := rfl
    rw [Note.ends_closed]
    refine ((h.ends_close hd hm hi hf (Note.normal_file _)).and hanswer).mono fun r g' hall => ?_
    obtain ⟨⟨hf', hq⟩, hr⟩ := hall
    rcases r with e | path | path
    · refine ⟨hf', by simp, fun q hh => Or.inl ?_⟩
      rcases hq q hh with h | ⟨-, ⟨_, hevict⟩ | ⟨⟨_, hdirty⟩, -⟩⟩
      · exact h
      · cases hevict
      · cases hdirty
    · refine ⟨hf', by simp, fun q hh => Or.inl ?_⟩
      rcases hq q hh with h | ⟨rfl, ⟨_, hevict⟩ | ⟨-, hmem, hfile⟩⟩
      · exact h
      · cases hevict
      · refine absurd ⟨?_, hfile, ?_⟩ hl
        · exact Table.contains_of_mem_keys hmem
        · rw [survives, ← hr]
    · refine ⟨hf', fun e he => by rw [List.mem_singleton.mp he], fun q hh => ?_⟩
      rcases hq q hh with h | ⟨rfl, -⟩
      · exact Or.inl h
      · exact Or.inr rfl

end

end Graph

/-! ## Sessions -/

namespace Session

variable {disk : Disk} {m : ModuleRoot} {s : Session}

def LeavesNone (disk : Disk) : Session → List Note → Prop
  | _, [] => True
  | s, n :: notes => (∀ g ∈ s.graph, ¬g.LeavesBehind disk n) ∧ LeavesNone disk (s.hear disk n).2 notes

instance (disk : Disk) : (s : Session) → (notes : List Note) → Decidable (s.LeavesNone disk notes)
  | _, [] => inferInstanceAs (Decidable True)
  | s, n :: notes =>
    have : Decidable (LeavesNone disk (s.hear disk n).2 notes) := instDecidableLeavesNone disk _ notes
    inferInstanceAs (Decidable (_ ∧ _))

/-- After what was published, diagnostics are shown for files of loaded packages only. -/
structure Tidy (disk : Disk) (m : ModuleRoot) (ps : Published) (g : Graph) : Prop where
  resting : Graph.Resting disk m g
  filled : Graph.Filled g
  shown : ∀ p, Published.last ps p ≠ [] → g.Covers p

section
variable (hd : disk.WellNamed) (hm : m.dir.Rooted) (hi : disk.PlainImports)
include hd hm hi

theorem Tidy.hear {ps : Published} {g : Graph} (h : Tidy disk m ps g) (hg : s.graph = some g) {n : Note}
    (hn : n.Plain)
    (hl : ¬g.LeavesBehind disk n) :
    ∃ g', (s.hear disk n).2 = { s with graph := some g' } ∧ Tidy disk m (ps ++ (s.hear disk n).1) g' := by
  refine s.hear_run hg n (Q := fun now g' => Tidy disk m (ps ++ now) g') ?_
  have hact := (h.resting.ends_act hd hm hi hn).and (h.resting.ends_act_files hd hm hi h.filled hn hl)
  refine hact.mono fun now g' ⟨hr, hf, hempty, hhas⟩ => ?_
  refine (hr.publishes hd hm hf s.settings.lint).mono fun later g'' ⟨hp, hlater⟩ => ?_
  -- the files of packages before publishing are files of packages after it
  have hkept : ∀ p, g'.Covers p → g''.Covers p := by
    rintro p ⟨key, n, hkey, hc⟩
    obtain ⟨n', hn'⟩ := Graph.contains_iff.mp (hp.keeps.packages key (Graph.contains_iff.mpr ⟨n, hkey⟩))
    exact ⟨key, n', hn', hr.inv.files_eq hp.resting.inv hkey hp.keeps.held hn' ▸ hc⟩
  refine ⟨hp.resting, hp.filled, fun p hshown => hkept p ?_⟩
  rw [← List.append_assoc] at hshown
  rcases Published.of_last_append hshown with ⟨e, he, hbeq, -⟩ | ⟨hshown, -⟩
  · obtain ⟨key, n, hkey, hc⟩ := hlater e he
    obtain ⟨q, hq, hbeq'⟩ := List.contains_iff_exists_mem_beq.mp hc
    exact ⟨key, n, hkey, List.contains_iff_exists_mem_beq.mpr ⟨q, hq, BEq.trans (BEq.symm hbeq) hbeq'⟩⟩
  · rcases Published.of_last_append hshown with ⟨e, he, -, hne⟩ | ⟨hshown, hnow⟩
    · exact absurd (hempty e he) hne
    · obtain ⟨key, n, hkey, hc⟩ := h.shown p hshown
      obtain ⟨q, hq, hbeq⟩ := List.contains_iff_exists_mem_beq.mp hc
      rcases hhas q ⟨key, n, hkey, hq⟩ with ⟨key', n', hkey', hq'⟩ | rfl
      · exact ⟨key', n', hkey', List.contains_iff_exists_mem_beq.mpr ⟨q, hq', hbeq⟩⟩
      · exact absurd (BEq.symm hbeq) (hnow (q, []) (by simp))

theorem Tidy.after : ∀ {notes : List Note} {s : Session} {ps : Published} {g : Graph},
    Tidy disk m ps g → s.graph = some g → (∀ n ∈ notes, n.Plain) → s.LeavesNone disk notes →
      ∃ g', (s.after disk notes).graph = some g' ∧ Tidy disk m (ps ++ s.published disk notes) g'
  | [], s, ps, g, h, hg, _, _ => ⟨g, hg, by rw [published, List.append_nil]; exact h⟩
  | n :: notes, s, ps, g, h, hg, hn, hl => by
    obtain ⟨g', hs, h'⟩ := h.hear hd hm hi hg (hn n (by simp)) (hl.1 g hg)
    rw [published, ← List.append_assoc]
    have hg' : (s.hear disk n).2.graph = some g' := by rw [hs]
    exact h'.after hg' (fun n hn' => hn n (List.mem_cons_of_mem _ hn')) hl.2

end

/-- If no note leaves its file behind, then after the notes every file that diagnostics are shown for is a file of
a loaded package. -/
theorem shown_covered (hd : disk.WellNamed) (hi : disk.PlainImports) {settings : Settings} {root : String}
    (h : Opens disk settings root s) (hm : Layout.discover disk (Path.ofString root).normalize = .ok ⟨[m]⟩)
    {notes : List Note} (hn : ∀ n ∈ notes, n.Plain) (hl : s.LeavesNone disk notes) :
    ∃ g, (s.after disk notes).graph = some g ∧
      ∀ p, Published.last (s.published disk notes) p ≠ [] → g.Covers p := by
  obtain ⟨hrooted, g, rfl, hrest, hstates⟩ := h.resting hd hi hm
  have hstart : Tidy disk m [] g := by
    refine ⟨hrest, fun key n hkey hs => ?_, fun p hp => absurd rfl hp⟩
    simp [hstates key n hkey] at hs
  obtain ⟨g', hg', ht⟩ := hstart.after hd hrooted hi rfl hn hl
  exact ⟨g', hg', ht.shown⟩

/-- A file on disk is changed and closed with an error, and a package that only the editor has is made with an
error, dropped and made again. -/
def sampleVisits : List Note :=
  [.opened "/w/a/a.gunk" "package a\n\ntype T Missing\n", .opened "/w/b/b.gunk" "package b\n\ntype U Missing\n",
    .closed "/w/b/b.gunk", .closed "/w/a/a.gunk", .closed "/w/c/c.gunk",
    .changed "/w/b/b.gunk" "package b\n\ntype U Missing\n"]

theorem shown_covered_sample : Opens Graph.sampleDisk {} "/w/a" (opened Graph.sampleDisk {} "/w/a") ∧
    (∀ n ∈ sampleVisits, n.Plain) ∧ (opened Graph.sampleDisk {} "/w/a").LeavesNone Graph.sampleDisk sampleVisits ∧
    ∃ g, ((opened Graph.sampleDisk {} "/w/a").after Graph.sampleDisk sampleVisits).graph = some g ∧
      ∀ p, Published.last ((opened Graph.sampleDisk {} "/w/a").published Graph.sampleDisk sampleVisits) p ≠ [] →
        g.Covers p := by
  have h : Opens Graph.sampleDisk {} "/w/a" (opened Graph.sampleDisk {} "/w/a") := opens_opened (by decide +kernel)
  have hn : ∀ n ∈ sampleVisits, n.Plain := by decide +kernel
  have hl : (opened Graph.sampleDisk {} "/w/a").LeavesNone Graph.sampleDisk sampleVisits := by decide +kernel
  exact ⟨h, hn, hl, shown_covered (by decide) Graph.plainImports_sampleDisk h rfl hn hl⟩

end Session

end IdlWorkbench
