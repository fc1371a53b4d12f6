import IdlWorkbench.Proofs.Graph.Agree
import IdlWorkbench.Proofs.Graph.Follow
import IdlWorkbench.Proofs.Session.Stale
import Mathlib.Data.List.Nodup

/-!
# Sessions stay up to date

Over a single module, where import paths are written as packages are named, a session never holds anything
outdated about which packages there are and which files they have. What it has found out about them may well be
outdated: that is another matter.
-/

namespace IdlWorkbench

open IdlWorkbench.Path

/-- A plain note whose text imports packages as they are named. -/
def Note.Neat (n : Note) : Prop := n.Plain ∧ ∀ text ∈ n.text?, NeatImports text

instance (n : Note) : Decidable n.Neat := inferInstanceAs (Decidable (n.Plain ∧ ∀ text ∈ n.text?, NeatImports text))

namespace Graph

variable {disk : Disk} {m : ModuleRoot} {g g' : Graph}

/-- What holds of the graph of a session between notes. -/
structure Steady (disk : Disk) (m : ModuleRoot) (g : Graph) : Prop where
  resting : Resting disk m g
  ready : Ready disk m g
  neat : Neat disk g
  filled : Filled g
  tracked : g.tracked.Nodup

/-! ## Texts -/

theorem Neat.heldAfter (hi : disk.NeatImports) (h : Neat disk g) {n : Note} (hn : n.Neat)
    (hh : g'.held = g.heldAfter n) :
    Neat disk g' := by
  intro file text hx hr
  have hdisk : ∀ held : Table Path String, (∀ text, held.find? file = some text → NeatImports text) →
      g'.held = held → NeatImports text := by
    intro held hheld heq
    unfold Graph.read at hr
    rw [heq] at hr
    cases hfind : held.find? file with
    | some text' =>
      rw [hfind] at hr
      cases hr
      exact hheld text hfind
    | none =>
      rw [hfind] at hr
      exact hi file text hx hr
  have hold : ∀ text, g.held.find? file = some text → NeatImports text := by
    intro text hfind
    refine h file text hx ?_
    unfold Graph.read
    rw [hfind]
  refine hdisk _ ?_ hh
  unfold Graph.heldAfter
  split
  · rename_i new hnew
    split
    · intro text hfind
      rcases Table.beq_or_find?_of_insert hfind with ⟨-, rfl⟩ | hfind
      · exact hn.2 new hnew
      · exact hold text hfind
    · exact hold
  · split
    · exact fun text hfind => hold text (Table.find?_of_erase hfind).2
    · exact hold

/-! ## Tracked packages -/

theorem nodup_track (h : g.tracked.Nodup) (paths : List String) : (g.track paths).tracked.Nodup :=
  nodup_foldl_once (fun p : String => p) paths h

theorem tracked_evictMemo (path : String) : (g.evictMemo path).tracked = g.tracked := by
  unfold evictMemo
  dsimp only
  split <;> rfl

theorem nodup_noteEdit (h : g.tracked.Nodup) (path : String) : (g.noteEdit path).tracked.Nodup := by
  have htracked : (g.noteEdit path).tracked = (g.track [path]).tracked := tracked_evictMemo path
  rw [htracked]
  exact nodup_track h [path]

theorem nodup_addFile (h : g.tracked.Nodup) {file : Path} (hn : file.Normal) (text : String) :
    Ends (addFile disk file text).run g fun _ g' => g'.tracked.Nodup := by
  rw [ends_addFile hn]
  cases directoryOf? file with
  | none => exact h
  | some dir =>
    dsimp only
    cases g.packageIn? dir with
    | some n => exact nodup_noteEdit (g := (g.hold file text).modifyPackage n.path (addToNode file)) h n.path
    | none =>
      dsimp only
      rw [ends_loadNew]
      cases (g.hold file text).overlay.addForNewPackage disk dir
        ((Token.packageClauseName text).getD dir.fileName) with
      | error e => exact h
      | ok placed =>
        refine (keeps_loadOne dir.text).mono fun r g' hkeeps => ?_
        have h' : g'.tracked.Nodup := by
          rw [hkeeps.tracked]
          exact h
        cases r with
        | error e => exact h'
        | ok path => exact nodup_noteEdit (g := g'.modifyPackage path PackageNode.markDirty) h' path

theorem nodup_updateFile (h : g.tracked.Nodup) {file : Path} (hn : file.Normal) (text : String) :
    Ends (updateFile disk file text).run g fun _ g' => g'.tracked.Nodup := by
  rw [ends_updateFile hn]
  cases directoryOf? file with
  | none => exact h
  | some dir =>
    dsimp only
    cases g.packageIn? dir with
    | none => exact nodup_addFile h hn text
    | some n =>
      dsimp only
      cases (g.hold file text).idlFiles disk dir with
      | error e => exact h
      | ok files =>
        exact nodup_noteEdit (g := (g.hold file text).modifyPackage n.path fun n => { n with files }.markDirty)
          h n.path

theorem nodup_closeFile (h : g.tracked.Nodup) {file : Path} (hn : file.Normal) :
    Ends (closeFile disk file).run g fun _ g' => g'.tracked.Nodup := by
  rw [ends_closeFile hn]
  cases g.packageOf? file with
  | none => exact h
  | some n =>
    dsimp only
    cases (g.release file).idlFiles disk n.dir with
    | error e => exact h
    | ok files =>
      have h' : (g.released file n.path).tracked.Nodup := by
        rw [show (g.released file n.path).tracked = g.tracked from tracked_evictMemo n.path]
        exact h
      dsimp only
      split
      · exact List.Nodup.filter _ h'
      · exact h'

theorem nodup_act (h : g.tracked.Nodup) (n : Note) : Ends (n.act disk) g fun _ g' => g'.tracked.Nodup := by
  cases n with
  | opened file text => exact nodup_addFile h (Note.normal_file _) text
  | changed file text => exact nodup_updateFile h (Note.normal_file _) text
  | closed file =>
    rw [Note.ends_closed]
    refine (nodup_closeFile h (Note.normal_file _)).mono fun r g' h' => ?_
    split <;> exact h'

/-! ## Notes -/

section
variable (hd : disk.WellNamed) (hm : m.dir.Rooted) (hnamed : m.Named) (hi : disk.NeatImports)
include hd hm hnamed hi

omit hnamed in
theorem Filled.ends_act (h : Resting disk m g) (hf : Filled g) {n : Note} (hn : n.Plain) :
    Ends (n.act disk) g fun _ g' => Filled g' := by
  cases n with
  | opened file text => exact (hf.ends_addFile hd hm hn rfl h).mono fun _ _ h => h.1
  | changed file text => exact (hf.ends_updateFile hd hm hn rfl h).mono fun _ _ h => h.1
  | closed file =>
    rw [Note.ends_closed]
    refine (h.ends_close hd hm hi.plain hf (Note.normal_file _)).mono fun r g' h => ?_
    split <;> exact h.1

theorem Ready.ends_act (h : Ready disk m g) (hr : Resting disk m g) {n : Note} (hn : n.Plain) :
    Ends (n.act disk) g fun _ g' => Ready disk m g' := by
  have hx : ∀ text ∈ n.text?, n.file.normalize.extension? = some idlExtension ∧
      ∀ dir, directoryOf? n.file.normalize = some dir → Text.stripEnd? Listed.wildcard dir.text = none := by
    rw [n.normal_file]
    exact fun text ht => ⟨(hn text ht).2.1, (hn text ht).2.2.2⟩
  cases n with
  | opened file text =>
    exact h.ends_addFile hd hm hnamed hr (Note.plainNames _) (hx text rfl).1 (hn text rfl).2.2.1 (hx text rfl).2
  | changed file text =>
    exact h.ends_updateFile hd hm hnamed hr (Note.plainNames _) (hx text rfl).1 (hn text rfl).2.2.1 (hx text rfl).2
  | closed file =>
    rw [Note.ends_closed]
    refine (h.ends_closeFile hd hm hi.plain hr (Note.normal_file _)).mono fun r g' h => ?_
    split <;> exact h

theorem Steady.ends_act (h : Steady disk m g) {n : Note} (hn : n.Neat) :
    Ends (n.act disk) g fun _ g' => Steady disk m g' := by
  have hall := ((((h.resting.ends_act hd hm hi.plain hn.1).and (h.ready.ends_act hd hm hnamed hi h.resting hn.1)).and
    (held_act n)).and (h.filled.ends_act hd hm hi h.resting hn.1)).and (nodup_act h.tracked n)
  refine hall.mono fun _ g' ⟨⟨⟨⟨hrest, hready⟩, hheld⟩, hfilled⟩, htracked⟩ => ?_
  exact ⟨hrest, hready, h.neat.heldAfter hi hn hheld, hfilled, htracked⟩

omit hi in
theorem Steady.ends_publishPackage (h : Steady disk m g) (lint : Bool) {path : String}
    (hp : g.packages.contains path = true) :
    Ends (publishPackage disk lint path) g fun _ g' => Steady disk m g' := by
  have hpublishes : Publishes disk m g g := ⟨h.resting, h.filled, .refl g⟩
  have hfollows : Ends (publishPackage disk lint path) g fun _ g' => Follows disk m g g' := by
    rw [Graph.ends_publishPackage]
    have hdiagnose := (h.ready.follows h.resting.inv).ends_diagnose hd hm hnamed h.neat h.resting path
    refine hdiagnose.mono fun _ _ h' => ?_
    split <;> exact h'
  refine ((hpublishes.ends_publishPackage hd hm h.resting.inv lint hp).and hfollows).mono fun _ g' hall => ?_
  obtain ⟨⟨h', -⟩, hf⟩ := hall
  exact ⟨h'.resting, hf.ready hd hnamed, h.neat.congr h'.keeps.held, h'.filled, h'.keeps.tracked ▸ h.tracked⟩

omit hi in
theorem Steady.ends_publishAll (h : Steady disk m g) (lint : Bool) :
    Ends (publishAll disk lint) g fun _ g' => Steady disk m g' := by
  have htracked : ∀ t, Steady disk m t ∧ Keeps g t → ∀ path ∈ t.dirty, g.packages.contains path = true := by
    intro t ht path hpath
    refine h.resting.inv.refs.tracked path ?_
    rw [← ht.2.tracked]
    exact (List.mem_filter.mp hpath).1
  have hone : ∀ path t, g.packages.contains path = true → Steady disk m t ∧ Keeps g t →
      Ends (publishPackage disk lint path) t fun ps t' => (Steady disk m t' ∧ Keeps g t') ∧ ∀ e ∈ ps, True := by
    intro path t hpath ht
    have hsteady := ht.1.ends_publishPackage hd hm hnamed lint (ht.2.packages path hpath)
    refine (hsteady.and (keeps_publishPackage lint path)).mono fun _ _ h' => ?_
    exact ⟨⟨h'.1, ht.2.trans h'.2⟩, fun _ _ => trivial⟩
  exact (Graph.ends_publishAll htracked hone ⟨h, .refl g⟩).mono fun _ _ h' => h'.1.1

end

end Graph

/-- A session over a single module starts steady. -/
theorem Session.Opens.steady {disk : Disk} (hd : disk.WellNamed) (hi : disk.NeatImports) {settings : Settings}
    {root : String} {s : Session} (h : Session.Opens disk settings root s) {m : ModuleRoot} (hnamed : m.Named)
    (hm : Layout.discover disk (Path.ofString root).normalize = .ok ⟨[m]⟩) :
    m.dir.Rooted ∧ ∃ g, s = { settings, graph := some g } ∧ Graph.Steady disk m g := by
  obtain ⟨hrooted, g, rfl, hrest, hstates⟩ := h.resting hd hi.plain hm
  obtain ⟨g₀, g', hg₀, hload, heq⟩ := h.graph
  cases heq
  have hg₀' : g₀ = { layout := ⟨[m]⟩ } := by
    unfold Graph.discover at hg₀
    rw [hm] at hg₀
    exact (Except.ok.inj hg₀).symm
  have hmodules : g₀.layout.modules = [m] := by rw [hg₀']
  have hrest₀ := Graph.resting_discover hi.plain hg₀ hmodules
  have hfollows := (Graph.ready_discover (m := m) hg₀).1.follows hrest₀.inv
  have habs : (Path.ofString ((Path.ofString root).normalize.text ++ Listed.wildcard)).isAbsolute = true := by
    apply isAbsolute_wild
    rw [normalize_eq, ofString_text_ofNames (plain_resolved_ofString root),
      isAbsolute_ofNames (proper_resolved _)]
    exact Layout.isAbsolute_of_discover hm (by simp)
  have hstandard : g₀.layout.isStandard ((Path.ofString root).normalize.text ++ Listed.wildcard) = true := by
    rw [← Bool.not_eq_false]
    intro hs
    rw [Layout.relative_of_not_standard hmodules hnamed hs] at habs
    cases habs
  have hall : Ends (Graph.loadTracked disk ((Path.ofString root).normalize.text ++ Listed.wildcard)).run g₀
      fun r g' => (∃ paths, r = .ok paths) → Graph.Ready disk m g' ∧ g'.held = [] ∧ g'.tracked.Nodup := by
    unfold Graph.loadTracked
    rw [ends_then]
    have hwild := stripEnd?_append (Path.ofString root).normalize.text Listed.wildcard
    have hrun := hfollows.ends_load hd hrooted hnamed (Or.inl habs)
      (fun _ hnone => by rw [hwild] at hnone; cases hnone)
      fun hs => by rw [hstandard] at hs; cases hs
    refine hrun.mono fun r g' ⟨⟨hf, he, _⟩, _⟩ => ?_
    cases r with
    | error e => exact fun ⟨_, h⟩ => nomatch h
    | ok paths =>
      intro _
      refine ⟨?_, he.held.trans (by rw [hg₀']), Graph.nodup_track ?_ paths⟩
      · have hready := hf.ready hd hnamed
        exact hready.restate rfl rfl rfl (fun key n hn => ⟨n, hn, rfl⟩) fun _ _ hfind _ => ⟨hfind, fun _ _ => id⟩
      · rw [he.tracked, hg₀']
        exact List.nodup_nil
  rw [ends_iff] at hload hall
  obtain ⟨hready, hheld, htracked⟩ := hall hload.1
  rw [hload.2] at hready hheld htracked
  refine ⟨hrooted, g, rfl, hrest, hready, ?_, ?_, htracked⟩
  · intro file text hx hr
    unfold Graph.read at hr
    rw [hheld] at hr
    exact hi file text hx hr
  · intro key n hkey hs
    simp [hstates key n hkey] at hs

end IdlWorkbench
