import IdlWorkbench.Proofs.Graph.Consistent
import IdlWorkbench.Proofs.Graph.Edited
import IdlWorkbench.Proofs.Graph.Settle
import IdlWorkbench.Proofs.Graph.Steps
import IdlWorkbench.Proofs.Workspace.Vacant

/-!
# Questions in any order give what checking from scratch gives

After edits alone nothing has been found out yet, and nothing that is loaded or remembered is outdated. From
then on, packages may be loaded, analysed and diagnosed in any order: every analysis is the one that the plain
recursion over the imports settles on, and so are the diagnostics.
-/

namespace IdlWorkbench

open IdlWorkbench.Path

namespace Request

/-- An edit of an IDL file, in a directory whose text is not a pattern for everything below another one. -/
def Edits : Request → Prop
  | add file text | update file text =>
    (Path.ofString file).normalize.extension? = some idlExtension ∧ PlainImports text ∧
      ∀ dir ∈ Graph.directoryOf? (Path.ofString file).normalize, Text.stripEnd? Listed.wildcard dir.text = none
  | load _ | track _ | analyse _ | diagnose _ | close _ => False

/-- A pattern that names an absolute directory is in normal form, or else it leaves room for the name of a file:
where it does not, the files of the directory cannot be looked at. -/
def Roomy (pattern : String) : Prop :=
  (Path.ofString pattern).isAbsolute = true → Text.stripEnd? Listed.wildcard pattern = none →
    (Path.ofString pattern).Normal ∨ (Path.ofString pattern).text.utf8ByteSize + Disk.maxName < Disk.maxPath

instance (pattern : String) : Decidable (Roomy pattern) := inferInstanceAs (Decidable (_ → _ → Path.Normal _ ∨ _))

def Asks : Request → Prop
  | load pattern | track pattern => PlainPattern pattern ∧ Roomy pattern
  | analyse _ | diagnose _ => True
  | add _ _ | update _ _ | close _ => False

instance : (r : Request) → Decidable r.Edits
  | add _ text => inferInstanceAs (Decidable (_ ∧ PlainImports text ∧ ∀ dir ∈ _, _))
  | update _ text => inferInstanceAs (Decidable (_ ∧ PlainImports text ∧ ∀ dir ∈ _, _))
  | load _ => inferInstanceAs (Decidable False)
  | track _ => inferInstanceAs (Decidable False)
  | analyse _ => inferInstanceAs (Decidable False)
  | diagnose _ => inferInstanceAs (Decidable False)
  | close _ => inferInstanceAs (Decidable False)

instance : (r : Request) → Decidable r.Asks
  | load pattern => inferInstanceAs (Decidable (PlainPattern pattern ∧ Roomy pattern))
  | track pattern => inferInstanceAs (Decidable (PlainPattern pattern ∧ Roomy pattern))
  | analyse _ => inferInstanceAs (Decidable True)
  | diagnose _ => inferInstanceAs (Decidable True)
  | add _ _ => inferInstanceAs (Decidable False)
  | update _ _ => inferInstanceAs (Decidable False)
  | close _ => inferInstanceAs (Decidable False)

theorem Edits.plain : ∀ {r : Request}, r.Edits → r.Plain
  | add _ _, h | update _ _, h => ⟨h.1, h.2.1⟩

theorem Roomy.spells {disk : Disk} (hd : disk.WellNamed) {pattern : String} (h : Roomy pattern)
    (habs : (Path.ofString pattern).isAbsolute = true) (hwild : Text.stripEnd? Listed.wildcard pattern = none) :
    Overlay.Spells disk (Path.ofString pattern) :=
  (h habs hwild).elim .of_normal (.of_room hd)

theorem Asks.plain : ∀ {r : Request}, r.Asks → r.Plain
  | load _, h | track _, h => h.1
  | analyse _, _ | diagnose _, _ => trivial

end Request

namespace Graph

variable {disk : Disk} {m : ModuleRoot} {w g g' : Graph}

/-! ## Giving diagnostics -/

theorem UpToDate.invalidate (h : UpToDate disk m w g) (path : String) : UpToDate disk m w (g.invalidate path) := by
  refine ⟨h.lists.congr rfl rfl rfl ?_, h.recalls, ?_⟩
  · intro key n hn
    rw [find?_invalidate] at hn
    obtain ⟨old, hold, rfl⟩ := Option.map_eq_some_iff.mp hn
    refine (h.lists.fresh key old hold).congr ?_
    unfold invalidateNode
    split <;> rfl
  · intro key n hn
    rw [find?_invalidate] at hn
    obtain ⟨old, hold, rfl⟩ := Option.map_eq_some_iff.mp hn
    unfold invalidateNode
    split
    · exact h.sound key old hold
    · exact sound_unknown rfl rfl

theorem UpToDate.publish (h : UpToDate disk m w g) (path : String) (surface : Option Surface) :
    UpToDate disk m w (g.publish path surface) := by
  have h' : UpToDate disk m w { g with published := g.published.insert path surface } :=
    ⟨h.lists.congr rfl rfl rfl h.lists.fresh, h.recalls, h.sound⟩
  unfold Graph.publish
  simp only
  split
  · exact h'.invalidate path
  · exact h'

theorem UpToDate.modifyState (h : UpToDate disk m w g) (path : String) (state : Lifecycle) :
    UpToDate disk m w (g.modifyPackage path fun n => { n with state }) := by
  refine ⟨h.lists.modifyPackage fun _ => rfl, h.recalls, fun key n hn => ?_⟩
  rw [find?_modifyPackage] at hn
  split at hn
  · obtain ⟨old, hold, rfl⟩ := Option.map_eq_some_iff.mp hn
    exact (h.sound key old hold).congr rfl rfl rfl
  · exact h.sound key n hn

/-- The diagnostics of a package depend on its files and on its errors only. -/
theorem ofNode_congr {n n' : PackageNode} (hf : n.files = n'.files) (he : n.errors = n'.errors) :
    FileDiagnostics.ofNode n = FileDiagnostics.ofNode n' := by
  unfold FileDiagnostics.ofNode
  rw [hf, he]

theorem Settles.ofNode {n n' : PackageNode} {a : Analysis} (hs : w.Settles disk n a) (hf : n'.files = n.files)
    (ha : n'.analysis = some a) : ∃ depth, ∀ fuel, depth ≤ fuel →
      FileDiagnostics.ofNode n' =
        FileDiagnostics.ofNode { n with analysis := some (w.batchWithin disk fuel n) } := by
  obtain ⟨depth, hs⟩ := hs
  refine ⟨depth, fun fuel hfuel => ofNode_congr hf ?_⟩
  simp only [PackageNode.errors, ha, Option.map_some, Option.getD_some]
  exact (hs fuel hfuel).2.2.symm

/-! ## Each question -/

section
variable (hd : disk.WellNamed) (hm : m.dir.Rooted) (hnamed : m.Named)
include hd hm hnamed

/-- A package is analysed as checking from scratch does, if nothing that it leads to is outdated. -/
theorem Agrees.ends_analyse {o : Graph} {far : String → PackageNode → Prop} {path : String} {n : PackageNode}
    (h : Agrees disk m w o far (g.startChecking path)) (hr : Resting disk m g) (hn : g.packages.find? path = some n)
    (hnear : ∀ key z, Relation.ReflTransGen (w.Uses disk) n.bare z.bare → ¬far key z)
    (hstraight : AcyclicBelow disk w n.bare) :
    Ends (analyse disk path) g fun _ g' => (Agrees disk m w o far g' ∧ Extends g g') ∧
      ∃ n' a, g'.packages.find? path = some n' ∧ n'.analysis = some a ∧ n'.bare = n.bare ∧ w.Settles disk n a := by
  unfold analyse
  rw [ends_bind, ends_get]
  have hstack : Stack disk w far g n := by
    refine ⟨?_, fun key n hn hb => absurd hb (hr.states key n hn), ?_, hnear, hstraight⟩
    · rw [hr.building]
      exact List.nodup_nil
    · rw [hr.building]
      simp
  have hroom : w.size disk + 2 ≤ g.building.length + (g.size disk + 2) := by
    have hsize : g.size disk = w.size disk := size_congr h.lists.view.held
    omega
  have hrun := finds_analyseWithin hd hm hnamed (g.size disk + 2) path g n hr.inv h hn (hr.states path n hn)
    hstack hroom
  refine hrun.mono fun _ g' ⟨⟨h', he⟩, n', a, hn', ha⟩ => ⟨⟨h', he⟩, n', a, hn', ha, ?_⟩
  have hbare : n.bare = n'.bare :=
    h.bare_eq h' (n := { n.reset with state := .building }) (find?_startChecking hn) hn'
  exact ⟨hbare.symm, ((hstack.sound h' hn' (hbare ▸ .refl)).settled a ha).congr hbare.symm⟩

omit hd hm hnamed in
theorem UpToDate.agrees (h : UpToDate disk m w g) (hi : Inv disk m g) : Agrees disk m w g (fun _ _ => False) g :=
  ⟨hi, h.lists, h.recalls, fun _ _ hn _ => hn, fun key n hn => Or.inl (h.sound key n hn)⟩

omit hd hm hnamed in
theorem UpToDate.startChecking (h : UpToDate disk m w g) (path : String) :
    UpToDate disk m w (g.startChecking path) := by
  refine ⟨h.lists.modifyPackage fun _ => rfl, h.recalls, fun key n hn => ?_⟩
  rw [Graph.startChecking, find?_modifyPackage] at hn
  split at hn
  · obtain ⟨old, -, rfl⟩ := Option.map_eq_some_iff.mp hn
    exact sound_unknown rfl rfl
  · exact h.sound key n hn

omit hd hm hnamed in
theorem Agrees.upToDate {o : Graph} (h : Agrees disk m w o (fun _ _ => False) g) : UpToDate disk m w g :=
  ⟨h.lists, h.recalls, fun key n hn => (h.sound key n hn).resolve_right id⟩

variable (hacyclic : Acyclic disk w)
include hacyclic

theorem UpToDate.ends_analyse (h : UpToDate disk m w g) (hr : Resting disk m g) {path : String} {n : PackageNode}
    (hn : g.packages.find? path = some n) :
    Ends (analyse disk path) g fun _ g' => (UpToDate disk m w g' ∧ Inv disk m g') ∧
      ∃ n' a, g'.packages.find? path = some n' ∧ n'.analysis = some a ∧ n'.bare = n.bare ∧ w.Settles disk n a := by
  have hstart := (h.startChecking path).agrees (hr.inv.startChecking hn (hr.states path n hn))
  refine (hstart.ends_analyse hd hm hnamed hr hn (fun _ _ _ => id) fun z _ => hacyclic z).mono
    fun _ g' ⟨⟨h', _⟩, hn'⟩ => ?_
  exact ⟨⟨h'.upToDate, h'.inv⟩, hn'⟩

theorem UpToDate.ends_ensureAnalysed (h : UpToDate disk m w g) (hr : Resting disk m g) (path : String) :
    Ends (ensureAnalysed disk path) g fun _ g' => UpToDate disk m w g' := by
  unfold ensureAnalysed
  rw [ends_bind, ends_get]
  cases hn : g.packages.find? path with
  | none => exact h
  | some n =>
    simp only
    split
    · rw [ends_bind]
      exact (h.ends_analyse hd hm hnamed hacyclic hr hn).mono fun _ g' ⟨⟨h', _⟩, _⟩ => h'
    · exact h

/-- A package that is out of date is analysed as checking from scratch does, and its diagnostics come from that. -/
theorem UpToDate.ends_diagnose_dirty (h : UpToDate disk m w g) (hr : Resting disk m g) {path : String}
    {n : PackageNode}
    (hn : g.packages.find? path = some n) (hs : n.state = .dirty) :
    Ends (diagnose disk path) g fun r g' => UpToDate disk m w g' ∧ ∃ n' a, g'.packages.find? path = some n' ∧
      r = .ofNode n' ∧ n'.files = n.files ∧ n'.analysis = some a ∧ w.Settles disk n a := by
  rw [Graph.ends_diagnose, hn]
  dsimp only
  rw [if_neg (not_not.mpr hs)]
  refine (h.ends_analyse hd hm hnamed hacyclic hr hn).mono fun _ g' ⟨⟨h', hi'⟩, n', a, hn', ha, hbare, hsettles⟩ =>
    ?_
  have hcurrent := h'.modifyState path .current
  have hfind : (g'.markCurrent path).packages.find? path = some { n' with state := .current } := by
    rw [markCurrent, find?_modifyPackage, if_pos rfl, hn']
    rfl
  have hpath := (hi'.nodes path n' hn').path
  have hfiles : n'.files = n.files := (PackageNode.of_bare_eq hbare).2.1
  rw [hfind]
  exact ⟨hcurrent.publish path _, { n' with state := .current }, a, find?_publish hfind hpath _, rfl, hfiles,
    ha, hsettles⟩

/-- The diagnostics of a package that is out of date are those of a check from scratch. -/
theorem UpToDate.ends_diagnose (h : UpToDate disk m w g) (hr : Resting disk m g) (path : String) :
    Ends (diagnose disk path) g fun r g' => UpToDate disk m w g' ∧
      ∀ n, g.packages.find? path = some n → n.state = .dirty → ∃ depth, ∀ fuel, depth ≤ fuel →
        r = FileDiagnostics.ofNode { n with analysis := some (w.batchWithin disk fuel n) } := by
  cases hn : g.packages.find? path with
  | none =>
    rw [Graph.ends_diagnose, hn]
    refine ⟨h, ?_⟩
    rintro n ⟨⟩
  | some n =>
    by_cases hs : n.state = .dirty
    · refine (h.ends_diagnose_dirty hd hm hnamed hacyclic hr hn hs).mono fun r g' hall => ?_
      obtain ⟨h', n', a, -, rfl, hfiles, ha, hsettles⟩ := hall
      refine ⟨h', ?_⟩
      rintro _ ⟨⟩ -
      exact hsettles.ofNode hfiles ha
    · rw [Graph.ends_diagnose, hn]
      dsimp only
      rw [if_pos hs]
      refine ⟨h, ?_⟩
      rintro _ ⟨⟩ hdirty
      exact absurd hdirty hs

theorem UpToDate.request (h : UpToDate disk m w g) (hr : Resting disk m g) {r : Request} (ha : r.Asks) :
    UpToDate disk m w (r.after disk g) := by
  have hagrees := h.agrees hr.inv
  cases r with
  | load pattern => exact (hagrees.ends_load hd hm hnamed ha.1 (ha.2.spells hd)).1.1.upToDate
  | track pattern =>
    change Ends (loadTracked disk pattern).run g fun _ g' => UpToDate disk m w g'
    unfold loadTracked
    rw [ends_then]
    refine (hagrees.ends_load hd hm hnamed ha.1 (ha.2.spells hd)).mono fun r g' ⟨⟨h', _⟩, _⟩ => ?_
    cases r with
    | error e => exact h'.upToDate
    | ok paths => exact ⟨h'.lists.congr rfl rfl rfl h'.lists.fresh, h'.recalls, h'.upToDate.sound⟩
  | analyse package => exact h.ends_ensureAnalysed hd hm hnamed hacyclic hr package
  | diagnose package => exact (h.ends_diagnose hd hm hnamed hacyclic hr package).1
  | add file text => cases ha
  | update file text => cases ha
  | close file => cases ha

theorem UpToDate.requests (hi : disk.PlainImports) : ∀ {asks : List Request} {g : Graph},
    UpToDate disk m w g → Resting disk m g → (∀ r ∈ asks, r.Asks) → UpToDate disk m w (g.after disk asks) ∧
    Resting disk m (g.after disk asks)
  | [], _, h, hr, _ => ⟨h, hr⟩
  | r :: asks, g, h, hr, ha =>
    (h.request hd hm hnamed hacyclic hr (ha r (by simp))).requests hi (hr.request hd hm hi (ha r (by simp)).plain)
      fun r' hr' => ha r' (List.mem_cons_of_mem _ hr')

end

/-! ## Edits find out nothing -/

def Blank (g : Graph) : Prop := ∀ key n, g.packages.find? key = some n → n.analysis = none

theorem Blank.ends_enterListed (h : Blank g) (l : Listed) :
    Ends (enterListed disk l).run g fun _ g' => Blank g' := by
  rw [Graph.ends_enterListed]
  cases g.idlFiles disk l.dir with
  | error e => exact h
  | ok files =>
    simp only
    split
    · exact h
    · intro key n hn
      rcases Table.eq_or_find?_of_insert hn with ⟨rfl, rfl⟩ | hold
      · unfold listedNode relist
        cases hfind : g.packages.find? l.path with
        | none => rfl
        | some old =>
          simp only
          split
          · exact h l.path old hfind
          · rfl
      · exact h key n hold

theorem Blank.ends_enterAll {listed : List Listed} {g : Graph} (h : Blank g) :
    Ends (listed.filterMapM (enterListed disk)).run g fun _ g' => Blank g' := by
  have hround : ∀ l ∈ listed, ∀ t, Blank t → Ends (enterListed disk l).run t fun r t' =>
      Blank t' ∧ ∀ p, r = .ok (some p) → True := fun l _ t ht =>
    (ht.ends_enterListed l).mono fun _ _ h' => ⟨h', fun _ _ => trivial⟩
  exact (ends_filterMapM hround h).mono fun _ _ h' => h'.1

theorem Blank.ends_load (h : Blank g) (pattern : String) : Ends (load disk pattern).run g fun _ g' => Blank g' := by
  rw [Graph.ends_load]
  cases g.remembered? pattern with
  | some paths => exact h
  | none =>
    simp only
    cases g.readied disk pattern with
    | error e => exact h
    | ok overlay =>
      simp only
      cases Listed.ofPattern disk g.layout overlay pattern with
      | error e => exact h
      | ok listed =>
        refine Ends.mono (Blank.ends_enterAll (g := { g with overlay }) h) fun r g' h' => ?_
        cases r <;> exact h'

theorem Blank.ends_loadOne (h : Blank g) (pattern : String) :
    Ends (loadOne disk pattern).run g fun _ g' => Blank g' := by
  rw [Graph.ends_loadOne]
  refine (h.ends_load pattern).mono fun r g' h' => ?_
  rcases r with e | paths
  · exact h'
  · rcases paths with _ | ⟨path, _ | ⟨_, _⟩⟩ <;> exact h'

theorem Blank.modifyPackage (h : Blank g) {path : String} {f : PackageNode → PackageNode}
    (hf : ∀ n, (f n).analysis = none) : Blank (g.modifyPackage path f) := by
  intro key n hn
  rw [find?_modifyPackage] at hn
  split at hn
  · obtain ⟨old, -, rfl⟩ := Option.map_eq_some_iff.mp hn
    exact hf old
  · exact h key n hn

theorem Blank.noteEdit (h : Blank g) (path : String) : Blank (g.noteEdit path) := by
  intro key n hn
  rw [find?_noteEdit] at hn
  obtain ⟨old, hold, rfl⟩ := Option.map_eq_some_iff.mp hn
  unfold invalidateNode
  split
  · exact h key old hold
  · rfl

theorem Blank.ends_addFile (h : Blank g) (file : Path) (text : String) :
    Ends (addFile disk file text).run g fun _ g' => Blank g' := by
  unfold addFile
  simp only
  cases hdir : directoryOf? file.normalize with
  | none => exact h
  | some dir =>
    simp only [ends_then, ends_modify_run, ends_get_run]
    cases (g.hold file.normalize text).packageIn? dir with
    | some n => exact Blank.noteEdit (Blank.modifyPackage (g := g.hold file.normalize text) h fun _ => rfl) n.path
    | none =>
      simp only
      rw [ends_then]
      unfold loadNew
      simp only [ends_then, ends_get_run, ends_lift]
      cases (g.hold file.normalize text).overlay.addForNewPackage disk dir
        ((Token.packageClauseName text).getD dir.fileName) with
      | error e => exact h
      | ok r =>
        simp only [Except.mapError, ends_set_run, ends_adapt]
        have h' : Blank
            { g.hold file.normalize text with
              overlay := r.2
              memo := (g.hold file.normalize text).memo.erase dir.text } := h
        refine (h'.ends_loadOne dir.text).mono fun r t ht => ?_
        cases r with
        | error e => exact ht
        | ok path => exact Blank.noteEdit (ht.modifyPackage fun _ => rfl) path

theorem Blank.ends_updateFile (h : Blank g) (file : Path) (text : String) :
    Ends (updateFile disk file text).run g fun _ g' => Blank g' := by
  unfold updateFile
  simp only
  cases directoryOf? file.normalize with
  | none => exact h
  | some dir =>
    simp only [ends_then, ends_get_run]
    cases g.packageIn? dir with
    | none => exact h.ends_addFile file.normalize text
    | some n =>
      simp only [ends_then, ends_modify_run, ends_get_run, ends_lift]
      cases (g.hold file.normalize text).idlFiles disk dir with
      | error e => exact h
      | ok files =>
        exact Blank.noteEdit (Blank.modifyPackage (g := g.hold file.normalize text) h fun _ => rfl) n.path

/-! ## From the start -/

theorem ready_discover {root : Path} (hg : discover disk root = .ok g) : Ready disk m g ∧ Blank g := by
  unfold discover at hg
  cases hl : Layout.discover disk root with
  | error e => rw [hl] at hg; cases hg
  | ok layout =>
    rw [hl] at hg
    cases hg
    refine ⟨⟨⟨.refl disk m _, Overlay.tidy_empty disk, ?_, ?_⟩, ?_⟩, ?_⟩
    · intro h
      simp at h
    · intro key n hn
      cases hn
    · intro pattern paths hfind
      cases hfind
    · intro key n hn
      cases hn

section
variable (hd : disk.WellNamed) (hm : m.dir.Rooted) (hnamed : m.Named)
include hd hm hnamed

theorem Ready.request (h : Ready disk m g) (hr : Resting disk m g) {r : Request} (he : r.Edits) :
    Ready disk m (r.after disk g) := by
  cases r with
  | add file text => exact h.ends_addFile hd hm hnamed hr (plain_resolved_ofString file) he.1 he.2.1 he.2.2
  | update file text => exact h.ends_updateFile hd hm hnamed hr (plain_resolved_ofString file) he.1 he.2.1 he.2.2
  | load pattern => cases he
  | track pattern => cases he
  | analyse package => cases he
  | diagnose package => cases he
  | close file => cases he

omit hd hm hnamed in
theorem Blank.request (h : Blank g) {r : Request} (he : r.Edits) : Blank (r.after disk g) := by
  cases r with
  | add file text => exact h.ends_addFile (.ofString file) text
  | update file text => exact h.ends_updateFile (.ofString file) text
  | load pattern => cases he
  | track pattern => cases he
  | analyse package => cases he
  | diagnose package => cases he
  | close file => cases he

/-- After edits alone, nothing is outdated. -/
theorem Ready.requests (hi : disk.PlainImports) : ∀ {edits : List Request} {g : Graph},
    Ready disk m g → Blank g → Resting disk m g → (∀ r ∈ edits, r.Edits) →
    UpToDate disk m (g.after disk edits) (g.after disk edits) ∧ Resting disk m (g.after disk edits)
  | [], g, h, hb, hr, _ => by
    refine ⟨⟨h.lists, h.recalls, fun key n hn => sound_unknown (hb key n hn) ?_⟩, hr⟩
    rw [Bool.eq_false_iff]
    intro hc
    rcases (hr.inv.nodes key n hn).cycle hc with hs | hs
    · simp [hb key n hn] at hs
    · exact hr.states key n hn hs
  | r :: edits, g, h, hb, hr, he =>
    have hr' := he r (by simp)
    (h.request hd hm hnamed hr hr').requests hi (hb.request hr') (hr.request hd hm hi hr'.plain)
      fun r' hr' => he r' (List.mem_cons_of_mem _ hr')

end

end Graph

end IdlWorkbench
