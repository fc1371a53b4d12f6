import IdlWorkbench.Proofs.Graph.Follow
import IdlWorkbench.Proofs.Graph.Sited
import IdlWorkbench.Proofs.Workspace.Vacant

/-!
# Evicted packages are forgotten

When the last file of a package is closed, nothing that the graph remembers mentions the package any more: it is not
loaded, tracked or published, no pattern stands for it, and its importers are to be analysed anew. Its placeholder
stays, but loading its import path or its directory again answers as a graph does that has never seen it.

The requests before may be any on a single module, so long as import paths have no part to resolve. `Homed` is what
they keep of where packages, texts and placeholders come from.
-/

namespace IdlWorkbench

open IdlWorkbench.Path

/-! ## The directory of an import path -/

namespace Listed

variable {l : Layout} {m : ModuleRoot}

theorem patternDir_of_owns (hl : l.modules = [m]) {dir : Path} {path : String} (ho : m.Owns dir path)
    (ha : (Path.ofString path).isAbsolute = false) : patternDir l path = .ok (some dir) := by
  obtain ⟨names, hn, rfl, rfl⟩ := ho
  obtain ⟨rest, hrest, hparts⟩ := m.rest?_pathAt hn
  have hstandard : l.isStandard (m.pathAt names) = false := by
    rw [Layout.isStandard, Layout.moduleFor?_eq hl, hrest]
    simp
  unfold patternDir
  simp only [ha, hstandard, Bool.false_eq_true, if_false]
  rw [Layout.resolve?_eq hl, hrest, Option.map_some, hparts]

theorem patternDir_text {dir : Path} (h : dir.Rooted) : patternDir l dir.text = .ok (some dir) := by
  unfold patternDir
  simp only [ofString_text_of_rooted h, h.absolute, if_true]
  rw [h.normal]

end Listed

/-- A request whose import paths have no part to resolve. -/
def Request.Undotted : Request → Prop
  | load pattern | track pattern => PlainPattern pattern
  | add _ text | update _ text => PlainImports text
  | analyse _ | diagnose _ | close _ => True

instance : (r : Request) → Decidable r.Undotted
  | .load pattern => inferInstanceAs (Decidable (PlainPattern pattern))
  | .track pattern => inferInstanceAs (Decidable (PlainPattern pattern))
  | .add _ text => inferInstanceAs (Decidable (PlainImports text))
  | .update _ text => inferInstanceAs (Decidable (PlainImports text))
  | .analyse _ => inferInstanceAs (Decidable True)
  | .diagnose _ => inferInstanceAs (Decidable True)
  | .close _ => inferInstanceAs (Decidable True)

namespace Graph

variable {disk : Disk} {m : ModuleRoot} {g g' : Graph}

/-! ## Loading where there is nothing -/

theorem disk_of_idlFiles_nil {dir : Path} (h : g.idlFiles disk dir = .ok []) :
    disk.filesWithExtension dir idlExtension = .ok [] := by
  unfold idlFiles at h
  obtain ⟨onDisk, hdisk, h⟩ := bind_eq_ok.mp h
  have hnil : sortedPaths (onDisk ++ g.held.keys.filter fun p => p.parent? == some dir &&
      p.extension? = some idlExtension) = [] := Except.ok.inj h
  unfold sortedPaths at hnil
  split at hnil
  · rename_i hsort
    have hperm := Path.sort_perm (onDisk ++ g.held.keys.filter fun p => p.parent? == some dir &&
      p.extension? = some idlExtension)
    rw [hsort] at hperm
    rw [hdisk, (List.append_eq_nil_iff.mp hperm.symm.eq_nil).1]
  · cases hnil

/-- A pattern that means a directory without IDL files is loaded from the disk alone. -/
theorem ends_load_vacant (hd : disk.WellNamed) (ho : g.overlay.Placed disk) {dir : Path} (hn : dir.Normal)
    {path : String}
    (hhome : g.layout.importPathOf? dir = some path) (hidl : g.idlFiles disk dir = .ok []) {pattern : String}
    (hmemo : g.memo.find? pattern = none) (hwild : Text.stripEnd? Listed.wildcard pattern = none)
    (hdir : Listed.patternDir g.layout pattern = .ok (some dir))
    (habs : (Path.ofString pattern).isAbsolute = true → Path.ofString pattern = dir) :
    Ends (load disk pattern).run g fun r _ =>
      r = ((Listed.troubled? disk g.layout dir).map fun l => l.toList.map (·.path)).mapError .layout := by
  have hdisk := disk_of_idlFiles_nil hidl
  have hscanned := ho.ensureScanned g.layout
  have hready : g.readied disk pattern = .ok (g.overlay.ensureScanned disk g.layout) := by
    unfold readied
    dsimp only
    split
    · rename_i hnamed
      rw [habs (Bool.and_eq_true _ _ ▸ hnamed).1, Overlay.addForDir_eq]
      obtain ⟨hosts, hhosts⟩ := Disk.filesWithExtension_isOk hdisk hostExtension
      have hname : Overlay.nameFor disk dir = .ok none := by
        unfold Overlay.nameFor
        rw [hhosts, hdisk]
        simp only [bind, Except.bind]
        split <;> rfl
      rw [hname]
      rfl
    · rfl
  have hrecall : g.remembered? pattern = none := by
    unfold remembered?
    rw [hmemo]
    rfl
  rw [ends_load, hrecall, hready, ← Listed.troubled?_eq hd hscanned hn hdisk hhome]
  unfold Listed.ofPattern
  simp only [hwild, hdir, bind, Except.bind]
  cases hx : Listed.ofDir? disk g.layout (g.overlay.ensureScanned disk g.layout) dir with
  | error e => rfl
  | ok found =>
    cases found with
    | none => rfl
    | some l =>
      have hidl' : ({ g with overlay := g.overlay.ensureScanned disk g.layout } : Graph).idlFiles disk dir =
        .ok [] := hidl
      dsimp only [pure, Except.pure, Option.toList_some]
      rw [List.filterMapM_cons, ends_then, ends_enterListed, (Listed.of_ofDir? hx).1, hidl']
      cases herrors : l.errors with
      | nil =>
        have hnone : (some l).filter (fun l => !l.errors.isEmpty) = none := by simp [Option.filter, herrors]
        simp only [Except.map, hnone]
        exact rfl
      | cons e rest =>
        have hsome : (some l).filter (fun l => !l.errors.isEmpty) = some l := by simp [Option.filter, herrors]
        simp only [Except.map, hsome]
        exact rfl

/-! ## Where things come from -/

structure HomedAt (disk : Disk) (m : ModuleRoot) (g : Graph) (key : String) (n : PackageNode) : Prop where
  owned : m.Owns n.dir key
  listed : ∃ onDisk, disk.filesWithExtension n.dir idlExtension = .ok onDisk
  files : ∀ f ∈ n.files, f.extension? = some idlExtension ∨ (g.held.find? f).isSome = true

/-- Packages lie in directories of the module, their files are IDL files or held, held texts have plain imports, and
placeholders are where they may be. -/
structure Homed (disk : Disk) (m : ModuleRoot) (g : Graph) : Prop where
  modules : g.layout.modules = [m]
  placed : g.overlay.Placed disk
  held : ∀ file text, g.held.find? file = some text → PlainImports text
  nodes : ∀ key n, g.packages.find? key = some n → HomedAt disk m g key n

section
variable (h : Homed disk m g)
include h

theorem Homed.restate (hl : g'.layout = g.layout) (ho : g'.overlay = g.overlay) (hh : g'.held = g.held)
    (hn : ∀ key n', g'.packages.find? key = some n' →
      ∃ n, g.packages.find? key = some n ∧ n'.dir = n.dir ∧ n'.files = n.files) : Homed disk m g' := by
  refine ⟨hl ▸ h.modules, ho ▸ h.placed, hh ▸ h.held, fun key n' hn' => ?_⟩
  obtain ⟨n, hfind, hdir, hfiles⟩ := hn key n' hn'
  obtain ⟨howned, hlisted, hheld⟩ := h.nodes key n hfind
  constructor
  · rwa [hdir]
  · rwa [hdir]
  · rwa [hfiles, hh]

theorem Homed.modifyPackage {path : String} {f : PackageNode → PackageNode}
    (hf : ∀ n, (f n).dir = n.dir ∧ (f n).files = n.files) : Homed disk m (g.modifyPackage path f) := by
  refine h.restate rfl rfl rfl fun key n' hn' => ?_
  rw [find?_modifyPackage] at hn'
  split at hn'
  · obtain ⟨n, hn, rfl⟩ := Option.map_eq_some_iff.mp hn'
    exact ⟨n, hn, hf n⟩
  · exact ⟨n', hn', rfl, rfl⟩

theorem Homed.invalidated (hl : g'.layout = g.layout) (ho : g'.overlay = g.overlay) (hh : g'.held = g.held)
    {path : String}
    (hn : ∀ key, g'.packages.find? key = (g.packages.find? key).map (invalidateNode path)) : Homed disk m g' := by
  refine h.restate hl ho hh fun key n' hn' => ?_
  rw [hn] at hn'
  obtain ⟨n, hfind, rfl⟩ := Option.map_eq_some_iff.mp hn'
  have hbare := PackageNode.of_bare_eq (bare_invalidateNode path n)
  exact ⟨n, hfind, hbare.1, hbare.2.1⟩

theorem Homed.noteEdit (path : String) : Homed disk m (g.noteEdit path) := by
  obtain ⟨ho, hl, hh⟩ := overlay_noteEdit (g := g) path
  exact h.invalidated hl ho hh (find?_noteEdit path)

theorem Homed.publish (path : String) (surface : Option Surface) : Homed disk m (g.publish path surface) := by
  unfold Graph.publish
  dsimp only
  split
  · exact h.invalidated rfl rfl rfl (find?_invalidate (g := { g with published := _ }) path)
  · exact h.restate rfl rfl rfl fun _ n hn => ⟨n, hn, rfl, rfl⟩

theorem Homed.markCycle (path : String) : Homed disk m (g.markCycle path) := by
  obtain ⟨packages, heq, hfind⟩ := markCycle_eq g path
  rw [heq]
  refine h.restate rfl rfl rfl fun key n' hn' => ?_
  rw [hfind] at hn'
  obtain ⟨n, hn, rfl⟩ := Option.map_eq_some_iff.mp hn'
  refine ⟨n, hn, ?_⟩
  split <;> exact ⟨rfl, rfl⟩

theorem Homed.withOverlay {o : Overlay} (ho : o.Placed disk) : Homed disk m { g with overlay := o } :=
  ⟨h.modules, ho, h.held, fun key n hn =>
    ⟨(h.nodes key n hn).owned, (h.nodes key n hn).listed, (h.nodes key n hn).files⟩⟩

theorem Homed.readied {pattern : String} {o : Overlay} (ho : g.readied disk pattern = .ok o) : o.Placed disk := by
  have hscanned := h.placed.ensureScanned g.layout
  unfold Graph.readied at ho
  dsimp only at ho
  split at ho
  · cases hadd : (g.overlay.ensureScanned disk g.layout).addForDir disk (Path.ofString pattern) with
    | error e =>
      rw [hadd] at ho
      cases ho
    | ok r =>
      rw [hadd] at ho
      cases ho
      exact hscanned.addForDir hadd
  · cases ho
    exact hscanned

/-- The files of a package import packages by plain paths. -/
theorem Homed.plain_imports (hi : disk.PlainImports) {key : String} {n : PackageNode} (hn : HomedAt disk m g key n) :
    ∀ path ∈ Check.importPaths ((n.files.map (ParsedFile.ofPath disk g)).map (·.source)), DotFree path := by
  refine forall_importPaths hn.files fun file text hfile hr => ?_
  unfold Graph.read at hr
  split at hr
  · rename_i held hheld
    cases hr
    exact h.held file _ hheld
  · rename_i hheld
    rw [hheld] at hfile
    exact hi file text (hfile.resolve_right nofun) hr

end

/-! ## Loading and analysing -/

theorem Homed.ends_enterListed (h : Homed disk m g) {l : Listed} (hl : m.Owns l.dir l.path) :
    Ends (enterListed disk l).run g fun _ g' => Homed disk m g' := by
  rw [Graph.ends_enterListed]
  cases hf : g.idlFiles disk l.dir with
  | error e => exact h
  | ok files =>
    dsimp only
    split
    · exact h
    · have hplace : (listedNode g l files).dir = l.dir ∧ (listedNode g l files).files = files := by
        unfold listedNode
        dsimp only
        split <;> exact ⟨rfl, rfl⟩
      obtain ⟨onDisk, hdisk, -⟩ := bind_eq_ok.mp hf
      refine ⟨h.modules, h.placed, h.held, fun key n hn => ?_⟩
      rcases Table.eq_or_find?_of_insert hn with ⟨rfl, rfl⟩ | hold
      · constructor
        · rw [hplace.1]
          exact hl
        · rw [hplace.1]
          exact ⟨onDisk, hdisk⟩
        · rw [hplace.2]
          exact fun f hmem => Or.inl (extension_of_idlFiles hf f hmem)
      · exact ⟨(h.nodes key n hold).owned, (h.nodes key n hold).listed, (h.nodes key n hold).files⟩

theorem Homed.ends_enterAll (h : Homed disk m g) {listed : List Listed} (hl : ∀ l ∈ listed, m.Owns l.dir l.path) :
    Ends (listed.filterMapM (enterListed disk)).run g fun _ g' => Homed disk m g' := by
  have hround : ∀ l ∈ listed, ∀ t, Homed disk m t → Ends (enterListed disk l).run t fun r t' =>
      Homed disk m t' ∧ ∀ p, r = .ok (some p) → True := fun l hmem t ht =>
    (ht.ends_enterListed (hl l hmem)).mono fun _ _ ht' => ⟨ht', fun _ _ => trivial⟩
  exact (ends_filterMapM hround h).mono fun _ _ h' => h'.1

section
variable (hd : disk.WellNamed) (hm : m.dir.Rooted)
include hd hm

theorem Homed.ends_load (h : Homed disk m g) {pattern : String} (hp : PlainPattern pattern) :
    Ends (load disk pattern).run g fun _ g' => Homed disk m g' := by
  rw [Graph.ends_load]
  cases g.remembered? pattern with
  | some paths => exact h
  | none =>
    dsimp only
    cases hready : g.readied disk pattern with
    | error e => exact h.withOverlay (h.placed.ensureScanned g.layout)
    | ok o =>
      have h' := h.withOverlay (h.readied hready)
      dsimp only
      cases hlist : Listed.ofPattern disk g.layout o pattern with
      | error e => exact h'
      | ok listed =>
        refine (h'.ends_enterAll (Listed.owns_of_ofPattern h.modules hm hd hp.straight hlist)).mono fun r g' h'' =>
          ?_
        cases r with
        | error e => exact h''
        | ok paths => exact h''.restate rfl rfl rfl fun _ n hn => ⟨n, hn, rfl, rfl⟩

theorem Homed.ends_loadOne (h : Homed disk m g) {pattern : String} (hp : PlainPattern pattern) :
    Ends (loadOne disk pattern).run g fun _ g' => Homed disk m g' := by
  rw [Graph.ends_loadOne]
  refine (h.ends_load hd hm hp).mono fun r g' h' => ?_
  split <;> exact h'

theorem Homed.ends_loadTracked (h : Homed disk m g) {pattern : String} (hp : PlainPattern pattern) :
    Ends (loadTracked disk pattern).run g fun _ g' => Homed disk m g' := by
  unfold loadTracked
  rw [ends_then]
  refine (h.ends_load hd hm hp).mono fun r g' h' => ?_
  cases r with
  | error e => exact h'
  | ok paths => exact h'.restate rfl rfl rfl fun _ n hn => ⟨n, hn, rfl, rfl⟩

section
variable {analyse : String → StateM Graph Unit}
  (ha : ∀ path g, Homed disk m g → Ends (analyse path) g fun _ g' => Homed disk m g')
include ha

theorem Homed.ends_importPackage (h : Homed disk m g) {importPath : String} (hp : DotFree importPath) :
    Ends (importPackage disk analyse importPath).run g fun _ g' => Homed disk m g' := by
  refine kept_importPackage (fun _ => h) (fun _ => h.ends_loadOne hd hm (Or.inr hp)) ?_ ?_
  · exact fun path t ht => ht.markCycle path
  · exact fun path t ht _ => ha path t ht

theorem Homed.ends_analyseNode (hi : disk.PlainImports) (h : Homed disk m g) {key : String} {n : PackageNode}
    (hn : HomedAt disk m g key n) : Ends (analyseNode disk analyse n) g fun _ g' => Homed disk m g' := by
  unfold analyseNode
  simp only [ends_bind, ends_get]
  split
  · rw [ends_bind]
    have hpush : Homed disk m { g with building := n.path :: g.building } :=
      h.restate rfl rfl rfl fun _ n hn => ⟨n, hn, rfl, rfl⟩
    refine (kept_checkTypes hpush fun path hpath t ht => ?_).mono fun _ g' => ?_
    · exact ht.ends_importPackage hd hm ha (h.plain_imports hi hn path hpath)
    · rintro ⟨t, ht, rfl⟩
      exact ht.restate rfl rfl rfl fun _ n hn => ⟨n, hn, rfl, rfl⟩
  · exact h

end

variable (hi : disk.PlainImports)
include hi

theorem homed_analyseWithin (fuel : Nat) : ∀ (path : String) (g : Graph),
    Homed disk m g → Ends (analyseWithin disk fuel path) g fun _ g' => Homed disk m g' := by
  induction fuel with
  | zero => exact fun _ g h => h
  | succ fuel ih =>
    intro path g h
    rw [ends_analyseWithin]
    cases hn : g.packages.find? path with
    | none => exact h
    | some n =>
      have hstart : Homed disk m (g.startChecking path) := h.modifyPackage fun _ => ⟨rfl, rfl⟩
      have hnode : HomedAt disk m (g.startChecking path) path n := { h.nodes path n hn with }
      refine (hstart.ends_analyseNode hd hm ih hi hnode).mono fun a t ht => ?_
      exact ht.modifyPackage fun _ => ⟨rfl, rfl⟩

/-! ## Requests -/

theorem Homed.ends_analyse (h : Homed disk m g) (path : String) :
    Ends (analyse disk path) g fun _ g' => Homed disk m g' := by
  unfold Graph.analyse
  rw [ends_bind, ends_get]
  exact homed_analyseWithin hd hm hi _ path g h

theorem Homed.ends_ensureAnalysed (h : Homed disk m g) (path : String) :
    Ends (ensureAnalysed disk path) g fun _ g' => Homed disk m g' := by
  unfold ensureAnalysed
  rw [ends_bind, ends_get]
  cases g.packages.find? path with
  | none => exact h
  | some n =>
    dsimp only
    split
    · rw [ends_bind]
      exact h.ends_analyse hd hm hi path
    · exact h

theorem Homed.ends_diagnose (h : Homed disk m g) (path : String) :
    Ends (diagnose disk path) g fun _ g' => Homed disk m g' := by
  rw [Graph.ends_diagnose]
  cases g.packages.find? path with
  | none => exact h
  | some n =>
    dsimp only
    split
    · exact h
    · refine (h.ends_analyse hd hm hi path).mono fun _ g' h' => ?_
      have hcurrent : Homed disk m (g'.markCurrent path) := h'.modifyPackage fun _ => ⟨rfl, rfl⟩
      cases (g'.markCurrent path).packages.find? path with
      | none => exact hcurrent
      | some n' => exact hcurrent.publish path n'.surface?

end

theorem Homed.hold (h : Homed disk m g) (file : Path) {text : String} (ht : PlainImports text) :
    Homed disk m (g.hold file text) := by
  unfold Graph.hold
  refine ⟨h.modules, h.placed, fun p t hp => ?_, fun key n hn => ?_⟩
  · rcases Table.beq_or_find?_of_insert hp with ⟨-, rfl⟩ | hold
    · exact ht
    · exact h.held p t hold
  · have hnode := h.nodes key n hn
    refine ⟨hnode.owned, hnode.listed, fun f hf => (hnode.files f hf).imp_right fun hs => ?_⟩
    rw [Table.find?_insert]
    split
    · rfl
    · exact hs

/-- A package gets other files. -/
theorem Homed.refile (h : Homed disk m g) {path : String} {f : PackageNode → PackageNode}
    (hdir : ∀ n, (f n).dir = n.dir)
    (hf : ∀ n, g.packages.find? path = some n →
      ∀ p ∈ (f n).files, p.extension? = some idlExtension ∨ (g.held.find? p).isSome = true) :
    Homed disk m (g.modifyPackage path f) := by
  refine ⟨h.modules, h.placed, h.held, fun key n' hn' => ?_⟩
  rw [find?_modifyPackage] at hn'
  split at hn'
  · rename_i heq
    subst heq
    obtain ⟨n, hn, rfl⟩ := Option.map_eq_some_iff.mp hn'
    have hnode := h.nodes key n hn
    constructor
    · rw [hdir]
      exact hnode.owned
    · rw [hdir]
      exact hnode.listed
    · exact hf n hn
  · exact { h.nodes key n' hn' with }

theorem of_find?_evicted {file : Path} {path key : String} {n' : PackageNode}
    (h : ((g.released file path).evict path).packages.find? key = some n') :
    key ≠ path ∧ ∃ n, g.packages.find? key = some n ∧ n' = invalidateNode path n := by
  simp only [Graph.evict, Table.find?_erase, find?_released] at h
  split at h
  · cases h
  · rename_i hne
    obtain ⟨n, hn, heq⟩ := Option.map_eq_some_iff.mp h
    exact ⟨fun e => hne (beq_iff_eq.mpr e), n, hn, heq.symm⟩

section
variable {file : Path} (hn : file.Normal)
include hn

/-- Only the files of one package lie in the directory of a file. -/
theorem AtRest.beq_false_of_ne (hr : AtRest g) (hm : m.dir.Rooted) (h : Homed disk m g) {n : PackageNode}
    (hin : g.packageOf? file = some n) {key : String} (hne : key ≠ n.path) {n' : PackageNode}
    (hn' : g.packages.find? key = some n') {f : Path} (hf : f ∈ n'.files) : ¬(f == file) = true := by
  intro he
  obtain ⟨dir, hdir, hin⟩ := Option.bind_eq_some_iff.mp hin
  obtain ⟨hfind, hbeq⟩ := hr.find?_of_packageIn? hin
  obtain ⟨s, hs⟩ := (hr.sited.nodes key n' hn').inside f hf
  obtain ⟨t, ht⟩ := hn.components_eq (directoryOf?_eq hdir).1
  rw [beq_iff.mp he, ht] at hs
  have hcomp : n'.dir.components = n.dir.components := by
    rw [beq_iff.mp hbeq]
    exact (List.append_inj' hs rfl).1.symm
  have howns := (h.nodes _ n hfind).owned
  have howns' := (h.nodes key n' hn').owned
  have heq := (howns'.rooted hm).normal.eq_of_beq (howns.rooted hm).normal (beq_iff.mpr hcomp)
  rw [heq] at howns'
  exact hne (howns'.path_eq hm howns)

/-- A file is released, and its package is gone or gets its files anew. -/
theorem Homed.release (hr : AtRest g) (hm : m.dir.Rooted) (h : Homed disk m g) {n : PackageNode}
    (hin : g.packageOf? file = some n) (hl : g'.layout = g.layout) (ho : g'.overlay = g.overlay)
    (hh : g'.held = (g.release file).held)
    (hnodes : ∀ key n', g'.packages.find? key = some n' → ∃ old, g.packages.find? key = some old ∧ n'.dir = old.dir ∧
      (key ≠ n.path ∧ n'.files = old.files ∨ ∀ f ∈ n'.files, f.extension? = some idlExtension)) : Homed disk m
        g' := by
  refine ⟨hl ▸ h.modules, ho ▸ h.placed, fun p t hp => ?_, fun key n' hn' => ?_⟩
  · rw [hh, Graph.release, Table.find?_erase] at hp
    split at hp
    · cases hp
    · exact h.held p t hp
  · obtain ⟨old, hold, hdir, hfiles⟩ := hnodes key n' hn'
    have hnode := h.nodes key old hold
    constructor
    · rw [hdir]
      exact hnode.owned
    · rw [hdir]
      exact hnode.listed
    · intro f hf
      rcases hfiles with ⟨hne, hsame⟩ | hidl
      · rw [hsame] at hf
        have hother := hr.beq_false_of_ne hn hm h hin hne hold hf
        rw [hh, Graph.release, Table.find?_erase, if_neg hother]
        exact hnode.files f hf
      · exact Or.inl (hidl f hf)

theorem Homed.ends_closeFile (hr : AtRest g) (hm : m.dir.Rooted) (h : Homed disk m g) :
    Ends (closeFile disk file).run g fun _ g' => Homed disk m g' := by
  rw [Graph.ends_closeFile hn]
  cases hin : g.packageOf? file with
  | none => exact h
  | some n =>
    obtain ⟨dir, -, hdir⟩ := Option.bind_eq_some_iff.mp hin
    obtain ⟨hfind, -⟩ := hr.find?_of_packageIn? hdir
    dsimp only
    cases hf : (g.release file).idlFiles disk n.dir with
    | error e =>
      -- the directory has been listed before
      obtain ⟨onDisk, hdisk⟩ := (h.nodes _ n hfind).listed
      unfold idlFiles at hf
      rw [hdisk] at hf
      cases hf
    | ok files =>
      obtain ⟨hl, ho, hh⟩ := released_eq (g := g) file n.path
      have hold : ∀ key n', (g.released file n.path).packages.find? key = some n' →
          ∃ old, g.packages.find? key = some old ∧ n'.dir = old.dir ∧ n'.files = old.files := by
        intro key n' hn'
        rw [find?_released] at hn'
        obtain ⟨old, hfound, rfl⟩ := Option.map_eq_some_iff.mp hn'
        have hbare := PackageNode.of_bare_eq (bare_invalidateNode n.path old)
        exact ⟨old, hfound, hbare.1, hbare.2.1⟩
      dsimp only
      split
      · refine h.release hn hr hm hin hl ho hh fun key n' hn' => ?_
        obtain ⟨hne, old, hfound, rfl⟩ := of_find?_evicted hn'
        have hbare := PackageNode.of_bare_eq (bare_invalidateNode n.path old)
        exact ⟨old, hfound, hbare.1, Or.inl ⟨hne, hbare.2.1⟩⟩
      · refine h.release hn hr hm hin hl ho hh fun key n' hn' => ?_
        rw [find?_modifyPackage] at hn'
        split at hn'
        · obtain ⟨n₁, hn₁, rfl⟩ := Option.map_eq_some_iff.mp hn'
          obtain ⟨old, hfound, hdir', -⟩ := hold key n₁ hn₁
          exact ⟨old, hfound, hdir', Or.inr (extension_of_idlFiles hf)⟩
        · rename_i hne
          obtain ⟨old, hfound, hdir', hfiles⟩ := hold key n' hn'
          exact ⟨old, hfound, hdir', Or.inl ⟨hne, hfiles⟩⟩

variable (hd : disk.WellNamed) (hm : m.dir.Rooted) (hw : PlainNames file.resolved) {text : String}
    (ht : PlainImports text)
include hd hm hw ht

theorem Homed.ends_addFile (h : Homed disk m g) :
    Ends (addFile disk file text).run g fun _ g' => Homed disk m g' := by
  rw [Graph.ends_addFile hn]
  cases hdir : directoryOf? file with
  | none => exact h
  | some dir =>
    have hheld := h.hold file ht
    dsimp only
    cases g.packageIn? dir with
    | some n =>
      refine (hheld.refile (f := addToNode file) (fun _ => rfl) fun n' hn' p hp => ?_).noteEdit n.path
      have hold : p ∈ n'.files ∨ p = file := by
        unfold addToNode at hp
        dsimp only [PackageNode.markDirty, PackageNode.reset] at hp
        split at hp
        · exact Or.inl hp
        · have hmem := (Path.sort_perm _).mem_iff.mp hp
          simpa using hmem
      rcases hold with hp | rfl
      · exact (hheld.nodes _ n' hn').files p hp
      · right
        rw [Graph.hold, Table.find?_insert_self]
        rfl
    | none =>
      have hdirn := hn.of_parent? (directoryOf?_eq hdir).1
      have hp : PlainPattern dir.text := plainPattern_directoryOf? hw (by rw [hn]; exact hdir)
      dsimp only
      rw [Graph.ends_loadNew]
      cases hadd : (g.hold file text).overlay.addForNewPackage disk dir
          ((Token.packageClauseName text).getD dir.fileName) with
      | error e => exact hheld
      | ok r =>
        have hplaced := hheld.withOverlay (hheld.placed.addForNewPackage hdirn hadd)
        have hstart : Homed disk m
            { g.hold file text with
              overlay := r.2
              memo := (g.hold file text).memo.erase dir.text } :=
          hplaced.restate rfl rfl rfl fun _ n hn => ⟨n, hn, rfl, rfl⟩
        refine (hstart.ends_loadOne hd hm hp).mono fun r g' h' => ?_
        cases r with
        | error e => exact h'
        | ok path =>
          have hdirty : Homed disk m (g'.modifyPackage path PackageNode.markDirty) :=
            h'.modifyPackage fun _ => ⟨rfl, rfl⟩
          exact hdirty.noteEdit path

theorem Homed.ends_updateFile (h : Homed disk m g) :
    Ends (updateFile disk file text).run g fun _ g' => Homed disk m g' := by
  rw [Graph.ends_updateFile hn]
  cases directoryOf? file with
  | none => exact h
  | some dir =>
    dsimp only
    cases g.packageIn? dir with
    | none => exact h.ends_addFile hn hd hm hw ht
    | some n =>
      dsimp only
      cases hf : (g.hold file text).idlFiles disk dir with
      | error e => exact h.hold file ht
      | ok files =>
        have hrefiled : Homed disk m ((g.hold file text).modifyPackage n.path fun n => { n with files }.markDirty) :=
          (h.hold file ht).refile (fun _ => rfl) fun _ _ p hp => Or.inl (extension_of_idlFiles hf p hp)
        exact hrefiled.noteEdit n.path

end

theorem Homed.request (hd : disk.WellNamed) (hm : m.dir.Rooted) (hi : disk.PlainImports) (hr : AtRest g)
    (h : Homed disk m g) {r : Request} (hu : r.Undotted) : Homed disk m (r.after disk g) := by
  have hfile (file : String) : PlainNames (Path.ofString file).normalize.resolved := by
    rw [normalize_eq, resolved_ofNames _ (proper_resolved _)]
    exact plain_resolved_ofString file
  cases r with
  | load pattern => exact h.ends_load hd hm hu
  | track pattern => exact h.ends_loadTracked hd hm hu
  | analyse package => exact h.ends_ensureAnalysed hd hm hi package
  | diagnose package => exact h.ends_diagnose hd hm hi package
  | add file text =>
    have h' := h.ends_addFile (normal_normalize (.ofString file)) hd hm (hfile file) hu
    rw [addFile_normalize] at h'
    exact h'
  | update file text =>
    have h' := h.ends_updateFile (normal_normalize (.ofString file)) hd hm (hfile file) hu
    rw [updateFile_normalize] at h'
    exact h'
  | close file =>
    have h' := h.ends_closeFile (normal_normalize (.ofString file)) hr hm
    rw [closeFile_normalize] at h'
    exact h'

theorem Homed.requests (hd : disk.WellNamed) (hm : m.dir.Rooted) (hi : disk.PlainImports) {requests : List Request}
    (hr : AtRest g) (h : Homed disk m g) (hu : ∀ r ∈ requests, r.Undotted) :
    AtRest (g.after disk requests) ∧ Homed disk m (g.after disk requests) := by
  induction requests generalizing g with
  | nil => exact ⟨hr, h⟩
  | cons r requests ih =>
    exact ih (hr.request hd r) (h.request hd hm hi hr (hu r (by simp))) fun r' hr' =>
      hu r' (List.mem_cons_of_mem _ hr')

/-! ## Eviction -/

/-- Nothing in `g'` is left of a package of `g`. Loading it answers as in the graph `start`, where nothing has been
loaded, unless its import path or its directory reads as a pattern for something else. -/
structure Forgets (disk : Disk) (start g g' : Graph) (path : String) : Prop where
  package : g'.packages.find? path = none
  tracked : path ∉ g'.tracked
  published : path ∉ g'.published.keys
  memo : ∀ e ∈ g'.memo, path ∉ e.2
  importers : ∀ key n n', g.packages.find? key = some n → path ∈ n.imports → g'.packages.find? key = some n' →
    n'.analysis = none ∧ n'.state ≠ .current
  reload : Text.stripEnd? Listed.wildcard path = none → (Path.ofString path).isAbsolute = false →
    ((load disk path).run.run g').1 = ((load disk path).run.run start).1
  reloadDir : ∃ n, g.packages.find? path = some n ∧ (Text.stripEnd? Listed.wildcard n.dir.text = none →
    ((load disk n.dir.text).run.run g').1 = ((load disk n.dir.text).run.run start).1)

theorem of_evicted {file : Path} (hn : file.Normal) {path : String}
    (h : ((closeFile disk file).run.run g).1 = .ok (.evicted path)) :
    ∃ n, g.packageOf? file = some n ∧ n.path = path ∧ (g.release file).idlFiles disk n.dir = .ok [] ∧
      ((closeFile disk file).run.run g).2 = (g.released file path).evict path := by
  suffices hends : Ends (closeFile disk file).run g fun r g' => r = .ok (.evicted path) →
      ∃ n, g.packageOf? file = some n ∧ n.path = path ∧ (g.release file).idlFiles disk n.dir = .ok [] ∧
        g' = (g.released file path).evict path from hends h
  rw [ends_closeFile hn]
  cases g.packageOf? file with
  | none => exact nofun
  | some n =>
    dsimp only
    cases hf : (g.release file).idlFiles disk n.dir with
    | error e => exact nofun
    | ok files =>
      dsimp only
      split
      · rename_i hempty
        rintro ⟨⟩
        rw [List.isEmpty_iff.mp hempty] at hf
        exact ⟨n, rfl, rfl, hf, rfl⟩
      · exact nofun

theorem find?_memo_evicted {file : Path} {path : String} {n : PackageNode} (hn : g.packages.find? path = some n)
    {pattern : String} (hp : pattern = path ∨ pattern = n.dir.text) :
    ((g.released file path).evict path).memo.find? pattern = none := by
  have hmemo : (g.released file path).memo = (g.memo.erase path).erase n.dir.text := by
    unfold Graph.released evictMemo
    rw [show (g.release file).packages.find? path = some n from hn]
    rfl
  unfold Graph.evict
  dsimp only
  rw [Table.find?_mapValues, hmemo, Table.find?_erase, Table.find?_erase]
  rcases hp with rfl | rfl
  · simp
  · simp

theorem Homed.reload (hd : disk.WellNamed) (hm : m.dir.Rooted) (h : Homed disk m g) {start : Graph}
    (hstart : Homed disk m start) (hmemo : start.memo = []) (hheld : start.held = [])
    {dir : Path} {path : String} (ho : m.Owns dir path) (hidl : g.idlFiles disk dir = .ok []) {pattern : String}
    (hnone : g.memo.find? pattern = none) (hwild : Text.stripEnd? Listed.wildcard pattern = none)
    (hdir : Listed.patternDir g.layout pattern = .ok (some dir))
    (habs : (Path.ofString pattern).isAbsolute = true → Path.ofString pattern = dir) :
    ((load disk pattern).run.run g).1 = ((load disk pattern).run.run start).1 := by
  have hlayout : start.layout = g.layout := congrArg Layout.mk (hstart.modules.trans h.modules.symm)
  have hn := (ho.rooted hm).normal
  have hhome := Layout.importPathOf?_of_owns h.modules hm ho
  have hidl' : start.idlFiles disk dir = .ok [] := by
    unfold idlFiles
    rw [disk_of_idlFiles_nil hidl, hheld]
    have hnil : sortedPaths [] = [] := by simp [sortedPaths, Path.sort]
    exact congrArg Except.ok hnil
  have hg := ends_load_vacant hd h.placed hn hhome hidl hnone hwild hdir habs
  have hs := ends_load_vacant hd hstart.placed hn (hlayout ▸ hhome) hidl' (by rw [hmemo]; rfl)
    hwild (hlayout ▸ hdir) habs
  rw [hlayout] at hs
  exact Eq.trans hg (Eq.symm hs)

theorem homed_discover {root : Path} (hg : discover disk root = .ok g) (hm : g.layout.modules = [m]) :
    Homed disk m g ∧ g.memo = [] ∧ g.held = [] := by
  unfold discover at hg
  cases hl : Layout.discover disk root with
  | error e =>
    rw [hl] at hg
    cases hg
  | ok layout =>
    rw [hl] at hg
    cases hg
    exact ⟨⟨hm, Overlay.placed_empty disk, nofun, nofun⟩, rfl, rfl⟩

/-- A package of a single module whose last file is closed is forgotten, whatever was asked before. -/
theorem eviction_forgets (hd : disk.WellNamed) (hi : disk.PlainImports) (root : String) {start : Graph}
    (hg : discover disk (Path.ofString root).normalize = .ok start) (hm : start.layout.modules = [m])
    {requests : List Request} (hu : ∀ r ∈ requests, r.Undotted) (file : String) {path : String}
    (hc : ((closeFile disk (.ofString file)).run.run (start.after disk requests)).1 = .ok (.evicted path)) :
    Forgets disk start (start.after disk requests)
      ((closeFile disk (.ofString file)).run.run (start.after disk requests)).2 path := by
  have hrooted := rooted_discover hg m (by simp [hm])
  obtain ⟨hstart, hmemo, hheld⟩ := homed_discover hg hm
  obtain ⟨hr, h⟩ := hstart.requests hd hrooted hi (Reached.discover hg).atRest hu
  rw [← closeFile_normalize] at hc ⊢
  have hn := normal_normalize (Path.ofString file)
  generalize (Path.ofString file).normalize = file at hc hn
  generalize start.after disk requests = g at hr h hc
  have hclosed := h.ends_closeFile hn hr hrooted
  obtain ⟨n, hin, hpath, hidl, hg'⟩ := of_evicted hn hc
  unfold Ends at hclosed
  rw [hg'] at hclosed ⊢
  obtain ⟨dir, -, hdir⟩ := Option.bind_eq_some_iff.mp hin
  obtain ⟨hfind, -⟩ := hr.find?_of_packageIn? hdir
  rw [hpath] at hfind
  have howned := (h.nodes path n hfind).owned
  have hidl' : ((g.released file path).evict path).idlFiles disk n.dir = .ok [] := by
    have hheld' : ((g.released file path).evict path).held = (g.release file).held := (released_eq file path).2.2
    rw [idlFiles_congr hheld']
    exact hidl
  constructor
  · simp [Graph.evict, Table.find?_erase]
  · simp [Graph.evict]
  · simp [Graph.evict, Table.keys_erase]
  · intro e he
    obtain ⟨old, -, rfl⟩ := List.mem_map.mp he
    simp
  · intro key n₁ n' hn₁ himports hn'
    obtain ⟨hne, old, hold, rfl⟩ := of_find?_evicted hn'
    rw [hn₁] at hold
    cases hold
    exact analysis_invalidateNode ((hr.sited.nodes key n₁ hn₁).path ▸ hne) himports (hr.states key n₁ hn₁)
  · intro hwild habs
    refine hclosed.reload hd hrooted hstart hmemo hheld howned hidl' (find?_memo_evicted hfind (Or.inl rfl)) hwild
      (Listed.patternDir_of_owns hclosed.modules howned habs) fun ha => ?_
    rw [habs] at ha
    cases ha
  · refine ⟨n, hfind, fun hwild => ?_⟩
    have hroot := howned.rooted hrooted
    exact hclosed.reload hd hrooted hstart hmemo hheld howned hidl' (find?_memo_evicted hfind (Or.inr rfl)) hwild
      (Listed.patternDir_text hroot) fun _ => ofString_text_of_rooted hroot

/-! ## A sample -/

def sampleEvictedRequests : List Request :=
  [.add "/w/b/b.gunk" "package b\n", .load "/w/./b", .load "example.com/m/a", .analyse "example.com/m/a"]

def sampleOpen : Graph :=
  Graph.after sampleDisk { layout := ⟨[⟨"example.com/m", .ofString "/w"⟩]⟩ } sampleEvictedRequests

theorem eviction_forgets_sample : (∀ r ∈ sampleEvictedRequests, r.Undotted) ∧
    ((sampleOpen.packages.find? "example.com/m/a").map (·.imports)) = some ["example.com/m/b"] ∧
    Forgets sampleDisk { layout := ⟨[⟨"example.com/m", .ofString "/w"⟩]⟩ } sampleOpen
      ((closeFile sampleDisk (.ofString "/w/b/b.gunk")).run.run sampleOpen).2 "example.com/m/b" := by
  have hd : sampleDisk.WellNamed := by decide
  have hu : ∀ r ∈ sampleEvictedRequests, r.Undotted := by decide +kernel
  have hc : ((closeFile sampleDisk (.ofString "/w/b/b.gunk")).run.run sampleOpen).1.toOption =
      some (.evicted "example.com/m/b") := by decide +kernel
  exact ⟨hu, by decide +kernel,
    eviction_forgets hd plainImports_sampleDisk "/w/a" rfl rfl hu "/w/b/b.gunk" (ok_of_toOption hc)⟩

/-! ## Import paths that are read as something else -/

/-- The last file of a package is closed, and then loading its import path does not answer as at the start. -/
def LoadsAnew (disk : Disk) (start : Graph) (requests : List Request) (file path : String) : Prop :=
  ((closeFile disk (.ofString file)).run.run (start.after disk requests)).1 = .ok (.evicted path) ∧
    ((load disk path).run.run ((closeFile disk (.ofString file)).run.run (start.after disk requests)).2).1 ≠
      ((load disk path).run.run start).1

/-- A directory whose name makes its import path a pattern for the packages beside it. -/
def wildDisk : Disk :=
  ⟨[(["w"], .directory), (["w", "go.mod"], .file (some "module example.com/m\n")), (["w", "sub"], .directory),
    (["w", "sub", "b"], .directory)]⟩

def wildRequests : List Request :=
  [.add "/w/sub/.../f.gunk" "package f\n", .add "/w/sub/b/b.gunk" "package b\n", .load "example.com/m/sub/.../"]

/-- A module whose import paths read as directories outside it. -/
def slashDisk : Disk :=
  ⟨[(["w"], .directory), (["w", "b"], .directory), (["w", "go.mod"], .file (some "module /x\n")),
    (["x"], .directory),
    (["x", "b"], .directory)]⟩

def slashRequests : List Request := [.add "/x/b/f.gunk" "package f\n", .add "/w/b/b.gunk" "package b\n"]

/-- Import paths that read as patterns or as directories do not stand for the package that was dropped. -/
theorem patterns_load_anew :
    (∃ start, discover wildDisk (.ofString "/w") = .ok start ∧ (∀ r ∈ wildRequests, r.Undotted) ∧
      LoadsAnew wildDisk start wildRequests "/w/sub/.../f.gunk" "example.com/m/sub/...") ∧
    ∃ start, discover slashDisk (.ofString "/w") = .ok start ∧ (∀ r ∈ slashRequests, r.Undotted) ∧
      LoadsAnew slashDisk start slashRequests "/w/b/b.gunk" "/x/b" := by
  have hne {x y : Except LoadError (List String)} (h : x.toOption ≠ y.toOption) : x ≠ y := fun e => h (e ▸ rfl)
  constructor
  · have hg : discover wildDisk (.ofString "/w") = .ok { layout := ⟨[⟨"example.com/m", .ofString "/w"⟩]⟩ } := rfl
    exact ⟨_, hg, by decide +kernel, ok_of_toOption (by decide +kernel), hne (by decide +kernel)⟩
  · have hg : discover slashDisk (.ofString "/w") = .ok { layout := ⟨[⟨"/x", .ofString "/w"⟩]⟩ } := rfl
    exact ⟨_, hg, by decide +kernel, ok_of_toOption (by decide +kernel), hne (by decide +kernel)⟩

end Graph

end IdlWorkbench
