import IdlWorkbench.Graph.Diagnostics
import IdlWorkbench.Proofs.Graph.Edit

/-!
# Graphs stay consistent

Whatever is asked of a graph over a single module, and whether it fails or not, what the graph holds between
two requests agrees with itself, with the disk and with the texts that the editor holds: `Consistent` says how.
-/

namespace IdlWorkbench

open IdlWorkbench.Path

/-! ## Requests -/

/-- A request to a graph; patterns, packages and files are given as they are written. -/
inductive Request where
  | load (pattern : String)
  | track (pattern : String)
  | analyse (package : String)
  | diagnose (package : String)
  | add (file text : String)
  | update (file text : String)
  | close (file : String)
deriving DecidableEq, Repr

namespace Request

def after (disk : Disk) (g : Graph) : Request → Graph
  | load pattern => ((Graph.load disk pattern).run.run g).2
  | track pattern => ((Graph.loadTracked disk pattern).run.run g).2
  | analyse package => ((Graph.ensureAnalysed disk package).run g).2
  | diagnose package => ((Graph.diagnose disk package).run g).2
  | add file text => ((Graph.addFile disk (.ofString file) text).run.run g).2
  | update file text => ((Graph.updateFile disk (.ofString file) text).run.run g).2
  | close file => ((Graph.closeFile disk (.ofString file)).run.run g).2

/-- A request about IDL files and import paths with no part to resolve. -/
def Plain : Request → Prop
  | load pattern | track pattern => PlainPattern pattern
  | add file text | update file text =>
    (Path.ofString file).normalize.extension? = some idlExtension ∧ PlainImports text
  | analyse _ | diagnose _ | close _ => True

instance : (r : Request) → Decidable r.Plain
  | load pattern => inferInstanceAs (Decidable (PlainPattern pattern))
  | track pattern => inferInstanceAs (Decidable (PlainPattern pattern))
  | add _ text => inferInstanceAs (Decidable (_ ∧ PlainImports text))
  | update _ text => inferInstanceAs (Decidable (_ ∧ PlainImports text))
  | analyse _ => inferInstanceAs (Decidable True)
  | diagnose _ => inferInstanceAs (Decidable True)
  | close _ => inferInstanceAs (Decidable True)

end Request

def Graph.after (disk : Disk) (g : Graph) (requests : List Request) : Graph :=
  requests.foldl (Request.after disk) g

namespace Graph

/-! ## Consistency -/

/-- What a graph holds agrees with itself, with the disk and with the held texts. -/
structure Consistent (disk : Disk) (g : Graph) : Prop where
  idle : g.building = []
  notBuilding : ∀ key n, g.packages.find? key = some n → n.state ≠ .building
  named : ∀ key n, g.packages.find? key = some n → n.path = key
  tracked : ∀ p ∈ g.tracked, ∃ n, g.packages.find? p = some n
  memo : ∀ pattern paths, g.memo.find? pattern = some paths → ∀ p ∈ paths, ∃ n, g.packages.find? p = some n
  published : ∀ p ∈ g.published.keys, ∃ n, g.packages.find? p = some n
  unknown : ∀ key n, g.packages.find? key = some n → n.analysis = none →
    n.parsed = [] ∧ n.checked? = none ∧ n.errors = [] ∧ n.imports = [] ∧ n.inCycle = false
  known : ∀ key n a, g.packages.find? key = some n → n.analysis = some a →
    a.parsed = n.files.map (ParsedFile.ofPath disk g)
  files : ∀ key n, g.packages.find? key = some n → FilesOf disk g n.dir n.files
  current : ∀ key n, g.packages.find? key = some n → n.state = .current → n.analysis.isSome = true

section
variable {disk : Disk} {m : ModuleRoot} {g : Graph} (hd : disk.WellNamed) (hm : m.dir.Rooted)
include hd hm

theorem Resting.consistent (h : Resting disk m g) : Consistent disk g := by
  refine ⟨h.building, h.states, fun key n hn => (h.inv.nodes key n hn).path,
    fun p hp => contains_iff.mp (h.inv.refs.tracked p hp),
    fun pattern paths hmemo p hp => contains_iff.mp (h.inv.refs.memo pattern paths hmemo p hp),
    fun p hp => contains_iff.mp (h.inv.refs.published p hp), ?_,
    fun key n a hn => (h.inv.nodes key n hn).parsed a, ?_, fun key n hn => (h.inv.nodes key n hn).current⟩
  · intro key n hn ha
    have hcycle : n.inCycle = false := by
      rw [Bool.eq_false_iff]
      intro hc
      rcases (h.inv.nodes key n hn).cycle hc with hs | hs
      · simp [ha] at hs
      · exact h.states key n hn hs
    simp [PackageNode.parsed, PackageNode.checked?, PackageNode.errors, PackageNode.imports, ha, hcycle]
  · intro key n hn
    have hr := h.inv.rooted_dir hm hn
    exact filesOf_of_idlFiles hd h.inv.held hr.normal (h.inv.nodes key n hn).files

/-! ## Each request keeps the graph consistent -/

theorem Resting.ends_load (h : Resting disk m g) {pattern : String} (hp : PlainPattern pattern) :
    Ends (load disk pattern).run g fun r g' =>
      Resting disk m g' ∧ ∀ paths, r = .ok paths → ∀ p ∈ paths, g'.packages.contains p = true :=
  (h.inv.ends_load hd hm hp.straight).mono fun _ _ ⟨hi, he, hr⟩ => ⟨h.extends hi he, hr⟩

theorem Resting.ends_loadTracked (h : Resting disk m g) {pattern : String} (hp : PlainPattern pattern) :
    Ends (loadTracked disk pattern).run g fun _ g' => Resting disk m g' := by
  unfold loadTracked
  rw [ends_then]
  refine (h.ends_load hd hm hp).mono fun r g' ⟨h', hr⟩ => ?_
  cases r with
  | error e => exact h'
  | ok paths => exact h'.track (hr paths rfl)

theorem Resting.ends_analyse (h : Resting disk m g) (path : String) :
    Ends (analyse disk path) g fun _ g' => Resting disk m g' ∧
      ∀ n, g'.packages.find? path = some n → n.analysis.isSome = true := by
  unfold analyse
  rw [ends_bind, ends_get]
  have hrest := (analyses_analyseWithin hd hm (g.size disk + 2) path g h.inv fun n hn => h.states path n hn).mono
    fun _ g' ⟨hi, he⟩ => h.extends hi he
  exact hrest.and analysed_analyseWithin

theorem Resting.ends_ensureAnalysed (h : Resting disk m g) (path : String) :
    Ends (ensureAnalysed disk path) g fun _ g' => Resting disk m g' := by
  unfold ensureAnalysed
  rw [ends_bind, ends_get]
  cases g.packages.find? path with
  | none => exact h
  | some n =>
    simp only
    split
    · rw [ends_bind]
      exact (h.ends_analyse hd hm path).mono fun _ g' h' => h'.1
    · exact h

omit hd hm in
theorem Resting.publish (h : Resting disk m g) {path : String} (hp : g.packages.contains path = true)
    (surface : Option Surface) : Resting disk m (g.publish path surface) := by
  have h' : Resting disk m { g with published := g.published.insert path surface } := by
    refine ⟨{ h.inv with nodes := ?_, refs := { h.inv.refs with published := ?_ } }, h.building, h.states⟩
    · exact fun key n hn => (h.inv.nodes key n hn).congr rfl
    · intro p hin
      rcases Table.mem_keys_insert.mp hin with hin | rfl
      · exact h.inv.refs.published p hin
      · exact hp
  unfold Graph.publish
  simp only
  split
  · exact h'.invalidate path
  · exact h'

omit hd hm in
/-- A package that has been analysed gets its diagnostics. -/
theorem Resting.current (h : Resting disk m g) {path : String}
    (ha : ∀ n, g.packages.find? path = some n → n.analysis.isSome = true) :
    Resting disk m (g.modifyPackage path fun n => { n with state := .current }) := by
  refine ⟨h.inv.modifyNode ?_ ?_, h.building, ?_⟩
  · intro n hn
    have hnode := h.inv.nodes path n hn
    exact ⟨hnode.path, hnode.owned, hnode.files, hnode.parsed, fun _ => Or.inl (ha n hn), fun _ => ha n hn⟩
  · intro hb
    rw [h.building] at hb
    cases hb
  · intro key n hn
    rw [find?_modifyPackage] at hn
    split at hn
    · obtain ⟨old, -, rfl⟩ := Option.map_eq_some_iff.mp hn
      simp
    · exact h.states key n hn

theorem Resting.ends_diagnose (h : Resting disk m g) (path : String) :
    Ends (diagnose disk path) g fun _ g' => Resting disk m g' := by
  unfold diagnose
  rw [ends_bind, ends_get]
  cases g.packages.find? path with
  | none => exact h
  | some n =>
    simp only
    split
    · exact h
    · rw [ends_bind]
      refine (h.ends_analyse hd hm path).mono fun _ g' ⟨h', ha⟩ => ?_
      rw [ends_bind, ends_modify, ends_bind, ends_get]
      have hcurrent := h'.current ha
      cases hn : (g'.modifyPackage path fun n => { n with state := .current }).packages.find? path with
      | none => exact hcurrent
      | some n' => exact hcurrent.publish (contains_iff.mpr ⟨n', hn⟩) n'.surface?

theorem Resting.request (hi : disk.PlainImports) (h : Resting disk m g) {r : Request} (hr : r.Plain) :
    Resting disk m (r.after disk g) := by
  cases r with
  | load pattern => exact (h.ends_load hd hm hr).1
  | track pattern => exact h.ends_loadTracked hd hm hr
  | analyse package => exact h.ends_ensureAnalysed hd hm package
  | diagnose package => exact h.ends_diagnose hd hm package
  | add file text => exact h.ends_addFile hd hm (plain_resolved_ofString file) hr.1 hr.2
  | update file text => exact h.ends_updateFile hd hm (plain_resolved_ofString file) hr.1 hr.2
  | close file => exact h.ends_closeFile hd hm hi (Path.ofString file)

theorem Resting.requests (hi : disk.PlainImports) : ∀ {requests : List Request} {g : Graph},
    Resting disk m g → (∀ r ∈ requests, r.Plain) → Resting disk m (g.after disk requests)
  | [], _, h, _ => h
  | r :: requests, g, h, hr =>
    (h.request hd hm hi (hr r (by simp))).requests hi fun r' hr' => hr r' (List.mem_cons_of_mem _ hr')

end

/-! ## From the start -/

/-- A graph for the module around a directory starts consistent. -/
theorem resting_discover {disk : Disk} (hi : disk.PlainImports) {root : Path} {m : ModuleRoot} {g : Graph}
    (hg : discover disk root = .ok g) (hm : g.layout.modules = [m]) : Resting disk m g := by
  unfold discover at hg
  cases hl : Layout.discover disk root with
  | error e => rw [hl] at hg; cases hg
  | ok layout =>
    rw [hl] at hg
    cases hg
    have hread : ∀ file text, file.extension? = some idlExtension → ({ layout } : Graph).read disk file = .ok text →
        PlainImports text := fun file text => hi file text
    refine ⟨⟨hm, List.nodup_nil, by simp [Table.keys], hread, ?_, ⟨by simp, ?_, by simp [Table.keys]⟩, by simp⟩,
      rfl, ?_⟩
    · intro key n hn
      cases hn
    · intro pattern paths h
      cases h
    · intro key n hn
      cases hn

theorem rooted_discover {disk : Disk} {root : String} {g : Graph}
    (hg : discover disk (Path.ofString root).normalize = .ok g) : ∀ m ∈ g.layout.modules, m.dir.Rooted := by
  unfold discover at hg
  cases hl : Layout.discover disk (Path.ofString root).normalize with
  | error e => rw [hl] at hg; cases hg
  | ok layout =>
    rw [hl] at hg
    cases hg
    exact Layout.rooted_discover hl

/-- Between requests to a graph over a single module, the graph is consistent. -/
theorem consistent_after {disk : Disk} (hd : disk.WellNamed) (hi : disk.PlainImports) (root : String)
    {m : ModuleRoot}
    {g : Graph} (hg : discover disk (Path.ofString root).normalize = .ok g) (hm : g.layout.modules = [m])
    {requests : List Request} (hr : ∀ r ∈ requests, r.Plain) : Consistent disk (g.after disk requests) := by
  have hrooted := rooted_discover hg m (by rw [hm]; simp)
  have hrest := (resting_discover hi hg hm).requests hd hrooted hi hr
  exact hrest.consistent hd hrooted

/-! ## A sample -/

/-- A module with two directories, only one of which holds an IDL file. -/
def sampleDisk : Disk :=
  ⟨[(["w"], .directory), (["w", "a"], .directory),
    (["w", "a", "a.gunk"], .file (some "package a\n\nimport \"example.com/m/b\"\n")),
    (["w", "b"], .directory), (["w", "go.mod"], .file (some "module example.com/m\n"))]⟩

def sampleRequests : List Request :=
  [.load "example.com/m/...", .add "/w/b/b.gunk" "package b\n\nimport \"example.com/m/a\"\n",
    .diagnose "example.com/m/b", .track "elsewhere.org/x", .update "/w/b/b.gunk" "package b\n",
    .analyse "example.com/m/a", .close "/w/b/b.gunk"]

theorem plainImports_sampleDisk : sampleDisk.PlainImports := by
  intro file text _ hr
  obtain ⟨key, hk⟩ := Disk.mem_entries_of_read hr
  simp only [sampleDisk, List.mem_cons, Prod.mk.injEq, Entry.file.injEq, reduceCtorEq, and_false, false_or, or_false,
    List.not_mem_nil, Option.some_inj] at hk
  rcases hk with ⟨-, rfl⟩ | ⟨-, rfl⟩ <;> decide +kernel

theorem consistent_after_sample :
    sampleDisk.WellNamed ∧ (∀ r ∈ sampleRequests, r.Plain) ∧
      Consistent sampleDisk (Graph.after sampleDisk
        { layout := ⟨[⟨"example.com/m", .ofString "/w"⟩]⟩ } sampleRequests) := by
  have hd : sampleDisk.WellNamed := by decide
  have hr : ∀ r ∈ sampleRequests, r.Plain := by decide +kernel
  exact ⟨hd, hr, consistent_after hd plainImports_sampleDisk "/w/a" rfl rfl hr⟩

end Graph

end IdlWorkbench
