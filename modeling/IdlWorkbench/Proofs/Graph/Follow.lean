import IdlWorkbench.Proofs.Graph.Edited
import IdlWorkbench.Proofs.Graph.Steps

/-!
# A graph that stays up to date

Where import paths are written as packages are named, nothing that a graph has loaded or remembers is ever
outdated: neither loading and analysing nor an edit changes that. `Follows w g` says it of `g`, as seen from the
graph `w` before packages were loaded and analysed; `Ready g` says it of `g` between requests.
-/

namespace IdlWorkbench

open IdlWorkbench.Path

/-! ## Import paths as packages are named -/

/-- An import path without empty parts, which is not a pattern for everything below another one. -/
def NeatPath (path : String) : Prop :=
  (∀ s ∈ (Path.ofString path).segments, Proper s) ∧ Text.stripEnd? Listed.wildcard path = none

instance (path : String) : Decidable (NeatPath path) :=
  inferInstanceAs (Decidable ((∀ s ∈ (Path.ofString path).segments, _) ∧ _))

theorem NeatPath.dotFree {path : String} (h : NeatPath path) : DotFree path := fun s hs => (h.1 s hs).2

def NeatImports (text : String) : Prop := ∀ path ∈ Check.importPaths [.ofText text], NeatPath path

instance (text : String) : Decidable (NeatImports text) :=
  inferInstanceAs (Decidable (∀ path ∈ Check.importPaths [.ofText text], _))

theorem NeatImports.plain {text : String} (h : NeatImports text) : PlainImports text := fun path hp =>
  (h path hp).dotFree

def Disk.NeatImports (d : Disk) : Prop :=
  ∀ file text, file.extension? = some idlExtension → d.read file = .ok text → IdlWorkbench.NeatImports text

theorem Disk.NeatImports.plain {d : Disk} (h : d.NeatImports) : d.PlainImports := fun file text hx hr =>
  (h file text hx hr).plain

namespace Graph

variable {disk : Disk} {m : ModuleRoot} {w g g' : Graph}

def Neat (disk : Disk) (g : Graph) : Prop :=
  ∀ file text, file.extension? = some idlExtension → g.read disk file = .ok text → NeatImports text

theorem Neat.congr (h : Neat disk g) (hh : g'.held = g.held) : Neat disk g' := by
  unfold Neat
  rw [show g'.read disk = g.read disk from funext fun file => read_congr hh file]
  exact h

/-! ## What loading remembers -/

theorem memo_enterAll {listed : List Listed} {g : Graph} :
    Ends (listed.filterMapM (enterListed disk)).run g fun _ g' => g'.memo = g.memo := by
  have hround : ∀ l ∈ listed, ∀ t : Graph, t.memo = g.memo → Ends (enterListed disk l).run t fun r t' =>
      t'.memo = g.memo ∧ ∀ p, r = .ok (some p) → True := by
    intro l _ t ht
    rw [ends_enterListed]
    cases t.idlFiles disk l.dir with
    | error e => exact ⟨ht, fun _ _ => trivial⟩
    | ok files =>
      dsimp only
      split <;> exact ⟨ht, fun _ _ => trivial⟩
  exact (ends_filterMapM hround rfl).mono fun _ _ h => h.1

/-- Only the answer to the pattern itself is remembered. -/
theorem memo_load (pattern : String) : Ends (load disk pattern).run g fun r g' => ∀ pattern' paths,
    g'.memo.find? pattern' = some paths →
      g.memo.find? pattern' = some paths ∨ pattern' = pattern ∧ r = .ok paths := by
  rw [ends_load]
  cases g.remembered? pattern with
  | some paths => exact fun _ _ h => Or.inl h
  | none =>
    cases g.readied disk pattern with
    | error e => exact fun _ _ h => Or.inl h
    | ok overlay =>
      dsimp only
      cases Listed.ofPattern disk g.layout overlay pattern with
      | error e => exact fun _ _ h => Or.inl h
      | ok listed =>
        refine memo_enterAll.mono fun r g' hmemo => ?_
        cases r with
        | error e =>
          intro pattern' paths h
          exact Or.inl (hmemo ▸ h)
        | ok paths =>
          intro pattern' paths' h
          rcases Table.eq_or_find?_of_insert h with ⟨rfl, rfl⟩ | hold
          · exact Or.inr ⟨rfl, rfl⟩
          · exact Or.inl (hmemo ▸ hold)

/-! ## Following -/

/-- Nothing that `g` has loaded or remembers is outdated, as seen from `w`. -/
structure Follows (disk : Disk) (m : ModuleRoot) (w g : Graph) : Prop where
  inv : Inv disk m g
  lists : Lists disk m w g
  recalls : Recalls disk w g
  direct : ∀ pattern paths, g.memo.find? pattern = some paths → w.layout.isStandard pattern = false →
    ∃ dir, Direct m w pattern dir

theorem Follows.restate (h : Follows disk m w g) (hi : Inv disk m g') (hl : g'.layout = g.layout)
    (hh : g'.held = g.held)
    (ho : g'.overlay = g.overlay) (hm : g'.memo = g.memo)
    (hn : ∀ key n', g'.packages.find? key = some n' → ∃ n, g.packages.find? key = some n ∧ n.bare = n'.bare) :
    Follows disk m w g' := by
  refine ⟨hi, h.lists.congr hl hh ho fun key n' hn' => ?_, ?_, ?_⟩
  · obtain ⟨n, hfind, hbare⟩ := hn key n' hn'
    exact (h.lists.fresh key n hfind).congr hbare
  · unfold Recalls
    rw [hm]
    exact h.recalls
  · rw [hm]
    exact h.direct

theorem Follows.modifyPackage (h : Follows disk m w g) {path : String} {f : PackageNode → PackageNode}
    (hi : Inv disk m (g.modifyPackage path f)) (hf : ∀ n, n.bare = (f n).bare) :
    Follows disk m w (g.modifyPackage path f) := by
  refine h.restate hi rfl rfl rfl rfl fun key n' hn' => ?_
  rw [find?_modifyPackage] at hn'
  split at hn'
  · obtain ⟨n, hn, rfl⟩ := Option.map_eq_some_iff.mp hn'
    exact ⟨n, hn, hf n⟩
  · exact ⟨n', hn', rfl⟩

theorem Follows.bare_eq (h : Follows disk m w g) (h' : Follows disk m w g') {key : String} {n n' : PackageNode}
    (hn : g.packages.find? key = some n) (hn' : g'.packages.find? key = some n') : n.bare = n'.bare :=
  (h.lists.fresh key n hn).bare_eq (h'.lists.fresh key n' hn')
    ((h.inv.nodes key n hn).owned.dir_eq (h'.inv.nodes key n' hn').owned)

section
variable (hd : disk.WellNamed) (hm : m.dir.Rooted) (hnamed : m.Named)
include hd hm hnamed

theorem Follows.ends_load (h : Follows disk m w g) {pattern : String} (hp : PlainPattern pattern)
    (hn : (Path.ofString pattern).isAbsolute = true → Text.stripEnd? Listed.wildcard pattern = none →
      Overlay.Spells disk (Path.ofString pattern))
    (hneat : w.layout.isStandard pattern = false → NeatPath pattern) :
    Ends (load disk pattern).run g fun r g' => (Follows disk m w g' ∧ Extends g g' ∧ Grows g.packages g'.packages) ∧
      (∀ paths, r = .ok paths → ∀ p ∈ paths, g'.packages.contains p = true) ∧
      (w.layout.isStandard pattern = false →
        r = ((w.freshPackages disk pattern).map (·.map (·.path))).mapError .layout) := by
  have hl : w.layout.modules = [m] := h.lists.view.layout ▸ h.inv.modules
  have hload := ((h.inv.ends_load hd hm hp.straight).and (h.lists.ends_load hd hm hnamed h.recalls h.inv hp hn)).and
    (memo_load pattern)
  refine hload.mono fun r g' ⟨⟨⟨hi, he, hpaths⟩, ⟨hlists, hrecalls, hgrow⟩, hanswer⟩, hmemo⟩ => ?_
  refine ⟨⟨⟨hi, hlists, hrecalls, ?_⟩, he, hgrow⟩, hpaths, hanswer⟩
  intro pattern' paths hfind hs
  rcases hmemo pattern' paths hfind with hold | ⟨rfl, rfl⟩
  · exact h.direct pattern' paths hold hs
  · -- the pattern could be listed, so it means a directory
    have habs := Layout.relative_of_not_standard hl hnamed hs
    have hfresh := hanswer hs
    obtain ⟨hproper, hwild⟩ := hneat hs
    cases hns : w.freshPackages disk pattern' with
    | error e => rw [hns] at hfresh; cases hfresh
    | ok ns =>
      obtain ⟨listed, hlisted, -⟩ := bind_eq_ok.mp hns
      obtain ⟨dir, hdir⟩ := exists_patternDir hwild habs hs hlisted
      exact ⟨dir, hwild, Listed.owns_of_patternDir hl habs hproper hdir, hdir⟩

end

theorem Follows.neat_importPaths (hneat : Neat disk w) (h : Follows disk m w g) {key : String} {n : PackageNode}
    (hn : g.packages.find? key = some n) : ∀ path ∈ w.importPaths disk n, NeatPath path :=
  forall_importPaths (extension_of_idlFiles (h.inv.nodes key n hn).files) hneat

/-! ## Cycles -/

def cycleThrough (g : Graph) (path : String) : List String :=
  if g.building.contains path then g.building.takeWhile (· ≠ path) ++ [path] else []

theorem flagAll_eq : ∀ (paths : List String) (g : Graph), ∃ packages,
    paths.foldl (fun g p => g.modifyPackage p fun n => { n with inCycle := true }) g = { g with packages } ∧
      ∀ key, packages.find? key =
        (g.packages.find? key).map fun n => if key ∈ paths then { n with inCycle := true } else n
  | [], g => by
    refine ⟨g.packages, rfl, fun key => ?_⟩
    simp
  | p :: paths, g => by
    obtain ⟨packages, heq, hfind⟩ := flagAll_eq paths (g.modifyPackage p fun n => { n with inCycle := true })
    refine ⟨packages, heq, fun key => ?_⟩
    rw [hfind, find?_modifyPackage]
    cases g.packages.find? key with
    | none => simp
    | some n =>
      by_cases hp : key = p <;> by_cases hk : key ∈ paths <;> simp [hp, hk]

theorem markCycle_eq (g : Graph) (path : String) : ∃ packages, g.markCycle path = { g with packages } ∧
    ∀ key, packages.find? key =
      (g.packages.find? key).map fun n => if key ∈ g.cycleThrough path then { n with inCycle := true } else n := by
  unfold markCycle cycleThrough
  split
  · exact flagAll_eq _ g
  · refine ⟨g.packages, rfl, fun key => ?_⟩
    simp

theorem Follows.markCycle (h : Follows disk m w g) (path : String) : Follows disk m w (g.markCycle path) := by
  obtain ⟨hi, -⟩ := h.inv.markCycle path
  obtain ⟨packages, heq, hfind⟩ := markCycle_eq g path
  rw [heq] at hi ⊢
  refine h.restate hi rfl rfl rfl rfl fun key n' hn' => ?_
  rw [hfind] at hn'
  obtain ⟨n, hn, rfl⟩ := Option.map_eq_some_iff.mp hn'
  refine ⟨n, hn, ?_⟩
  split <;> rfl

/-! ## Importing and checking -/

def Followed (disk : Disk) (m : ModuleRoot) (w : Graph) (analyse : String → StateM Graph Unit) : Prop :=
  ∀ path g, Follows disk m w g → (∀ n, g.packages.find? path = some n → n.state ≠ .building) →
    Ends (analyse path) g fun _ g' => Follows disk m w g' ∧ Extends g g'

theorem Follows.push (h : Follows disk m w g) {path : String}
    (hn : ∃ n, g.packages.find? path = some n ∧ n.state = .building) :
    Follows disk m w { g with building := path :: g.building } :=
  h.restate (h.inv.push hn) rfl rfl rfl rfl fun _ n hn => ⟨n, hn, rfl⟩

theorem Follows.pop (h : Follows disk m w g) : Follows disk m w { g with building := g.building.tail } :=
  h.restate h.inv.pop rfl rfl rfl rfl fun _ n hn => ⟨n, hn, rfl⟩

section
variable (hd : disk.WellNamed) (hm : m.dir.Rooted) (hnamed : m.Named)
include hd hm hnamed

omit hnamed in
/-- A package that has been loaded is the one that an import stands for. -/
theorem Follows.bare_of_fresh (h : Follows disk m w g) {importPath : String} (hp : DotFree importPath)
    {z n : PackageNode} (hz : w.freshPackages disk importPath = .ok [z]) (hn : g.packages.find? z.path = some n) :
    n.bare = z := by
  have hl : w.layout.modules = [m] := h.lists.view.layout ▸ h.inv.modules
  have hfresh := mem_freshPackages hz z (by simp)
  have hdir := (h.inv.nodes _ n hn).owned.dir_eq (owns_freshPackages hl hm hd (Or.inr hp) hz z (by simp))
  exact ((h.lists.fresh _ n hn).bare_eq hfresh.1 hdir).trans hfresh.2

theorem Follows.ends_loadOne (h : Follows disk m w g) {importPath : String} (hneat : NeatPath importPath)
    (hs : w.layout.isStandard importPath = false) :
    Ends (loadOne disk importPath).run g fun r g' =>
      (Follows disk m w g' ∧ Extends g g' ∧ Grows g.packages g'.packages) ∧
      match w.freshPackages disk importPath with
      | .error e => r = .error (.layout e)
      | .ok [n] => r = .ok n.path ∧ ∃ n', g'.packages.find? n.path = some n' ∧ n'.bare = n
      | .ok ns => r = .error (.packageCount importPath ns.length) := by
  have hl : w.layout.modules = [m] := h.lists.view.layout ▸ h.inv.modules
  have habs := Layout.relative_of_not_standard hl hnamed hs
  have hload := h.ends_load hd hm hnamed (Or.inr hneat.dotFree) (fun hab => by rw [habs] at hab; cases hab)
    fun _ => hneat
  rw [Graph.ends_loadOne]
  refine hload.mono fun r g' ⟨hfollows, hpaths, hr⟩ => ?_
  have hr := hr hs
  subst hr
  cases hns : w.freshPackages disk importPath with
  | error e => exact ⟨hfollows, rfl⟩
  | ok ns =>
    rw [hns] at hpaths
    rcases ns with _ | ⟨n, _ | ⟨n₂, ns⟩⟩
    · exact ⟨hfollows, rfl⟩
    · obtain ⟨n', hn'⟩ := contains_iff.mp (hpaths [n.path] rfl n.path (by simp))
      exact ⟨hfollows, rfl, n', hn', hfollows.1.bare_of_fresh hd hm hneat.dotFree hns hn'⟩
    · refine ⟨hfollows, ?_⟩
      simp

variable {analyse : String → StateM Graph Unit} (ha : Followed disk m w analyse)
include ha

theorem Follows.ends_importPackage (h : Follows disk m w g) {importPath : String} (hneat : NeatPath importPath) :
    Ends (importPackage disk analyse importPath).run g fun _ g' => Follows disk m w g' ∧ Extends g g' := by
  refine kept_importPackage (P := fun t => Follows disk m w t ∧ Extends g t) (fun _ => ⟨h, .refl g⟩)
    (fun hs => ?_) ?_ ?_
  · rw [h.lists.view.layout] at hs
    exact (h.ends_loadOne hd hm hnamed hneat hs).mono fun _ _ ⟨⟨h', he, _⟩, _⟩ => ⟨h', he⟩
  · rintro path t ⟨ht, he⟩
    exact ⟨ht.markCycle path, he.trans (ht.inv.markCycle path).2⟩
  · rintro path t ⟨ht, he⟩ hs
    exact (ha path t ht hs).mono fun _ _ ⟨ht', he'⟩ => ⟨ht', he.trans he'⟩

theorem Follows.ends_checkTypes (h : Follows disk m w g) {n : PackageNode} {parsed : List ParsedFile}
    (hn : ∃ n', g.packages.find? n.path = some n' ∧ n'.state = .building)
    (hp : ∀ path ∈ Check.importPaths (parsed.map (·.source)), NeatPath path) :
    Ends (checkTypes disk analyse n parsed) g fun _ g' => Follows disk m w g' ∧ Extends g g' := by
  have himport : ∀ path ∈ Check.importPaths (parsed.map (·.source)), ∀ t,
      (Follows disk m w t ∧ Extends { g with building := n.path :: g.building } t) →
      Ends (importPackage disk analyse path).run t fun _ t' =>
        Follows disk m w t' ∧ Extends { g with building := n.path :: g.building } t' := fun path hpath t ⟨ht, het⟩ =>
    (ht.ends_importPackage hd hm hnamed ha (hp path hpath)).mono fun _ _ ⟨ht', het'⟩ => ⟨ht', het.trans het'⟩
  refine (kept_checkTypes ⟨h.push hn, .refl _⟩ himport).mono fun _ g' => ?_
  rintro ⟨t, ⟨ht, het⟩, rfl⟩
  exact ⟨ht.pop, het.pop⟩

theorem Follows.ends_analyseNode (hneat : Neat disk w) (h : Follows disk m w g) {n n' : PackageNode}
    (hn : g.packages.find? n.path = some n') (hs : n'.state = .building) (hf : n'.files = n.files) :
    Ends (analyseNode disk analyse n) g fun a g' =>
      (Follows disk m w g' ∧ Extends g g') ∧ a.parsed = n.files.map (ParsedFile.ofPath disk g) := by
  unfold analyseNode
  simp only [ends_bind, ends_get]
  split
  · have hpaths : ∀ path ∈
      Check.importPaths ((n.files.map (ParsedFile.ofPath disk g)).map (·.source)), NeatPath path := by
      rw [ofPath_congr h.lists.view.held, ← hf]
      exact h.neat_importPaths hneat hn
    rw [ends_bind]
    exact (h.ends_checkTypes hd hm hnamed ha ⟨n', hn, hs⟩ hpaths).mono fun result g' h => ⟨h, rfl⟩
  · exact ⟨⟨h, .refl g⟩, rfl⟩

end

theorem Follows.startChecking (h : Follows disk m w g) {path : String} {n : PackageNode}
    (hn : g.packages.find? path = some n) (hs : n.state ≠ .building) : Follows disk m w (g.startChecking path) :=
  h.modifyPackage (h.inv.startChecking hn hs) fun _ => rfl

theorem Follows.finishChecking {t : Graph} (h : Follows disk m w t) {path : String} {a : Analysis}
    {state : Lifecycle}
    (hi : Inv disk m (t.finishChecking path a state)) : Follows disk m w (t.finishChecking path a state) :=
  h.modifyPackage hi fun _ => rfl

theorem followed_analyseWithin (hd : disk.WellNamed) (hm : m.dir.Rooted) (hnamed : m.Named) (hneat : Neat disk w)
    (fuel : Nat) : Followed disk m w (analyseWithin disk fuel) := by
  induction fuel with
  | zero => exact fun path g h _ => ⟨h, .refl g⟩
  | succ fuel ih =>
    intro path g h hs
    rw [ends_analyseWithin]
    cases hn : g.packages.find? path with
    | none => exact ⟨h, .refl g⟩
    | some n =>
      have hstart : (g.startChecking path).packages.find? n.path = some { n.reset with state := .building } := by
        rw [(h.inv.nodes path n hn).path]
        exact find?_startChecking hn
      have hnode := (h.startChecking hn (hs n hn)).ends_analyseNode hd hm hnamed ih hneat hstart rfl rfl
      refine hnode.mono fun a t ⟨⟨ht, he⟩, hparsed⟩ => ?_
      rw [ofPath_congr rfl] at hparsed
      exact ⟨ht.finishChecking (h.inv.finishChecking hn (hs n hn) ht.inv he hparsed), extends_finishChecking hn he⟩

/-! ## Between requests -/

theorem Ready.follows (h : Ready disk m g) (hi : Inv disk m g) : Follows disk m g g := by
  refine ⟨hi, h.lists, h.recalls, fun pattern paths hfind hs => ?_⟩
  obtain ⟨dir, hdirect, -⟩ := h.memo pattern paths hfind hs
  exact ⟨dir, hdirect⟩

theorem Follows.ready (hd : disk.WellNamed) (hnamed : m.Named) (h : Follows disk m w g) : Ready disk m g := by
  have hl : w.layout.modules = [m] := h.lists.view.layout ▸ h.inv.modules
  refine ⟨h.lists.self h.inv, fun pattern paths hfind hs => ?_⟩
  rw [h.lists.view.layout] at hs
  obtain ⟨dir, hdirect⟩ := h.direct pattern paths hfind hs
  obtain ⟨hdot, hrecall⟩ := h.recalls pattern paths hfind hs
  refine ⟨dir, hdirect.congr h.lists.view.layout, fun _ => ⟨hdot, ?_⟩⟩
  rw [h.lists.view.freshPackages hd hl (Layout.relative_of_not_standard hl hnamed hs) hdot]
  exact hrecall

theorem Follows.publish (h : Follows disk m w g) {path : String} {surface : Option Surface}
    (hi : Inv disk m (g.publish path surface)) : Follows disk m w (g.publish path surface) := by
  unfold Graph.publish at hi ⊢
  dsimp only at hi ⊢
  split at hi
  · rename_i hchanged
    rw [if_pos hchanged]
    refine h.restate hi rfl rfl rfl rfl fun key n' hn' => ?_
    rw [find?_invalidate] at hn'
    obtain ⟨n, hn, rfl⟩ := Option.map_eq_some_iff.mp hn'
    exact ⟨n, hn, (bare_invalidateNode path n).symm⟩
  · rename_i hsame
    rw [if_neg hsame]
    exact h.restate hi rfl rfl rfl rfl fun key n hn => ⟨n, hn, rfl⟩

section
variable (hd : disk.WellNamed) (hm : m.dir.Rooted) (hnamed : m.Named)
include hd hm hnamed

theorem Follows.ends_diagnose (hneat : Neat disk w) (h : Follows disk m w g) (hr : Resting disk m g)
    (path : String) :
    Ends (diagnose disk path) g fun _ g' => Follows disk m w g' := by
  have hrest := hr.ends_diagnose hd hm path
  rw [Graph.ends_diagnose] at hrest ⊢
  cases hn : g.packages.find? path with
  | none => exact h
  | some n =>
    rw [hn] at hrest
    dsimp only at hrest ⊢
    split
    · exact h
    · rename_i hs
      rw [if_neg hs] at hrest
      have hanalyse : Ends (analyse disk path) g fun _ g' => Follows disk m w g' ∧ Extends g g' := by
        unfold analyse
        rw [ends_bind, ends_get]
        exact followed_analyseWithin hd hm hnamed hneat _ path g h fun n hn => hr.states path n hn
      refine ((hrest.and hanalyse).and (hr.ends_analyse hd hm path)).mono fun _ g' hall => ?_
      obtain ⟨⟨hrest', h', -⟩, hg', ha⟩ := hall
      have hcurrent : Follows disk m w (g'.markCurrent path) := h'.modifyPackage (hg'.current ha).inv fun _ => rfl
      cases hfind : (g'.markCurrent path).packages.find? path with
      | none => exact hcurrent
      | some n' =>
        rw [hfind] at hrest'
        exact hcurrent.publish hrest'.inv

/-! ## Closing a file -/

omit hd hm hnamed in
/-- The import path of a directory means packages there. -/
theorem Direct.dir_eq {pattern : String} {dir : Path} (h : Direct m g pattern dir) {ns : List PackageNode}
    (hns : g.freshPackages disk pattern = .ok ns) : ∀ n ∈ ns, n.dir = dir := by
  rw [freshPackages_of_dir h.1 h.2.2] at hns
  obtain ⟨found, hfound, hns⟩ := bind_eq_ok.mp hns
  refine forall_of_filterMapM (fun l hmem n hfresh => ?_) hns
  cases found with
  | none => cases hmem
  | some x =>
    rw [Option.toList, List.mem_singleton] at hmem
    subst hmem
    obtain ⟨files, -, -, rfl⟩ := of_freshPackage hfresh
    exact (Listed.of_ofDir? hfound).1

omit hnamed in
theorem Direct.path_eq {pattern : String} {dir : Path} (hl : g.layout.modules = [m]) (hp : DotFree pattern)
    (h : Direct m g pattern dir) {ns : List PackageNode} (hns : g.freshPackages disk pattern = .ok ns) :
    ∀ n ∈ ns, n.path = pattern := by
  intro n hn
  have howns := owns_freshPackages hl hm hd (Or.inr hp) hns n hn
  exact howns.path_eq hm (h.dir_eq hns n hn ▸ h.2.1)

omit hd hm hnamed in
theorem bare_invalidateNode_files (path : String) (old : PackageNode) :
    (invalidateNode path old).bare = { old with files := (invalidateNode path old).files }.bare := by
  rw [(PackageNode.of_bare_eq (bare_invalidateNode path old)).2.1]
  exact bare_invalidateNode path old

section
variable (h : Ready disk m g) (hr : Resting disk m g) {file dir : Path} (hn : file.Normal)
  (hp : file.parent? = some dir) {n : PackageNode} (hfind : g.packages.find? n.path = some n) (hdir : n.dir = dir)
include h hr hn hp hfind hdir

omit hnamed in
/-- The last file of a package is released, and the package with it. -/
theorem Ready.evicted (hi : Inv disk m ((g.released file n.path).evict n.path)) :
    Ready disk m ((g.released file n.path).evict n.path) := by
  obtain ⟨hlayout, hoverlay, hheld⟩ := released_eq (g := g) file n.path
  have hc := changedAt_release hr.inv.held hn
  refine h.inside hd hm hp hr.inv hi ⟨hheld ▸ hc.text, hheld ▸ hc.keys⟩ hlayout hoverlay hfind hdir ?_ ?_ ?_
  · intro key n' hn'
    have hfound := (Table.find?_of_erase hn').2
    rw [find?_released] at hfound
    obtain ⟨old, hold, rfl⟩ := Option.map_eq_some_iff.mp hfound
    exact ⟨old, hold, bare_invalidateNode_files n.path old⟩
  · intro n' hn'
    exact absurd BEq.rfl (Table.find?_of_erase hn').1
  · intro pattern paths hfind' hs
    simp only [Graph.evict, Table.find?_mapValues] at hfind'
    obtain ⟨paths', hpaths', rfl⟩ := Option.map_eq_some_iff.mp hfind'
    obtain ⟨hold, hne⟩ : g.memo.find? pattern = some paths' ∧ pattern ≠ n.path :=
      of_find?_evictMemo (g := g.release file) hpaths'
    refine ⟨?_, hne⟩
    -- what is remembered for another import path is not about the package
    obtain ⟨d, hdirect, hrecall⟩ := h.memo pattern paths' hold hs
    obtain ⟨hdot, hrecall⟩ := hrecall id
    cases hns : g.freshPackages disk pattern with
    | error e => rw [hns] at hrecall; cases hrecall
    | ok ns =>
      rw [hns] at hrecall
      cases hrecall
      rw [hold, List.filter_eq_self.mpr]
      intro p hp
      obtain ⟨x, hx, rfl⟩ := List.mem_map.mp hp
      rw [hdirect.path_eq hd hm hr.inv.modules hdot hns x hx]
      simpa using hne

omit hnamed in
/-- A file is released, and its package has other files. -/
theorem Ready.released {files : List Path} (hfiles : files ≠ [])
    (hi : Inv disk m ((g.released file n.path).modifyPackage n.path fun n => { n with files }.markDirty)) :
    Ready disk m ((g.released file n.path).modifyPackage n.path fun n => { n with files }.markDirty) := by
  obtain ⟨hlayout, hoverlay, hheld⟩ := released_eq (g := g) file n.path
  have hc := changedAt_release hr.inv.held hn
  refine h.inside hd hm hp hr.inv hi ⟨hheld ▸ hc.text, hheld ▸ hc.keys⟩ hlayout hoverlay hfind hdir ?_ ?_ ?_
  · intro key n' hn'
    rw [find?_modifyPackage, find?_released] at hn'
    split at hn'
    · obtain ⟨last, hlast, rfl⟩ := Option.map_eq_some_iff.mp hn'
      obtain ⟨old, hold, rfl⟩ := Option.map_eq_some_iff.mp hlast
      refine ⟨old, hold, ?_⟩
      have hinvalid := bare_invalidateNode n.path old
      unfold PackageNode.bare at hinvalid ⊢
      injection hinvalid with hpath hdir hname _ _ herrors
      simp only [PackageNode.markDirty, PackageNode.reset, hpath, hdir, hname, herrors]
    · obtain ⟨old, hold, rfl⟩ := Option.map_eq_some_iff.mp hn'
      exact ⟨old, hold, bare_invalidateNode_files n.path old⟩
  · intro n' hn'
    rw [find?_modifyPackage, if_pos rfl] at hn'
    obtain ⟨old, -, rfl⟩ := Option.map_eq_some_iff.mp hn'
    simpa [PackageNode.markDirty, PackageNode.reset] using hfiles
  · exact fun pattern paths hfind' _ => of_find?_evictMemo (g := g.release file) hfind'

end

omit hnamed in
theorem Ready.ends_closeFile (hi : disk.PlainImports) (h : Ready disk m g) (hr : Resting disk m g) {file : Path}
    (hn : file.Normal) : Ends (closeFile disk file).run g fun _ g' => Ready disk m g' := by
  have hrest := hr.ends_closeFile hd hm hi file
  rw [Graph.ends_closeFile hn] at hrest ⊢
  cases hof : g.packageOf? file with
  | none => exact h
  | some n =>
    obtain ⟨dir, hdir, hin⟩ := Option.bind_eq_some_iff.mp hof
    have hp := (directoryOf?_eq hdir).1
    obtain ⟨hfind, heq, -⟩ := hr.inv.found_packageIn? hm hn hp hin
    obtain ⟨files, hfiles⟩ := idlFiles_isOk (hr.inv.nodes _ n hfind).files (g.release file)
    rw [hof] at hrest
    dsimp only at hrest ⊢
    rw [hfiles] at hrest ⊢
    dsimp only at hrest ⊢
    split
    · rename_i hempty
      rw [if_pos hempty] at hrest
      exact h.evicted hd hm hr hn hp hfind heq hrest.inv
    · rename_i hsome
      rw [if_neg hsome] at hrest
      exact h.released hd hm hr hn hp hfind heq (fun hnil => hsome (List.isEmpty_iff.mpr hnil)) hrest.inv

end

end Graph

end IdlWorkbench
