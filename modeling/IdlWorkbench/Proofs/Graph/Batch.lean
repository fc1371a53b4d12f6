import IdlWorkbench.Proofs.Graph.Analysis
import IdlWorkbench.Proofs.Workspace.Overlay
import Mathlib.Logic.Relation

/-!
# Checking from scratch

`batchWithin` checks a package by plain recursion over its imports: every import is listed anew, and checked
anew if it is a package. Nothing is remembered, and the state of the graph plays no part; of the graph it
takes the layout, the held texts and the placeholders. The fuel bounds the depth of the recursion, so what
counts is the answer that it settles on.
-/

namespace IdlWorkbench

open IdlWorkbench.Path

/-! ## Definitions -/

def Analysis.shown (path : String) (a : Analysis) : Except ImportError Surface :=
  match a.checked with
  | some result => .ok result.surface
  | none => .error (.broken ((a.errors.head?.map (·.message)).getD ("package " ++ path ++ " has errors")))

def Analysis.Matches (a b : Analysis) : Prop := a.parsed = b.parsed ∧ a.checked = b.checked ∧ a.errors = b.errors

namespace Graph

def placeholders (disk : Disk) (g : Graph) : Overlay := g.overlay.ensureScanned disk g.layout

/-- A listed package with the files of its directory. One without IDL files counts only if it had problems. -/
def freshPackage (disk : Disk) (g : Graph) (l : Listed) : Except LayoutError (Option PackageNode) := do
  let files ← g.idlFiles disk l.dir
  if files.isEmpty && l.errors.isEmpty then
    return none
  else
    return some { path := l.path, dir := l.dir, name := l.name.getD l.dir.fileName, files, listErrors := l.errors }

def freshPackages (disk : Disk) (g : Graph) (pattern : String) : Except LayoutError (List PackageNode) := do
  (← Listed.ofPattern disk g.layout (g.placeholders disk) pattern).filterMapM (g.freshPackage disk)

def parsedFiles (disk : Disk) (g : Graph) (n : PackageNode) : List ParsedFile :=
  n.files.map (ParsedFile.ofPath disk g)

def importPaths (disk : Disk) (g : Graph) (n : PackageNode) : List String :=
  Check.importPaths ((g.parsedFiles disk n).map (·.source))

def batchImport (disk : Disk) (g : Graph) (batch : PackageNode → Analysis) (importPath : String) :
    Except ImportError Surface :=
  if g.layout.isStandard importPath then standardSurface importPath
  else
    match g.freshPackages disk importPath with
    | .error e => .error (.load (.layout e))
    | .ok [n] =>
      match n.listErrors with
      | e :: _ => .error (.broken e.message)
      | [] => (batch n).shown n.path
    | .ok ns => .error (.load (.packageCount importPath ns.length))

/-- Check a package from scratch, where `batch` checks those it imports. -/
def batchNode (disk : Disk) (g : Graph) (batch : PackageNode → Analysis) (n : PackageNode) : Analysis :=
  let parsed := g.parsedFiles disk n
  let parseErrors := parsed.flatMap (·.errors disk g)
  let errors := n.listingErrors ++ parseErrors ++ Analysis.nameErrors parsed
  let rules := if parseErrors.isEmpty then Analysis.structErrors parsed else []
  if errors.isEmpty then
    let imported := (g.importPaths disk n).map fun path =>
      (path, (g.batchImport disk batch path).mapError ImportError.message)
    let result := check n.path n.name (parsed.map (·.source)) imported
    { parsed, checked := some result, imports := []
      errors := result.errors.filterMap (Analysis.ofCheckError parsed) ++ rules }
  else
    { parsed, checked := none, errors := errors ++ rules, imports := [] }

/-- Check a package from scratch with its imports, down to some depth. -/
def batchWithin (disk : Disk) (g : Graph) : (fuel : Nat) → PackageNode → Analysis
  | 0, _ => ⟨[], none, [], []⟩
  | fuel + 1, n => g.batchNode disk (g.batchWithin disk fuel) n

/-- The recursion settles on an analysis. -/
def Settles (disk : Disk) (g : Graph) (n : PackageNode) (a : Analysis) : Prop :=
  ∃ depth, ∀ fuel, depth ≤ fuel → (g.batchWithin disk fuel n).Matches a

def Uses (disk : Disk) (g : Graph) (n n' : PackageNode) : Prop :=
  ∃ path ∈ g.importPaths disk n, g.layout.isStandard path = false ∧ g.freshPackages disk path = .ok [n']

def Acyclic (disk : Disk) (g : Graph) : Prop := ∀ n, ¬Relation.TransGen (g.Uses disk) n n

/-- No package that one leads to imports itself. -/
def AcyclicBelow (disk : Disk) (g : Graph) (n : PackageNode) : Prop :=
  ∀ z, Relation.ReflTransGen (g.Uses disk) n z → ¬Relation.TransGen (g.Uses disk) z z

theorem AcyclicBelow.of_lead {disk : Disk} {g : Graph} {n z : PackageNode} (h : AcyclicBelow disk g n)
    (hlead : Relation.ReflTransGen (g.Uses disk) n z) : AcyclicBelow disk g z :=
  fun z' hlead' => h z' (hlead.trans hlead')

/-- Two graphs list the same packages of a module, with the same texts. -/
structure SameView (disk : Disk) (m : ModuleRoot) (g g' : Graph) : Prop where
  layout : g'.layout = g.layout
  held : g'.held = g.held
  listed : ∀ dir path, m.Owns dir path →
    Listed.ofDir? disk g'.layout (g'.placeholders disk) dir = Listed.ofDir? disk g.layout (g.placeholders disk) dir

end Graph

/-! ## Patterns that are import paths -/

theorem filterMapM_congr {ε α β : Type} {f f' : α → Except ε (Option β)} : ∀ {as : List α},
    (∀ a ∈ as, f a = f' a) → as.filterMapM f = as.filterMapM f'
  | [], _ => rfl
  | a :: as, h => by
    rw [List.filterMapM_cons, List.filterMapM_cons, h a (by simp),
      filterMapM_congr fun b hb => h b (List.mem_cons_of_mem _ hb)]

namespace Listed

variable {disk : Disk} {l : Layout} {m : ModuleRoot} (hl : l.modules = [m]) (hm : m.dir.Rooted)
include hl hm

omit hm in
/-- A relative pattern means a directory of the module. -/
theorem owns_patternDir {pattern : String} (ha : (Path.ofString pattern).isAbsolute = false) (hp : DotFree pattern)
    {dir : Path} (h : patternDir l pattern = .ok (some dir)) : ∃ path, m.Owns dir path := by
  unfold patternDir at h
  simp only [ha, Bool.false_eq_true, if_false] at h
  split at h
  · cases h
  · rw [Layout.resolve?_eq hl] at h
    cases hr : m.rest? pattern with
    | none => rw [hr] at h; cases h
    | some rest =>
      rw [hr] at h
      cases h
      exact ⟨_, _, ModuleRoot.plain_parts hp hr, rfl, rfl⟩

omit hl hm in
theorem owns_treeDirs (hd : disk.WellNamed) {root : Path} {path : String} (ho : m.Owns root path) :
    ∀ dir ∈ treeDirs disk root, ∃ path, m.Owns dir path := by
  intro dir h
  obtain ⟨names, hn, rfl⟩ := List.mem_map.mp h
  obtain ⟨base, hbase, rfl, -⟩ := ho
  have hplain := hd.directories (List.mem_filter.mp hn).1
  refine ⟨_, base ++ names, hbase.append hplain, ?_, rfl⟩
  rw [ModuleRoot.dirAt, ModuleRoot.dirAt, List.foldl_append]

omit hl hm in
theorem relative_base {pattern base : String} (ha : (Path.ofString pattern).isAbsolute = false)
    (hb : Text.stripEnd? wildcard pattern = some base) : (Path.ofString base).isAbsolute = false := by
  rw [Bool.eq_false_iff] at ha ⊢
  intro h
  obtain ⟨s, rest, heq⟩ := isAbsolute_iff.mp h
  refine ha (isAbsolute_iff.mpr ⟨s, rest ++ ["..."], ?_⟩)
  have hp : pattern = base ++ "/" ++ "..." := by
    rw [eq_append_of_stripEnd? hb]
    apply String.toList_inj.mp
    simp [wildcard]
  rw [hp, segments_append, heq]
  rfl

omit hm in
/-- The listing of a relative pattern looks at directories of the module only. -/
theorem ofPattern_congr (hd : disk.WellNamed) {o o' : Overlay}
    (h : ∀ dir path, m.Owns dir path → ofDir? disk l o dir = ofDir? disk l o' dir) {pattern : String}
    (ha : (Path.ofString pattern).isAbsolute = false) (hp : DotFree pattern) :
    ofPattern disk l o pattern = ofPattern disk l o' pattern := by
  unfold ofPattern
  cases hb : Text.stripEnd? wildcard pattern with
  | some base =>
    have hbase : DotFree base := by
      rcases PlainPattern.base (Or.inr hp) hb with hab | hdot
      · rw [relative_base ha hb] at hab
        cases hab
      · exact hdot
    simp only
    cases hdir : patternDir l base with
    | error e => rfl
    | ok dir =>
      cases dir with
      | none => rfl
      | some root =>
        obtain ⟨path, ho⟩ := owns_patternDir hl (relative_base ha hb) hbase hdir
        refine filterMapM_congr fun d hdm => ?_
        obtain ⟨path', ho'⟩ := owns_treeDirs hd ho d hdm
        exact h d path' ho'
  | none =>
    simp only
    cases hdir : patternDir l pattern with
    | error e => rfl
    | ok dir =>
      cases dir with
      | none => rfl
      | some dir =>
        obtain ⟨path, ho⟩ := owns_patternDir hl ha hp hdir
        simp only [bind, Except.bind, h dir path ho]

end Listed

def ModuleRoot.Named (m : ModuleRoot) : Prop := ∃ c cs, m.path.toList = c :: cs ∧ c ≠ '/'

theorem Path.slash_of_isAbsolute {text : String} (h : (Path.ofString text).isAbsolute = true) :
    text.toList.head? = some '/' := by
  obtain ⟨s, rest, heq⟩ := isAbsolute_iff.mp h
  rw [Path.ofString] at heq
  cases ht : text.toList with
  | nil =>
    rw [ht] at heq
    simp at heq
  | cons c cs =>
    by_cases hc : c = '/'
    · simp [hc]
    · rw [ht, List.splitOn_cons_eq_if_modifyHead, if_neg (by simpa using hc)] at heq
      cases hs : cs.splitOn '/' with
      | nil => simp [hs] at heq
      | cons first parts =>
        rw [hs] at heq
        simp only [List.modifyHead_cons, List.map_cons, List.cons.injEq] at heq
        have := congrArg String.toList heq.1
        simp at this

/-- An absolute import path belongs to the standard library, which then does not have it. -/
theorem Layout.relative_of_not_standard {l : Layout} {m : ModuleRoot} (hl : l.modules = [m]) (hm : m.Named)
    {importPath : String} (h : l.isStandard importPath = false) : (Path.ofString importPath).isAbsolute = false := by
  rw [Bool.eq_false_iff]
  intro ha
  obtain ⟨c, cs, hpath, hc⟩ := hm
  obtain ⟨s, rest, heq⟩ := isAbsolute_iff.mp ha
  have hnone : m.rest? importPath = none := by
    cases hr : m.rest? importPath with
    | none => rfl
    | some rest =>
      have hslash := slash_of_isAbsolute ha
      rw [(ModuleRoot.eq_append_of_rest? hr).1, String.toList_append, hpath] at hslash
      exact absurd (Option.some_inj.mp hslash) hc
  rw [isStandard, moduleFor?_eq hl, hnone, heq] at h
  simp at h

end IdlWorkbench
