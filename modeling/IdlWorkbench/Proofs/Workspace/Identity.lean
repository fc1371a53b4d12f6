import IdlWorkbench.Proofs.Workspace.Listing
import Mathlib.Data.List.Induction

/-!
# When import paths identify directories

The import path of a directory comes from the innermost module around it, the directory of an import path from the
module with the longest path that it starts with. The two undo each other as long as no module takes over the path
that another one gives to a directory of its own: `Shadows` names such a pair of modules, and a manifest that
replaces `m/sub` inside the module `m` makes one.
-/

namespace IdlWorkbench

open IdlWorkbench.Path

/-! ## The last of the greatest -/

namespace Layout

section
variable {α : Type} {measure : α → Nat}

theorem lastMax?_concat (xs : List α) (x : α) : lastMax? measure (xs ++ [x]) =
    match lastMax? measure xs with
    | none => some x
    | some b => if measure b ≤ measure x then some x else some b := by
  rw [lastMax?, List.foldl_append]
  rfl

theorem lastMax?_eq_none {xs : List α} (h : lastMax? measure xs = none) : xs = [] := by
  induction xs using List.reverseRecOn with
  | nil => rfl
  | append_singleton xs x _ =>
    rw [lastMax?_concat] at h
    split at h
    · cases h
    · split at h <;> cases h

/-- No element is greater, and those behind it are less. -/
theorem lastMax?_eq_some_iff {xs : List α} {a : α} : lastMax? measure xs = some a ↔
    ∃ front back, xs = front ++ a :: back ∧ (∀ b ∈ front, measure b ≤ measure a) ∧ ∀ b ∈ back,
    measure b < measure a := by
  induction xs using List.reverseRecOn generalizing a with
  | nil => simp [lastMax?]
  | append_singleton xs x ih =>
    rw [lastMax?_concat]
    constructor
    · intro h
      split at h
      · rename_i hnone
        cases h
        exact ⟨[], [], by simp [lastMax?_eq_none hnone], by simp, by simp⟩
      · rename_i b hb
        obtain ⟨front, back, rfl, hfront, hback⟩ := ih.mp hb
        split at h
        · rename_i hle
          cases h
          refine ⟨front ++ b :: back, [], rfl, fun c hc => ?_, by simp⟩
          rcases List.mem_append.mp hc with hc | hc
          · exact Nat.le_trans (hfront c hc) hle
          · rcases List.mem_cons.mp hc with rfl | hc
            · exact hle
            · exact Nat.le_trans (Nat.le_of_lt (hback c hc)) hle
        · rename_i hlt
          cases h
          refine ⟨front, back ++ [x], by simp, hfront, fun c hc => ?_⟩
          rcases List.mem_append.mp hc with hc | hc
          · exact hback c hc
          · rw [List.mem_singleton.mp hc]
            omega
    · rintro ⟨front, back, heq, hfront, hback⟩
      rcases List.eq_nil_or_concat back with rfl | ⟨back, y, rfl⟩
      · obtain ⟨rfl, rfl⟩ := List.append_singleton_inj.mp heq
        split
        · rfl
        · rename_i b hb
          obtain ⟨front', back', rfl, -, -⟩ := ih.mp hb
          rw [if_pos (hfront b (by simp))]
      · have hsplit : xs ++ [x] = (front ++ a :: back) ++ [y] := by simpa using heq
        obtain ⟨rfl, rfl⟩ := List.append_singleton_inj.mp hsplit
        have hlast := ih.mpr ⟨front, back, rfl, hfront, fun b hb => hback b (by simp [hb])⟩
        have hlt := hback x (by simp)
        rw [hlast]
        exact if_neg (by omega)

theorem lastMax?_mem {xs : List α} {a : α} (h : lastMax? measure xs = some a) : a ∈ xs := by
  obtain ⟨front, back, rfl, -, -⟩ := lastMax?_eq_some_iff.mp h
  simp

theorem le_lastMax? {xs : List α} {a b : α} (h : lastMax? measure xs = some a) (hb : b ∈ xs) :
    measure b ≤ measure a := by
  obtain ⟨front, back, rfl, hfront, hback⟩ := lastMax?_eq_some_iff.mp h
  rcases List.mem_append.mp hb with hb | hb
  · exact hfront b hb
  · rcases List.mem_cons.mp hb with rfl | hb
    · exact Nat.le_refl _
    · exact Nat.le_of_lt (hback b hb)

/-- A choice stays the same among fewer that it is one of. -/
theorem lastMax?_narrow {xs : List α} {a : α} {p q : α → Bool} (h : lastMax? measure (xs.filter q) = some a)
    (hpq : ∀ b, p b = true → q b = true) (ha : p a = true) : lastMax? measure (xs.filter p) = some a := by
  obtain ⟨front, back, heq, hfront, hback⟩ := lastMax?_eq_some_iff.mp h
  have hfilter : xs.filter p = (xs.filter q).filter p := by
    rw [List.filter_filter]
    refine List.filter_congr fun b _ => ?_
    cases hb : p b
    · rfl
    · simp [hpq b hb]
  rw [lastMax?_eq_some_iff, hfilter, heq, List.filter_append, List.filter_cons_of_pos ha]
  exact ⟨_, _, rfl, fun b hb => hfront b (List.mem_of_mem_filter hb), fun b hb =>
    hback b (List.mem_of_mem_filter hb)⟩

end

def moduleAround? (l : Layout) (dir : Path) : Option ModuleRoot :=
  lastMax? (fun m => m.dir.components.length) (l.modules.filter fun m => (m.dir.below? dir).isSome)

end Layout

/-! ## Where a path can be cut -/

namespace ModuleRoot

variable {m n : ModuleRoot}

theorem dirAt_append (m : ModuleRoot) (ns ms : List String) :
    m.dirAt (ns ++ ms) = ms.foldl Path.child (m.dirAt ns) :=
  List.foldl_append

theorem pathAt_append (m : ModuleRoot) (ns ms : List String) :
    m.pathAt (ns ++ ms) = ms.foldl (fun path name => path ++ "/" ++ name) (m.pathAt ns) :=
  List.foldl_append

/-- Slashes stand nowhere but before the names, so a path is cut between names where a slash follows the cut. -/
theorem slashed_cut : ∀ {names : List String} {front back : List Char}, PlainNames names →
    (names.flatMap fun s => '/' :: s.toList) = front ++ back → (back = [] ∨ ∃ tail, back = '/' :: tail) →
    ∃ ns ms, names = ns ++ ms ∧ front = ns.flatMap fun s => '/' :: s.toList
  | [], front, back, _, h, _ => by
    have hnil := List.append_eq_nil_iff.mp h.symm
    exact ⟨[], [], rfl, by simp [hnil.1]⟩
  | s :: names, [], back, _, _, _ => ⟨[], s :: names, rfl, rfl⟩
  | s :: names, c :: front, back, hn, h, hback => by
    simp only [List.flatMap_cons, List.cons_append, List.cons.injEq] at h
    obtain ⟨rfl, h⟩ := h
    have hs := hn s (by simp)
    have hnames : PlainNames names := fun t ht => hn t (List.mem_cons_of_mem _ ht)
    rcases List.append_eq_append_iff.mp h with ⟨more, rfl, hmore⟩ | ⟨more, hmore, rfl⟩
    · obtain ⟨ns, ms, rfl, hfront⟩ := slashed_cut hnames hmore hback
      exact ⟨s :: ns, ms, rfl, by simp [hfront]⟩
    · -- the cut would stand inside the name `s`
      cases more with
      | nil =>
        rw [List.append_nil] at hmore
        exact ⟨[s], names, rfl, by simp [hmore]⟩
      | cons c more =>
        rcases hback with hnil | ⟨tail, htail⟩
        · cases hnil
        · obtain ⟨rfl, -⟩ := List.cons.inj htail
          exact absurd (by rw [hmore]; simp) hs.2

/-- A module that provides an import path of another module, and whose own path is no shorter, has a path of that
other module. -/
theorem path_of_rest? {names : List String} (hn : PlainNames names) {rest : String}
    (h : n.rest? (m.pathAt names) = some rest) (hle : m.path.utf8ByteSize ≤ n.path.utf8ByteSize) :
    ∃ ns ms, names = ns ++ ms ∧ n.path = m.pathAt ns := by
  obtain ⟨heq, hrest⟩ := eq_append_of_rest? h
  have hchars := congrArg String.toList heq
  rw [pathAt_toList, String.toList_append] at hchars
  have hback : rest.toList = [] ∨ ∃ tail, rest.toList = '/' :: tail := by
    rcases hrest with rfl | ⟨tail, rfl⟩
    · exact Or.inl rfl
    · exact Or.inr ⟨tail.toList, by simp⟩
  rcases List.append_eq_append_iff.mp hchars with ⟨more, hpath, hmore⟩ | ⟨more, hpath, hmore⟩
  · obtain ⟨ns, ms, hnames, rfl⟩ := slashed_cut hn hmore hback
    exact ⟨ns, ms, hnames, String.toList_inj.mp (by rw [hpath, pathAt_toList])⟩
  · have hshort : m.path = n.path ++ String.ofList more := String.toList_inj.mp (by simp [hpath])
    have hzero : (String.ofList more).utf8ByteSize = 0 := by
      rw [hshort, String.utf8ByteSize_append] at hle
      omega
    have hsame : n.path = m.path := by
      rw [hshort, String.utf8ByteSize_eq_zero_iff.mp hzero, String.append_empty]
    exact ⟨[], names, rfl, hsame⟩

/-- What provides a path provides the paths below it. -/
theorem rest?_isSome_trans {path : String} (h : (n.rest? m.path).isSome = true) (h' : (m.rest? path).isSome = true) :
    (n.rest? path).isSome = true := by
  obtain ⟨rest, hrest⟩ := Option.isSome_iff_exists.mp h
  obtain ⟨rest', hrest'⟩ := Option.isSome_iff_exists.mp h'
  obtain ⟨hpath, hslash⟩ := eq_append_of_rest? hrest
  obtain ⟨rfl, hslash'⟩ := eq_append_of_rest? hrest'
  rw [hpath, String.append_assoc, rest?_append]
  · rfl
  · rcases hslash with rfl | ⟨tail, rfl⟩
    · simpa using hslash'
    · exact Or.inr ⟨tail ++ rest', String.append_assoc ..⟩

end ModuleRoot

/-! ## Directories and their import paths -/

namespace Layout

variable {l : Layout} {m n : ModuleRoot}

/-- Every directory, as it can be written without dots, is the directory of its import path. -/
def Identifies (l : Layout) : Prop :=
  ∀ (dir path : String), (Path.ofString dir).isAbsolute = true → DotFree dir →
    l.importPathOf? (Path.ofString dir) = some path →
    ∃ found, l.resolve? path = some found ∧ (found == Path.ofString dir) = true

/-- `n` takes over an import path of `m` for a directory other than the one it is the path of. -/
def Shadows (l : Layout) (n m : ModuleRoot) : Prop :=
  ∃ names, PlainNames names ∧ n.path = m.pathAt names ∧ l.moduleAround? (m.dirAt names) = some m ∧
    l.moduleFor? n.path = some n ∧ n.dir ≠ m.dirAt names

theorem importPathOf?_of_around {dir : Path} {rest : List Component} (h : l.moduleAround? dir = some m)
    (hr : m.dir.below? dir = some rest) : l.importPathOf? dir = some (m.pathAt (Path.names rest)) := by
  unfold importPathOf?
  rw [moduleAround?] at h
  rw [h]
  simp [hr, ModuleRoot.pathAt]

theorem exists_around {dir : Path} {path : String} (h : l.importPathOf? dir = some path) :
    ∃ m rest, l.moduleAround? dir = some m ∧ m.dir.below? dir = some rest ∧ path = m.pathAt (Path.names rest) := by
  unfold importPathOf? at h
  obtain ⟨m, hm, h⟩ := Option.bind_eq_some_iff.mp h
  obtain ⟨rest, hrest, h⟩ := Option.bind_eq_some_iff.mp h
  cases h
  exact ⟨m, rest, hm, hrest, rfl⟩

theorem mem_of_around {dir : Path} (h : l.moduleAround? dir = some m) : m ∈ l.modules :=
  List.mem_of_mem_filter (lastMax?_mem h)

theorem mem_of_moduleFor? {path : String} (h : l.moduleFor? path = some m) : m ∈ l.modules :=
  List.mem_of_mem_filter (lastMax?_mem h)

theorem isSome_below? {base p : Path} : (base.below? p).isSome = true ↔ base.components <+: p.components := by
  rw [Path.below?]
  split
  · rename_i h
    exact ⟨fun _ => List.isPrefixOf_iff_prefix.mp h, fun _ => rfl⟩
  · rename_i h
    exact ⟨fun h' => absurd h' Bool.false_ne_true, fun h' => absurd (List.isPrefixOf_iff_prefix.mpr h') h⟩

/-- A directory without dots is in normal form up to how it is written. -/
theorem exists_rooted {dir : String} (ha : (Path.ofString dir).isAbsolute = true) (hd : DotFree dir) :
    ∃ p : Path, p.Rooted ∧ (Path.ofString dir).components = p.components := by
  have hnames : ∀ l : List String, (∀ s ∈ l, s ≠ ".." ) → ∃ ns : List String,
      l.filterMap component? = ns.map .name := by
    intro l hl
    induction l with
    | nil => exact ⟨[], rfl⟩
    | cons s l ih =>
      obtain ⟨ns, hns⟩ := ih fun t ht => hl t (List.mem_cons_of_mem _ ht)
      rw [List.filterMap_cons, hns]
      split
      · exact ⟨ns, rfl⟩
      · rename_i c hc
        unfold component? at hc
        split at hc
        · cases hc
        · cases hc
        · exact absurd rfl (hl ".." (by simp))
        · cases hc
          exact ⟨s :: ns, rfl⟩
  obtain ⟨s, rest, hseg⟩ := isAbsolute_iff.mp ha
  obtain ⟨ns, hns⟩ := hnames (s :: rest) fun t ht => (hd t (by rw [hseg]; exact List.mem_cons_of_mem _ ht)).2
  have hcs : (Path.ofString dir).components = .root :: ns.map .name := by
    unfold Path.components
    rw [hseg]
    exact congrArg _ hns
  have hplain : PlainNames ns := by
    intro t ht
    have hmem : .name t ∈ (Path.ofString dir).components := by simp [hcs, ht]
    exact ⟨proper_of_mem_components hmem, slash_not_mem_segments (mem_segments_of_mem_components hmem)⟩
  exact ⟨ofNames true ns, ⟨ns, hplain, rfl⟩, hcs.trans (components_absolute hplain.proper).symm⟩

theorem dotFree_text {p : Path} (h : p.Rooted) : DotFree p.text := by
  intro s hs
  rw [ofString_text_of_rooted h] at hs
  obtain ⟨names, hn, rfl⟩ := h
  have hmem : s = "" ∨ s ∈ names := by
    cases names with
    | nil => simpa [ofNames_nil] using hs
    | cons => simpa [ofNames_cons] using hs
  rcases hmem with rfl | hmem
  · decide
  · exact (hn s hmem).1.2

theorem rest?_path (n : ModuleRoot) : n.rest? n.path = some "" := by
  have h := ModuleRoot.rest?_append (m := n) (Or.inl rfl)
  rwa [String.append_empty] at h

theorem resolve?_path (h : l.moduleFor? n.path = some n) : l.resolve? n.path = some n.dir := by
  rw [resolve?, h]
  simp only [Option.bind_eq_bind, Option.bind_some, rest?_path]
  rfl

section
variable (hl : ∀ m ∈ l.modules, m.dir.Rooted)
include hl

theorem around_cut {ns ms : List String} (hns : PlainNames ns) (hms : PlainNames ms)
    (h : l.moduleAround? (m.dirAt (ns ++ ms)) = some m) : l.moduleAround? (m.dirAt ns) = some m := by
  have hm := hl m (mem_of_around h)
  have hprefix : (m.dirAt ns).components <+: (m.dirAt (ns ++ ms)).components := by
    rw [ModuleRoot.dirAt_eq hm hns, ModuleRoot.dirAt_eq hm (hns.append hms),
      components_absolute (hm.plain_resolved.append hns).proper,
      components_absolute (hm.plain_resolved.append (hns.append hms)).proper]
    simp
  refine lastMax?_narrow h (fun b hb => ?_) ?_
  · exact isSome_below?.mpr ((isSome_below?.mp hb).trans hprefix)
  · rw [ModuleRoot.below?_dirAt hm hns]
    rfl

theorem resolve?_importPathOf? (hs : ∀ m ∈ l.modules, ∀ n ∈ l.modules, ¬l.Shadows n m) {dir : Path} (hd : dir.Rooted)
    {path : String} (h : l.importPathOf? dir = some path) : l.resolve? path = some dir := by
  obtain ⟨m, rest, haround, hbelow, rfl⟩ := exists_around h
  have hm := mem_of_around haround
  obtain ⟨names, hnames, rfl, rfl⟩ := ModuleRoot.below?_eq_some (hl m hm) hd hbelow
  rw [names_map]
  obtain ⟨rest, hrest, -⟩ := m.rest?_pathAt hnames
  -- some module provides the path, for `m` does; the one with the longest path is `n`
  have hmem : m ∈ l.modules.filter fun m' => (m'.rest? (m.pathAt names)).isSome :=
    List.mem_filter.mpr ⟨hm, by rw [hrest]; rfl⟩
  obtain ⟨n, hfor⟩ : ∃ n, l.moduleFor? (m.pathAt names) = some n := by
    refine Option.ne_none_iff_exists'.mp fun hnone => ?_
    rw [lastMax?_eq_none hnone] at hmem
    cases hmem
  obtain ⟨rest', hrest'⟩ := Option.isSome_iff_exists.mp (List.mem_filter.mp (lastMax?_mem hfor)).2
  have hlonger := le_lastMax? hfor hmem
  obtain ⟨ns, ms, rfl, hpath⟩ := ModuleRoot.path_of_rest? hnames hrest' hlonger
  have hns : PlainNames ns := fun s hs => hnames s (List.mem_append_left _ hs)
  have hms : PlainNames ms := fun s hs => hnames s (List.mem_append_right _ hs)
  have hown : l.moduleFor? n.path = some n := by
    refine lastMax?_narrow hfor (fun b hb => ?_) (by rw [rest?_path]; rfl)
    exact ModuleRoot.rest?_isSome_trans (m := n) hb (by rw [hrest']; rfl)
  have hdir : n.dir = m.dirAt ns := by
    by_contra hne
    exact hs m hm n (mem_of_moduleFor? hfor) ⟨ns, hns, hpath, around_cut hl hns hms haround, hown, hne⟩
  have hsplit : m.pathAt (ns ++ ms) = n.pathAt ms := by
    rw [ModuleRoot.pathAt_append, ← hpath]
    rfl
  obtain ⟨last, hlast, hparts⟩ := n.rest?_pathAt hms
  rw [resolve?, hfor, hsplit]
  simp only [Option.bind_eq_bind, Option.bind_some, hlast, hparts, hdir, ModuleRoot.dirAt_append]
  rfl

theorem identifies_iff : l.Identifies ↔ ∀ m ∈ l.modules, ∀ n ∈ l.modules, ¬l.Shadows n m := by
  constructor
  · rintro h m hm n hn ⟨names, hnames, hpath, haround, hfor, hne⟩
    have hrooted : (m.dirAt names).Rooted :=
      ⟨_, (hl m hm).plain_resolved.append hnames, ModuleRoot.dirAt_eq (hl m hm) hnames⟩
    have hwritten := ofString_text_of_rooted hrooted
    have himport : l.importPathOf? (m.dirAt names) = some n.path := by
      rw [importPathOf?_of_around haround (ModuleRoot.below?_dirAt (hl m hm) hnames), names_map, hpath]
    obtain ⟨found, hfound, hsame⟩ := h (m.dirAt names).text n.path (by rw [hwritten]; exact hrooted.absolute)
      (dotFree_text hrooted) (by rwa [hwritten])
    rw [hwritten] at hsame
    rw [resolve?_path hfor] at hfound
    cases hfound
    exact hne ((hl n hn).normal.eq_of_beq hrooted.normal hsame)
  · intro hs dir path ha hd h
    obtain ⟨p, hp, hcs⟩ := exists_rooted ha hd
    rw [l.importPathOf?_congr hcs] at h
    exact ⟨p, resolve?_importPathOf? hl hs hp h, beq_iff.mpr hcs.symm⟩

end

/-- Directories with one import path are one directory. -/
theorem Identifies.unique (h : l.Identifies) {d d' path : String} (ha : (Path.ofString d).isAbsolute = true)
    (hd : DotFree d) (ha' : (Path.ofString d').isAbsolute = true) (hd' : DotFree d')
    (hp : l.importPathOf? (Path.ofString d) = some path) (hp' : l.importPathOf? (Path.ofString d') = some path) :
    (Path.ofString d == Path.ofString d') = true := by
  obtain ⟨found, hfound, hsame⟩ := h d path ha hd hp
  obtain ⟨found', hfound', hsame'⟩ := h d' path ha' hd' hp'
  cases hfound.symm.trans hfound'
  exact BEq.trans (BEq.symm hsame) hsame'

/-- Modules whose paths are not nested do not come into each other's way. -/
theorem identifies_of_apart (hl : ∀ m ∈ l.modules, m.dir.Rooted)
    (h : ∀ m ∈ l.modules, ∀ n ∈ l.modules, (m.rest? n.path).isSome = true → n = m) : l.Identifies := by
  refine (identifies_iff hl).mpr ?_
  rintro m hm n hn ⟨names, hnames, hpath, -, -, hne⟩
  have hrest : (m.rest? n.path).isSome = true := by
    obtain ⟨rest, hrest, -⟩ := m.rest?_pathAt hnames
    rw [hpath, hrest]
    rfl
  cases h m hm n hn hrest
  have hnil : [] = names := ModuleRoot.pathAt_injective (by simp [PlainNames]) hnames hpath
  subst hnil
  exact hne rfl

/-- Import paths identify directories unless one module shadows a directory of another. -/
theorem import_paths_identify_iff {root : Path} (hr : root.Rooted) (text : String) :
    ((ofManifest root text).Identifies ↔ ∀ m ∈ (ofManifest root text).modules, ∀ n ∈ (ofManifest root text).modules,
      ¬(ofManifest root text).Shadows n m) ∧
    ((ofManifest root text).Identifies → ∀ d d' path : String, (Path.ofString d).isAbsolute = true → DotFree d →
      (Path.ofString d').isAbsolute = true → DotFree d' →
      (ofManifest root text).importPathOf? (Path.ofString d) = some path →
      (ofManifest root text).importPathOf? (Path.ofString d') = some path →
      (Path.ofString d == Path.ofString d') = true) :=
  ⟨identifies_iff (rooted_ofManifest hr text), fun h _ _ _ ha hd ha' hd' hp hp' => h.unique ha hd ha' hd' hp hp'⟩

/-- A manifest that replaces a path inside its own module by another directory. -/
def nestedReplacement : String := "module example.com/m\n\nreplace example.com/m/sub => ./other\n"

/-- `/w/sub` and `/w/other` then have one import path, which means the latter. -/
theorem import_paths_identify_iff_nested : (Path.ofString "/w").Rooted ∧
    ¬(ofManifest (Path.ofString "/w") nestedReplacement).Identifies := by
  have hplain : PlainNames ["w"] ∧ PlainNames ["sub"] := by simp [PlainNames, Proper]
  have hr : (Path.ofString "/w").Rooted := ⟨["w"], hplain.1, by decide +kernel⟩
  refine ⟨hr, fun h => ?_⟩
  have hm : (ofManifest (Path.ofString "/w") nestedReplacement).modules =
      [⟨"example.com/m", Path.ofString "/w"⟩, ⟨"example.com/m/sub", Path.ofString "/w/other"⟩] := by decide +kernel
  refine (import_paths_identify_iff hr nestedReplacement).1.mp h ⟨"example.com/m", Path.ofString "/w"⟩ (by simp [hm])
    ⟨"example.com/m/sub", Path.ofString "/w/other"⟩ (by simp [hm]) ⟨["sub"], hplain.2, ?_, ?_, ?_, ?_⟩
  · decide +kernel
  · decide +kernel
  · decide +kernel
  · decide +kernel

end Layout

end IdlWorkbench
