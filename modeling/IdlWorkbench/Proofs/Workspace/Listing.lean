import IdlWorkbench.Proofs.Action
import IdlWorkbench.Proofs.Disk
import IdlWorkbench.Proofs.Workspace.Module

/-!
# Listing the packages of a single module

With one module, whatever a pattern lists is a directory of that module under its own import path, so long as
the pattern has no part that leads elsewhere. The root of the module is found above the directory where
the search for a manifest starts.
-/

namespace IdlWorkbench

open IdlWorkbench.Path

/-! ## Written paths -/

namespace Path

theorem isAbsolute_iff {p : Path} : p.isAbsolute = true ↔ ∃ s rest, p.segments = "" :: s :: rest := by
  have hroot (l : List String) : (l.filterMap component?).head? ≠ some .root := by
    intro h
    obtain ⟨s, -, hs⟩ := List.mem_filterMap.mp (List.mem_of_head? h)
    unfold component? at hs
    split at hs <;> cases hs
  unfold isAbsolute components
  split
  · rename_i h; simp [h]
  · rename_i rest hne h
    cases rest with
    | nil => exact absurd rfl hne
    | cons s rest => simp [h]
  · rename_i h; simp [h]
  · rename_i h1 h2 _
    refine ⟨fun h => absurd (of_decide_eq_true h) (hroot _), ?_⟩
    rintro ⟨s, rest, h⟩
    exact absurd h (h2 _)

theorem plain_resolved_ofString (text : String) : PlainNames (ofString text).resolved := by
  intro s hs
  have hc := mem_components_of_resolved hs
  exact ⟨proper_of_mem_components hc, slash_not_mem_segments (mem_segments_of_mem_components hc)⟩

theorem rooted_normalize {text : String} (h : (ofString text).isAbsolute = true) :
    (ofString text).normalize.Rooted :=
  ⟨_, plain_resolved_ofString text, by rw [normalize_eq, h]⟩

/-- A path can be read back from its text. -/
theorem ofString_text {p : Path} (h : ∀ s ∈ p.segments, '/' ∉ s.toList) (hne : p.segments ≠ []) :
    ofString p.text = p := by
  have htext : p.text.toList = ['/'].intercalate (p.segments.map String.toList) := by
    simp [text, String.toList_intercalate]
  have hparts : ∀ cs ∈ p.segments.map String.toList, '/' ∉ cs := by
    intro cs hcs
    obtain ⟨s, hs, rfl⟩ := List.mem_map.mp hcs
    exact h s hs
  rw [ofString, htext, List.splitOn_intercalate _ hparts (by simpa using hne), List.map_map]
  have : String.ofList ∘ String.toList = id := funext fun s => by simp
  simp [this]

theorem slash_not_mem_ofNames {b : Bool} {names : List String} (h : PlainNames names) :
    ∀ s ∈ (ofNames b names).segments, '/' ∉ s.toList := by
  intro s hs
  cases names with
  | nil => cases b <;> simp [ofNames_nil] at hs <;> simp [hs]
  | cons t names =>
    rw [ofNames_cons] at hs
    cases b with
    | true =>
      rcases List.mem_cons.mp hs with rfl | hs
      · simp
      · exact (h s hs).2
    | false => exact (h s hs).2

theorem ofString_text_ofNames {b : Bool} {names : List String} (h : PlainNames names) :
    ofString (ofNames b names).text = ofNames b names := by
  refine ofString_text (slash_not_mem_ofNames h) ?_
  cases names <;> cases b <;> simp [ofNames_nil, ofNames_cons]

theorem ofString_text_of_rooted {p : Path} (h : p.Rooted) : ofString p.text = p := by
  obtain ⟨names, hn, rfl⟩ := h
  exact ofString_text_ofNames hn

end Path

/-- A pattern that names a directory outright, or an import path with nothing to resolve. -/
def PlainPattern (pattern : String) : Prop := (Path.ofString pattern).isAbsolute = true ∨ DotFree pattern

instance (pattern : String) : Decidable (PlainPattern pattern) := inferInstanceAs (Decidable (_ ∨ _))

theorem plainPattern_text {b : Bool} {names : List String} (h : PlainNames names) :
    PlainPattern (ofNames b names).text := by
  unfold PlainPattern DotFree
  rw [ofString_text_ofNames h]
  cases b with
  | true => exact Or.inl (isAbsolute_ofNames h.proper true)
  | false =>
    right
    intro s hs
    cases names with
    | nil =>
      rw [ofNames_nil] at hs
      simp at hs
      simp [hs]
    | cons t names => exact (h s hs).1.2

theorem stripEnd?_append (base tail : String) : Text.stripEnd? tail (base ++ tail) = some base := by
  have hs : tail.toList.isSuffixOf (base ++ tail).toList = true := by
    rw [List.isSuffixOf_iff_suffix, String.toList_append]
    exact List.suffix_append _ _
  unfold Text.stripEnd?
  rw [if_pos hs]
  simp

theorem eq_append_of_stripEnd? {tail s base : String}
    (h : Text.stripEnd? tail s = some base) : s = base ++ tail := by
  unfold Text.stripEnd? at h
  split at h
  · rename_i hs
    cases h
    obtain ⟨front, hfront⟩ := List.isSuffixOf_iff_suffix.mp hs
    apply String.toList_inj.mp
    rw [String.toList_append, String.toList_ofList, ← hfront]
    simp
  · cases h

theorem PlainPattern.base {pattern base : String} (h : PlainPattern pattern)
    (hb : Text.stripEnd? Listed.wildcard pattern = some base) : PlainPattern base := by
  have hp : pattern = base ++ "/" ++ "..." := by
    rw [eq_append_of_stripEnd? hb]
    apply String.toList_inj.mp
    simp [Listed.wildcard]
  have hs : (Path.ofString pattern).segments = (Path.ofString base).segments ++ ["..."] := by
    rw [hp, segments_append]
    rfl
  rcases h with h | h
  · obtain ⟨s, rest, heq⟩ := isAbsolute_iff.mp h
    rw [hs] at heq
    cases hbase : (Path.ofString base).segments with
    | nil => rw [hbase] at heq; simp at heq
    | cons first more =>
      rw [hbase, List.cons_append, List.cons.injEq] at heq
      obtain ⟨rfl, -⟩ := heq
      cases more with
      | nil =>
        right
        intro t ht
        rw [hbase, List.mem_singleton] at ht
        simp [ht]
      | cons t more => exact Or.inl (isAbsolute_iff.mpr ⟨t, more, hbase⟩)
  · right
    intro t ht
    exact h t (hs ▸ List.mem_append_left _ ht)

/-! ## Import paths of directories -/

namespace ModuleRoot

variable {m : ModuleRoot}

theorem below?_eq_some (hm : m.dir.Rooted) {dir : Path} (hd : dir.Rooted) {rest : List Component}
    (h : m.dir.below? dir = some rest) :
    ∃ names, PlainNames names ∧ dir = m.dirAt names ∧ rest = names.map .name := by
  unfold below? at h
  split at h
  · rename_i hp
    cases h
    have hmc : m.dir.components = .root :: m.dir.resolved.map .name := by
      conv_lhs => rw [hm.eq_ofNames]
      exact components_absolute (proper_resolved _)
    have hdc : dir.components = .root :: dir.resolved.map .name := by
      conv_lhs => rw [hd.eq_ofNames]
      exact components_absolute (proper_resolved _)
    rw [hmc, hdc, List.isPrefixOf_iff_prefix, List.cons_prefix_cons] at hp
    obtain ⟨names, hnames⟩ := (List.prefix_map_iff_of_injective fun _ _ e => Component.name.inj e).mp hp.2
    have hplain : PlainNames names := by
      intro s hs
      exact hd.plain_resolved s (hnames ▸ List.mem_append_right _ hs)
    refine ⟨names, hplain, ?_, ?_⟩
    · rw [dirAt_eq hm hplain, hnames]
      exact hd.eq_ofNames
    · rw [hmc, hdc, ← hnames]
      simp
  · cases h

theorem below?_dirAt (hm : m.dir.Rooted) {names : List String} (hn : PlainNames names) :
    m.dir.below? (m.dirAt names) = some (names.map .name) := by
  have hmc : m.dir.components = .root :: m.dir.resolved.map .name := by
    conv_lhs => rw [hm.eq_ofNames]
    exact components_absolute (proper_resolved _)
  have hdc : (m.dirAt names).components = m.dir.components ++ names.map .name := by
    rw [dirAt_eq hm hn, components_absolute (hm.plain_resolved.append hn).proper, hmc]
    simp
  rw [below?, hdc]
  simp [List.isPrefixOf_iff_prefix]

end ModuleRoot

/-- The import path of a directory does not depend on how the directory is written. -/
theorem Layout.importPathOf?_congr (l : Layout) {p q : Path} (h : p.components = q.components) :
    l.importPathOf? p = l.importPathOf? q := by
  unfold Layout.importPathOf? Path.below?
  rw [h]

namespace Layout

variable {l : Layout} {m : ModuleRoot} (hl : l.modules = [m])
include hl

theorem moduleFor?_eq (importPath : String) :
    l.moduleFor? importPath = if (m.rest? importPath).isSome then some m else none := by
  rw [moduleFor?, hl]
  cases hr : (m.rest? importPath).isSome <;> simp [hr, lastMax?]

theorem importPathOf?_eq (dir : Path) : l.importPathOf? dir = (m.dir.below? dir).map fun rest =>
    m.pathAt (Path.names rest) := by
  unfold importPathOf?
  rw [hl]
  cases hb : m.dir.below? dir with
  | none => simp [hb, lastMax?]
  | some rest => simp [hb, lastMax?, ModuleRoot.pathAt]

theorem owns_of_importPathOf? (hm : m.dir.Rooted) {dir : Path} (hd : dir.Rooted) {path : String}
    (h : l.importPathOf? dir = some path) : m.Owns dir path := by
  rw [importPathOf?_eq hl] at h
  obtain ⟨rest, hb, rfl⟩ := Option.map_eq_some_iff.mp h
  obtain ⟨names, hn, hdir, rfl⟩ := ModuleRoot.below?_eq_some hm hd hb
  exact ⟨names, hn, hdir, by rw [names_map]⟩

theorem importPathOf?_of_owns (hm : m.dir.Rooted) {dir : Path} {path : String} (h : m.Owns dir path) :
    l.importPathOf? dir = some path := by
  obtain ⟨names, hn, rfl, rfl⟩ := h
  rw [importPathOf?_eq hl, ModuleRoot.below?_dirAt hm hn, Option.map_some, names_map]

theorem resolve?_eq (importPath : String) :
    l.resolve? importPath = (m.rest? importPath).map fun rest => m.dirAt (parts rest) := by
  unfold resolve?
  rw [moduleFor?_eq hl]
  cases hr : m.rest? importPath with
  | none => simp
  | some rest => simp [hr, ModuleRoot.dirAt]

end Layout

namespace ModuleRoot

variable {m : ModuleRoot}

theorem eq_append_of_rest? {importPath rest : String} (h : m.rest? importPath = some rest) :
    importPath = m.path ++ rest ∧ (rest = "" ∨ ∃ tail, rest = "/" ++ tail) := by
  unfold rest? at h
  obtain ⟨hs, hr⟩ := Option.filter_eq_some_iff.mp h
  unfold Text.strip? at hs
  split at hs
  · rename_i hp
    obtain ⟨back, hback⟩ := List.isPrefixOf_iff_prefix.mp hp
    rw [← hback, List.drop_left, Option.some_inj] at hs
    subst hs
    refine ⟨String.toList_inj.mp (by simp [hback]), ?_⟩
    cases back with
    | nil => exact Or.inl rfl
    | cons c back =>
      right
      refine ⟨String.ofList back, String.toList_inj.mp ?_⟩
      simp at hr
      simp [hr]
  · cases hs

theorem rest?_append {rest : String} (h : rest = "" ∨ ∃ tail, rest = "/" ++ tail) :
    m.rest? (m.path ++ rest) = some rest := by
  have hstrip : Text.strip? m.path (m.path ++ rest) = some rest := by
    unfold Text.strip?
    rw [String.toList_append, if_pos (List.isPrefixOf_iff_prefix.mpr (List.prefix_append _ _)), List.drop_left,
      String.ofList_toList]
  rw [rest?, hstrip, Option.filter_eq_some_iff]
  refine ⟨rfl, ?_⟩
  rcases h with rfl | ⟨tail, rfl⟩
  · rfl
  · simp

theorem rest?_pathAt (m : ModuleRoot) {names : List String} (h : PlainNames names) :
    ∃ rest, m.rest? (m.pathAt names) = some rest ∧ Layout.parts rest = names := by
  -- the rest is the import path as seen from a module without a name
  refine ⟨pathAt ⟨"", m.dir⟩ names, ?_, ?_⟩
  · have hslashed := pathAt_toList (m := ⟨"", m.dir⟩) names
    have hstrip : Text.strip? m.path (m.pathAt names) = some (pathAt ⟨"", m.dir⟩ names) := by
      unfold Text.strip?
      rw [pathAt_toList, if_pos (List.isPrefixOf_iff_prefix.mpr (List.prefix_append _ _)), List.drop_left]
      refine congrArg some (String.toList_inj.mp ?_)
      rw [String.toList_ofList, hslashed]
      rfl
    unfold rest?
    rw [hstrip, Option.filter_eq_some_iff]
    refine ⟨rfl, ?_⟩
    cases names with
    | nil => rfl
    | cons s names => simp [hslashed]
  · have hparts : ∀ (names : List String) (path : String), PlainNames names →
        Layout.parts (pathAt ⟨path, m.dir⟩ names) = Layout.parts path ++ names := by
      intro names
      induction names with
      | nil => exact fun path _ => (List.append_nil _).symm
      | cons s names ih =>
        intro path h
        have hs := h s (by simp)
        have hone : (Path.ofString s).segments = [s] := by
          have heq := ofString_text (p := ⟨[s]⟩) (by simpa using hs.2) (by simp)
          have htext : (⟨[s]⟩ : Path).text = s := by simp [text]
          rw [htext] at heq
          rw [heq]
        have hstep : Layout.parts (path ++ "/" ++ s) = Layout.parts path ++ [s] := by
          unfold Layout.parts
          rw [segments_append, hone, List.filter_append]
          simp [hs.1.1]
        have ih := ih (path ++ "/" ++ s) fun t ht => h t (List.mem_cons_of_mem _ ht)
        rw [hstep, List.append_assoc] at ih
        exact ih
    exact hparts names "" h

theorem plain_parts {importPath rest : String} (hd : DotFree importPath) (h : m.rest? importPath = some rest) :
    PlainNames (Layout.parts rest) := by
  obtain ⟨heq, hrest⟩ := eq_append_of_rest? h
  intro s hs
  obtain ⟨hs, hne⟩ := List.mem_filter.mp hs
  have hslash := slash_not_mem_segments hs
  rcases hrest with rfl | ⟨tail, rfl⟩
  · have : s = "" := by simpa [ofString] using hs
    simp [this] at hne
  · have hsplit : (ofString ("/" ++ tail)).segments = "" :: (ofString tail).segments := segments_append "" tail
    have hne' : s ≠ "" := by rintro rfl; simp at hne
    rw [hsplit] at hs
    have htail := (List.mem_cons.mp hs).resolve_left hne'
    have hmem : s ∈ (ofString importPath).segments := by
      rw [heq, ← String.append_assoc, segments_append]
      exact List.mem_append_right _ htail
    exact ⟨⟨hne', hd s hmem⟩, hslash⟩

/-- A pattern that names a directory outright, or has nothing to resolve behind the path of the module. -/
def Straight (m : ModuleRoot) (pattern : String) : Prop :=
  (Path.ofString pattern).isAbsolute = true ∨ ∀ rest, m.rest? pattern = some rest → PlainNames (Layout.parts rest)

theorem straight_pathAt (m : ModuleRoot) {names : List String} (h : PlainNames names) :
    m.Straight (m.pathAt names) := by
  obtain ⟨rest, hrest, hparts⟩ := rest?_pathAt m h
  right
  intro rest' hrest'
  rw [hrest] at hrest'
  cases hrest'
  rwa [hparts]

end ModuleRoot

theorem PlainPattern.straight {m : ModuleRoot} {pattern : String} (h : PlainPattern pattern) : m.Straight pattern :=
  h.imp_right fun hdot _ => ModuleRoot.plain_parts hdot

theorem ModuleRoot.Straight.base {m : ModuleRoot} {pattern base : String} (h : m.Straight pattern)
    (hb : Text.stripEnd? Listed.wildcard pattern = some base) : m.Straight base := by
  rcases h with h | h
  · have hplain : PlainPattern base := PlainPattern.base (Or.inl h) hb
    exact hplain.straight
  · right
    intro rest hrest
    obtain ⟨rfl, hslash⟩ := eq_append_of_rest? hrest
    have hwild : rest ++ Listed.wildcard = rest ++ "/" ++ "..." := by rw [String.append_assoc]; rfl
    have hpattern : m.rest? pattern = some (rest ++ Listed.wildcard) := by
      rw [eq_append_of_stripEnd? hb, String.append_assoc]
      apply rest?_append
      rcases hslash with rfl | ⟨tail, rfl⟩
      · exact Or.inr ⟨"...", rfl⟩
      · exact Or.inr ⟨tail ++ Listed.wildcard, String.append_assoc ..⟩
    have hparts : Layout.parts (rest ++ Listed.wildcard) = Layout.parts rest ++ ["..."] := by
      unfold Layout.parts
      rw [hwild, segments_append, List.filter_append]
      rfl
    have hplain := h _ hpattern
    rw [hparts] at hplain
    exact fun s hs => hplain s (List.mem_append_left _ hs)

/-! ## Patterns -/

theorem Disk.WellNamed.directories {disk : Disk} (hd : disk.WellNamed) {root : Path} {names : List String}
    (h : names ∈ disk.directories root) : PlainNames names := by
  unfold Disk.directories at h
  split at h
  · rcases List.mem_cons.mp (List.mem_filter.mp h).1 with rfl | h
    · exact fun s hs => nomatch hs
    · obtain ⟨⟨key, entry⟩, he, hk⟩ := List.mem_filterMap.mp h
      simp only at hk
      split at hk
      · cases hk
        exact fun s hs => hd _ he s (List.mem_of_mem_drop hs)
      · cases hk
  · cases h

theorem Path.Rooted.foldl_child {root : Path} (hr : root.Rooted) {names : List String} (h : PlainNames names) :
    (names.foldl Path.child root).Rooted := by
  refine ⟨_, hr.plain_resolved.append h, ?_⟩
  conv_lhs => rw [hr.eq_ofNames]
  exact foldl_child_ofNames (proper_resolved _) h.proper

namespace Listed

variable {disk : Disk} {l : Layout} {m : ModuleRoot} (hl : l.modules = [m]) (hm : m.dir.Rooted)
include hl hm

theorem rooted_patternDir {pattern : String} (hp : m.Straight pattern) {dir : Path}
    (h : patternDir l pattern = .ok (some dir)) : dir.Rooted := by
  unfold patternDir at h
  simp only at h
  split at h
  · rename_i ha
    cases h
    exact rooted_normalize ha
  · rename_i ha
    split at h
    · cases h
    · rw [Layout.resolve?_eq hl] at h
      cases hr : m.rest? pattern with
      | none => rw [hr] at h; cases h
      | some rest =>
        rw [hr] at h
        cases h
        have hplain := hp.resolve_left ha rest hr
        exact ⟨_, hm.plain_resolved.append hplain, ModuleRoot.dirAt_eq hm hplain⟩

omit hl hm in
theorem rooted_treeDirs (hd : disk.WellNamed) {root : Path} (hr : root.Rooted) :
    ∀ dir ∈ treeDirs disk root, dir.Rooted := by
  intro dir h
  obtain ⟨names, hn, rfl⟩ := List.mem_map.mp h
  exact hr.foldl_child (hd.directories (List.mem_filter.mp hn).1)

omit hl hm in
theorem of_ofDir? {overlay : Overlay} {dir : Path} {x : Listed} (h : ofDir? disk l overlay dir = .ok (some x)) :
    x.dir = dir ∧ l.importPathOf? dir = some x.path := by
  unfold ofDir? at h
  obtain ⟨b, -, h⟩ := bind_eq_ok.mp h
  split at h
  · obtain ⟨y, hy, h⟩ := bind_eq_ok.mp h
    cases h
    unfold ofDir at hy
    split at hy
    · cases hy
    · rename_i path hpath
      obtain ⟨clauses, -, hy⟩ := bind_eq_ok.mp hy
      cases hy
      exact ⟨rfl, hpath⟩
  · cases h

omit hl hm in
/-- Every package that a pattern lists is listed in its directory. -/
theorem mem_ofPattern {overlay : Overlay} {pattern : String} {listed : List Listed}
    (h : ofPattern disk l overlay pattern = .ok listed) :
    ∀ x ∈ listed, ofDir? disk l overlay x.dir = .ok (some x) := by
  have hself : ∀ {dir x}, ofDir? disk l overlay dir = .ok (some x) → ofDir? disk l overlay x.dir = .ok (some x) := by
    intro dir x hx
    rw [(of_ofDir? hx).1]
    exact hx
  unfold ofPattern at h
  split at h
  · obtain ⟨root, -, h⟩ := bind_eq_ok.mp h
    cases root with
    | none => cases h; exact fun x hx => nomatch hx
    | some root => exact forall_of_filterMapM (fun dir _ x hx => hself hx) h
  · obtain ⟨dir, -, h⟩ := bind_eq_ok.mp h
    cases dir with
    | none => cases h; exact fun x hx => nomatch hx
    | some dir =>
      obtain ⟨found, hfound, h⟩ := bind_eq_ok.mp h
      cases h
      intro x hx
      rw [Option.mem_toList] at hx
      rw [hx] at hfound
      exact hself hfound

/-- The directories that a pattern lists packages of are in normal form. -/
theorem rooted_ofPattern (hd : disk.WellNamed) {overlay : Overlay} {pattern : String} (hp : m.Straight pattern)
    {listed : List Listed} (h : ofPattern disk l overlay pattern = .ok listed) : ∀ x ∈ listed, x.dir.Rooted := by
  unfold ofPattern at h
  split at h
  · rename_i base hbase
    obtain ⟨root, hroot, h⟩ := bind_eq_ok.mp h
    cases root with
    | none => cases h; exact fun x hx => nomatch hx
    | some root =>
      have hr := rooted_patternDir hl hm (hp.base hbase) hroot
      refine forall_of_filterMapM (fun dir hdir x hx => ?_) h
      rw [(of_ofDir? hx).1]
      exact rooted_treeDirs hd hr dir hdir
  · obtain ⟨dir, hdir, h⟩ := bind_eq_ok.mp h
    cases dir with
    | none => cases h; exact fun x hx => nomatch hx
    | some dir =>
      obtain ⟨found, hfound, h⟩ := bind_eq_ok.mp h
      cases h
      intro x hx
      rw [Option.mem_toList] at hx
      rw [hx] at hfound
      rw [(of_ofDir? hfound).1]
      exact rooted_patternDir hl hm hp hdir

/-- Every package that a pattern lists is in a directory of the module, under its own import path. -/
theorem owns_of_ofPattern (hd : disk.WellNamed) {overlay : Overlay} {pattern : String} (hp : m.Straight pattern)
    {listed : List Listed} (h : ofPattern disk l overlay pattern = .ok listed) :
    ∀ x ∈ listed, m.Owns x.dir x.path := by
  intro x hx
  have hr := rooted_ofPattern hl hm hd hp h x hx
  exact Layout.owns_of_importPathOf? hl hm hr (of_ofDir? (mem_ofPattern h x hx)).2

end Listed

/-! ## The root of a module -/

namespace Path

theorem ancestorsWithin_ofNames {b : Bool} : ∀ {fuel : Nat} {names : List String}, PlainNames names →
    ∀ q ∈ ancestorsWithin fuel (ofNames b names), ∃ names', PlainNames names' ∧ q = ofNames b names'
  | 0, names, h, q, hq => by
    rw [ancestorsWithin, List.mem_singleton] at hq
    exact ⟨names, h, hq⟩
  | fuel + 1, names, h, q, hq => by
    rw [ancestorsWithin, parent?_ofNames h.proper] at hq
    split at hq
    · exact ⟨names, h, List.mem_singleton.mp hq⟩
    · rename_i dir hdir
      split at hdir
      · cases hdir
      · cases hdir
        rcases List.mem_cons.mp hq with rfl | hq
        · exact ⟨names, h, rfl⟩
        · exact ancestorsWithin_ofNames (fun s hs => h s (List.dropLast_subset _ hs)) q hq

theorem relative_child {names : List String} (h : PlainNames names) (s : String) :
    ((ofNames false names).child s).isAbsolute = false := by
  rw [Bool.eq_false_iff]
  intro ha
  obtain ⟨t, rest, heq⟩ := isAbsolute_iff.mp ha
  cases names with
  | nil =>
    have : [s] = "" :: t :: rest := heq
    simp at this
  | cons first names =>
    have hfirst := (h first (by simp)).1.1
    have hlast : (first :: names).getLast? ≠ some "" := by
      intro he
      exact (h _ (List.mem_of_getLast? he)).1.1 rfl
    simp only [child, stem, ofNames_cons, Bool.false_eq_true, if_false] at heq
    rw [if_neg hlast] at heq
    exact hfirst (List.cons.inj heq).1

theorem rooted_join {root : Path} (hr : root.Rooted) (target : String) :
    (root.join (ofString target)).normalize.Rooted := by
  unfold join
  split
  · rename_i ha
    exact rooted_normalize ha
  · obtain ⟨names, hn, rfl⟩ := hr
    have hstem : (ofNames true names).stem = "" :: names := by
      cases names with
      | nil => rfl
      | cons t names =>
        have hlast : ("" :: t :: names).getLast? ≠ some "" := by
          intro he
          rw [List.getLast?_cons_cons] at he
          exact (hn _ (List.mem_of_getLast? he)).1.1 rfl
        simp only [stem, ofNames_cons, if_true]
        rw [if_neg hlast]
    have hne : (ofString target).segments ≠ [] := by simp [ofString]
    rw [hstem, normalize_eq]
    have habs : (⟨"" :: names ++ (ofString target).segments⟩ : Path).isAbsolute = true := by
      rw [isAbsolute_iff]
      cases hs : names ++ (ofString target).segments with
      | nil => exact absurd (List.append_eq_nil_iff.mp hs).2 hne
      | cons s rest => exact ⟨s, rest, congrArg ("" :: ·) hs⟩
    refine ⟨_, fun s hs => ?_, by rw [habs]⟩
    have hc := mem_components_of_resolved hs
    refine ⟨proper_of_mem_components hc, ?_⟩
    have hmem := mem_segments_of_mem_components hc
    simp only [List.cons_append, List.mem_cons, List.mem_append] at hmem
    rcases hmem with rfl | hmem | hmem
    · simp
    · exact (hn s hmem).2
    · exact slash_not_mem_segments hmem

end Path

namespace Manifest

theorem rooted_replacement? {root : Path} (hr : root.Rooted) {spec : String} {m : ModuleRoot}
    (h : replacement? root spec = some m) : m.dir.Rooted := by
  unfold replacement? at h
  obtain ⟨sides, -, h⟩ := Option.bind_eq_some_iff.mp h
  obtain ⟨path, -, h⟩ := Option.bind_eq_some_iff.mp h
  obtain ⟨target, -, h⟩ := Option.bind_eq_some_iff.mp h
  obtain ⟨-, -, h⟩ := Option.bind_eq_some_iff.mp h
  cases h
  exact rooted_join hr _

theorem rooted_readLine {root : Path} (hr : root.Rooted) {r : Reading} (h : ∀ m ∈ r.replaced, m.dir.Rooted)
    (line : String) : ∀ m ∈ (readLine root r line).replaced, m.dir.Rooted := by
  have hadd : ∀ spec, ∀ m ∈ r.replaced ++ (replacement? root spec).toList, m.dir.Rooted := by
    intro spec m hm
    rcases List.mem_append.mp hm with hm | hm
    · exact h m hm
    · exact rooted_replacement? hr (Option.mem_toList.mp hm)
  unfold readLine
  split
  · exact h
  · split
    · split
      · exact h
      · exact hadd _
    · split
      · exact h
      · simp only
        split
        · exact h
        · exact hadd _
      · exact h

end Manifest

/-- A manifest is only found from an absolute directory, and above it. -/
theorem Layout.rooted_manifest {disk : Disk} {root : String} {found : Path}
    (h : (Path.ofString root).normalize.ancestors.find? (fun d => disk.isFile (d.child Manifest.fileName)) =
      some found) :
    (Path.ofString root).isAbsolute = true ∧ found.Rooted := by
  obtain ⟨names, hn, rfl⟩ :=
    ancestorsWithin_ofNames (plain_resolved_ofString root) found (List.mem_of_find?_eq_some h)
  have hfile := List.find?_some h
  cases ha : (Path.ofString root).isAbsolute with
  | true => exact ⟨rfl, names, hn, rfl⟩
  | false =>
    rw [ha] at hfile
    have := Disk.isAbsolute_of_isFile hfile
    rw [relative_child hn] at this
    cases this

theorem Layout.isAbsolute_of_discover {disk : Disk} {root : String} {l : Layout}
    (h : discover disk (Path.ofString root).normalize = .ok l) (hl : l.modules ≠ []) :
    (Path.ofString root).isAbsolute = true := by
  unfold discover at h
  split at h
  · cases h
    exact absurd rfl hl
  · rename_i found hfound
    exact (rooted_manifest hfound).1

/-- A manifest in a directory in normal form gives all modules such directories. -/
theorem Layout.rooted_ofManifest {root : Path} (hr : root.Rooted) (text : String) :
    ∀ m ∈ (ofManifest root text).modules, m.dir.Rooted := by
  have hread : ∀ (lines : List String) (r : Manifest.Reading), (∀ m ∈ r.replaced, m.dir.Rooted) →
      ∀ m ∈ (lines.foldl (Manifest.readLine root) r).replaced, m.dir.Rooted := by
    intro lines
    induction lines with
    | nil => exact fun r hr => hr
    | cons line lines ih => exact fun r h => ih _ (Manifest.rooted_readLine hr h line)
  intro m hm
  rcases List.mem_append.mp hm with hm | hm
  · obtain ⟨path, -, rfl⟩ := Option.map_eq_some_iff.mp (Option.mem_toList.mp hm)
    exact hr
  · exact hread _ {} (fun m hm => nomatch hm) m hm

/-- The modules of a workspace have roots in normal form, if the search for its manifest starts from one. -/
theorem Layout.rooted_discover {disk : Disk} {root : String} {l : Layout}
    (h : discover disk (Path.ofString root).normalize = .ok l) : ∀ m ∈ l.modules, m.dir.Rooted := by
  unfold discover at h
  split at h
  · cases h
    exact fun m hm => nomatch hm
  · rename_i found hfound
    simp only at h
    split at h
    · cases h
      exact rooted_ofManifest (rooted_manifest hfound).2 _
    · cases h

end IdlWorkbench
