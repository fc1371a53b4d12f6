import IdlWorkbench.Proofs.Graph.Steps

/-!
# Where the files of packages are

Every package stands under the import path of its directory, and its files lie in this directory, each once. So a
file belongs to one package. This holds of a graph over any modules, whatever is loaded, edited and analysed, and
whatever the import paths look like.

`Moves` says what loading and analysing do to any graph. A package keeps its state, except that one whose
diagnostics were up to date may become dirty because its files were listed anew. A pattern stands for what it
stood for before, or for packages of the directories that it names. Between requests nothing is being analysed
(`AtRest`).
-/

namespace IdlWorkbench

open IdlWorkbench.Path

/-! ## Packages that a pattern can stand for -/

namespace Listed

def patternDirs (disk : Disk) (layout : Layout) (pattern : String) : List Path :=
  match Text.stripEnd? wildcard pattern with
  | some base => ((patternDir layout base).toOption.join.map (treeDirs disk)).getD []
  | none => (patternDir layout pattern).toOption.join.toList

/-- The packages that a pattern can stand for, whatever host files there are. -/
def candidates (disk : Disk) (layout : Layout) (pattern : String) : List String :=
  (patternDirs disk layout pattern).filterMap layout.importPathOf?

variable {disk : Disk} {layout : Layout}

theorem length_candidates_le (pattern : String) :
    (candidates disk layout pattern).length ≤ disk.entries.length + 1 := by
  have htree (root : Path) : (treeDirs disk root).length ≤ disk.entries.length + 1 := by
    have hall : (disk.directories root).length ≤ disk.entries.length + 1 := by
      unfold Disk.directories
      split
      · refine Nat.le_trans (List.length_filter_le _ _) ?_
        exact Nat.succ_le_succ (List.length_filterMap_le _ _)
      · exact Nat.zero_le _
    rw [treeDirs, List.length_map]
    exact Nat.le_trans (List.length_filter_le _ _) hall
  refine Nat.le_trans (List.length_filterMap_le _ _) ?_
  unfold patternDirs
  split
  · cases (patternDir layout _).toOption.join with
    | none => exact Nat.zero_le _
    | some root => exact htree root
  · cases (patternDir layout pattern).toOption.join with
    | none => exact Nat.zero_le _
    | some dir => simp

/-- What a pattern lists lies in a directory that it names. -/
theorem mem_candidates {overlay : Overlay} {pattern : String} {listed : List Listed}
    (h : ofPattern disk layout overlay pattern = .ok listed) :
    ∀ x ∈ listed, x.path ∈ candidates disk layout pattern := by
  have hcandidate {dirs : List Path} {dir : Path} {x : Listed} (hdir : dir ∈ dirs)
      (hx : ofDir? disk layout overlay dir = .ok (some x)) : x.path ∈ dirs.filterMap layout.importPathOf? :=
    List.mem_filterMap.mpr ⟨dir, hdir, (of_ofDir? hx).2⟩
  unfold ofPattern at h
  unfold candidates patternDirs
  cases hbase : Text.stripEnd? wildcard pattern with
  | some base =>
    rw [hbase] at h
    obtain ⟨root, hroot, h⟩ := bind_eq_ok.mp h
    dsimp only
    rw [hroot]
    cases root with
    | none =>
      cases h
      exact fun x hx => nomatch hx
    | some root => exact forall_of_filterMapM (fun dir hdir x hx => hcandidate hdir hx) h
  | none =>
    rw [hbase] at h
    obtain ⟨dir, hdir, h⟩ := bind_eq_ok.mp h
    dsimp only
    rw [hdir]
    cases dir with
    | none =>
      cases h
      exact fun x hx => nomatch hx
    | some dir =>
      obtain ⟨found, hfound, h⟩ := bind_eq_ok.mp h
      cases h
      intro x hx
      rw [Option.mem_toList] at hx
      rw [hx] at hfound
      exact hcandidate (by simp [Except.toOption]) hfound

end Listed

namespace Graph

variable {disk : Disk} {g g' g'' : Graph}

/-! ## Packages at their place -/

def InDir (dir file : Path) : Prop := ∃ s, file.components = dir.components ++ [.name s]

theorem InDir.congr {p q file : Path} (h : InDir p file) (he : (p == q) = true) : InDir q file := by
  obtain ⟨s, hs⟩ := h
  exact ⟨s, hs.trans (by rw [beq_iff.mp he])⟩

structure SitedAt (layout : Layout) (key : String) (n : PackageNode) : Prop where
  path : n.path = key
  home : layout.importPathOf? n.dir = some key
  inside : ∀ f ∈ n.files, InDir n.dir f
  distinct : n.files.Pairwise fun p q => ¬(p == q) = true

structure Sited (g : Graph) : Prop where
  keys : g.packages.keys.Nodup
  held : ∀ p ∈ g.held.keys, p.Normal
  nodes : ∀ key n, g.packages.find? key = some n → SitedAt g.layout key n

/-- A state may be lost, but only by what was up to date. -/
def Lifecycle.Ages (s t : Lifecycle) : Prop := t = s ∨ s = .current ∧ t = .dirty

structure Moves (disk : Disk) (g g' : Graph) : Prop where
  layout : g'.layout = g.layout
  held : g'.held = g.held
  building : g'.building = g.building
  memo : ∀ pattern paths, g'.memo.find? pattern = some paths →
    g.memo.find? pattern = some paths ∨ ∀ p ∈ paths, p ∈ Listed.candidates disk g.layout pattern
  kept : ∀ key n, g.packages.find? key = some n →
    ∃ n', g'.packages.find? key = some n' ∧ Lifecycle.Ages n.state n'.state
  added : ∀ key n', g'.packages.find? key = some n' → g.packages.contains key = true ∨ n'.state = .untracked

theorem Lifecycle.Ages.trans {s t u : Lifecycle} (h : Ages s t) (h' : Ages t u) : Ages s u := by
  rcases h with rfl | ⟨rfl, rfl⟩
  · exact h'
  · rcases h' with rfl | ⟨h', -⟩
    · exact Or.inr ⟨rfl, rfl⟩
    · cases h'

namespace Moves

theorem refl (g : Graph) : Moves disk g g :=
  ⟨rfl, rfl, rfl, fun _ _ h => Or.inl h, fun _ n h => ⟨n, h, Or.inl rfl⟩, fun _ n h =>
    Or.inl (contains_iff.mpr ⟨n, h⟩)⟩

theorem trans (h : Moves disk g g') (h' : Moves disk g' g'') : Moves disk g g'' := by
  refine ⟨h'.layout.trans h.layout, h'.held.trans h.held, h'.building.trans h.building, fun pattern paths hp => ?_,
    fun key n hn => ?_, fun key n'' hn'' => ?_⟩
  · rcases h'.memo pattern paths hp with hp | hp
    · exact h.memo pattern paths hp
    · rw [h.layout] at hp
      exact Or.inr hp
  · obtain ⟨n', hn', hs⟩ := h.kept key n hn
    obtain ⟨n'', hn'', hs'⟩ := h'.kept key n' hn'
    exact ⟨n'', hn'', hs.trans hs'⟩
  · rcases h'.added key n'' hn'' with hk | hu
    · obtain ⟨n', hn'⟩ := contains_iff.mp hk
      rcases h.added key n' hn' with hk | hu
      · exact Or.inl hk
      · obtain ⟨_, hsame, hs⟩ := h'.kept key n' hn'
        rw [hn''] at hsame
        cases hsame
        rw [hu] at hs
        exact Or.inr (hs.resolve_right nofun)
    · exact Or.inr hu

end Moves

/-! ## Files of a directory -/

theorem mem_of_mem_sortedPaths {ps : List Path} {p : Path} (h : p ∈ sortedPaths ps) : p ∈ ps := by
  rw [sortedPaths] at h
  rw [← (Path.sort_perm ps).mem_iff]
  split at h
  · cases h
  · rename_i heq
    rw [heq]
    exact List.cons_subset_cons _ (dropRepeats_subset _ _) h

theorem inDir_idlFiles (hd : disk.WellNamed) (hh : ∀ p ∈ g.held.keys, p.Normal) {dir : Path} {files : List Path}
    (h : g.idlFiles disk dir = .ok files) :
    (∀ f ∈ files, InDir dir f) ∧ files.Pairwise fun p q => ¬(p == q) = true := by
  unfold idlFiles at h
  obtain ⟨onDisk, hdisk, h⟩ := bind_eq_ok.mp h
  cases h
  refine ⟨fun f hf => ?_, (sortedPaths_before _).imp fun hb => hb.2⟩
  rcases List.mem_append.mp (mem_of_mem_sortedPaths hf) with hf | hf
  · obtain ⟨-, -, names, hlist, s, hs, rfl⟩ := Disk.mem_filesWithExtension hdisk hf
    exact ⟨s, components_child dir (hd.list hlist hs).1⟩
  · obtain ⟨hmem, hcond⟩ := List.mem_filter.mp hf
    have hparent := (Bool.and_eq_true _ _ ▸ hcond).1
    cases hp : f.parent? with
    | none =>
      rw [hp] at hparent
      cases hparent
    | some parent =>
      rw [hp, Option.some_beq_some] at hparent
      exact InDir.congr ((hh f hmem).components_eq hp) hparent

/-! ## Changes of single packages -/

section
variable (h : Sited g)
include h

theorem Sited.congr (hp : g'.packages = g.packages) (hh : g'.held = g.held)
    (hl : g'.layout = g.layout) : Sited g' := by
  obtain ⟨h1, h2, h3⟩ := h
  constructor
  all_goals simpa only [hp, hh, hl]

theorem Sited.insertNode {key : String} {n : PackageNode} (hn : SitedAt g.layout key n) :
    Sited { g with packages := g.packages.insert key n } := by
  refine ⟨Table.nodup_keys_insert h.keys key n, h.held, fun k n' hk => ?_⟩
  rcases Table.eq_or_find?_of_insert hk with ⟨rfl, rfl⟩ | hold
  · exact hn
  · exact h.nodes k n' hold

theorem Sited.modifyPackage {path : String} {f : PackageNode → PackageNode}
    (hf : ∀ n, g.packages.find? path = some n → SitedAt g.layout path (f n)) : Sited (g.modifyPackage path f) := by
  refine ⟨(keys_modifyPackage path f).symm ▸ h.keys, h.held, fun key n hn => ?_⟩
  rw [find?_modifyPackage] at hn
  split at hn
  · rename_i heq
    subst heq
    obtain ⟨old, hold, rfl⟩ := Option.map_eq_some_iff.mp hn
    exact hf old hold
  · exact h.nodes key n hn

/-- A change that leaves a package at its place. -/
theorem Sited.modifyOther {path : String} {f : PackageNode → PackageNode}
    (hf : ∀ n, (f n).path = n.path ∧ (f n).dir = n.dir ∧ (f n).files = n.files) :
    Sited (g.modifyPackage path f) := by
  refine h.modifyPackage fun n hn => ?_
  obtain ⟨hpath, hdir, hfiles⟩ := hf n
  obtain ⟨h1, h2, h3, h4⟩ := h.nodes path n hn
  constructor
  all_goals simpa only [hpath, hdir, hfiles]

end

theorem moves_modifyPackage {path : String} {f : PackageNode → PackageNode} (hf : ∀ n, (f n).state = n.state) :
    Moves disk g (g.modifyPackage path f) := by
  refine ⟨rfl, rfl, rfl, fun _ _ h => Or.inl h, fun key n hn => ?_, fun key n hn => ?_⟩
  · rw [find?_modifyPackage]
    by_cases heq : key = path
    · rw [if_pos heq, hn]
      exact ⟨f n, rfl, Or.inl (hf n)⟩
    · rw [if_neg heq]
      exact ⟨n, hn, Or.inl rfl⟩
  · rw [← contains_modifyPackage path f]
    exact Or.inl (contains_iff.mpr ⟨n, hn⟩)

/-! ## Loading -/

section
variable (hd : disk.WellNamed)
include hd

theorem Sited.listedNode (h : Sited g) {l : Listed} (hl : g.layout.importPathOf? l.dir = some l.path)
    {files : List Path}
    (hf : g.idlFiles disk l.dir = .ok files) :
    SitedAt g.layout l.path (listedNode g l files) ∧
      (∀ n, g.packages.find? l.path = some n → Lifecycle.Ages n.state (listedNode g l files).state) ∧
      (g.packages.contains l.path = true ∨ (listedNode g l files).state = .untracked) := by
  obtain ⟨hinside, hdistinct⟩ := inDir_idlFiles hd h.held hf
  unfold Graph.listedNode
  cases hn : g.packages.find? l.path with
  | none => exact ⟨⟨rfl, hl, hinside, hdistinct⟩, nofun, Or.inr rfl⟩
  | some n =>
    dsimp only
    refine ⟨⟨?_, hl, hinside, hdistinct⟩, ?_, Or.inl (contains_iff.mpr ⟨n, hn⟩)⟩
    · have hpath := (h.nodes _ n hn).path
      unfold relist
      dsimp only
      split
      · exact hpath
      · exact hpath
    · rintro _ ⟨⟩
      unfold relist
      dsimp only
      split
      · exact Or.inl rfl
      · by_cases hc : n.state = .current
        · simp [Lifecycle.Ages, hc]
        · simp [Lifecycle.Ages, hc]

theorem Sited.ends_enterListed (h : Sited g) {l : Listed} (hl : g.layout.importPathOf? l.dir = some l.path) :
    Ends (enterListed disk l).run g fun r g' => (Sited g' ∧ Moves disk g g') ∧
    ∀ p, r = .ok (some p) → l.path = p := by
  rw [Graph.ends_enterListed]
  cases hf : g.idlFiles disk l.dir with
  | error e => exact ⟨⟨h, .refl g⟩, nofun⟩
  | ok files =>
    dsimp only
    split
    · exact ⟨⟨h, .refl g⟩, nofun⟩
    · obtain ⟨hnode, hages, hnew⟩ := h.listedNode hd hl hf
      refine ⟨⟨h.insertNode hnode, rfl, rfl, rfl, fun _ _ hm => Or.inl hm, fun key n hn => ?_, fun key n hn => ?_⟩,
        ?_⟩
      · rw [Table.find?_insert]
        split
        · rename_i heq
          rw [LawfulBEq.eq_of_beq heq] at hn
          exact ⟨_, rfl, hages n hn⟩
        · exact ⟨n, hn, Or.inl rfl⟩
      · rcases Table.eq_or_find?_of_insert hn with ⟨rfl, rfl⟩ | hold
        · exact hnew
        · exact Or.inl (contains_iff.mpr ⟨n, hold⟩)
      · rintro p ⟨⟩
        rfl

theorem Sited.ends_enterAll (h : Sited g) {listed : List Listed}
    (hl : ∀ l ∈ listed, g.layout.importPathOf? l.dir = some l.path) :
    Ends (listed.filterMapM (enterListed disk)).run g fun r g' => (Sited g' ∧ Moves disk g g') ∧
      ∀ paths, r = .ok paths → ∀ p ∈ paths, ∃ l ∈ listed, l.path = p := by
  refine ends_filterMapM (I := fun t => Sited t ∧ Moves disk g t) ?_ ⟨h, .refl g⟩
  rintro l hmem t ⟨ht, hmoves⟩
  have hhome : t.layout.importPathOf? l.dir = some l.path := by
    rw [hmoves.layout]
    exact hl l hmem
  exact (ht.ends_enterListed hd hhome).mono fun _ _ ⟨⟨ht', hmoves'⟩, hr⟩ => ⟨⟨ht', hmoves.trans hmoves'⟩, hr⟩

/-- A pattern is loaded: the answer is remembered, or consists of packages that it can stand for. -/
theorem Sited.ends_load (h : Sited g) (pattern : String) : Ends (load disk pattern).run g fun r g' =>
    Sited g' ∧ Moves disk g g' ∧ ∀ paths, r = .ok paths →
      g.memo.find? pattern = some paths ∨ ∀ p ∈ paths, p ∈ Listed.candidates disk g.layout pattern := by
  rw [Graph.ends_load]
  cases hmemo : g.remembered? pattern with
  | some paths =>
    refine ⟨h, .refl g, ?_⟩
    rintro _ ⟨⟩
    exact Or.inl (Option.filter_eq_some_iff.mp hmemo).1
  | none =>
    have hover (overlay : Overlay) : Moves disk g { g with overlay } := { Moves.refl g with }
    dsimp only
    cases g.readied disk pattern with
    | error e => exact ⟨h.congr rfl rfl rfl, hover _, nofun⟩
    | ok overlay =>
      dsimp only
      cases hlist : Listed.ofPattern disk g.layout overlay pattern with
      | error e => exact ⟨h.congr rfl rfl rfl, hover _, nofun⟩
      | ok listed =>
        have hhome : ∀ l ∈ listed, g.layout.importPathOf? l.dir = some l.path := fun l hl =>
          (Listed.of_ofDir? (Listed.mem_ofPattern hlist l hl)).2
        have h' : Sited { g with overlay } := h.congr rfl rfl rfl
        refine (h'.ends_enterAll hd hhome).mono fun r g' ⟨⟨h'', hmoves⟩, hr⟩ => ?_
        have hmoves' := (hover overlay).trans hmoves
        cases r with
        | error e => exact ⟨h'', hmoves', nofun⟩
        | ok paths =>
          have hpaths : ∀ p ∈ paths, p ∈ Listed.candidates disk g.layout pattern := by
            intro p hp
            obtain ⟨l, hl, rfl⟩ := hr paths rfl p hp
            exact Listed.mem_candidates hlist l hl
          refine ⟨h''.congr rfl rfl rfl, { hmoves' with memo := fun q qs hq => ?_ }, ?_⟩
          · rcases Table.eq_or_find?_of_insert hq with ⟨rfl, rfl⟩ | hold
            · exact Or.inr hpaths
            · exact hmoves'.memo q qs hold
          · rintro _ ⟨⟩
            exact Or.inr hpaths

theorem Sited.ends_loadOne (h : Sited g) (pattern : String) : Ends (loadOne disk pattern).run g fun r g' =>
    Sited g' ∧ Moves disk g g' ∧ ∀ p, r = .ok p →
      g.memo.find? pattern = some [p] ∨ p ∈ Listed.candidates disk g.layout pattern := by
  rw [Graph.ends_loadOne]
  refine (h.ends_load hd pattern).mono fun r g' ⟨h', hmoves, hr⟩ => ?_
  rcases r with e | paths
  · exact ⟨h', hmoves, nofun⟩
  · rcases paths with _ | ⟨path, _ | ⟨_, _⟩⟩
    · exact ⟨h', hmoves, nofun⟩
    · refine ⟨h', hmoves, ?_⟩
      rintro _ ⟨⟩
      exact (hr [path] rfl).imp_right fun hp => hp path (by simp)
    · exact ⟨h', hmoves, nofun⟩

end

/-! ## Analysing -/

theorem Sited.markCycle (h : Sited g) (path : String) : Sited (g.markCycle path) ∧
    Moves disk g (g.markCycle path) := by
  have hall : ∀ (paths : List String) (g : Graph), Sited g →
      Sited (paths.foldl (fun g p => g.modifyPackage p fun n => { n with inCycle := true }) g) ∧
        Moves disk g (paths.foldl (fun g p => g.modifyPackage p fun n => { n with inCycle := true }) g) := by
    intro paths
    induction paths with
    | nil => exact fun g h => ⟨h, .refl g⟩
    | cons p paths ih =>
      intro g h
      have hone : Sited (g.modifyPackage p fun n => { n with inCycle := true }) := h.modifyOther fun _ => by simp
      have hstep : Moves disk g (g.modifyPackage p fun n => { n with inCycle := true }) :=
        moves_modifyPackage fun _ => rfl
      obtain ⟨h', hmoves⟩ := ih _ hone
      exact ⟨h', hstep.trans hmoves⟩
  unfold Graph.markCycle
  split
  · exact hall _ _ h
  · exact ⟨h, .refl g⟩

section
variable (hd : disk.WellNamed) {analyse : String → StateM Graph Unit}
  (ha : ∀ path g, Sited g → Ends (analyse path) g fun _ g' => Sited g' ∧ Moves disk g g')
include hd ha

theorem Sited.ends_importPackage (h : Sited g) (importPath : String) :
    Ends (importPackage disk analyse importPath).run g fun _ g' => Sited g' ∧ Moves disk g g' := by
  refine kept_importPackage (P := fun t => Sited t ∧ Moves disk g t) (fun _ => ⟨h, .refl g⟩) (fun _ => ?_) ?_ ?_
  · exact (h.ends_loadOne hd importPath).mono fun _ _ ⟨h', hmoves, _⟩ => ⟨h', hmoves⟩
  · rintro path t ⟨ht, hmoves⟩
    exact (ht.markCycle path).imp_right hmoves.trans
  · rintro path t ⟨ht, hmoves⟩ -
    exact (ha path t ht).mono fun _ _ ⟨ht', hmoves'⟩ => ⟨ht', hmoves.trans hmoves'⟩

theorem Sited.ends_analyseNode (h : Sited g) (n : PackageNode) :
    Ends (analyseNode disk analyse n) g fun _ g' => Sited g' ∧ Moves disk g g' := by
  unfold analyseNode
  simp only [ends_bind, ends_get]
  split
  · rw [ends_bind]
    have hpush : Sited { g with building := n.path :: g.building } := h.congr rfl rfl rfl
    have himport : ∀ path ∈ Check.importPaths ((n.files.map (ParsedFile.ofPath disk g)).map (·.source)), ∀ t,
        (Sited t ∧ Moves disk { g with building := n.path :: g.building } t) →
        Ends (importPackage disk analyse path).run t fun _ t' =>
          Sited t' ∧ Moves disk { g with building := n.path :: g.building } t' := fun path _ t ⟨ht, hmoves⟩ =>
      (ht.ends_importPackage hd ha path).mono fun _ _ ⟨ht', hmoves'⟩ => ⟨ht', hmoves.trans hmoves'⟩
    refine (kept_checkTypes ⟨hpush, .refl _⟩ himport).mono fun _ g' => ?_
    rintro ⟨t, ⟨ht, hmoves⟩, rfl⟩
    exact ⟨ht.congr rfl rfl rfl, { hmoves with building := congrArg List.tail hmoves.building }⟩
  · exact ⟨h, .refl g⟩

end

theorem moves_finishChecking {path : String} {n : PackageNode} (hn : g.packages.find? path = some n) {t : Graph}
    (h : Moves disk (g.startChecking path) t) (a : Analysis) : Moves disk g (t.finishChecking path a n.state) := by
  refine ⟨h.layout, h.held, h.building, h.memo, fun key old hold => ?_, fun key last hlast => ?_⟩
  · rw [finishChecking, find?_modifyPackage]
    by_cases heq : key = path
    · subst heq
      obtain ⟨last, hlast, -⟩ := h.kept key _ (find?_startChecking hn)
      rw [hn] at hold
      cases hold
      rw [if_pos rfl, hlast]
      exact ⟨_, rfl, Or.inl rfl⟩
    · rw [if_neg heq]
      refine h.kept key old ?_
      rw [startChecking, find?_modifyPackage, if_neg heq]
      exact hold
  · by_cases heq : key = path
    · subst heq
      exact Or.inl (contains_iff.mpr ⟨n, hn⟩)
    · rw [finishChecking, find?_modifyPackage, if_neg heq] at hlast
      rw [← contains_modifyPackage path (fun n => { n.reset with state := .building })]
      exact h.added key last hlast

theorem Sited.startChecking (h : Sited g) (path : String) : Sited (g.startChecking path) :=
  h.modifyOther fun _ => ⟨rfl, rfl, rfl⟩

theorem Sited.finishChecking (h : Sited g) (path : String) (a : Analysis) (state : Lifecycle) :
    Sited (g.finishChecking path a state) :=
  h.modifyOther fun _ => ⟨rfl, rfl, rfl⟩

theorem sited_analyseWithin (hd : disk.WellNamed) (fuel : Nat) : ∀ (path : String) (g : Graph),
    Sited g → Ends (analyseWithin disk fuel path) g fun _ g' => Sited g' ∧ Moves disk g g' := by
  induction fuel with
  | zero => exact fun _ g h => ⟨h, .refl g⟩
  | succ fuel ih =>
    intro path g h
    rw [ends_analyseWithin]
    cases hn : g.packages.find? path with
    | none => exact ⟨h, .refl g⟩
    | some n =>
      refine ((h.startChecking path).ends_analyseNode hd ih n).mono fun a t ⟨ht, hmoves⟩ => ?_
      exact ⟨ht.finishChecking path a n.state, moves_finishChecking hn hmoves a⟩

/-! ## Between requests -/

structure AtRest (g : Graph) : Prop where
  sited : Sited g
  idle : g.building = []
  states : ∀ key n, g.packages.find? key = some n → n.state ≠ .building

section
variable (h : AtRest g)
include h

theorem AtRest.moves (hs : Sited g') (hm : Moves disk g g') : AtRest g' := by
  refine ⟨hs, hm.building.trans h.idle, fun key n' hn' hb => ?_⟩
  rcases hm.added key n' hn' with hk | hu
  · obtain ⟨n, hn⟩ := contains_iff.mp hk
    obtain ⟨_, hsame, hages⟩ := hm.kept key n hn
    rw [hn'] at hsame
    cases hsame
    rcases hages with heq | ⟨-, heq⟩
    · exact h.states key n hn (heq ▸ hb)
    · rw [heq] at hb
      cases hb
  · rw [hu] at hb
    cases hb

theorem AtRest.congr (hp : g'.packages = g.packages) (hh : g'.held = g.held) (hl : g'.layout = g.layout)
    (hb : g'.building = g.building) : AtRest g' :=
  ⟨h.sited.congr hp hh hl, hb.trans h.idle, hp ▸ h.states⟩

theorem AtRest.modifyPackage {path : String} {f : PackageNode → PackageNode}
    (hf : ∀ n, g.packages.find? path = some n → SitedAt g.layout path (f n) ∧ (f n).state ≠ .building) :
    AtRest (g.modifyPackage path f) := by
  refine ⟨h.sited.modifyPackage fun n hn => (hf n hn).1, h.idle, fun key n hn => ?_⟩
  rw [find?_modifyPackage] at hn
  split at hn
  · rename_i heq
    subst heq
    obtain ⟨old, hold, rfl⟩ := Option.map_eq_some_iff.mp hn
    exact (hf old hold).2
  · exact h.states key n hn

/-- A package gets another state. -/
theorem AtRest.restate {path : String} {f : PackageNode → PackageNode}
    (hf : ∀ n, (f n).path = n.path ∧ (f n).dir = n.dir ∧ (f n).files = n.files ∧ (f n).state ≠ .building) :
    AtRest (g.modifyPackage path f) := by
  refine h.modifyPackage fun n hn => ?_
  obtain ⟨hpath, hdir, hfiles, hs⟩ := hf n
  obtain ⟨h1, h2, h3, h4⟩ := h.sited.nodes path n hn
  refine ⟨?_, hs⟩
  constructor
  all_goals simpa only [hpath, hdir, hfiles]

theorem AtRest.invalidate (path : String) : AtRest (g.invalidate path) := by
  have hkeys : (g.invalidate path).packages.keys = g.packages.keys :=
    Table.keys_mapValues g.packages (invalidateNode path)
  have hnode : ∀ key n, (g.invalidate path).packages.find? key = some n →
      SitedAt g.layout key n ∧ n.state ≠ .building := by
    intro key n hn
    rw [find?_invalidate] at hn
    obtain ⟨old, hold, rfl⟩ := Option.map_eq_some_iff.mp hn
    obtain ⟨h1, h2, h3, h4⟩ := h.sited.nodes key old hold
    have hs := h.states key old hold
    unfold invalidateNode
    split
    · exact ⟨⟨h1, h2, h3, h4⟩, hs⟩
    · refine ⟨⟨h1, h2, h3, h4⟩, ?_⟩
      by_cases hc : old.state = .current
      · simp [hc]
      · simpa [hc] using hs
  exact ⟨⟨hkeys ▸ h.sited.keys, h.sited.held, fun key n hn => (hnode key n hn).1⟩, h.idle,
    fun key n hn => (hnode key n hn).2⟩

theorem AtRest.publish (path : String) (surface : Option Surface) : AtRest (g.publish path surface) := by
  have hnoted : AtRest { g with published := g.published.insert path surface } := h.congr rfl rfl rfl rfl
  unfold Graph.publish
  dsimp only
  split
  · exact hnoted.invalidate path
  · exact hnoted

theorem AtRest.evictMemo (path : String) : AtRest (g.evictMemo path) := by
  refine h.congr (packages_evictMemo path) (held_evictMemo path) ?_ ?_
  all_goals
    unfold Graph.evictMemo
    dsimp only
    split <;> rfl

theorem AtRest.noteEdit (path : String) : AtRest (g.noteEdit path) := by
  have htrack : AtRest (g.track [path]) := h.congr rfl rfl rfl rfl
  exact (htrack.evictMemo path).invalidate path

theorem AtRest.evict (path : String) : AtRest (g.evict path) := by
  have hkept : ∀ key n, (g.evict path).packages.find? key = some n → g.packages.find? key = some n := by
    intro key n hn
    simp only [Graph.evict, Table.find?_erase] at hn
    split at hn
    · cases hn
    · exact hn
  exact ⟨⟨Table.nodup_keys_erase h.sited.keys path, h.sited.held, fun key n hn =>
    h.sited.nodes key n (hkept key n hn)⟩,
    h.idle, fun key n hn => h.states key n (hkept key n hn)⟩

theorem AtRest.hold {file : Path} (hf : file.Normal) (text : String) : AtRest (g.hold file text) :=
  ⟨⟨h.sited.keys, normal_hold h.sited.held hf text, h.sited.nodes⟩, h.idle, h.states⟩

theorem AtRest.release (file : Path) : AtRest (g.release file) :=
  ⟨⟨h.sited.keys, normal_release h.sited.held file, h.sited.nodes⟩, h.idle, h.states⟩

theorem AtRest.find?_of_packageIn? {dir : Path} {n : PackageNode} (hn : g.packageIn? dir = some n) :
    g.packages.find? n.path = some n ∧ (n.dir == dir) = true := by
  unfold packageIn? at hn
  obtain ⟨e, he, rfl⟩ := List.mem_map.mp (List.mem_of_find?_eq_some hn)
  have hfind := Table.find?_of_mem h.sited.keys (a := e.2) he
  have hbeq := List.find?_some hn
  rw [(h.sited.nodes _ _ hfind).path]
  exact ⟨hfind, hbeq⟩

/-- A package gets the files of its directory. -/
theorem AtRest.refile (hd : disk.WellNamed) {path : String} {n : PackageNode} (hn : g.packages.find? path = some n)
    {dir : Path} (hdir : (n.dir == dir) = true) {files : List Path} (hf : g.idlFiles disk dir = .ok files) :
    AtRest (g.modifyPackage path fun n => { n with files }.markDirty) := by
  obtain ⟨hinside, hdistinct⟩ := inDir_idlFiles hd h.sited.held hf
  refine h.modifyPackage fun n' hn' => ⟨?_, nofun⟩
  rw [hn] at hn'
  cases hn'
  have hnode := h.sited.nodes path n hn
  exact ⟨hnode.path, hnode.home, fun f hf => (hinside f hf).congr (BEq.symm hdir), hdistinct⟩

theorem AtRest.addToNode {path : String} {n : PackageNode} (hn : g.packages.find? path = some n) {file : Path}
    (hf : InDir n.dir file) : AtRest (g.modifyPackage path (addToNode file)) := by
  refine h.modifyPackage fun n' hn' => ⟨?_, nofun⟩
  rw [hn] at hn'
  cases hn'
  have hnode := h.sited.nodes path n hn
  unfold Graph.addToNode
  dsimp only
  split
  · exact ⟨hnode.path, hnode.home, hnode.inside, hnode.distinct⟩
  · rename_i hnew
    have hperm := Path.sort_perm (n.files ++ [file])
    refine ⟨hnode.path, hnode.home, fun f hmem => ?_, ?_⟩
    · rcases List.mem_append.mp (hperm.mem_iff.mp hmem) with hmem | hmem
      · exact hnode.inside f hmem
      · exact List.mem_singleton.mp hmem ▸ hf
    · refine hperm.symm.pairwise ?_ fun hne he => hne (BEq.symm he)
      refine List.pairwise_append.mpr ⟨hnode.distinct, by simp, fun p hp q hq he => hnew ?_⟩
      rw [List.mem_singleton.mp hq] at he
      exact List.contains_iff_exists_mem_beq.mpr ⟨p, hp, BEq.symm he⟩

end

/-! ## Requests -/

section
variable (hd : disk.WellNamed) (h : AtRest g)
include hd h

theorem AtRest.ends_load (pattern : String) : Ends (load disk pattern).run g fun _ g' => AtRest g' :=
  (h.sited.ends_load hd pattern).mono fun _ _ ⟨hs, hm, _⟩ => h.moves hs hm

theorem AtRest.ends_loadOne (pattern : String) : Ends (loadOne disk pattern).run g fun _ g' => AtRest g' :=
  (h.sited.ends_loadOne hd pattern).mono fun _ _ ⟨hs, hm, _⟩ => h.moves hs hm

theorem AtRest.ends_loadTracked (pattern : String) :
    Ends (loadTracked disk pattern).run g fun _ g' => AtRest g' := by
  unfold loadTracked
  rw [ends_then]
  refine (h.ends_load hd pattern).mono fun r g' h' => ?_
  cases r with
  | error e => exact h'
  | ok paths => exact h'.congr rfl rfl rfl rfl

theorem AtRest.ends_analyse (path : String) : Ends (analyse disk path) g fun _ g' =>
      AtRest g' ∧ Moves disk g g' := by
  unfold Graph.analyse
  rw [ends_bind, ends_get]
  exact (sited_analyseWithin hd _ path g h.sited).mono fun _ _ ⟨hs, hm⟩ => ⟨h.moves hs hm, hm⟩

theorem AtRest.ends_ensureAnalysed (path : String) : Ends (ensureAnalysed disk path) g fun _ g' => AtRest g' := by
  unfold ensureAnalysed
  rw [ends_bind, ends_get]
  cases g.packages.find? path with
  | none => exact h
  | some n =>
    dsimp only
    split
    · rw [ends_bind]
      exact (h.ends_analyse hd path).mono fun _ _ ⟨h', _⟩ => h'
    · exact h

theorem AtRest.ends_diagnose (path : String) : Ends (diagnose disk path) g fun _ g' => AtRest g' := by
  rw [Graph.ends_diagnose]
  cases g.packages.find? path with
  | none => exact h
  | some n =>
    dsimp only
    split
    · exact h
    · refine (h.ends_analyse hd path).mono fun _ g' ⟨h', _⟩ => ?_
      have hcurrent : AtRest (g'.markCurrent path) := h'.restate fun _ => ⟨rfl, rfl, rfl, nofun⟩
      cases (g'.markCurrent path).packages.find? path with
      | none => exact hcurrent
      | some n' => exact hcurrent.publish path n'.surface?

variable {file : Path} (hn : file.Normal)
include hn

theorem AtRest.ends_addFile (text : String) : Ends (addFile disk file text).run g fun _ g' => AtRest g' := by
  rw [Graph.ends_addFile hn]
  cases hdir : directoryOf? file with
  | none => exact h
  | some dir =>
    have hparent : file.parent? = some dir := (Option.filter_eq_some_iff.mp hdir).1
    have hheld := h.hold hn text
    dsimp only
    cases hin : g.packageIn? dir with
    | some n =>
      obtain ⟨hfind, hbeq⟩ := h.find?_of_packageIn? hin
      exact (hheld.addToNode hfind (InDir.congr (hn.components_eq hparent) (BEq.symm hbeq))).noteEdit n.path
    | none =>
      dsimp only
      rw [Graph.ends_loadNew]
      cases (g.hold file text).overlay.addForNewPackage disk dir
        ((Token.packageClauseName text).getD dir.fileName) with
      | error e => exact hheld
      | ok r =>
        have hstart : AtRest { g.hold file text with overlay := r.2, memo := (g.hold file text).memo.erase dir.text
          } :=
          hheld.congr rfl rfl rfl rfl
        refine (hstart.ends_loadOne hd dir.text).mono fun r g' h' => ?_
        cases r with
        | error e => exact h'
        | ok path =>
          have hdirty : AtRest (g'.modifyPackage path PackageNode.markDirty) :=
            h'.restate fun _ => ⟨rfl, rfl, rfl, nofun⟩
          exact hdirty.noteEdit path

theorem AtRest.ends_updateFile (text : String) : Ends (updateFile disk file text).run g fun _ g' => AtRest g' := by
  rw [Graph.ends_updateFile hn]
  cases directoryOf? file with
  | none => exact h
  | some dir =>
    dsimp only
    cases hin : g.packageIn? dir with
    | none => exact h.ends_addFile hd hn text
    | some n =>
      dsimp only
      cases hf : (g.hold file text).idlFiles disk dir with
      | error e => exact h.hold hn text
      | ok files =>
        obtain ⟨hfind, hbeq⟩ := h.find?_of_packageIn? hin
        exact ((h.hold hn text).refile hd hfind hbeq hf).noteEdit n.path

theorem AtRest.ends_closeFile : Ends (closeFile disk file).run g fun _ g' => AtRest g' := by
  rw [Graph.ends_closeFile hn]
  cases hin : g.packageOf? file with
  | none => exact h
  | some n =>
    obtain ⟨dir, -, hdir⟩ := Option.bind_eq_some_iff.mp hin
    obtain ⟨hfind, -⟩ := h.find?_of_packageIn? hdir
    have hreleased : AtRest (g.released file n.path) := ((h.release file).evictMemo n.path).invalidate n.path
    dsimp only
    cases hf : (g.release file).idlFiles disk n.dir with
    | error e => exact h.release file
    | ok files =>
      dsimp only
      split
      · exact hreleased.evict n.path
      · have hnode : (g.released file n.path).packages.find? n.path = some n := by
          rw [find?_released, hfind]
          simp [invalidateNode]
        have hheld : (g.released file n.path).held = (g.release file).held :=
          held_evictMemo (g := g.release file) n.path
        exact hreleased.refile hd hnode BEq.rfl (by rw [idlFiles_congr hheld]; exact hf)

end

theorem addFile_normalize (file : Path) (text : String) :
    addFile disk file.normalize text = addFile disk file text := by
  unfold addFile
  rw [normalize_normalize]

theorem updateFile_normalize (file : Path) (text : String) :
    updateFile disk file.normalize text = updateFile disk file text := by
  unfold updateFile
  rw [normalize_normalize]

theorem closeFile_normalize (file : Path) : closeFile disk file.normalize = closeFile disk file := by
  unfold closeFile
  rw [normalize_normalize]

theorem AtRest.request (hd : disk.WellNamed) (h : AtRest g) (r : Request) : AtRest (r.after disk g) := by
  cases r with
  | load pattern => exact h.ends_load hd pattern
  | track pattern => exact h.ends_loadTracked hd pattern
  | analyse package => exact h.ends_ensureAnalysed hd package
  | diagnose package => exact h.ends_diagnose hd package
  | add file text =>
    have h' := h.ends_addFile hd (normal_normalize (.ofString file)) text
    rw [addFile_normalize] at h'
    exact h'
  | update file text =>
    have h' := h.ends_updateFile hd (normal_normalize (.ofString file)) text
    rw [updateFile_normalize] at h'
    exact h'
  | close file =>
    have h' := h.ends_closeFile hd (normal_normalize (.ofString file))
    rw [closeFile_normalize] at h'
    exact h'

/-- A graph that requests lead to. The disk may change between them. -/
inductive Reached : Graph → Prop where
  | discover {disk : Disk} {root : Path} {g : Graph} (h : Graph.discover disk root = .ok g) : Reached g
  | request {disk : Disk} {g : Graph} (hd : disk.WellNamed) (h : Reached g) (r : Request) : Reached (r.after disk g)

theorem Reached.atRest (h : Reached g) : AtRest g := by
  induction h with
  | @discover disk root g hg =>
    unfold Graph.discover at hg
    cases hl : Layout.discover disk root with
    | error e =>
      rw [hl] at hg
      cases hg
    | ok layout =>
      rw [hl] at hg
      cases hg
      exact ⟨⟨List.nodup_nil, nofun, nofun⟩, rfl, nofun⟩
  | request hd _ r ih => exact ih.request hd r

/-- Requests on one disk. -/
theorem Reached.after (hd : disk.WellNamed) : ∀ {g : Graph} (requests : List Request),
    Reached g → Reached (g.after disk requests)
  | _, [], h => h
  | _, r :: requests, h => Reached.after hd requests (h.request hd r)

/-! ## A sample -/

def sampleCycleRequests : List Request := [.add "/w/b/b.gunk" "package b\n\nimport \"example.com/m/a\"\n"]

def sampleCycle : Graph :=
  Graph.after sampleDisk { layout := ⟨[⟨"example.com/m", .ofString "/w"⟩]⟩ } sampleCycleRequests

theorem reached_sampleCycle : Reached sampleCycle := by
  have hstart : Graph.discover sampleDisk (.ofString "/w") =
      .ok { layout := ⟨[⟨"example.com/m", .ofString "/w"⟩]⟩ } := rfl
  exact (Reached.discover hstart).after (by decide) sampleCycleRequests

end Graph

end IdlWorkbench
