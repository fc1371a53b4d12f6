import IdlWorkbench.Proofs.Graph.Batch

/-!
# What is loaded is what would be listed

`Lists w g` says that the packages of the graph `g` are not outdated, as seen from the graph `w`: the two list
the same packages, and those of `g` are as they would be listed from scratch. `Recalls w g` says the same of
remembered patterns. Loading keeps both, answers with what would be listed, and leaves the packages that are
there as they are.
-/

namespace IdlWorkbench

open IdlWorkbench.Path

/-- A package without what has been found out about it. -/
def PackageNode.bare (n : PackageNode) : PackageNode :=
  { path := n.path, dir := n.dir, name := n.name, files := n.files, listErrors := n.listErrors }

theorem PackageNode.of_bare_eq {n n' : PackageNode} (h : n.bare = n'.bare) :
    n.dir = n'.dir ∧ n.files = n'.files ∧ n.listErrors = n'.listErrors := by
  unfold bare at h
  injection h with _ hdir _ hfiles _ herrors
  exact ⟨hdir, hfiles, herrors⟩

namespace Graph

variable {disk : Disk} {m : ModuleRoot} {w g g' : Graph}

theorem batchWithin_bare (fuel : Nat) (n : PackageNode) :
    w.batchWithin disk fuel n.bare = w.batchWithin disk fuel n := by
  cases fuel <;> rfl

theorem Settles.congr {n n' : PackageNode} {a : Analysis} (h : n.bare = n'.bare) (hs : w.Settles disk n a) :
    w.Settles disk n' a := by
  obtain ⟨depth, hs⟩ := hs
  refine ⟨depth, fun fuel hf => ?_⟩
  rw [← batchWithin_bare, ← h, batchWithin_bare]
  exact hs fuel hf

def Fresh (disk : Disk) (w : Graph) (n : PackageNode) : Prop :=
  ∃ l, Listed.ofDir? disk w.layout (w.placeholders disk) n.dir = .ok (some l) ∧
    w.freshPackage disk l = .ok (some n.bare)

structure Lists (disk : Disk) (m : ModuleRoot) (w g : Graph) : Prop where
  view : SameView disk m w g
  tidy : g.overlay.Tidy disk
  complete : g.overlay.scanned.contains m.dir = true → g.overlay.Complete disk m
  fresh : ∀ key n, g.packages.find? key = some n → w.Fresh disk n

/-- Remembered patterns stand for what they would be resolved to. Absolute ones are left out: no package is
imported by them. -/
def Recalls (disk : Disk) (w g : Graph) : Prop :=
  ∀ pattern paths, g.memo.find? pattern = some paths → w.layout.isStandard pattern = false →
    DotFree pattern ∧ (w.freshPackages disk pattern).map (·.map (·.path)) = .ok paths

/-- Packages have been added, and nothing is known about these. -/
structure Grows (t t' : Table String PackageNode) : Prop where
  kept : ∀ key n, t.find? key = some n → t'.find? key = some n
  added : ∀ key n, t'.find? key = some n → t.find? key = some n ∨ n = n.bare

/-! ## Packages from scratch -/

theorem of_freshPackage {l : Listed} {n : PackageNode} (h : w.freshPackage disk l = .ok (some n)) :
    ∃ files, w.idlFiles disk l.dir = .ok files ∧ ¬(files.isEmpty && l.errors.isEmpty) = true ∧
      n = { path := l.path, dir := l.dir, name := l.name.getD l.dir.fileName, files, listErrors := l.errors } := by
  unfold freshPackage at h
  obtain ⟨files, hf, h⟩ := bind_eq_ok.mp h
  split at h
  · cases h
  · rename_i hne
    cases h
    exact ⟨files, hf, hne, rfl⟩

theorem mem_freshPackages {pattern : String} {ns : List PackageNode} (h : w.freshPackages disk pattern = .ok ns) :
    ∀ n ∈ ns, w.Fresh disk n ∧ n.bare = n := by
  unfold freshPackages at h
  obtain ⟨listed, hlisted, h⟩ := bind_eq_ok.mp h
  refine forall_of_filterMapM (fun l hl n hn => ?_) h
  have hdir := Listed.mem_ofPattern hlisted l hl
  obtain ⟨files, hf, hne, heq⟩ := of_freshPackage hn
  have hbare : n.bare = n := by rw [heq]; rfl
  refine ⟨⟨l, ?_, hbare ▸ hn⟩, hbare⟩
  rw [heq]
  exact hdir

theorem owns_freshPackages (hl : w.layout.modules = [m]) (hm : m.dir.Rooted) (hd : disk.WellNamed) {pattern : String}
    (hp : PlainPattern pattern) {ns : List PackageNode} (h : w.freshPackages disk pattern = .ok ns) :
    ∀ n ∈ ns, m.Owns n.dir n.path := by
  unfold freshPackages at h
  obtain ⟨listed, hlisted, h⟩ := bind_eq_ok.mp h
  refine forall_of_filterMapM (fun l hmem n hn => ?_) h
  obtain ⟨files, -, -, rfl⟩ := of_freshPackage hn
  exact Listed.owns_of_ofPattern hl hm hd hp.straight hlisted l hmem

namespace Fresh

variable {n n' : PackageNode}

theorem files_ne_nil (h : w.Fresh disk n) (he : n.listErrors = []) : n.files ≠ [] := by
  obtain ⟨l, -, hl⟩ := h
  obtain ⟨files, -, hne, heq⟩ := of_freshPackage hl
  have hfiles : n.files = files := congrArg PackageNode.files heq
  have herrors : n.listErrors = l.errors := congrArg PackageNode.listErrors heq
  rw [hfiles]
  rintro rfl
  rw [← herrors, he] at hne
  exact hne rfl

/-- What has been found out plays no part. -/
theorem congr (h : w.Fresh disk n) (hb : n.bare = n'.bare) : w.Fresh disk n' := by
  obtain ⟨l, hl, hf⟩ := h
  exact ⟨l, (PackageNode.of_bare_eq hb).1 ▸ hl, hb ▸ hf⟩

/-- The directory decides what is listed. -/
theorem bare_eq (h : w.Fresh disk n) (h' : w.Fresh disk n') (hdir : n.dir = n'.dir) : n.bare = n'.bare := by
  obtain ⟨l, hl, hn⟩ := h
  obtain ⟨l', hl', hn'⟩ := h'
  rw [hdir, hl'] at hl
  cases hl
  rw [hn'] at hn
  exact (Option.some_inj.mp (Except.ok.inj hn)).symm

end Fresh

/-! ## The same view -/

namespace SameView

theorem refl (disk : Disk) (m : ModuleRoot) (g : Graph) : SameView disk m g g := ⟨rfl, rfl, fun _ _ _ => rfl⟩

/-- The packages of a graph and what it remembers play no part. -/
theorem congr (h : SameView disk m w g) (hl : g'.layout = g.layout) (hh : g'.held = g.held)
    (ho : g'.overlay = g.overlay) : SameView disk m w g' := by
  refine ⟨hl.trans h.layout, hh.trans h.held, fun dir path hown => ?_⟩
  rw [← h.listed dir path hown, placeholders, placeholders, hl, ho]

theorem freshPackage (h : SameView disk m w g) (l : Listed) : g.freshPackage disk l = w.freshPackage disk l := by
  unfold Graph.freshPackage
  rw [idlFiles_congr h.held]

theorem fresh (h : SameView disk m w g) {n : PackageNode} {path : String} (ho : m.Owns n.dir path)
    (hn : w.Fresh disk n) : g.Fresh disk n := by
  obtain ⟨l, hl, hf⟩ := hn
  refine ⟨l, ?_, ?_⟩
  · rw [h.listed n.dir path ho]
    exact hl
  · rw [h.freshPackage]
    exact hf

/-- A relative pattern lists the same. -/
theorem ofPattern (hd : disk.WellNamed) (h : SameView disk m w g) (hl : w.layout.modules = [m]) {pattern : String}
    (ha : (Path.ofString pattern).isAbsolute = false) (hp : DotFree pattern) :
    Listed.ofPattern disk g.layout (g.placeholders disk) pattern =
      Listed.ofPattern disk w.layout (w.placeholders disk) pattern := by
  rw [h.layout]
  refine Listed.ofPattern_congr hl hd (fun dir path ho => ?_) ha hp
  rw [← h.listed dir path ho, h.layout]

theorem freshPackages (hd : disk.WellNamed) (h : SameView disk m w g) (hl : w.layout.modules = [m])
    {pattern : String}
    (ha : (Path.ofString pattern).isAbsolute = false) (hp : DotFree pattern) :
    g.freshPackages disk pattern = w.freshPackages disk pattern := by
  unfold Graph.freshPackages
  rw [h.ofPattern hd hl ha hp, funext h.freshPackage]

end SameView

/-! ## Entering listed packages -/

namespace Grows

theorem refl (t : Table String PackageNode) : Grows t t := ⟨fun _ _ h => h, fun _ _ h => Or.inl h⟩

theorem trans {t t' t'' : Table String PackageNode} (h : Grows t t') (h' : Grows t' t'') : Grows t t'' := by
  refine ⟨fun key n hn => h'.kept key n (h.kept key n hn), fun key n hn => ?_⟩
  rcases h'.added key n hn with hn | hn
  · exact h.added key n hn
  · exact Or.inr hn

end Grows

theorem Lists.congr (hc : Lists disk m w g) (hl : g'.layout = g.layout) (hh : g'.held = g.held)
    (ho : g'.overlay = g.overlay) (hn : ∀ key n, g'.packages.find? key = some n → w.Fresh disk n) :
    Lists disk m w g' :=
  ⟨hc.view.congr hl hh ho, ho ▸ hc.tidy, ho ▸ hc.complete, hn⟩

/-- A package that is listed again stays as it is. -/
theorem Lists.listedNode (hc : Lists disk m w g) (hi : Inv disk m g) {l : Listed} (ho : m.Owns l.dir l.path)
    (hl : Listed.ofDir? disk w.layout (w.placeholders disk) l.dir = .ok (some l)) {files : List Path}
    (hf : g.idlFiles disk l.dir = .ok files) (hne : ¬(files.isEmpty && l.errors.isEmpty) = true) :
    w.Fresh disk (listedNode g l files) ∧ (∀ n, g.packages.find? l.path = some n → listedNode g l files = n) ∧
      (g.packages.find? l.path = none → listedNode g l files = (listedNode g l files).bare) := by
  have hfresh : w.freshPackage disk l = .ok (some
      { path := l.path, dir := l.dir, name := l.name.getD l.dir.fileName, files, listErrors := l.errors }) := by
    rw [← hc.view.freshPackage, freshPackage, hf]
    simp only [bind, Except.bind, if_neg hne]
    rfl
  unfold Graph.listedNode
  cases hn : g.packages.find? l.path with
  | none =>
    refine ⟨⟨l, hl, hfresh⟩, ?_, fun _ => rfl⟩
    rintro n ⟨⟩
  | some n =>
    have hdir := (hi.nodes _ n hn).owned.dir_eq ho
    obtain ⟨l', hl', hn'⟩ := hc.fresh _ n hn
    rw [hdir, hl] at hl'
    cases hl'
    have hbare := Option.some_inj.mp (Except.ok.inj (hn'.symm.trans hfresh))
    have hfiles : n.files = files := congrArg PackageNode.files hbare
    have hname : n.name = l.name.getD l.dir.fileName := congrArg PackageNode.name hbare
    have herrors : n.listErrors = l.errors := congrArg PackageNode.listErrors hbare
    simp only [relist_eq hfiles hdir, ← hname, ← herrors]
    refine ⟨hc.fresh _ n hn, ?_, ?_⟩
    · rintro _ ⟨⟩
      rfl
    · rintro ⟨⟩

theorem Lists.ends_enterListed (hc : Lists disk m w g) (hi : Inv disk m g) {l : Listed} (ho : m.Owns l.dir l.path)
    (hl : Listed.ofDir? disk w.layout (w.placeholders disk) l.dir = .ok (some l)) :
    Ends (enterListed disk l).run g fun r g' => (Lists disk m w g' ∧ Grows g.packages g'.packages) ∧
    g'.memo = g.memo ∧
      r = ((w.freshPackage disk l).map (·.map (·.path))).mapError .layout := by
  rw [Graph.ends_enterListed, ← hc.view.freshPackage, freshPackage]
  cases hf : g.idlFiles disk l.dir with
  | error e => exact ⟨⟨hc, .refl _⟩, rfl, rfl⟩
  | ok files =>
    simp only [bind, Except.bind]
    split
    · exact ⟨⟨hc, .refl _⟩, trivial, rfl⟩
    · rename_i hne
      obtain ⟨hfresh, hknown, hnew⟩ := hc.listedNode hi ho hl hf hne
      refine ⟨⟨hc.congr rfl rfl rfl ?_, ?_, ?_⟩, trivial, rfl⟩
      · intro key n hn
        rcases Table.eq_or_find?_of_insert hn with ⟨rfl, rfl⟩ | hold
        · exact hfresh
        · exact hc.fresh key n hold
      · intro key n hn
        simp only [Table.find?_insert]
        split
        · rename_i heq
          rw [eq_of_beq heq] at hn
          rw [hknown n hn]
        · exact hn
      · intro key n hn
        simp only [Table.find?_insert] at hn
        split at hn
        · rename_i heq
          cases hn
          rw [eq_of_beq heq]
          cases hfind : g.packages.find? l.path with
          | none => exact Or.inr (hnew hfind)
          | some old => exact Or.inl (congrArg some (hknown old hfind).symm)
        · exact Or.inl hn

theorem Lists.ends_enterAll : ∀ {listed : List Listed} {g : Graph}, Lists disk m w g → Inv disk m g →
    (∀ l ∈ listed, m.Owns l.dir l.path ∧ Listed.ofDir? disk w.layout (w.placeholders disk) l.dir = .ok (some l)) →
    Ends (listed.filterMapM (enterListed disk)).run g fun r g' =>
      (Lists disk m w g' ∧ Grows g.packages g'.packages) ∧ g'.memo = g.memo ∧
      r = ((listed.filterMapM (w.freshPackage disk)).map (·.map (·.path))).mapError .layout
  | [], g, hc, _, _ => by
    rw [List.filterMapM_nil, ends_ok]
    exact ⟨⟨hc, .refl _⟩, rfl, rfl⟩
  | l :: listed, g, hc, hi, h => by
    obtain ⟨ho, hl⟩ := h l (by simp)
    rw [List.filterMapM_cons, List.filterMapM_cons, ends_then]
    refine ((hc.ends_enterListed hi ho hl).and (hi.ends_enterListed ho)).mono ?_
    intro r g' ⟨⟨⟨hc', hgrow⟩, hmemo, hr⟩, hi', _⟩
    have ih := hc'.ends_enterAll hi' fun l hl => h l (List.mem_cons_of_mem _ hl)
    subst hr
    cases w.freshPackage disk l with
    | error e => exact ⟨⟨hc', hgrow⟩, hmemo, rfl⟩
    | ok found =>
      cases found with
      | none =>
        exact ih.mono fun r g'' ⟨⟨hc'', hgrow'⟩, hmemo', hr⟩ => ⟨⟨hc'', hgrow.trans hgrow'⟩, hmemo'.trans hmemo, hr⟩
      | some n =>
        simp only [Except.map, Except.mapError, Option.map_some, ends_then]
        refine ih.mono fun r g'' ⟨⟨hc'', hgrow'⟩, hmemo', hr⟩ => ?_
        subst hr
        simp only [bind, Except.bind]
        cases listed.filterMapM (w.freshPackage disk) with
        | error e => exact ⟨⟨hc'', hgrow.trans hgrow'⟩, hmemo'.trans hmemo, rfl⟩
        | ok ns => exact ⟨⟨hc'', hgrow.trans hgrow'⟩, hmemo'.trans hmemo, rfl⟩

/-! ## Placeholders -/

section
variable (hd : disk.WellNamed) (hm : m.dir.Rooted)
include hd hm

/-- Other placeholders, with the same ones in the directories of the module. -/
theorem Lists.withOverlay (hc : Lists disk m w g) (hl : g.layout.modules = [m]) {o : Overlay} (ht : o.Tidy disk)
    (hs : o.scanned.contains m.dir = true)
    (heq : ∀ dir path, m.Owns dir path → o.at? dir = (g.placeholders disk).at? dir) :
    Lists disk m w { g with overlay := o } := by
  have hg := hc.tidy.ensureScanned hl hd hm
  refine ⟨⟨hc.view.layout, hc.view.held, fun dir path ho => ?_⟩, ht, fun _ dir path name ho hname => ?_, hc.fresh⟩
  · rw [← hc.view.listed dir path ho, placeholders, Overlay.ensureScanned_of_contains hl hs]
    exact Overlay.ofDir?_congr hd ht hg _ (ho.rooted hm).normal (heq dir path ho)
  · rw [heq dir path ho]
    exact Overlay.complete_ensureScanned hl hd hm hc.tidy hc.complete dir path name ho hname

/-- A directory that a pattern names has its placeholder already. -/
theorem Lists.readied (hc : Lists disk m w g) (hl : g.layout.modules = [m]) {pattern : String}
    (hn : (Path.ofString pattern).isAbsolute = true → Text.stripEnd? Listed.wildcard pattern = none →
      Overlay.Spells disk (Path.ofString pattern)) {o : Overlay} (h : g.readied disk pattern = .ok o) :
    Lists disk m w { g with overlay := o } ∧ o.scanned.contains m.dir = true := by
  have ht := hc.tidy.ensureScanned hl hd hm
  have hs := Overlay.contains_ensureScanned hl hd hm hc.tidy
  have hcomplete := Overlay.complete_ensureScanned hl hd hm hc.tidy hc.complete
  unfold Graph.readied at h
  simp only at h
  split at h
  · rename_i hnamed
    rw [Bool.and_eq_true, Option.isNone_iff_eq_none] at hnamed
    have hdir := hn hnamed.1 hnamed.2
    have ho : o = (g.placeholders disk).withPlaceholder disk (Path.ofString pattern) := by
      rw [Overlay.withPlaceholder]
      rw [placeholders]
      cases hadd : (g.overlay.ensureScanned disk g.layout).addForDir disk (Path.ofString pattern) with
      | error e => rw [hadd] at h; cases h
      | ok r => rw [hadd] at h; exact (Except.ok.inj h).symm
    rw [ho, Overlay.scanned_withPlaceholder]
    refine ⟨hc.withOverlay hd hm hl (ht.withPlaceholder hdir) ?_ ?_, hs⟩
    · rw [Overlay.scanned_withPlaceholder]
      exact hs
    · intro dir path hown
      rw [Overlay.at?_withPlaceholder]
      split
      · rename_i name hname
        split
        · rename_i hbeq
          exact (hcomplete dir path name hown (hdir dir (hown.rooted hm).normal hbeq name hname)).symm
        · rfl
      · rfl
  · cases h
    exact ⟨hc.withOverlay hd hm hl ht hs fun _ _ _ => rfl, hs⟩

/-! ## Loading -/

/-- What a pattern lists is owned by the module, and is listed from scratch in its directory. -/
theorem Lists.listed_of_ofPattern (hc : Lists disk m w g) (hl : g.layout.modules = [m]) {pattern : String}
    {listed : List Listed} (hp : m.Straight pattern)
    (h : Listed.ofPattern disk g.layout (g.placeholders disk) pattern = .ok listed) : ∀ l ∈ listed,
      m.Owns l.dir l.path ∧ Listed.ofDir? disk w.layout (w.placeholders disk) l.dir = .ok (some l) := by
  intro l hmem
  have hown := Listed.owns_of_ofPattern hl hm hd hp h l hmem
  exact ⟨hown, (hc.view.listed l.dir l.path hown).symm.trans (Listed.mem_ofPattern h l hmem)⟩

omit hd hm in
/-- An answer is remembered that loading from scratch gives. -/
theorem Recalls.insert (hr : Recalls disk w g) {g' : Graph} {pattern : String} {paths : List String}
    (hmemo : g'.memo = g.memo.insert pattern paths)
    (hanswer : w.layout.isStandard pattern = false →
      DotFree pattern ∧ (w.freshPackages disk pattern).map (·.map (·.path)) = .ok paths) : Recalls disk w g' := by
  intro pattern' paths' hfind hs
  rw [hmemo] at hfind
  rcases Table.eq_or_find?_of_insert hfind with ⟨rfl, rfl⟩ | hold
  · exact hanswer hs
  · exact hr pattern' paths' hold hs

theorem Lists.ends_load (hnamed : m.Named) (hc : Lists disk m w g) (hr : Recalls disk w g) (hi : Inv disk m g)
    {pattern : String} (hp : PlainPattern pattern)
    (hn : (Path.ofString pattern).isAbsolute = true → Text.stripEnd? Listed.wildcard pattern = none →
      Overlay.Spells disk (Path.ofString pattern)) :
    Ends (load disk pattern).run g fun r g' =>
      (Lists disk m w g' ∧ Recalls disk w g' ∧ Grows g.packages g'.packages) ∧
      (w.layout.isStandard pattern = false →
        r = ((w.freshPackages disk pattern).map (·.map (·.path))).mapError .layout) := by
  have hl := hi.modules
  have hlw : w.layout.modules = [m] := hc.view.layout ▸ hl
  have hrelative : w.layout.isStandard pattern = false → (Path.ofString pattern).isAbsolute = false :=
    Layout.relative_of_not_standard hlw hnamed
  have hdot : w.layout.isStandard pattern = false → DotFree pattern := fun hs =>
    hp.resolve_left (by rw [hrelative hs]; simp)
  rw [Graph.ends_load]
  cases hmemo : g.remembered? pattern with
  | some paths =>
    refine ⟨⟨hc, hr, .refl _⟩, fun hs => ?_⟩
    rw [(hr pattern paths (Option.filter_eq_some_iff.mp hmemo).1 hs).2]
    rfl
  | none =>
    simp only
    cases ho : g.readied disk pattern with
    | error e =>
      refine ⟨⟨?_, hr, .refl _⟩, fun hs => ?_⟩
      · exact hc.withOverlay hd hm hl (hc.tidy.ensureScanned hl hd hm)
          (Overlay.contains_ensureScanned hl hd hm hc.tidy)
          fun _ _ _ => rfl
      · rw [Graph.readied, hrelative hs] at ho
        cases ho
    | ok o =>
      obtain ⟨hc', hscanned⟩ := hc.readied hd hm hl hn ho
      have hplace : ({ g with overlay := o } : Graph).placeholders disk = o :=
        Overlay.ensureScanned_of_contains hl hscanned
      have hlist : w.layout.isStandard pattern = false → Listed.ofPattern disk g.layout o pattern =
          Listed.ofPattern disk w.layout (w.placeholders disk) pattern := by
        intro hs
        have := hc'.view.ofPattern hd hlw (hrelative hs) (hdot hs)
        rw [hplace] at this
        exact this
      simp only
      cases hlisted : Listed.ofPattern disk g.layout o pattern with
      | error e =>
        refine ⟨⟨hc', hr, .refl _⟩, fun hs => ?_⟩
        rw [freshPackages, ← hlist hs, hlisted]
        rfl
      | ok listed =>
        have hall := hc'.listed_of_ofPattern hd hm hl hp.straight (hplace.symm ▸ hlisted)
        refine (hc'.ends_enterAll (hi.withOverlay o) hall).mono fun r g' ⟨⟨hc'', hgrow⟩, hmemo', hr'⟩ => ?_
        have hfresh : w.layout.isStandard pattern = false →
            w.freshPackages disk pattern = listed.filterMapM (w.freshPackage disk) := by
          intro hs
          rw [freshPackages, ← hlist hs, hlisted]
          rfl
        subst hr'
        cases hns : listed.filterMapM (w.freshPackage disk) with
        | error e =>
          refine ⟨⟨hc'', fun pattern' paths hfind => hr pattern' paths (hmemo' ▸ hfind), hgrow⟩, fun hs => ?_⟩
          rw [hfresh hs, hns]
          rfl
        | ok ns =>
          have hanswer : w.layout.isStandard pattern = false →
              (w.freshPackages disk pattern).map (·.map (·.path)) = .ok (ns.map (·.path)) := by
            intro hs
            rw [hfresh hs, hns]
            rfl
          refine ⟨⟨hc''.congr rfl rfl rfl hc''.fresh, ?_, hgrow⟩, fun hs => ?_⟩
          · exact hr.insert (congrArg (Table.insert · pattern _) hmemo') fun hs => ⟨hdot hs, hanswer hs⟩
          · rw [hanswer hs]
            rfl

end

end Graph

end IdlWorkbench
