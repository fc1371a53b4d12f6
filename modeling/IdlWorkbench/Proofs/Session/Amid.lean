import IdlWorkbench.Proofs.Session.Scratch
import IdlWorkbench.Proofs.Session.Touch
import Mathlib.Data.Set.Finite.Basic

/-!
# An edit is passed on

While everything that became dirty is published, some of what is known about packages is from before the edit. Where
that is outdated, the package has imported one that shows something else now, and this one waits for its turn or is
outdated itself: in its turn it would have let its importers be analysed again. As no package that is known leads to
a cycle of imports, there is always a turn to wait for. So a turn is right if nothing that its package leads to waits
for a later one, and in the end everything that is known is right. -/

namespace IdlWorkbench.Graph

open IdlWorkbench.Path Relation

variable {disk : Disk} {m : ModuleRoot} {lint : Bool} {g w t : Graph}

/-- Imports cannot be followed without end among some packages that do not lead to a cycle. -/
theorem wellFounded_below (disk : Disk) (w : Graph) (nodes : List PackageNode) : WellFounded
    fun a b : {n // n ∈ nodes ∧ AcyclicBelow disk w n} => TransGen (w.Uses disk) b.1 a.1 := by
  have : Finite {n // n ∈ nodes ∧ AcyclicBelow disk w n} := nodes.finite_toSet.subset fun _ hn => hn.1
  have : IsTrans {n // n ∈ nodes ∧ AcyclicBelow disk w n} fun a b => TransGen (w.Uses disk) b.1 a.1 :=
    ⟨fun _ _ _ hab hbc => hbc.trans hab⟩
  have : Std.Irrefl fun a b : {n // n ∈ nodes ∧ AcyclicBelow disk w n} => TransGen (w.Uses disk) b.1 a.1 :=
    ⟨fun a => a.2.2 a.1 .refl⟩
  exact Finite.wellFounded_of_trans_of_irrefl _

/-- No package about which something is known, or which waits for its turn, leads to a cycle of imports. -/
def Untangled (disk : Disk) (w : Graph) : Prop := ∀ key n, w.packages.find? key = some n →
  n.analysis.isSome = true ∨ n.state = .dirty → AcyclicBelow disk w n.bare

/-! ## Before publishing -/

/-- What was published of packages are their surfaces, and someone has asked for the diagnostics of these packages.
-/
def Heralds (disk : Disk) (g : Graph) : Prop := ∀ key surface, g.published.find? key = some surface →
  key ∈ g.tracked ∧ ∃ n, g.packages.find? key = some n ∧ n.state ≠ .untracked ∧ Surfaced disk g n surface

structure Carried (disk : Disk) (m : ModuleRoot) (dir : Path) (edited : String) (g w : Graph) : Prop where
  before : Exact disk m g
  heralds : Heralds disk g
  touched : Touched disk m dir edited g w
  after : Steady disk m w
  carries : Carries disk g w edited
  untangled : Untangled disk w

structure News (disk : Disk) (g w : Graph) (n : PackageNode) (path : String) : Prop where
  mem : path ∈ w.importPaths disk n
  standard : w.layout.isStandard path = false
  changed : ¬SameAnswer disk g w path
  wanted : g.Wanted path
  differs : Differs disk g w path
  recorded : path ∈ n.imports
  single : ∃ z, g.freshPackages disk path = .ok [z] ∧ w.freshPackages disk path = .ok [z] ∧ z.path = path ∧
    z.listErrors = []

/-- What is known about a package was known before publishing, and none of the packages that it has imported has
shown something else in its turn. -/
structure Left (disk : Disk) (g w : Graph) (done : List String) (key : String) (n : PackageNode) : Prop where
  old : w.packages.find? key = some n
  known : n.analysis.isSome = true
  still : ∀ path ∈ done, ¬News disk g w n path

/-- The graph `t` when the packages of `done` have had their turns. -/
structure Amid (disk : Disk) (m : ModuleRoot) (g w : Graph) (done : List String) (t : Graph) : Prop
    extends Steady disk m t where
  traced : Traced disk m w t
  nodes : ∀ key n, t.packages.find? key = some n → w.Sound disk n ∨ Left disk g w done key n
  idle : ∀ key n, w.packages.find? key = some n → n.state ≠ .untracked →
    key ∈ done ∨ t.Waits key ∨ t.packages.find? key = some n
  asked : ∀ key n, t.packages.find? key = some n → n.state ≠ .untracked →
    ∃ n₀, w.packages.find? key = some n₀ ∧ n₀.state ≠ .untracked
  tracked_eq : t.tracked = w.tracked
  published : ∀ key, key ∉ done → t.published.find? key = w.published.find? key
  right : ∀ key ∈ done, ∃ n surface, t.packages.find? key = some n ∧ n.state ≠ .untracked ∧
    t.published.find? key = some surface ∧ Surfaced disk w n surface

theorem Differs.surfaces {path : String} {z : PackageNode} (h : Differs disk g w path)
    (hs : g.layout.isStandard path = false) (hs' : w.layout.isStandard path = false)
    (hz : g.freshPackages disk path = .ok [z]) (hz' : w.freshPackages disk path = .ok [z])
    {surface surface' : Option Surface}
    (hg : Surfaced disk g z surface) (hw : Surfaced disk w z surface') :
    ∃ s s', surface = some s ∧ surface' = some s' ∧ s.same s' = false := by
  have hchecked : ∀ {a : Analysis} {s : Surface}, a.shown z.path = .ok s → a.checked.map (·.surface) = some s := by
    intro a s hshown
    unfold Analysis.shown at hshown
    cases ha : a.checked with
    | none => rw [ha] at hshown; cases hshown
    | some result => rw [ha] at hshown; cases hshown; rfl
  obtain ⟨depth, h⟩ := h
  obtain ⟨d, hg⟩ := hg
  obtain ⟨d', hw⟩ := hw
  obtain ⟨s, s', hanswer, hanswer', hdiffer⟩ := h (max depth (max d d')) (by omega)
  obtain ⟨_, hz₁, -, hshown⟩ := exists_of_answer hs hanswer
  obtain ⟨_, hz₂, -, hshown'⟩ := exists_of_answer hs' hanswer'
  rw [hz] at hz₁
  rw [hz'] at hz₂
  cases hz₁
  cases hz₂
  exact ⟨s, s', (hg _ (by omega)).symm.trans (hchecked hshown), (hw _ (by omega)).symm.trans (hchecked hshown'),
    hdiffer⟩

section
variable {dir : Path} {edited : String} (hd : disk.WellNamed) (hm : m.dir.Rooted) (hnamed : m.Named)
  (h : Carried disk m dir edited g w)
include hd hm hnamed h

/-- An import that answers with something else was asked for and recorded. -/
theorem Carried.news {key : String} {n : PackageNode} (hn : w.packages.find? key = some n) {a : Analysis}
    (ha : n.analysis = some a) (hsome : a.checked.isSome = true) {path : String}
    (hpath : path ∈ w.importPaths disk n)
    (hstd : w.layout.isStandard path = false) (hchanged : ¬SameAnswer disk g w path) : News disk g w n path := by
  obtain ⟨hne, hbefore, hunrecorded⟩ := h.touched.known_before h.before hn ha
  have hpath' : path ∈ g.importPaths disk n := by
    rwa [importPaths_congr (h.touched.read_eq h.before hbefore hne)] at hpath
  have hstd' : g.layout.isStandard path = false := h.touched.layout ▸ hstd
  obtain ⟨hwanted, hdiffers⟩ :=
    (h.carries key n a hbefore ha hsome hne hunrecorded path hpath' hstd').resolve_left hchanged
  obtain ⟨s, -, hanswer, -⟩ := hdiffers.choose_spec _ (Nat.le_refl _)
  obtain ⟨z, hz, herrors, -⟩ := exists_of_answer hstd' hanswer
  have hneat := h.before.neat_importPaths hbefore path hpath'
  have hl := h.before.resting.inv.modules
  obtain ⟨d, hdirect⟩ := direct_of_freshPackages hnamed hl hneat hstd' hz
  have hzpath : z.path = path := hdirect.path_eq hd hm hl hneat.dotFree hz z (by simp)
  refine ⟨hpath, hstd, hchanged, hwanted, hdiffers, ?_, z, hz, ?_, hzpath, herrors⟩
  · have hrecorded := h.before.records key n hbefore a ha hsome path hpath' hstd' z hz
    simpa [PackageNode.imports, ha, hzpath] using hrecorded
  · rw [h.touched.freshPackages h.before hd hm hnamed h.after h.carries hbefore ha hsome hne hunrecorded
      hpath' hstd']
    exact hz

/-- What is known after the edit is right, or the package has imported one that shows something else. -/
theorem Carried.sound_or_news {key : String} {n : PackageNode} (hn : w.packages.find? key = some n)
    (hknown : n.analysis.isSome = true) : w.Sound disk n ∨ ∃ path, News disk g w n path := by
  obtain ⟨a, ha⟩ := Option.isSome_iff_exists.mp hknown
  obtain ⟨hne, hbefore, -⟩ := h.touched.known_before h.before hn ha
  by_cases hnews : ∃ path, News disk g w n path
  · exact Or.inr hnews
  left
  refine ⟨fun a' ha' => ?_, (h.before.sound key n hbefore).straight⟩
  rw [ha] at ha'
  cases ha'
  refine h.touched.settles h.before hbefore hne ha fun hsome path hpath hstd => ?_
  by_contra hchanged
  have hpath' : path ∈ w.importPaths disk n := by
    rwa [importPaths_congr (h.touched.read_eq h.before hbefore hne)]
  exact hnews ⟨path, h.news hd hm hnamed hn ha hsome hpath' (h.touched.layout ▸ hstd) hchanged⟩

/-- Before the first turn, nothing is wrong that has no news to wait for. -/
theorem Carried.start : Amid disk m g w [] w := by
  have hfollows := h.after.ready.follows h.after.resting.inv
  refine ⟨h.after, ⟨hfollows, fun key n hn => ?_⟩, fun key n hn => ?_, fun key n hn _ => Or.inr (Or.inr hn),
    fun key n hn hasked => ⟨n, hn, hasked⟩, rfl, fun _ _ => rfl, fun _ hmem => nomatch hmem⟩
  · exact h.touched.records h.before hd hm hnamed h.after h.carries hn
  · cases ha : n.analysis with
    | some a => exact Or.inr ⟨hn, by rw [ha]; rfl, fun _ hmem => nomatch hmem⟩
    | none =>
      left
      by_cases hkey : key = edited
      · subst hkey
        obtain ⟨-, hstraight, -⟩ := h.touched.here n hn
        exact sound_unknown ha hstraight
      · rcases h.touched.kept_or_unknown h.before hn hkey with ⟨-, hstraight⟩ | ⟨hbefore, -⟩
        · exact sound_unknown ha hstraight
        · exact sound_unknown ha (h.before.sound key n hbefore).straight

/-! ## What is outdated -/

variable {done : List String} (ht : Amid disk m g w done t)
include ht

omit hd hm hnamed ht in
/-- Someone has asked for the package that has news. -/
theorem Left.wanted {key : String} {n : PackageNode} (hn : Left disk g w done key n) {path : String}
    (hnews : News disk g w n path) : ∃ y, w.packages.find? path = some y ∧
    y.state ≠ .untracked ∧ path ∈ w.tracked := by
  obtain ⟨a, ha⟩ := Option.isSome_iff_exists.mp hn.known
  obtain ⟨-, -, hunrecorded⟩ := h.touched.known_before h.before hn.old ha
  obtain ⟨htracked, y₀, hy₀, hasked⟩ := hnews.wanted
  have hne : path ≠ edited := by
    rintro rfl
    refine hunrecorded ?_
    simpa [PackageNode.imports, ha] using hnews.recorded
  have hy : w.packages.find? path = some (invalidateNode edited y₀) := by
    rw [h.touched.elsewhere path hne, hy₀]
    rfl
  exact ⟨_, hy, asked_invalidateNode hasked edited, h.touched.tracked path htracked (contains_iff.mpr ⟨_, hy⟩)⟩

omit hnamed in
/-- The package that has news waits for its turn, or it is outdated itself. -/
theorem Amid.behind {key : String} {n : PackageNode} (hn : Left disk g w done key n) {path : String}
    (hnews : News disk g w n path) : t.Waits path ∨ ∃ y, t.packages.find? path = some y ∧ w.Uses disk n.bare y.bare ∧
      Left disk g w done path y ∧ ¬w.Sound disk y := by
  obtain ⟨y, hy, hasked, -⟩ := hn.wanted h hnews
  rcases ht.idle path y hy hasked with hmem | hwaits | hstill
  · exact absurd hnews (hn.still path hmem)
  · exact Or.inl hwaits
  cases hs : y.state with
  | untracked => exact absurd hs hasked
  | building => exact absurd hs (h.after.resting.states path y hy)
  | dirty => exact Or.inl ⟨y, hstill, hs⟩
  | current =>
    right
    obtain ⟨b, hb⟩ := Option.isSome_iff_exists.mp ((h.after.resting.inv.nodes path y hy).current hs)
    obtain ⟨-, hbefore, -⟩ := h.touched.known_before h.before hy hb
    obtain ⟨z, hz, hz', rfl, herrors⟩ := hnews.single
    have hdot := (h.after.neat_importPaths hn.old _ hnews.mem).dotFree
    obtain rfl : y.bare = z := ht.traced.toFollows.bare_of_fresh hd hm hdot hz' hstill
    have hwrong : ¬w.Sound disk y := by
      intro hsound
      have hwas : g.Settles disk y.bare b := Settles.congr (n := y) rfl ((h.before.sound _ y hbefore).settled b hb)
      have his : w.Settles disk y.bare b := Settles.congr (n := y) rfl (hsound.settled b hb)
      exact hnews.changed (sameAnswer_of_settles (h.touched.layout ▸ hnews.standard) hnews.standard hz hz' herrors
        hwas his)
    exact ⟨y, hstill, ⟨_, hnews.mem, hnews.standard, hz'⟩, (ht.nodes _ y hstill).resolve_left hwrong, hwrong⟩

/-- What is outdated leads to a package that has news which still wait for their turn. -/
theorem Amid.exists_waiting {key : String} {n : PackageNode} (hn : t.packages.find? key = some n)
    (hwrong : ¬w.Sound disk n) : ∃ key' n' path, t.packages.find? key' = some n' ∧
      ReflTransGen (w.Uses disk) n.bare n'.bare ∧ Left disk g w done key' n' ∧
      News disk g w n' path ∧ t.Waits path := by
  have hbares : ∀ {key n}, t.packages.find? key = some n → n.bare ∈ t.packages.map fun e => e.2.bare := fun hn =>
    List.mem_map_of_mem (f := fun e => e.2.bare) (Table.mem_of_find? hn)
  suffices hall : ∀ b : {b // b ∈ t.packages.map (fun e => e.2.bare) ∧ AcyclicBelow disk w b}, ∀ key n,
      n.bare = b.1 → t.packages.find? key = some n → ¬w.Sound disk n → ∃ key' n' path,
        t.packages.find? key' = some n' ∧ ReflTransGen (w.Uses disk) n.bare n'.bare ∧
          Left disk g w done key' n' ∧ News disk g w n' path ∧ t.Waits path by
    have hleft := (ht.nodes key n hn).resolve_left hwrong
    exact hall ⟨n.bare, hbares hn, h.untangled key n hleft.old (Or.inl hleft.known)⟩ key n rfl hn hwrong
  intro b
  -- from what is outdated to the package that has outdated it, as long as that does not wait
  induction b using (wellFounded_below disk w (t.packages.map fun e => e.2.bare)).induction with
  | _ b ih =>
    intro key n hb hn hwrong
    have hleft := (ht.nodes key n hn).resolve_left hwrong
    obtain ⟨path, hnews⟩ := (h.sound_or_news hd hm hnamed hleft.old hleft.known).resolve_left hwrong
    rcases ht.behind hd hm h hleft hnews with hwaits | ⟨y, hy, huses, -, hwrong'⟩
    · exact ⟨key, n, path, hn, .refl, hleft, hnews, hwaits⟩
    · have hless : TransGen (w.Uses disk) b.1 y.bare := hb ▸ .single huses
      obtain ⟨key', n', path', hn', hlead, hleft', hnews', hwaits⟩ :=
        ih ⟨y.bare, hbares hy, b.2.2.of_lead hless.to_reflTransGen⟩ hless path y rfl hy hwrong'
      exact ⟨key', n', path', hn', .head huses hlead, hleft', hnews', hwaits⟩

end

/-! ## A turn -/

def Outdated (disk : Disk) (w t : Graph) (path key : String) (n : PackageNode) : Prop :=
  key ≠ path ∧ t.packages.find? key = some n ∧ ¬w.Sound disk n

/-- A package waits for its turn, and nothing that it leads to is outdated. -/
structure Clear (disk : Disk) (w t : Graph) (path : String) (x : PackageNode) : Prop where
  found : t.packages.find? path = some x
  waits : x.state = .dirty
  ahead : ∀ key n, t.packages.find? key = some n → TransGen (w.Uses disk) x.bare n.bare → w.Sound disk n

/-- The package has been analysed in its turn, which leaves the node `n` for it in the graph `u`. -/
structure Analysed (disk : Disk) (m : ModuleRoot) (w t : Graph) (path : String) (x n : PackageNode) (u : Graph) :
    Prop where
  agrees : Agrees disk m w (t.startChecking path) (Outdated disk w t path) u
  grown : Extends t u
  found : u.packages.find? path = some n
  bare : n.bare = x.bare
  known : ∃ a, n.analysis = some a ∧ w.Settles disk x a

def turned (u : Graph) (path : String) (n : PackageNode) : Graph := (u.markCurrent path).publish path n.surface?

section
variable {path : String} {x n : PackageNode} {u : Graph}

theorem Analysed.surfaced (h : Analysed disk m w t path x n u) : Surfaced disk w x n.surface? := by
  obtain ⟨a, ha, hsettles⟩ := h.known
  have hsurface : n.surface? = a.checked.map (·.surface) := by
    simp only [PackageNode.surface?, PackageNode.checked?, ha, Option.bind_some]
  rw [hsurface]
  exact hsettles.surfaced

theorem find?_turned (path key : String) (n : PackageNode) : (u.turned path n).packages.find? key =
    ((u.markCurrent path).packages.find? key).map
      (if (u.markCurrent path).surfaceChanged path n.surface? then invalidateNode path else id) :=
  find?_publish_eq path key n.surface?

theorem Analysed.find?_self (h : Analysed disk m w t path x n u) :
    (u.turned path n).packages.find? path = some { n with state := .current } := by
  have hcurrent : (u.markCurrent path).packages.find? path = some { n with state := .current } := by
    rw [markCurrent, find?_modifyPackage, if_pos rfl, h.found]
    rfl
  exact find?_publish hcurrent (h.agrees.inv.nodes path n h.found).path n.surface?

theorem find?_turned_other {key : String} (hne : key ≠ path) :
    (u.turned path n).packages.find? key = (u.packages.find? key).map
      (if (u.markCurrent path).surfaceChanged path n.surface? then invalidateNode path else id) := by
  rw [find?_turned, markCurrent, find?_modifyPackage, if_neg hne]

theorem Analysed.published_turned (h : Analysed disk m w t path x n u) :
    (u.turned path n).published = t.published.insert path n.surface? := by
  rw [turned, published_publish]
  exact congrArg (Table.insert · path n.surface?) h.grown.published

section
variable {dir : Path} {edited : String} (hd : disk.WellNamed) (hm : m.dir.Rooted) (hnamed : m.Named)
  (h : Carried disk m dir edited g w) {done : List String} (ht : Amid disk m g w done t)
include hd hm hnamed h ht

/-- What has its turn does not lead to a cycle of imports. -/
theorem Amid.below (hx : t.packages.find? path = some x) (hs : x.state = .dirty) : AcyclicBelow disk w x.bare := by
  obtain ⟨n, hn, hasked⟩ := ht.asked path x hx (by simp [hs])
  have hbare : n.bare = x.bare := (h.start hd hm hnamed).traced.toFollows.bare_eq ht.traced.toFollows hn hx
  refine hbare ▸ h.untangled path n hn ?_
  cases hstate : n.state with
  | untracked => exact absurd hstate hasked
  | building => exact absurd hstate (h.after.resting.states path n hn)
  | dirty => exact Or.inr rfl
  | current => exact Or.inl ((h.after.resting.inv.nodes path n hn).current hstate)

/-- The turn analyses its package as checking from scratch does. -/
theorem Amid.ends_analyse (hclear : Clear disk w t path x) :
    Ends (analyse disk path) t fun _ u => ∃ n, Analysed disk m w t path x n u := by
  have hi := ht.resting.inv
  have hnot := ht.resting.states path x hclear.found
  have hlists : Lists disk m w (t.startChecking path) := ht.traced.lists.modifyPackage fun _ => rfl
  have hstart : Agrees disk m w (t.startChecking path) (Outdated disk w t path) (t.startChecking path) := by
    refine ⟨hi.startChecking hclear.found hnot, hlists, ht.traced.recalls, fun _ _ hn _ => hn, fun key n hn => ?_⟩
    rw [Graph.startChecking, find?_modifyPackage] at hn
    split at hn
    · obtain ⟨old, -, rfl⟩ := Option.map_eq_some_iff.mp hn
      exact Or.inl (sound_unknown rfl rfl)
    · rename_i hne
      exact or_iff_not_imp_left.mpr fun hwrong => ⟨hne, hn, hwrong⟩
  have hnear : ∀ key z, ReflTransGen (w.Uses disk) x.bare z.bare → ¬Outdated disk w t path key z := by
    rintro key z hlead ⟨hne, hz, hwrong⟩
    rcases reflTransGen_iff_eq_or_transGen.mp hlead with hbare | hlead
    · have hsame : z.bare.path = x.bare.path := congrArg PackageNode.path hbare
      exact hne ((hi.nodes key z hz).path.symm.trans (hsame.trans (hi.nodes path x hclear.found).path))
    · exact hwrong (hclear.ahead key z hz hlead)
  have hbelow := ht.below hd hm hnamed h hclear.found hclear.waits
  refine (hstart.ends_analyse hd hm hnamed ht.resting hclear.found hnear hbelow).mono fun _ u hall => ?_
  obtain ⟨⟨hagrees, hgrown⟩, n, a, hn, ha, hbare, hsettles⟩ := hall
  exact ⟨n, hagrees, hgrown, hn, hbare, a, ha, hsettles⟩

omit hnamed in
/-- A package that is news for others lets its importers be analysed again. -/
theorem Amid.announces (hpath : path ∉ done) (hx : t.packages.find? path = some x)
    (ha : Analysed disk m w t path x n u) {key : String} {y : PackageNode} (hy : Left disk g w done key y)
    (hnews : News disk g w y path) : (u.markCurrent path).surfaceChanged path n.surface? = true := by
  have hpublished : (u.markCurrent path).published.find? path = w.published.find? path :=
    (congrArg (Table.find? · path) ha.grown.published).trans (ht.published path hpath)
  have hdot := (h.after.neat_importPaths hy.old path hnews.mem).dotFree
  obtain ⟨z, hz, hz', rfl, -⟩ := hnews.single
  obtain rfl : x.bare = z := ht.traced.toFollows.bare_of_fresh hd hm hdot hz' hx
  unfold surfaceChanged
  rw [hpublished]
  rcases h.touched.published x.bare.path with hbefore | ⟨-, hnone⟩
  · rw [hbefore]
    cases hfind : g.published.find? x.bare.path with
    | none => rfl
    | some surface =>
      obtain ⟨-, y₀, hy₀, -, hsurfaced⟩ := h.heralds _ _ hfind
      have hbare : y₀.bare = x.bare := h.before.traced.toFollows.bare_of_fresh hd hm hdot hz hy₀
      obtain ⟨s, s', rfl, hsurface, hdiffer⟩ :=
        hnews.differs.surfaces (h.touched.layout ▸ hnews.standard) hnews.standard
        hz hz' (hsurfaced.congr hbare) (ha.surfaced.congr rfl)
      rw [hsurface]
      simp [hdiffer]
  · rw [hnone]

omit hnamed in
/-- After the turn, what is known is right or was left, as before. -/
theorem Amid.nodes_turned (hpath : path ∉ done) (hclear : Clear disk w t path x)
    (ha : Analysed disk m w t path x n u)
    {key : String} {y : PackageNode} (hy : (u.turned path n).packages.find? key = some y) :
    w.Sound disk y ∨ Left disk g w (done ++ [path]) key y := by
  by_cases hne : key = path
  · subst hne
    rw [ha.find?_self] at hy
    cases hy
    have hsound := (ha.agrees.sound key n ha.found).resolve_right fun hfar => hfar.1 rfl
    exact Or.inl (hsound.congr rfl rfl rfl)
  · rw [find?_turned_other hne] at hy
    obtain ⟨y₀, hy₀, hmap⟩ := Option.map_eq_some_iff.mp hy
    have hkept : y = y₀ ∨ y.analysis = none ∧ y.inCycle = false := by
      rw [← hmap]
      split
      · exact invalidateNode_cases path y₀
      · exact Or.inl rfl
    rcases hkept with rfl | ⟨hunknown, hstraight⟩
    · refine (ha.agrees.sound key y hy₀).imp_right fun ⟨_, hold, hwrong⟩ => ?_
      have hleft := (ht.nodes key y hold).resolve_left hwrong
      refine ⟨hleft.old, hleft.known, fun p hp => ?_⟩
      rcases List.mem_append.mp hp with hp | hp
      · exact hleft.still p hp
      -- had there been news in this turn, then the package would be reset
      intro hnews
      obtain rfl := List.mem_singleton.mp hp
      rw [if_pos (ht.announces hd hm h hpath hclear.found ha hleft hnews)] at hmap
      have hreset := (analysis_invalidateNode ((ht.resting.inv.nodes key y hold).path ▸ hne) hnews.recorded
        (ht.resting.states key y hold)).1
      rw [hmap] at hreset
      have hknown := hleft.known
      rw [hreset] at hknown
      cases hknown
    · exact Or.inl (sound_unknown hunknown hstraight)

omit hd hm hnamed h in
/-- After the turn, what someone has asked for waits or is as it was, or it has had its turn. -/
theorem Amid.idle_turned (ha : Analysed disk m w t path x n u)
    (hwaits : ∀ key, key ≠ path → t.Waits key → (u.turned path n).Waits key) {key : String} {y : PackageNode}
    (hy : w.packages.find? key = some y) (hasked : y.state ≠ .untracked) :
    key ∈ done ++ [path] ∨ (u.turned path n).Waits key ∨ (u.turned path n).packages.find? key = some y := by
  by_cases hne : key = path
  · exact Or.inl (List.mem_append_right _ (List.mem_singleton.mpr hne))
  rcases ht.idle key y hy hasked with hdone | hwait | hold
  · exact Or.inl (List.mem_append_left _ hdone)
  · exact Or.inr (Or.inl (hwaits key hne hwait))
  right
  cases hs : y.state with
  | untracked => exact absurd hs hasked
  | building => exact absurd hs (ht.resting.states key y hold)
  | dirty => exact Or.inl (hwaits key hne ⟨y, hold, hs⟩)
  | current =>
    have hknown := (ht.resting.inv.nodes key y hold).current hs
    have hstart : (t.startChecking path).packages.find? key = some y := by
      rw [Graph.startChecking, find?_modifyPackage, if_neg hne]
      exact hold
    have hturned := (find?_turned_other (n := n) hne).trans
      (congrArg (Option.map _) (ha.agrees.kept key y hstart hknown))
    rw [Option.map_some] at hturned
    split at hturned
    · by_cases hsame : invalidateNode path y = y
      · exact Or.inr (hsame ▸ hturned)
      · left
        refine ⟨_, hturned, ?_⟩
        unfold invalidateNode at hsame ⊢
        split
        · rename_i hstays
          exact absurd (if_pos hstays) hsame
        · rfl
    · exact Or.inr hturned

omit hd hm hnamed h in
/-- After the turn, nobody has asked for more than before. -/
theorem Amid.asked_turned (hclear : Clear disk w t path x) (ha : Analysed disk m w t path x n u) {key : String}
    {y : PackageNode} (hy : (u.turned path n).packages.find? key = some y) (hasked : y.state ≠ .untracked) :
    ∃ n₀, w.packages.find? key = some n₀ ∧ n₀.state ≠ .untracked := by
  by_cases hne : key = path
  · subst hne
    exact ht.asked key x hclear.found (by simp [hclear.waits])
  rw [find?_turned_other hne] at hy
  obtain ⟨y₀, hy₀, rfl⟩ := Option.map_eq_some_iff.mp hy
  have hasked₀ : y₀.state ≠ .untracked := by
    split at hasked
    · exact mt (untracked_invalidateNode · path) hasked
    · exact hasked
  rcases ha.grown.added key y₀ hy₀ with hcontains | huntracked
  · obtain ⟨y₁, hy₁⟩ := contains_iff.mp hcontains
    obtain ⟨y₂, hy₂, hstate⟩ := ha.grown.kept key y₁ hy₁
    rw [hy₀] at hy₂
    cases hy₂
    exact ht.asked key y₁ hy₁ (hstate ▸ hasked₀)
  · exact absurd huntracked hasked₀

omit hd hm hnamed h in
/-- After the turn, what has had its turn is right, and the surface that was published last for it is its own. -/
theorem Amid.right_turned (ha : Analysed disk m w t path x n u) {key : String} (hkey : key ∈ done ++ [path]) :
    ∃ y surface, (u.turned path n).packages.find? key = some y ∧ y.state ≠ .untracked ∧
      (u.turned path n).published.find? key = some surface ∧ Surfaced disk w y surface := by
  by_cases hne : key = path
  · subst hne
    refine ⟨_, n.surface?, ha.find?_self, by simp, ?_, ha.surfaced.congr ha.bare.symm⟩
    rw [ha.published_turned, Table.find?_insert, if_pos BEq.rfl]
  have hdone : key ∈ done := (List.mem_append.mp hkey).resolve_right fun hin => hne (List.mem_singleton.mp hin)
  obtain ⟨y, surface, hy, hasked, hlast, hsurfaced⟩ := ht.right key hdone
  obtain ⟨y', hy', hstate⟩ := ha.grown.kept key y hy
  have hbare : y'.bare = y.bare := (ha.agrees.lists.fresh key y' hy').bare_eq (ht.traced.lists.fresh key y hy)
    ((ha.agrees.inv.nodes key y' hy').owned.dir_eq (ht.resting.inv.nodes key y hy).owned)
  have hlast' : (u.turned path n).published.find? key = some surface := by
    rw [ha.published_turned, Table.find?_insert, if_neg (by simpa using hne)]
    exact hlast
  refine ⟨_, surface, (find?_turned_other hne).trans (congrArg (Option.map _) hy'), ?_, hlast', hsurfaced.congr ?_⟩
  · split
    · exact asked_invalidateNode (hstate ▸ hasked) path
    · exact hstate ▸ hasked
  · split
    · exact hbare.symm.trans (bare_invalidateNode path y').symm
    · exact hbare.symm

theorem Amid.ends_turn {lint : Bool} (hpath : path ∉ done) (hclear : Clear disk w t path x) :
    Ends (publishPackage disk lint path) t fun ps t' => Amid disk m g w (done ++ [path]) t' ∧
      ∃ depth, ∀ fuel, depth ≤ fuel → ps = w.scratch disk lint fuel x := by
  have hcontains : t.packages.contains path = true := contains_iff.mpr ⟨x, hclear.found⟩
  have hsteady := ht.toSteady.ends_publishPackage hd hm hnamed lint hcontains
  have htraced : Ends (publishPackage disk lint path) t fun _ t' => Traced disk m w t' := by
    rw [Graph.ends_publishPackage]
    refine (ht.traced.ends_diagnose hd hm hnamed h.after.neat ht.resting path).mono fun _ _ h' => ?_
    split <;> exact h'
  have hwaits : Ends (publishPackage disk lint path) t fun _ t' => ∀ key, key ≠ path → t.Waits key → t'.Waits key :=
    ends_iff.mpr fun key hne hwait => (Steady.turning hd hm hnamed lint).waits ht.toSteady hne hwait
  have hturn : Ends (publishPackage disk lint path) t fun ps t' => ∃ n u, Analysed disk m w t path x n u ∧
      t' = u.turned path n ∧ ps = FileDiagnostics.ofTurn lint { n with state := .current } := by
    refine Graph.ends_turn hclear.found hclear.waits
      ((ht.ends_analyse hd hm hnamed h hclear).mono fun _ u ⟨n, ha⟩ => ?_)
    exact ⟨n, ha.found, (ha.agrees.inv.nodes path n ha.found).path, n, u, ha, rfl, rfl⟩
  refine ((((hsteady.and htraced).and (keeps_publishPackage lint path)).and hwaits).and hturn).mono ?_
  intro ps t' ⟨⟨⟨⟨hsteady, htraced⟩, hkeeps⟩, hwaits⟩, n, u, ha, hturned, hps⟩
  subst hturned hps
  refine ⟨⟨hsteady, htraced, ?_, ?_, ?_, hkeeps.tracked.trans ht.tracked_eq, ?_, ?_⟩, ?_⟩
  · exact fun key y hy => ht.nodes_turned hd hm h hpath hclear ha hy
  · exact fun key y hy hasked => ht.idle_turned ha hwaits hy hasked
  · exact fun key y hy hasked => ht.asked_turned hclear ha hy hasked
  · intro key hkey
    have hne : key ≠ path := fun heq => hkey (List.mem_append_right _ (List.mem_singleton.mpr heq))
    rw [ha.published_turned, Table.find?_insert, if_neg (by simpa using hne)]
    exact ht.published key fun hdone => hkey (List.mem_append_left _ hdone)
  · exact fun key hkey => ht.right_turned ha hkey
  · obtain ⟨a, hknown, hsettles⟩ := ha.known
    exact hsettles.scratch (PackageNode.of_bare_eq ha.bare).2.1 hknown

end

end

end IdlWorkbench.Graph
