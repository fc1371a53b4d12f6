import IdlWorkbench.Proofs.Session.Edits
import IdlWorkbench.Proofs.Session.Onward
import IdlWorkbench.Proofs.Session.Stale

/-!
# Sessions that show what checking from scratch gives

Where edits are passed on to all packages that they concern, each note leaves shown, for every file that the editor
has open, what checking its package from scratch gives. -/

namespace IdlWorkbench

open IdlWorkbench.Path

namespace Graph

variable {disk : Disk} {m : ModuleRoot} {lint : Bool} {g w : Graph}

/-! ## A note -/

/-- A closed file is no longer held. -/
theorem not_held_of_closed {n : Note} (hn : n.text? = none) (hp : (g.packageOf? n.file).isSome = true) :
    n.file ∉ (g.heldAfter n).keys := by
  unfold heldAfter
  simp [hn, hp, Table.keys_erase]

theorem mem_heldAfter {n : Note} {file : Path} (h : file ∈ (g.heldAfter n).keys) (hne : file ≠ n.file) :
    file ∈ g.held.keys := by
  unfold heldAfter at h
  split at h
  · split at h
    · rw [Table.keys_insert] at h
      split at h
      · exact h
      · exact (List.mem_append.mp h).resolve_right fun hin => hne (List.mem_singleton.mp hin)
    · exact h
  · split at h
    · rw [Table.keys_erase] at h
      exact (List.mem_filter.mp h).1
    · exact h

section
variable (hd : disk.WellNamed) (hm : m.dir.Rooted)
include hd hm

/-- What is held in the directory that a note has touched is in a package that someone asks about. -/
theorem Touched.wanted {n : Note} {dir file : Path} {edited : String} (ht : Touched disk m dir edited g w)
    (howns : m.Owns dir edited) (htracked : n.text?.isSome = true → edited ∈ w.tracked) (h : Resting disk m g)
    (hn : n.Plain)
    (hheld : w.held = g.heldAfter n) (hhoused : Housed disk g n) (hfile : file ∈ w.held.keys)
    (hin : file.parent? = some dir) {ps : Published} (htold : file ≠ n.file → Told disk lint ps g file) :
    file.extension? = some idlExtension ∧ (w.packages.contains edited = true → edited ∈ w.tracked) := by
  by_cases hsame : file = n.file
  · subst hsame
    cases htext : n.text? with
    | some text => exact ⟨(hn text htext).2.1, fun _ => htracked (by rw [htext]; rfl)⟩
    | none =>
      exact absurd (hheld ▸ hfile) (not_held_of_closed htext ((housed_of_closed htext).mp hhoused))
  · obtain ⟨key, p, hp, hf, hkey, -⟩ := htold hsame
    have hdir := (h.inv.of_mem_files hd hm hp hf).2
    rw [hin, Option.some_inj] at hdir
    obtain rfl : key = edited := (h.inv.nodes key p hp).owned.path_eq hm (hdir ▸ howns)
    exact ⟨extension_of_idlFiles (h.inv.nodes key p hp).files file hf, ht.tracked key hkey⟩

/-- The package in the directory that a note has touched is to be analysed again. -/
theorem Touched.due_inside {dir file : Path} {edited : String} (ht : Touched disk m dir edited g w)
    (howns : m.Owns dir edited) (h' : Resting disk m w) (hfile : file ∈ w.held.keys) (hin : file.parent? = some dir)
    (hx : file.extension? = some idlExtension) (htracked : w.packages.contains edited = true → edited ∈ w.tracked)
    (ps : Published) : Due disk lint ps g w file := by
  cases hp : w.packages.find? edited with
  | none =>
    obtain ⟨onDisk, -, hmem⟩ :=
      (filesOf_of_idlFiles hd h'.inv.held (howns.rooted hm).normal (ht.gone edited howns hp)).known
    exact absurd ((hmem file).mpr (Or.inr ⟨hfile, hin, hx⟩)) (by simp)
  | some p =>
    have hdir : p.dir = dir := (h'.inv.nodes edited p hp).owned.dir_eq howns
    have hmem := h'.inv.mem_files hd hm hp ⟨hfile, hdir.symm ▸ hin, hx⟩
    obtain ⟨-, -, hdirty⟩ := ht.here p hp
    exact ⟨edited, p, hp, hmem, htracked (contains_iff.mpr ⟨p, hp⟩), by simp [hdirty], Or.inl hdirty⟩

/-- A package in another directory is to be analysed again, or else it is as it was and so is what is shown. -/
theorem Touched.due_outside {dir file : Path} {edited : String} (ht : Touched disk m dir edited g w)
    (h : Resting disk m g) (h' : Resting disk m w) (hin : file.parent? ≠ some dir) {ps now : Published}
    (hnow : ∀ e ∈ now, ¬(e.1 == file) = true) (htold : Told disk lint ps g file) :
    Due disk lint (ps ++ now) g w file := by
  obtain ⟨key, p, hp, hf, hkey, hasked, depth, hshows⟩ := htold
  have hne : key ≠ edited := by
    rintro rfl
    exact hin (ht.place p hp ▸ (h.inv.of_mem_files hd hm hp hf).2)
  have hafter : w.packages.find? key = some (invalidateNode edited p) := by
    rw [ht.elsewhere key hne, hp]
    rfl
  have hfiles := (PackageNode.of_bare_eq (bare_invalidateNode edited p)).2.1
  refine ⟨key, _, hafter, hfiles ▸ hf, ht.tracked key hkey (contains_iff.mpr ⟨_, hafter⟩),
    asked_invalidateNode hasked edited, ?_⟩
  rcases invalidateNode_cases edited p with hkept | ⟨hunknown, -⟩
  · rw [hkept]
    refine Or.inr ⟨hp, depth, fun fuel hfuel => ?_⟩
    rw [← hshows fuel hfuel]
    exact Published.last_append_of_none hnow
  · left
    cases hs : (invalidateNode edited p).state with
    | untracked => exact absurd hs (asked_invalidateNode hasked edited)
    | building => exact absurd hs (h'.states key _ hafter)
    | dirty => rfl
    | current =>
      have hknown := (h'.inv.nodes key _ hafter).current hs
      rw [hunknown] at hknown
      cases hknown

/-- After a note about a file of a package, every held file either needs a turn or shows what it should already. -/
theorem Touched.due {n : Note} {dir : Path} {edited : String} (ht : Touched disk m dir edited g w)
    (howns : m.Owns dir edited) (hparent : n.file.parent? = some dir)
    (htracked : n.text?.isSome = true → edited ∈ w.tracked)
    (h : Resting disk m g) (h' : Resting disk m w) (hn : n.Plain) (hheld : w.held = g.heldAfter n)
    (hhoused : Housed disk g n) {ps now : Published} (hnow : ∀ e ∈ now, e.1 = n.file)
    (htold : ∀ file ∈ g.held.keys, Inside disk m file → Told disk lint ps g file) :
    ∀ file ∈ w.held.keys, Inside disk m file → Due disk lint (ps ++ now) g w file := by
  intro file hfile hinside
  have hbefore : file ≠ n.file → Told disk lint ps g file :=
    fun hne => htold file (mem_heldAfter (hheld ▸ hfile) hne) hinside
  by_cases hin : file.parent? = some dir
  · obtain ⟨hx, htracked'⟩ := ht.wanted hd hm howns htracked h hn hheld hhoused hfile hin hbefore
    exact ht.due_inside hd hm howns h' hfile hin hx htracked' (ps ++ now)
  · have hsame : file ≠ n.file := fun heq => hin (heq ▸ hparent)
    obtain ⟨key, p, hp, hf, -⟩ := hbefore hsame
    have hnormal := (h.inv.of_mem_files hd hm hp hf).1
    refine ht.due_outside hd hm h h' hin (fun e he hbeq => hsame ?_) (hbefore hsame)
    rw [hnow e he] at hbeq
    exact (n.normal_file.eq_of_beq hnormal hbeq).symm

/-- After a note about another file, every held file with room for a package still shows what it should. -/
theorem Touched.due_bypassed {n : Note} {edited : String} (ht : Touched disk m ⟨[]⟩ edited g w)
    (h : Resting disk m g) (h' : Resting disk m w) (hheld : w.held = g.heldAfter n) (hnot : ¬Housed disk g n)
    (hout : n.text?.isSome = true → ¬Inside disk m n.file) {ps : Published}
    (htold : ∀ file ∈ g.held.keys, Inside disk m file → Told disk lint ps g file) :
    ∀ file ∈ w.held.keys, Inside disk m file → Due disk lint ps g w file := by
  intro file hfile hinside
  have hbefore : file ∈ g.held.keys := by
    rw [hheld] at hfile
    by_cases hsame : file = n.file
    · subst hsame
      cases htext : n.text? with
      | some text => exact absurd hinside (hout (by rw [htext]; rfl))
      | none =>
        unfold heldAfter at hfile
        rw [htext] at hfile
        dsimp only at hfile
        rwa [if_neg (mt (housed_of_closed htext).mpr hnot)] at hfile
    · exact mem_heldAfter hfile hsame
  have hin : file.parent? ≠ some ⟨[]⟩ := by
    obtain ⟨dir, hp, ⟨path, howns⟩, -⟩ := hinside
    rw [hp]
    rintro ⟨⟩
    exact Bool.false_ne_true (howns.rooted hm).absolute
  have hdue : Due disk lint (ps ++ []) g w file :=
    ht.due_outside hd hm h h' hin (fun e he => nomatch he) (htold file hbefore hinside)
  rwa [List.append_nil] at hdue

end

/-- Edits are passed on: the note leaves no text behind, what has imported the package that it concerns without
recording it does not notice, nothing that is known or waits leads to a cycle of imports, and news come in good
time. -/
structure PassedOn (disk : Disk) (lint : Bool) (g : Graph) (n : Note) : Prop where
  takes : g.Takes n
  carries : ∀ p ∈ (if n.text?.isSome then g.acted disk n else g).packageOf? n.file,
    Carries disk g (g.acted disk n) p.path
  untangled : Untangled disk (g.acted disk n)
  timely : Timely disk lint g (g.acted disk n)

/-- Nothing was published for files in directories without room for a package. -/
def Quiet (disk : Disk) (m : ModuleRoot) (ps : Published) : Prop :=
  ∀ file : Path, file.Normal → ¬Inside disk m file → ∀ e ∈ ps, ¬(e.1 == file) = true

theorem Quiet.append {ps qs : Published} (h : Quiet disk m ps) (h' : Quiet disk m qs) : Quiet disk m (ps ++ qs) :=
  fun file hf hout e he => (List.mem_append.mp he).elim (h file hf hout e) (h' file hf hout e)

theorem Quiet.last {ps : Published} (h : Quiet disk m ps) {file : Path} (hf : file.Normal)
    (hout : ¬Inside disk m file) : Published.last ps file = [] := by
  unfold Published.last
  rw [List.find?_eq_none.mpr fun e he => h file hf hout e (List.mem_reverse.mp he)]
  rfl

theorem Steady.inside_of_housed (hd : disk.WellNamed) (hm : m.dir.Rooted) (h : Steady disk m g) {n : Note}
    (h' : Steady disk m (g.acted disk n)) (hhoused : Housed disk g n) : Inside disk m n.file := by
  unfold Housed at hhoused
  split at hhoused
  · exact h'.inside_of_packageOf? hd hm n.normal_file hhoused
  · exact h.inside_of_packageOf? hd hm n.normal_file hhoused

theorem Steady.ends_quiet (hd : disk.WellNamed) (hm : m.dir.Rooted) (hnamed : m.Named) (h : Steady disk m w)
    (lint : Bool) : Ends (publishAll disk lint) w fun later _ => Quiet disk m later := by
  refine ends_turns.mono fun later _ hlater file hf hout e he hbeq => ?_
  subst hlater
  obtain ⟨turn, hturn, he⟩ := List.mem_flatMap.mp he
  obtain ⟨hsteady, ⟨n, hn, -⟩, -⟩ := h.forall_turns hd hm hnamed lint turn hturn
  have hpublishes : Publishes disk m turn.2 turn.2 := ⟨hsteady.resting, hsteady.filled, .refl turn.2⟩
  have hcovers := (hpublishes.ends_publishPackage hd hm hsteady.resting.inv lint (contains_iff.mpr ⟨n, hn⟩)).2 e he
  obtain ⟨p, hp, hc⟩ := hcovers
  obtain ⟨q, hq, hbeq'⟩ := List.contains_iff_exists_mem_beq.mp hc
  obtain ⟨hnormal, hparent⟩ := hsteady.resting.inv.of_mem_files hd hm hp hq
  obtain rfl := hnormal.eq_of_beq hf (BEq.trans (BEq.symm hbeq') hbeq)
  exact hout ⟨p.dir, hparent, hsteady.houses hd hm hp⟩

section
variable (hm : m.dir.Rooted) {n : Note} (h : PassedOn disk lint g n) (hexact : Exact disk m g)
  (hheralds : Heralds disk g) (hafter : Steady disk m (g.acted disk n))
include hm h hexact hheralds hafter

/-- A note about a file of a package that is passed on can be published. -/
theorem PassedOn.carried (hhoused : Housed disk g n) {dir : Path} {edited : String} (howns : m.Owns dir edited)
    (hparent : n.file.parent? = some dir) (ht : Touched disk m dir edited g (g.acted disk n)) :
    Carried disk m dir edited g (g.acted disk n) := by
  refine ⟨hexact, hheralds, ht, hafter, ?_, h.untangled⟩
  obtain ⟨p, hp⟩ := Option.isSome_iff_exists.mp hhoused
  have hpath : ∀ {w : Graph}, Resting disk m w → w.packageOf? n.file = some p → p.path = edited := by
    intro w hw hp
    obtain ⟨d, hdir, hin⟩ := Option.bind_eq_some_iff.mp hp
    obtain rfl : dir = d := Option.some_inj.mp (hparent.symm.trans (directoryOf?_eq hdir).1)
    exact (hw.inv.found_packageIn? hm n.normal_file hparent hin).2.2.path_eq hm howns
  have hedited : p.path = edited := by
    split at hp
    · exact hpath hafter.resting hp
    · exact hpath hexact.resting hp
  exact hedited ▸ h.carries p hp

/-- A note that is passed on can be published, and then everything that is held shows what it should. -/
theorem PassedOn.due (hd : disk.WellNamed) (hnamed : m.Named) (hn : n.Neat)
    (hheld : (g.acted disk n).held = g.heldAfter n) {ps now : Published} (hnow : ∀ e ∈ now, e.1 = n.file)
    (hhoused : ∀ e ∈ now, Housed disk g n)
    (htold : ∀ file ∈ g.held.keys, Inside disk m file → Told disk lint ps g file) :
    ∃ dir edited, Carried disk m dir edited g (g.acted disk n) ∧
      ∀ file ∈ (g.acted disk n).held.keys, Inside disk m file →
        Due disk lint (ps ++ now) g (g.acted disk n) file := by
  by_cases hhouse : Housed disk g n
  · obtain ⟨dir, edited, hparent, howns, ht, htracked⟩ := touches_acted hd hm hexact.toSteady hn hafter hhouse
    exact ⟨dir, edited, h.carried hm hexact hheralds hafter hhouse howns hparent ht,
      ht.due hd hm howns hparent htracked hexact.resting hafter.resting hn.1 hheld hhouse hnow htold⟩
  · obtain ⟨hbypassed, hout⟩ := bypassed_acted hd hm hexact.toSteady hn hafter hhouse
    obtain ⟨edited, ht⟩ := hbypassed.touched hm
    obtain rfl : now = [] := List.eq_nil_iff_forall_not_mem.mpr fun e he => hhouse (hhoused e he)
    refine ⟨⟨[]⟩, edited, ⟨hexact, hheralds, ht, hafter, ?_, h.untangled⟩, ?_⟩
    · exact hbypassed.carries hd hm hnamed hexact.toSteady edited
    · rw [List.append_nil]
      exact ht.due_bypassed hd hm hexact.resting hafter.resting hheld hhouse hout htold

end

end Graph

namespace Note

theorem exists_of_lastText? {notes : List Note} {p : Path} {text : String} (h : lastText? notes p = some text) :
    ∃ n ∈ notes, n.file = p ∧ n.text? = some text := by
  obtain ⟨n, hn, htext⟩ := Option.bind_eq_some_iff.mp h
  exact ⟨n, List.mem_reverse.mp (List.mem_of_find?_eq_some hn), by simpa using List.find?_some hn, htext⟩

end Note

namespace Session

variable {disk : Disk} {m : ModuleRoot} {s : Session}

/-! ## Sessions -/

/-- What holds of a session after some notes, where `ps` was published on them. -/
structure Faithful (disk : Disk) (m : ModuleRoot) (past : List Note) (ps : Published) (s : Session) (g : Graph) :
    Prop
    extends Graph.Exact disk m g where
  graph : s.graph = some g
  heralds : Graph.Heralds disk g
  told : ∀ file ∈ g.held.keys, Graph.Inside disk m file → Graph.Told disk s.settings.lint ps g file
  quiet : Graph.Quiet disk m ps
  mirrors : s.Mirrors past
  placed : Graph.Placed g.held

theorem Faithful.find?_held {g : Graph} {past : List Note} {ps : Published} (h : Faithful disk m past ps s g)
    {p : Path} (hp : p.Normal) : g.held.find? p = Note.lastText? past p := by
  rw [← h.mirrors p hp, held?, h.graph]
  rfl

def PassesOn (disk : Disk) : Session → List Note → Prop
  | _, [] => True
  | s, n :: notes => (∀ g ∈ s.graph, Graph.PassedOn disk s.settings.lint g n) ∧ PassesOn disk (s.hear disk n).2 notes

section
variable (hd : disk.WellNamed) (hm : m.dir.Rooted) (hnamed : m.Named) (hi : disk.NeatImports)
include hd hm hnamed hi

/-- A note that is passed on leaves everything shown as it should be. -/
theorem Faithful.hear {past : List Note} {ps : Published} {g : Graph} (h : Faithful disk m past ps s g) {n : Note}
    (hn : n.Neat) (hpassed : Graph.PassedOn disk s.settings.lint g n) :
    ∃ g', Faithful disk m (past ++ [n]) (ps ++ (s.hear disk n).1) (s.hear disk n).2 g' := by
  have hact := ((h.toSteady.ends_act hd hm hnamed hi hn).and (Graph.held_act n)).and
    ((clears_act n).and (Graph.housed_of_cleared n))
  rw [ends_iff] at hact
  obtain ⟨⟨hsteady, hheld⟩, hclears, hhoused⟩ := hact
  have hsteady : Graph.Steady disk m (g.acted disk n) := hsteady
  obtain ⟨dir, edited, hcarried, hdue⟩ := hpassed.due hm h.toExact h.heralds hsteady hd hnamed hn hheld
    (fun e he => (hclears e he).2) hhoused h.told
  have hcleared : Graph.Quiet disk m ((n.act disk).run g).1 := by
    intro file hf hout e he hbeq
    rw [(hclears e he).2] at hbeq
    obtain rfl := n.normal_file.eq_of_beq hf hbeq
    exact hout (h.toSteady.inside_of_housed hd hm hsteady (hhoused e he))
  have hrun : Ends (n.act disk) g fun now w => Ends (Graph.publishAll disk s.settings.lint) w fun later t =>
      Graph.Exact disk m t ∧ Graph.Heralds disk t ∧ Graph.Quiet disk m (ps ++ (now ++ later)) ∧
        ∀ file ∈ t.held.keys, Graph.Inside disk m file →
          Graph.Told disk s.settings.lint (ps ++ (now ++ later)) t file := by
    rw [ends_iff]
    have hpublish := (hcarried.ends_publishAll hd hm hnamed hpassed.timely (ps ++ ((n.act disk).run g).1)).and
      (hsteady.ends_quiet hd hm hnamed s.settings.lint)
    refine hpublish.mono fun later t ⟨hall, hquiet⟩ => ?_
    obtain ⟨hexact, hheralds, hkeeps, -, htold⟩ := hall
    refine ⟨hexact, hheralds, h.quiet.append (hcleared.append hquiet), fun file hfile hinside => ?_⟩
    rw [hkeeps.held] at hfile
    rw [← List.append_assoc]
    exact htold file (hdue file hfile hinside)
  obtain ⟨g', hafter, hexact, hheralds, hquiet, htold⟩ := s.hear_run h.graph n (Q := fun qs t =>
    Graph.Exact disk m t ∧ Graph.Heralds disk t ∧ Graph.Quiet disk m (ps ++ qs) ∧
      ∀ file ∈ t.held.keys, Graph.Inside disk m file → Graph.Told disk s.settings.lint (ps ++ qs) t file) hrun
  obtain ⟨g₁, hg₁, hplaced, hmirrors⟩ := h.mirrors.hear_iff disk h.graph h.placed n
  have hgraph : (s.hear disk n).2.graph = some g' := by rw [hafter]
  rw [hgraph] at hg₁
  cases hg₁
  refine ⟨g', hexact, hgraph, hheralds, ?_, hquiet, hmirrors.mpr hpassed.takes, hplaced⟩
  rw [hafter]
  exact htold

theorem Faithful.after : ∀ {notes past : List Note} {ps : Published} {s : Session} {g : Graph},
    Faithful disk m past ps s g → (∀ n ∈ notes, n.Neat) → s.PassesOn disk notes →
      ∃ g', Faithful disk m (past ++ notes) (ps ++ s.published disk notes) (s.after disk notes) g'
  | [], past, ps, s, g, h, _, _ => by
    refine ⟨g, ?_⟩
    rw [List.append_nil, published, List.append_nil]
    exact h
  | n :: notes, past, ps, s, g, h, hn, hs => by
    obtain ⟨hpassed, hs⟩ := And.imp_left (fun hall => hall g h.graph) hs
    obtain ⟨g₁, h₁⟩ := h.hear hd hm hnamed hi (hn n (by simp)) hpassed
    obtain ⟨g', h'⟩ := h₁.after (fun n' hn' => hn n' (List.mem_cons_of_mem _ hn')) hs
    refine ⟨g', ?_⟩
    rw [List.append_cons, published, ← List.append_assoc]
    exact h'

end

/-! ## From the start -/

theorem Opens.blank {settings : Settings} {root : String} (h : Opens disk settings root s) :
    ∃ g, s.graph = some g ∧ Graph.Blank g ∧ g.published = [] := by
  obtain ⟨g₀, g, hg₀, hload, rfl⟩ := h.graph
  have hblank : Graph.Blank g₀ := (Graph.ready_discover (m := ⟨"", .ofString ""⟩) hg₀).2
  have hnone : g₀.published = [] := by
    unfold Graph.discover at hg₀
    cases hl : Layout.discover disk (Path.ofString root).normalize with
    | error e => rw [hl] at hg₀; cases hg₀
    | ok layout => rw [hl] at hg₀; cases hg₀; rfl
  have hpublished : Ends (Graph.load disk ((Path.ofString root).normalize.text ++ Listed.wildcard)).run g₀
      fun _ g' => g'.published = [] := by
    refine Graph.kept_load hnone (fun _ _ _ => id) fun l t ht => ?_
    rw [Graph.ends_enterListed]
    cases t.idlFiles disk l.dir with
    | error e => exact ht
    | ok files =>
      dsimp only
      split <;> exact ht
  have hkept : Ends (Graph.loadTracked disk ((Path.ofString root).normalize.text ++ Listed.wildcard)).run g₀
      fun _ g' => Graph.Blank g' ∧ g'.published = [] := by
    unfold Graph.loadTracked
    rw [ends_then]
    refine ((hblank.ends_load _).and hpublished).mono fun r _ h => ?_
    cases r <;> exact h
  rw [ends_iff, hload.2] at hkept
  exact ⟨g, rfl, hkept⟩

/-- A session that has just opened a workspace knows nothing, and so nothing wrong. -/
theorem Opens.faithful (hd : disk.WellNamed) (hi : disk.NeatImports) {settings : Settings} {root : String}
    (h : Opens disk settings root s) (hm : Layout.discover disk (Path.ofString root).normalize = .ok ⟨[m]⟩)
    (hnamed : m.Named) : m.dir.Rooted ∧ ∃ g, Faithful disk m [] [] s g := by
  obtain ⟨hrooted, g, rfl, hsteady⟩ := h.steady hd hi hnamed hm
  obtain ⟨g', hg', hheld⟩ := h.held
  cases hg'
  obtain ⟨g', hg', hblank, hpublished⟩ := h.blank
  cases hg'
  refine ⟨hrooted, g, ?_⟩
  have hexact : Graph.Exact disk m g := by
    refine ⟨hsteady, fun key n hn => ?_, fun key n hn => Graph.records_unknown (hblank key n hn)⟩
    refine Graph.sound_unknown (hblank key n hn) (Bool.eq_false_iff.mpr fun hc => ?_)
    rcases (hsteady.resting.inv.nodes key n hn).cycle hc with hs | hs
    · simp [hblank key n hn] at hs
    · exact hsteady.resting.states key n hn hs
  constructor
  case toExact => exact hexact
  case graph => rfl
  case heralds =>
    intro key surface hfind
    rw [hpublished] at hfind
    cases hfind
  case told =>
    rw [hheld]
    exact fun _ hfile => nomatch hfile
  case quiet => exact fun _ _ _ _ he => nomatch he
  case mirrors =>
    intro p _
    rw [held?, Option.bind_some, hheld]
    rfl
  case placed =>
    rw [hheld]
    exact fun _ hp => nomatch hp

end Session

end IdlWorkbench
