import IdlWorkbench.Proofs.Graph.Sited
import IdlWorkbench.Proofs.Session.Shown

/-!
# Publishing is one pass

Publishing ends when every dirty package has had its turn, and none has two. A turn lists each file of its
package once. Directories belong to one package each, so different turns list different files, unless one of
them is about a package without IDL files: what is wrong with its listing is shown at its directory, and nothing
keeps the path of a directory apart from the files of another package.
-/

namespace IdlWorkbench

open IdlWorkbench.Path

namespace Graph

variable {disk : Disk} {lint : Bool} {g g' : Graph}

/-! ## Rounds -/

def unseen (g : Graph) (seen : List String) : List String := g.tracked.filter (!seen.contains ·)

theorem keeps_afterTurns (disk : Disk) (lint : Bool) : ∀ (paths : List String) (g : Graph),
    Keeps g (paths.foldl (afterTurn disk lint) g)
  | [], g => .refl g
  | path :: rest, g =>
    have hone : Keeps g (g.afterTurn disk lint path) := keeps_publishPackage lint path
    hone.trans (keeps_afterTurns disk lint rest _)

/-- A round that publishes anything leaves fewer packages unseen. -/
theorem length_unseen_lt (disk : Disk) (lint : Bool) {seen paths : List String}
    (hp : g.dirty.filter (!seen.contains ·) = paths) (hne : paths ≠ []) :
    ((paths.foldl (afterTurn disk lint) g).unseen (seen ++ paths)).length < (g.unseen seen).length := by
  obtain ⟨p, hmem⟩ := List.exists_mem_of_ne_nil _ hne
  have hround := hmem
  rw [← hp] at hround
  obtain ⟨hdirty, hnew⟩ := List.mem_filter.mp hround
  have hunseen : (paths.foldl (afterTurn disk lint) g).unseen (seen ++ paths) =
      (g.unseen seen).filter (!paths.contains ·) := by
    unfold unseen
    rw [(keeps_afterTurns disk lint paths g).tracked, List.filter_filter]
    apply List.filter_congr
    simp [Bool.and_comm]
  rw [hunseen]
  apply List.length_filter_lt_length_iff_exists.mpr
  refine ⟨p, List.mem_filter.mpr ⟨(List.mem_filter.mp hdirty).1, hnew⟩, ?_⟩
  simpa using hmem

/-- A round, and what is published after it. -/
theorem run_publishWithin (fuel : Nat) {seen paths : List String} (hp : g.dirty.filter (!seen.contains ·) = paths) :
    (publishWithin disk lint (fuel + 1) seen).run g =
      if paths = [] then ([], g)
      else
        let later := (publishWithin disk lint fuel (seen ++ paths)).run (paths.foldl (afterTurn disk lint) g)
        ((turnsOf disk lint paths g).flatMap (given disk lint) ++ later.1, later.2) := by
  have hrun : Ends (publishWithin disk lint (fuel + 1) seen) g fun ps g' =>
      if paths = [] then ps = [] ∧ g' = g
      else
        let later := (publishWithin disk lint fuel (seen ++ paths)).run (paths.foldl (afterTurn disk lint) g)
        ps = (turnsOf disk lint paths g).flatMap (given disk lint) ++ later.1 ∧ g' = later.2 := by
    rw [publishWithin, ends_bind, ends_get, hp]
    cases paths with
    | nil => exact ⟨rfl, rfl⟩
    | cons path rest =>
      dsimp only
      rw [ends_bind]
      refine (ends_turnsOf (path :: rest) g).mono fun now t hturns => ?_
      obtain ⟨hnow, ht⟩ := hturns
      rw [ends_bind, ends_iff, ends_pure, if_neg (List.cons_ne_nil _ _), hnow, ht]
      exact ⟨rfl, rfl⟩
  split
  · rename_i hnil
    rw [ends_iff, if_pos hnil] at hrun
    exact Prod.ext hrun.1 hrun.2
  · rename_i hne
    rw [ends_iff, if_neg hne] at hrun
    exact Prod.ext hrun.1 hrun.2

/-- Publishing ends with the graph that the last turn leaves. -/
theorem snd_publishWithin : ∀ (fuel : Nat) (seen : List String) (g : Graph),
    ((publishWithin disk lint fuel seen).run g).2 =
      ((turnsWithin disk lint fuel seen g).map Prod.fst).foldl (afterTurn disk lint) g
  | 0, _, _ => rfl
  | fuel + 1, seen, g => by
    rw [run_publishWithin fuel rfl, turnsWithin]
    by_cases hne : g.dirty.filter (!seen.contains ·) = []
    · rw [if_pos hne, hne]
      rfl
    · rw [if_neg hne]
      split
      · rename_i hnil
        exact absurd hnil hne
      · rw [List.map_append, map_turnsOf, List.foldl_append]
        exact snd_publishWithin fuel _ _

/-- Publishing does not end for want of fuel. -/
theorem publishWithin_enough : ∀ {fuel more : Nat} {seen : List String} {g : Graph}, (g.unseen seen).length < fuel →
    fuel ≤ more → (publishWithin disk lint more seen).run g = (publishWithin disk lint fuel seen).run g
  | 0, _, _, _, h, _ => absurd h (Nat.not_lt_zero _)
  | _ + 1, 0, _, _, _, hle => absurd hle (Nat.not_succ_le_zero _)
  | fuel + 1, more + 1, seen, g, h, hle => by
    rw [run_publishWithin fuel rfl, run_publishWithin more rfl]
    by_cases hne : g.dirty.filter (!seen.contains ·) = []
    · simp only [hne, if_true]
    · have hless := length_unseen_lt disk lint rfl hne
      rw [if_neg hne, if_neg hne, publishWithin_enough (Nat.lt_of_lt_of_le hless (Nat.le_of_lt_succ h))
        (Nat.le_of_succ_le_succ hle)]

/-- When publishing has ended, everything that is dirty has been seen. -/
theorem seen_publishWithin : ∀ {fuel : Nat} {seen : List String} {g : Graph},
    (g.unseen seen).length < fuel → ∀ p ∈ ((publishWithin disk lint fuel seen).run g).2.dirty,
      p ∈ seen ∨ p ∈ (turnsWithin disk lint fuel seen g).map Prod.fst
  | 0, _, _, h => absurd h (Nat.not_lt_zero _)
  | fuel + 1, seen, g, h => by
    rw [run_publishWithin fuel rfl, turnsWithin]
    by_cases hne : g.dirty.filter (!seen.contains ·) = []
    · intro p hp
      rw [if_pos hne] at hp
      have hseen := List.filter_eq_nil_iff.mp hne p hp
      left
      simpa using hseen
    · have hless := length_unseen_lt disk lint rfl hne
      intro p hp
      rw [if_neg hne] at hp
      have ih := seen_publishWithin (Nat.lt_of_lt_of_le hless (Nat.le_of_lt_succ h)) p hp
      split
      · rename_i hnil
        exact absurd hnil hne
      · rw [List.map_append, map_turnsOf, List.mem_append]
        rcases ih with hp | hp
        · exact (List.mem_append.mp hp).imp_right Or.inl
        · exact Or.inr (Or.inr hp)

/-! ## Files of packages -/

def Belongs (layout : Layout) (path : String) (file : Path) : Prop :=
  ∃ dir, layout.importPathOf? dir = some path ∧ InDir dir file

/-- A file belongs to one package. -/
theorem Belongs.path_eq {layout : Layout} {path other : String} {p q : Path} (hp : Belongs layout path p)
    (hq : Belongs layout other q) (h : (p == q) = true) : path = other := by
  obtain ⟨dir, hdir, s, hs⟩ := hp
  obtain ⟨dir', hdir', s', hs'⟩ := hq
  have hcomponents : dir.components = dir'.components := by
    rw [beq_iff.mp h, hs'] at hs
    exact (List.append_inj_left' hs rfl).symm
  rw [layout.importPathOf?_congr hcomponents, hdir'] at hdir
  exact (Option.some_inj.mp hdir).symm

theorem SitedAt.belongs {layout : Layout} {path : String} {n : PackageNode} (h : SitedAt layout path n) {file : Path}
    (hf : n.files.contains file = true) : Belongs layout path file := by
  obtain ⟨q, hq, hbeq⟩ := List.contains_iff_exists_mem_beq.mp hf
  obtain ⟨s, hs⟩ := h.inside q hq
  exact ⟨n.dir, h.home, s, (beq_iff.mp hbeq).trans hs⟩

/-- If a package has no files, then nothing is wrong with its listing. -/
def Filed (g : Graph) (path : String) : Prop := ∀ n ∈ g.packages.find? path, n.files = [] → n.listErrors = []

instance (g : Graph) (path : String) : Decidable (g.Filed path) :=
  inferInstanceAs (Decidable (∀ n ∈ g.packages.find? path, n.files = [] → n.listErrors = []))

theorem Filed.listingErrors {path : String} (h : g.Filed path) {n : PackageNode}
    (hn : g.packages.find? path = some n) :
    ∀ e ∈ n.listingErrors, n.files.contains e.file = true := by
  intro e he
  by_cases hf : n.files = []
  · simp [PackageNode.listingErrors, h n hn hf] at he
  · exact file_of_listingErrors hf he

end Graph

namespace FileDiagnostics

theorem contains_add (t : FileDiagnostics) (file : Path) (ds : List Diagnostic) (p : Path) :
    (t.add file ds).contains p = (p == file || t.contains p) := by
  rw [add, Table.contains_eq, Table.find?_insert]
  by_cases h : (p == file) = true
  · simp [h]
  · simp [h, Table.contains_eq]

theorem contains_foldl_add {α : Type} {file : α → Path} {ds : α → List Diagnostic} {p : Path} : ∀ (as : List α)
    {t : FileDiagnostics}, t.contains p = true ∨ (∃ a ∈ as, (p == file a) = true) →
      (as.foldl (fun t a => FileDiagnostics.add t (file a) (ds a)) t).contains p = true
  | [], _, h => by simpa using h
  | a :: as, t, h => by
    rw [List.foldl_cons]
    apply contains_foldl_add as
    rw [contains_add]
    rcases h with h | ⟨b, hb, h⟩
    · simp [h]
    · rcases List.mem_cons.mp hb with rfl | hb
      · simp [h]
      · exact Or.inr ⟨b, hb, h⟩

theorem contains_ofNode {n : PackageNode} {file : Path} (h : file ∈ n.files) : (ofNode n).contains file = true := by
  apply contains_foldl_add
  left
  apply contains_foldl_add
  exact Or.inr ⟨file, h, BEq.rfl⟩

end FileDiagnostics

namespace Published

/-- A file that is listed, where no file is listed twice, is listed once. -/
theorem countP_eq_one {ps : Published} (hd : ps.Pairwise fun a b => ¬(a.1 == b.1) = true) {file : Path}
    (h : ∃ e ∈ ps, (e.1 == file) = true) : ps.countP (·.1 == file) = 1 := by
  induction ps with
  | nil =>
    obtain ⟨e, he, -⟩ := h
    cases he
  | cons e ps ih =>
    obtain ⟨hhead, hd⟩ := List.pairwise_cons.mp hd
    by_cases hbeq : (e.1 == file) = true
    · have hrest : ps.countP (·.1 == file) = 0 := by
        rw [List.countP_eq_zero]
        intro e' he' hbeq'
        exact hhead e' he' (BEq.trans hbeq (BEq.symm hbeq'))
      rw [List.countP_cons, hrest, if_pos hbeq]
    · rw [List.countP_cons, if_neg hbeq]
      apply ih hd
      obtain ⟨e', he', hbeq'⟩ := h
      rcases List.mem_cons.mp he' with rfl | he'
      · exact absurd hbeq' hbeq
      · exact ⟨e', he', hbeq'⟩

end Published

namespace Graph

variable {disk : Disk} {lint : Bool} {g g' : Graph}

/-! ## Turns -/

theorem parsed_analyseWithin {fuel : Nat} {path : String} {n : PackageNode} (hn : g.packages.find? path = some n) :
    Ends (analyseWithin disk (fuel + 1) path) g fun _ g' =>
      ∀ n', g'.packages.find? path = some n' → ∀ f ∈ n'.parsed, n.files.contains f.path = true := by
  have hnode : Ends (analyseNode disk (analyseWithin disk fuel) n) (g.startChecking path) fun a _ =>
      ∀ f ∈ a.parsed, n.files.contains f.path = true := by
    unfold analyseNode
    simp only [ends_bind, ends_get]
    split
    · exact fun f => file_of_parsed
    · exact fun f => file_of_parsed
  rw [ends_analyseWithin, hn]
  refine hnode.mono fun a t ha n' hn' => ?_
  rw [finishChecking, find?_modifyPackage, if_pos rfl] at hn'
  obtain ⟨last, -, rfl⟩ := Option.map_eq_some_iff.mp hn'
  exact ha

/-- A table with every file of a package, each one once, and with nothing else if the package is filed. -/
structure Sheet (g : Graph) (path : String) (n : PackageNode) (t : FileDiagnostics) : Prop where
  distinct : t.keys.Pairwise fun p q => ¬(p == q) = true
  all : ∀ f ∈ n.files, t.contains f = true
  only : g.Filed path → ∀ e ∈ t, Belongs g.layout path e.1

theorem Sheet.foldl_add {path : String} {n : PackageNode} {t : FileDiagnostics} (h : Sheet g path n t) {α : Type}
    {file : α → Path} {ds : α → List Diagnostic} {as : List α} (hf : ∀ a ∈ as, Belongs g.layout path (file a)) :
    Sheet g path n (as.foldl (fun t a => FileDiagnostics.add t (file a) (ds a)) t) := by
  constructor
  · exact FileDiagnostics.distinct_foldl_add as h.distinct
  · exact fun f hmem => FileDiagnostics.contains_foldl_add as (Or.inl (h.all f hmem))
  · exact fun hfiled => FileDiagnostics.forall_foldl_add (h.only hfiled) hf

section
variable (hd : disk.WellNamed) (h : AtRest g) {path : String} {n : PackageNode}
  (hn : g.packages.find? path = some n) (hs : n.state = .dirty)
include hd h hn hs

/-- The diagnostics of a dirty package are those of the package as it is after its analysis. -/
theorem AtRest.ends_diagnose_dirty : Ends (diagnose disk path) g fun ds g' => g'.layout = g.layout ∧
    ∃ n', g'.packages.find? path = some n' ∧ ds = .ofNode n' ∧
      (∀ f ∈ n'.parsed, n.files.contains f.path = true) ∧
      (g.Filed path → ∀ e ∈ n'.errors, n.files.contains e.file = true) := by
  rw [Graph.ends_diagnose, hn]
  dsimp only
  rw [if_neg (not_not.mpr hs)]
  have hfound : Ends (analyse disk path) g fun _ g' => ∀ n', g'.packages.find? path = some n' →
      (∀ f ∈ n'.parsed, n.files.contains f.path = true) ∧
      (g.Filed path → ∀ e ∈ n'.errors, n.files.contains e.file = true) := by
    unfold analyse
    rw [ends_bind, ends_get]
    by_cases hf : g.Filed path
    · refine ((parsed_analyseWithin hn).and (files_analyseWithin hn (hf.listingErrors hn))).mono fun _ g'
        ⟨hp, he⟩ => ?_
      exact fun n' hn' => ⟨hp n' hn', fun _ => he n' hn'⟩
    · refine (parsed_analyseWithin hn).mono fun _ g' hp => ?_
      exact fun n' hn' => ⟨hp n' hn', fun hf' => absurd hf' hf⟩
  refine ((h.ends_analyse hd path).and hfound).mono fun _ g' ⟨⟨h', hmoves⟩, hfound⟩ => ?_
  obtain ⟨n', hn', -⟩ := hmoves.kept path n hn
  have hcurrent : (g'.markCurrent path).packages.find? path = some { n' with state := .current } := by
    rw [markCurrent, find?_modifyPackage, if_pos rfl, hn']
    rfl
  have hlayout (surface : Option Surface) : ((g'.markCurrent path).publish path surface).layout = g'.layout := by
    unfold Graph.publish
    dsimp only
    split <;> rfl
  rw [hcurrent]
  refine ⟨(hlayout _).trans hmoves.layout, { n' with state := .current }, ?_, rfl, hfound n' hn'⟩
  exact find?_publish hcurrent (h'.sited.nodes path n' hn').path _

/-- What the turn of a package comes to. -/
theorem AtRest.ends_turn : Ends (publishPackage disk lint path) g fun ps g' => AtRest g' ∧ g'.layout = g.layout ∧
    ∃ n', g'.packages.find? path = some n' ∧ Sheet g path n' ps := by
  have hsite := h.sited.nodes path n hn
  rw [ends_publishPackage]
  refine ((h.ends_diagnose hd path).and (h.ends_diagnose_dirty hd hn hs)).mono fun ds g' hall => ?_
  obtain ⟨h', hlayout, n', hn', rfl, hp, he⟩ := hall
  have hsite' := hlayout ▸ h'.sited.nodes path n' hn'
  have hsheet : Sheet g path n' (.ofNode n') := by
    constructor
    · exact FileDiagnostics.distinct_foldl_add _ (FileDiagnostics.distinct_foldl_add n'.files .nil)
    · exact fun f => FileDiagnostics.contains_ofNode
    · intro hf
      apply FileDiagnostics.forall_ofNode
      · exact fun f hf => hsite'.belongs (contains_files ⟨f, hf, rfl⟩)
      · exact fun e hmem => hsite.belongs (he hf e hmem)
  rw [hn']
  cases lint with
  | false => exact ⟨h', hlayout, n', rfl, hsheet⟩
  | true =>
    refine ⟨h', hlayout, n', rfl, hsheet.foldl_add fun e hmem => ?_⟩
    obtain ⟨f, hf, rfl⟩ := List.mem_map.mp (List.mem_filter.mp hmem).1
    exact hsite.belongs (hp f hf)

end

/-- What turns keep in a pass: the modules, and that nothing is being analysed. -/
theorem turning_atRest (hd : disk.WellNamed) (layout : Layout) :
    Turning disk lint fun g => AtRest g ∧ g.layout = layout ∧ g.tracked.Nodup := by
  refine ⟨fun {g path} ⟨h, hl, ht⟩ ⟨n, hn, hs⟩ => ?_, fun {g path other} ⟨h, _, _⟩ hne hw => ?_, fun h => h.2.2⟩
  · obtain ⟨h', hl', -⟩ : AtRest (g.afterTurn disk lint path) ∧ (g.afterTurn disk lint path).layout = g.layout ∧ _ :=
      h.ends_turn hd hn hs
    have hkeeps : Keeps g (g.afterTurn disk lint path) := keeps_publishPackage lint path
    exact ⟨h', hl'.trans hl, hkeeps.tracked ▸ ht⟩
  · refine hw.afterTurn hne ((h.ends_analyse hd other).mono fun _ g' ⟨_, hmoves⟩ => ?_)
    obtain ⟨n, hn, hs⟩ := hw
    obtain ⟨n', hn', hages⟩ := hmoves.kept path n hn
    rw [hs] at hages
    exact ⟨n', hn', hages.resolve_right nofun⟩

/-! ## Passes -/

theorem keeps_ensureAnalysed (path : String) : Ends (ensureAnalysed disk path) g fun _ g' => Keeps g g' := by
  unfold ensureAnalysed
  rw [ends_bind, ends_get]
  cases g.packages.find? path with
  | none => exact .refl g
  | some n =>
    dsimp only
    split
    · unfold analyse
      simp only [ends_bind, ends_get]
      exact (keeps_analyseWithin _ path g).mono fun _ _ h => h
    · exact .refl g

theorem nodup_request (h : g.tracked.Nodup) (r : Request) : (r.after disk g).tracked.Nodup := by
  have hkeep (hk : Keeps g (r.after disk g)) : (r.after disk g).tracked.Nodup := hk.tracked ▸ h
  cases r with
  | load pattern => exact hkeep (keeps_load pattern)
  | track pattern =>
    change Ends (loadTracked disk pattern).run g fun _ g' => g'.tracked.Nodup
    unfold loadTracked
    rw [ends_then]
    refine (keeps_load pattern).mono fun r g' hkeeps => ?_
    have h' : g'.tracked.Nodup := hkeeps.tracked ▸ h
    cases r with
    | error e => exact h'
    | ok paths => exact nodup_track h' paths
  | analyse package => exact hkeep (keeps_ensureAnalysed package)
  | diagnose package => exact hkeep (keeps_diagnose package)
  | add file text =>
    change Ends (addFile disk (.ofString file) text).run g fun _ g' => g'.tracked.Nodup
    rw [← addFile_normalize]
    exact nodup_addFile h (normal_normalize _) text
  | update file text =>
    change Ends (updateFile disk (.ofString file) text).run g fun _ g' => g'.tracked.Nodup
    rw [← updateFile_normalize]
    exact nodup_updateFile h (normal_normalize _) text
  | close file =>
    change Ends (closeFile disk (.ofString file)).run g fun _ g' => g'.tracked.Nodup
    rw [← closeFile_normalize]
    exact nodup_closeFile h (normal_normalize _)

theorem Reached.nodup (h : Reached g) : g.tracked.Nodup := by
  induction h with
  | @discover disk root g hg =>
    unfold Graph.discover at hg
    cases hl : Layout.discover disk root with
    | error e =>
      rw [hl] at hg
      cases hg
    | ok layout =>
      rw [hl] at hg
      cases hg
      exact List.nodup_nil
  | request _ _ r ih => exact nodup_request ih r

/-- Publishing as one complete pass over the dirty packages. -/
structure Pass (disk : Disk) (lint : Bool) (g : Graph) : Prop where
  /-- It ends by itself, whatever bound there is on the number of rounds. -/
  unbounded : ∀ fuel, g.tracked.length < fuel →
    (publishWithin disk lint fuel []).run g = (publishAll disk lint).run g
  /-- What is dirty in the end has had its turn. -/
  ended : ∀ p ∈ ((publishAll disk lint).run g).2.dirty, p ∈ (g.turns disk lint).map Prod.fst
  dirty : ∀ p ∈ g.dirty, p ∈ (g.turns disk lint).map Prod.fst
  once : ((g.turns disk lint).map Prod.fst).Nodup
  waits : ∀ turn ∈ g.turns disk lint, turn.2.Waits turn.1
  /-- What is published is what the turns give. -/
  given : ((publishAll disk lint).run g).1 = (g.turns disk lint).flatMap (given disk lint)
  /-- A turn lists each file of its package once. -/
  files : ∀ turn ∈ g.turns disk lint, ∃ n, (turn.2.afterTurn disk lint turn.1).packages.find? turn.1 = some n ∧
    ∀ f ∈ n.files, (Graph.given disk lint turn).countP (·.1 == f) = 1
  /-- If every package that has a turn is filed, then no file is listed twice. -/
  apart : (∀ turn ∈ g.turns disk lint, turn.2.Filed turn.1) →
    (((publishAll disk lint).run g).1.Pairwise fun a b => ¬(a.1 == b.1) = true) ∧
      ∀ turn ∈ g.turns disk lint, ∀ n, (turn.2.afterTurn disk lint turn.1).packages.find? turn.1 = some n →
        ∀ f ∈ n.files, ((publishAll disk lint).run g).1.countP (·.1 == f) = 1

theorem Sheet.pairwise {path : String} {n : PackageNode} {t : FileDiagnostics} (h : Sheet g path n t) :
    t.Pairwise fun a b => ¬(a.1 == b.1) = true :=
  List.pairwise_map.mp h.distinct

theorem Sheet.listed {path : String} {n : PackageNode} {t : FileDiagnostics} (h : Sheet g path n t) {f : Path}
    (hf : f ∈ n.files) : ∃ e ∈ t, (e.1 == f) = true := by
  obtain ⟨ds, hfind⟩ := Option.isSome_iff_exists.mp (h.all f hf)
  obtain ⟨k, hk, hbeq⟩ := Table.exists_key_of_find? hfind
  obtain ⟨e, he, rfl⟩ := List.mem_map.mp hk
  exact ⟨e, he, BEq.symm hbeq⟩

/-- Each turn of a pass comes to a sheet of its package. -/
theorem Reached.forall_turns (hd : disk.WellNamed) (lint : Bool) (hg : Reached g) :
    ((g.turns disk lint).map Prod.fst).Nodup ∧ ∀ turn ∈ g.turns disk lint, turn.2.Waits turn.1 ∧
      turn.2.layout = g.layout ∧ ∃ n, (turn.2.afterTurn disk lint turn.1).packages.find? turn.1 = some n ∧
        Sheet turn.2 turn.1 n (given disk lint turn) := by
  have hturning : Turning disk lint fun t => AtRest t ∧ t.layout = g.layout ∧ t.tracked.Nodup :=
    turning_atRest hd g.layout
  have hstart : AtRest g ∧ g.layout = g.layout ∧ g.tracked.Nodup := ⟨hg.atRest, rfl, hg.nodup⟩
  refine ⟨hturning.nodup_turnsWithin hstart, fun turn ht => ?_⟩
  obtain ⟨⟨hrest, hlayout, -⟩, ⟨n, hn, hs⟩, -⟩ := hturning.forall_turnsWithin hstart turn ht
  refine ⟨⟨n, hn, hs⟩, hlayout, ?_⟩
  have hturn : Ends (publishPackage disk lint turn.1) turn.2 _ := hrest.ends_turn hd hn hs
  obtain ⟨-, -, hsheet⟩ := ends_iff.mp hturn
  exact hsheet

/-- Turns of filed packages list different files. -/
theorem Reached.pairwise_given (hd : disk.WellNamed) (hg : Reached g)
    (hf : ∀ turn ∈ g.turns disk lint, turn.2.Filed turn.1) :
    ((g.turns disk lint).flatMap (given disk lint)).Pairwise fun a b => ¬(a.1 == b.1) = true := by
  obtain ⟨honce, hturns⟩ := hg.forall_turns hd lint
  rw [List.pairwise_flatMap]
  refine ⟨fun turn ht => ?_, ?_⟩
  · obtain ⟨-, -, n, -, hsheet⟩ := hturns turn ht
    exact hsheet.pairwise
  · refine (List.pairwise_map.mp honce).imp_of_mem fun {turn other} ht ho hne a ha b hb hbeq => hne ?_
    obtain ⟨-, hlayout, n, -, hsheet⟩ := hturns turn ht
    obtain ⟨-, hlayout', n', -, hsheet'⟩ := hturns other ho
    have ha := hsheet.only (hf turn ht) a ha
    have hb := hsheet'.only (hf other ho) b hb
    rw [hlayout] at ha
    rw [hlayout'] at hb
    exact ha.path_eq hb hbeq

/-- After any requests, publishing is one complete pass. -/
theorem pass_of_reached (hd : disk.WellNamed) (hg : Reached g) (lint : Bool) : Pass disk lint g := by
  obtain ⟨honce, hturns⟩ := hg.forall_turns hd lint
  have hbound : (g.unseen []).length < g.tracked.length + 1 := Nat.lt_succ_of_le (List.length_filter_le _ _)
  have hgiven : ((publishAll disk lint).run g).1 = (g.turns disk lint).flatMap (given disk lint) := ends_turns
  constructor
  case unbounded => exact fun fuel hfuel => publishWithin_enough hbound hfuel
  case ended =>
    intro p hp
    exact (seen_publishWithin hbound p hp).resolve_left List.not_mem_nil
  case dirty =>
    intro p hp
    obtain ⟨t, ht⟩ : ∃ t, (p, t) ∈ g.turns disk lint := mem_turns hp
    exact List.mem_map_of_mem (f := Prod.fst) ht
  case once => exact honce
  case waits => exact fun turn ht => (hturns turn ht).1
  case given => exact hgiven
  case files =>
    intro turn ht
    obtain ⟨-, -, n, hn, hsheet⟩ := hturns turn ht
    exact ⟨n, hn, fun f hf => Published.countP_eq_one hsheet.pairwise (hsheet.listed hf)⟩
  case apart =>
    intro hf
    have hapart := hg.pairwise_given hd hf
    rw [hgiven]
    refine ⟨hapart, fun turn ht n hn f hmem => Published.countP_eq_one hapart ?_⟩
    obtain ⟨-, -, n', hn', hsheet⟩ := hturns turn ht
    rw [hn] at hn'
    cases hn'
    obtain ⟨e, he, hbeq⟩ := hsheet.listed hmem
    exact ⟨e, List.mem_flatMap.mpr ⟨turn, ht, he⟩, hbeq⟩

theorem pass_of_reached_sample : sampleDisk.WellNamed ∧ Reached sampleCycle ∧
    sampleCycle.dirty = ["example.com/m/b"] ∧
    (∀ turn ∈ sampleCycle.turns sampleDisk true, turn.2.Filed turn.1) ∧ Pass sampleDisk true sampleCycle := by
  have hd : sampleDisk.WellNamed := by decide
  exact ⟨hd, reached_sampleCycle, by decide +kernel, by decide +kernel, pass_of_reached hd reached_sampleCycle true⟩

end Graph

end IdlWorkbench
