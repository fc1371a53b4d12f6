import IdlWorkbench.Proofs.Session.Steady

/-!
# Turns

Publishing gives every dirty package a turn. What is published is what the turns give, one after the other. A
package has at most one turn, and is still dirty when it comes.
-/

namespace IdlWorkbench

open IdlWorkbench.Path

namespace Graph

def afterTurn (disk : Disk) (lint : Bool) (g : Graph) (path : String) : Graph :=
  ((publishPackage disk lint path).run g).2

/-- The turns of some packages, each one with the graph that it finds. -/
def turnsOf (disk : Disk) (lint : Bool) : List String → Graph → List (String × Graph)
  | [], _ => []
  | path :: rest, g => (path, g) :: turnsOf disk lint rest (g.afterTurn disk lint path)

def turnsWithin (disk : Disk) (lint : Bool) : (fuel : Nat) → (seen : List String) → Graph → List (String × Graph)
  | 0, _, _ => []
  | fuel + 1, seen, g =>
    match g.dirty.filter (!seen.contains ·) with
    | [] => []
    | paths => turnsOf disk lint paths g ++
        turnsWithin disk lint fuel (seen ++ paths) (paths.foldl (afterTurn disk lint) g)

def turns (disk : Disk) (lint : Bool) (g : Graph) : List (String × Graph) :=
  turnsWithin disk lint (g.tracked.length + 1) [] g

def given (disk : Disk) (lint : Bool) (turn : String × Graph) : Published :=
  ((publishPackage disk lint turn.1).run turn.2).1

variable {disk : Disk} {m : ModuleRoot} {lint : Bool} {g : Graph}

/-! ## What the turns give -/

theorem ends_turnsOf : ∀ (paths : List String) (g : Graph),
    Ends (paths.mapM (publishPackage disk lint)) g fun ps g' =>
    ps.flatten = (turnsOf disk lint paths g).flatMap (given disk lint) ∧ g' = paths.foldl (afterTurn disk lint) g
  | [], _ => ⟨rfl, rfl⟩
  | path :: rest, g => by
    rw [List.mapM_cons, ends_bind, ends_iff]
    have ih : Ends (rest.mapM (publishPackage disk lint)) (g.afterTurn disk lint path) fun ps g' =>
        ps.flatten = (turnsOf disk lint rest (g.afterTurn disk lint path)).flatMap (given disk lint) ∧
          g' = rest.foldl (afterTurn disk lint) (g.afterTurn disk lint path) := ends_turnsOf rest _
    rw [ends_bind]
    refine ih.mono fun ps g' ⟨hps, hg'⟩ => ?_
    rw [ends_pure, List.flatten_cons, hps]
    exact ⟨rfl, hg'⟩

theorem ends_turnsWithin : ∀ (fuel : Nat) (seen : List String) (g : Graph),
    Ends (publishWithin disk lint fuel seen) g fun ps _ =>
      ps = (turnsWithin disk lint fuel seen g).flatMap (given disk lint)
  | 0, _, _ => rfl
  | fuel + 1, seen, g => by
    rw [publishWithin, turnsWithin, ends_bind, ends_get]
    cases g.dirty.filter (!seen.contains ·) with
    | nil => rfl
    | cons path rest =>
      dsimp only
      rw [ends_bind]
      refine (ends_turnsOf _ g).mono fun now g' hall => ?_
      obtain ⟨hnow, rfl⟩ := hall
      rw [ends_bind]
      refine (ends_turnsWithin fuel _ _).mono fun later _ hlater => ?_
      rw [ends_pure, hnow, hlater, List.flatMap_append]

theorem ends_turns : Ends (publishAll disk lint) g fun ps _ =>
      ps = (g.turns disk lint).flatMap (given disk lint) := by
  unfold publishAll
  rw [ends_bind, ends_get]
  exact ends_turnsWithin _ _ g

/-! ## Graphs that turns find -/

def Waits (g : Graph) (path : String) : Prop := ∃ n, g.packages.find? path = some n ∧ n.state = .dirty

theorem waits_of_mem_dirty {path : String} (h : path ∈ g.dirty) : g.Waits path := by
  have hdirty := (List.mem_filter.mp h).2
  rw [Option.any_eq_true] at hdirty
  obtain ⟨n, hn, hs⟩ := hdirty
  exact ⟨n, hn, of_decide_eq_true hs⟩

theorem Waits.publish {path : String} (h : g.Waits path) (other : String) (surface : Option Surface) :
    (g.publish other surface).Waits path := by
  obtain ⟨n, hn, hs⟩ := h
  unfold Graph.publish
  dsimp only
  split
  · refine ⟨invalidateNode other n, ?_, ?_⟩
    · rw [find?_invalidate]
      exact congrArg (Option.map _) hn
    · unfold invalidateNode
      split
      · exact hs
      · simp [hs]
  · exact ⟨n, hn, hs⟩

/-- A package that still waits when another one has been analysed still waits after its turn. -/
theorem Waits.afterTurn {path other : String} (h : g.Waits path) (hne : path ≠ other)
    (ha : Ends (analyse disk other) g fun _ g' => g'.Waits path) : (g.afterTurn disk lint other).Waits path := by
  change Ends (publishPackage disk lint other) g fun _ g' => g'.Waits path
  have hdiagnose : Ends (diagnose disk other) g fun _ g' => g'.Waits path := by
    rw [Graph.ends_diagnose]
    cases g.packages.find? other with
    | none => exact h
    | some n' =>
      dsimp only
      split
      · exact h
      · refine ha.mono fun _ g' ⟨n, hn, hs⟩ => ?_
        have hcurrent : (g'.markCurrent other).Waits path := by
          refine ⟨n, ?_, hs⟩
          rw [markCurrent, find?_modifyPackage, if_neg hne]
          exact hn
        cases (g'.markCurrent other).packages.find? other with
        | none => exact hcurrent
        | some n₂ => exact hcurrent.publish other n₂.surface?
  rw [Graph.ends_publishPackage]
  refine hdiagnose.mono fun _ _ h' => ?_
  split <;> exact h'

theorem map_turnsOf (disk : Disk) (lint : Bool) : ∀ (paths : List String) (g : Graph),
    (turnsOf disk lint paths g).map Prod.fst = paths
  | [], _ => rfl
  | path :: rest, g => congrArg (path :: ·) (map_turnsOf disk lint rest (g.afterTurn disk lint path))

theorem turnsOf_append (disk : Disk) (lint : Bool) : ∀ (paths more : List String) (g : Graph),
    turnsOf disk lint (paths ++ more) g =
      turnsOf disk lint paths g ++ turnsOf disk lint more (paths.foldl (afterTurn disk lint) g)
  | [], _, _ => rfl
  | path :: rest, more, g =>
    congrArg ((path, g) :: ·) (turnsOf_append disk lint rest more (g.afterTurn disk lint path))

/-- The turns of all rounds are the turns of their packages, one after the other. -/
theorem turnsWithin_eq (disk : Disk) (lint : Bool) : ∀ (fuel : Nat) (seen : List String) (g : Graph),
    turnsWithin disk lint fuel seen g = turnsOf disk lint ((turnsWithin disk lint fuel seen g).map Prod.fst) g
  | 0, _, _ => rfl
  | fuel + 1, seen, g => by
    rw [turnsWithin]
    split
    · rfl
    · rename_i paths _
      rw [List.map_append, map_turnsOf, turnsOf_append, ← turnsWithin_eq disk lint fuel]

/-- A property that turns keep, as long as it makes them keep what waits. -/
structure Turning (disk : Disk) (lint : Bool) (I : Graph → Prop) : Prop where
  next : ∀ {g : Graph} {path : String}, I g → g.Waits path → I (g.afterTurn disk lint path)
  waits : ∀ {g : Graph} {path other : String}, I g → path ≠ other → g.Waits path →
    (g.afterTurn disk lint other).Waits path
  tracked : ∀ {g : Graph}, I g → g.tracked.Nodup

section
variable {I : Graph → Prop} (hI : Turning disk lint I)
include hI

theorem Turning.forall_turnsOf : ∀ {paths : List String} {g : Graph}, I g → paths.Nodup → (∀ p ∈ paths, g.Waits p) →
    (∀ turn ∈ turnsOf disk lint paths g, I turn.2 ∧ turn.2.Waits turn.1 ∧ Keeps g turn.2) ∧
      I (paths.foldl (afterTurn disk lint) g) ∧ Keeps g (paths.foldl (afterTurn disk lint) g)
  | [], g, h, _, _ => ⟨by simp [turnsOf], h, .refl g⟩
  | path :: rest, g, h, hnodup, hw => by
    obtain ⟨hnot, hnodup⟩ := List.nodup_cons.mp hnodup
    have hwait := hw path (by simp)
    have hkeeps : Keeps g (g.afterTurn disk lint path) := keeps_publishPackage lint path
    have hwaits : ∀ p ∈ rest, (g.afterTurn disk lint path).Waits p := fun p hp =>
      hI.waits h (fun he => hnot (he ▸ hp)) (hw p (List.mem_cons_of_mem _ hp))
    obtain ⟨hturns, hlast, hkeeps'⟩ := Turning.forall_turnsOf (hI.next h hwait) hnodup hwaits
    refine ⟨fun turn ht => ?_, hlast, hkeeps.trans hkeeps'⟩
    rcases List.mem_cons.mp ht with rfl | ht
    · exact ⟨h, hwait, .refl g⟩
    · obtain ⟨h', hwait', hk⟩ := hturns turn ht
      exact ⟨h', hwait', hkeeps.trans hk⟩

/-- The packages of a round wait, and each of them is there once. -/
theorem Turning.forall_round (seen : List String) (h : I g) :
    (g.dirty.filter (!seen.contains ·)).Nodup ∧ ∀ p ∈ g.dirty.filter (!seen.contains ·), g.Waits p ∧ p ∉ seen := by
  refine ⟨((hI.tracked h).filter _).filter _, fun p hp => ?_⟩
  obtain ⟨hdirty, hnew⟩ := List.mem_filter.mp hp
  exact ⟨waits_of_mem_dirty hdirty, by simpa using hnew⟩

theorem Turning.forall_turnsWithin : ∀ {fuel : Nat} {seen : List String} {g : Graph},
    I g → ∀ turn ∈ turnsWithin disk lint fuel seen g, I turn.2 ∧ turn.2.Waits turn.1 ∧ Keeps g turn.2 ∧ turn.1 ∉ seen
  | 0, _, _, _ => fun _ ht => nomatch ht
  | fuel + 1, seen, g, h => by
    intro turn ht
    rw [turnsWithin] at ht
    obtain ⟨hnodup, hround⟩ := hI.forall_round seen h
    obtain ⟨hturns, hlast, hkeeps⟩ := hI.forall_turnsOf h hnodup fun p hp => (hround p hp).1
    split at ht
    · cases ht
    · rcases List.mem_append.mp ht with ht | ht
      · obtain ⟨h', hwait, hk⟩ := hturns turn ht
        have hmem := List.mem_map_of_mem (f := Prod.fst) ht
        rw [map_turnsOf] at hmem
        exact ⟨h', hwait, hk, (hround turn.1 hmem).2⟩
      · obtain ⟨h', hwait, hk, hnot⟩ := Turning.forall_turnsWithin hlast turn ht
        exact ⟨h', hwait, hkeeps.trans hk, fun hs => hnot (List.mem_append_left _ hs)⟩

/-- No package has two turns. -/
theorem Turning.nodup_turnsWithin : ∀ {fuel : Nat} {seen : List String} {g : Graph},
    I g → ((turnsWithin disk lint fuel seen g).map Prod.fst).Nodup
  | 0, _, _, _ => List.nodup_nil
  | fuel + 1, seen, g, h => by
    rw [turnsWithin]
    obtain ⟨hnodup, hround⟩ := hI.forall_round seen h
    obtain ⟨-, hlast, -⟩ := hI.forall_turnsOf h hnodup fun p hp => (hround p hp).1
    split
    · exact List.nodup_nil
    · rw [List.map_append, map_turnsOf]
      refine List.nodup_append.mpr ⟨hnodup, Turning.nodup_turnsWithin hlast, ?_⟩
      rintro p hp q hq rfl
      obtain ⟨turn, hturn, rfl⟩ := List.mem_map.mp hq
      exact (hI.forall_turnsWithin hlast turn hturn).2.2.2 (List.mem_append_right _ hp)

end

section
variable (hd : disk.WellNamed) (hm : m.dir.Rooted) (hnamed : m.Named) (lint : Bool)
include hd hm hnamed

theorem Steady.turning : Turning disk lint (Steady disk m) := by
  refine ⟨fun h ⟨n, hn, _⟩ => h.ends_publishPackage hd hm hnamed lint (contains_iff.mpr ⟨n, hn⟩), ?_, fun h =>
    h.tracked⟩
  intro g path other h hne hw
  refine hw.afterTurn hne ?_
  unfold analyse
  rw [ends_bind, ends_get]
  have hrun := analyses_analyseWithin hd hm (g.size disk + 2) other g h.resting.inv fun n hn =>
    h.resting.states other n hn
  refine hrun.mono fun _ g' ⟨_, he⟩ => ?_
  obtain ⟨n, hn, hs⟩ := hw
  obtain ⟨n', hn', hs'⟩ := he.kept path n hn
  exact ⟨n', hn', hs'.trans hs⟩

theorem Steady.forall_turns (h : Steady disk m g) :
    ∀ turn ∈ g.turns disk lint, Steady disk m turn.2 ∧ turn.2.Waits turn.1 ∧ Keeps g turn.2 := by
  intro turn ht
  obtain ⟨hsteady, hwaits, hkeeps, -⟩ := (Steady.turning hd hm hnamed lint).forall_turnsWithin h turn ht
  exact ⟨hsteady, hwaits, hkeeps⟩

theorem Steady.nodup_turns (h : Steady disk m g) : ((g.turns disk lint).map Prod.fst).Nodup :=
  (Steady.turning hd hm hnamed lint).nodup_turnsWithin h

end

/-- Every package that is out of date has a turn. -/
theorem mem_turns {path : String} (h : path ∈ g.dirty) : ∃ g₁, (path, g₁) ∈ g.turns disk lint := by
  unfold turns
  rw [turnsWithin]
  have hall : g.dirty.filter (!([] : List String).contains ·) = g.dirty := by simp
  rw [hall]
  split
  · rename_i hnil
    rw [hnil] at h
    cases h
  · rw [← map_turnsOf disk lint g.dirty g] at h
    obtain ⟨turn, hturn, rfl⟩ := List.mem_map.mp h
    exact ⟨turn.2, List.mem_append_left _ hturn⟩

end Graph

end IdlWorkbench
