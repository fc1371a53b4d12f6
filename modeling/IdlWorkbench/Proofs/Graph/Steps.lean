import IdlWorkbench.Proofs.Graph.Consistent

/-!
# What requests come to

Each edit and each diagnosis as the graphs that it goes through, without the state monad. Below them stands what
no request about packages changes, whatever goes wrong in it: the held texts, the tracked packages, and which
packages are there.
-/

namespace IdlWorkbench.Graph

open IdlWorkbench.Path

variable {disk : Disk} {g g' g'' : Graph}

/-! ## Edits -/

theorem ends_loadNew {dir : Path} {text : String} {Q : Except AddError String → Graph → Prop} :
    Ends (loadNew disk dir text).run g Q ↔
      match g.overlay.addForNewPackage disk dir ((Token.packageClauseName text).getD dir.fileName) with
      | .error e => Q (.error (.layout e)) g
      | .ok r =>
        Ends (loadOne disk dir.text).run { g with overlay := r.2, memo := g.memo.erase dir.text } fun r g' =>
          match r with
          | .error e => Q (.error (.load e)) g'
          | .ok path => Q (.ok path) (g'.modifyPackage path PackageNode.markDirty) := by
  unfold loadNew
  simp only [ends_then, ends_get_run, ends_lift]
  cases g.overlay.addForNewPackage disk dir ((Token.packageClauseName text).getD dir.fileName) with
  | error e => exact Iff.rfl
  | ok r =>
    simp only [Except.mapError, ends_set_run, ends_adapt]
    refine ends_congr fun r g' => ?_
    cases r <;> exact Iff.rfl

section
variable {file : Path} (hn : file.Normal) {text : String}
include hn

theorem ends_addFile {Q : Except AddError String → Graph → Prop} :
    Ends (addFile disk file text).run g Q ↔
      match directoryOf? file with
      | none => Q (.error (.noParent file)) g
      | some dir =>
        match g.packageIn? dir with
        | some n => Q (.ok n.path) (((g.hold file text).modifyPackage n.path (addToNode file)).noteEdit n.path)
        | none => Ends (loadNew disk dir text).run (g.hold file text) fun r g' =>
            match r with
            | .error e => Q (.error e) g'
            | .ok path => Q (.ok path) (g'.noteEdit path) := by
  unfold addFile
  rw [hn]
  dsimp only
  cases directoryOf? file with
  | none => exact Iff.rfl
  | some dir =>
    simp only [ends_then, ends_modify_run, ends_get_run]
    rw [show (g.hold file text).packageIn? dir = g.packageIn? dir from rfl]
    cases g.packageIn? dir with
    | some n => exact Iff.rfl
    | none =>
      dsimp only
      rw [ends_then]
      refine ends_congr fun r g' => ?_
      cases r <;> exact Iff.rfl

theorem ends_updateFile {Q : Except AddError String → Graph → Prop} :
    Ends (updateFile disk file text).run g Q ↔
      match directoryOf? file with
      | none => Q (.error (.noParent file)) g
      | some dir =>
        match g.packageIn? dir with
        | none => Ends (addFile disk file text).run g Q
        | some n =>
          match (g.hold file text).idlFiles disk dir with
          | .error e => Q (.error (.layout e)) (g.hold file text)
          | .ok files => Q (.ok n.path)
              (((g.hold file text).modifyPackage n.path fun n => { n with files }.markDirty).noteEdit n.path) := by
  unfold updateFile
  rw [hn]
  dsimp only
  cases directoryOf? file with
  | none => exact Iff.rfl
  | some dir =>
    simp only [ends_then, ends_get_run]
    cases g.packageIn? dir with
    | none => exact Iff.rfl
    | some n =>
      simp only [ends_then, ends_modify_run, ends_get_run, ends_lift]
      cases (g.hold file text).idlFiles disk dir <;> exact Iff.rfl

end

def packageOf? (g : Graph) (file : Path) : Option PackageNode := (directoryOf? file).bind g.packageIn?

/-- The graph when a file is released and its package is looked at again. -/
def released (g : Graph) (file : Path) (path : String) : Graph := ((g.release file).evictMemo path).invalidate path

theorem find?_released (file : Path) (path key : String) :
    (g.released file path).packages.find? key = (g.packages.find? key).map (invalidateNode path) := by
  rw [Graph.released, find?_invalidate, packages_evictMemo]
  rfl

theorem released_eq (file : Path) (path : String) : (g.released file path).layout = g.layout ∧
    (g.released file path).overlay = g.overlay ∧ (g.released file path).held = (g.release file).held := by
  unfold Graph.released evictMemo
  dsimp only
  split <;> exact ⟨rfl, rfl, rfl⟩

theorem ends_closeFile {file : Path} (hn : file.Normal) {Q : Except CloseError Closed → Graph → Prop} :
    Ends (closeFile disk file).run g Q ↔
      match g.packageOf? file with
      | none => Q (.error (.notLoaded file)) g
      | some n =>
        match (g.release file).idlFiles disk n.dir with
        | .error e => Q (.error (.layout e)) (g.release file)
        | .ok files =>
          if files.isEmpty then Q (.ok (.evicted n.path)) ((g.released file n.path).evict n.path)
          else Q (.ok (.dirty n.path))
            ((g.released file n.path).modifyPackage n.path fun n => { n with files }.markDirty) := by
  unfold closeFile packageOf?
  rw [hn]
  simp only [ends_then, ends_get_run]
  cases (directoryOf? file).bind g.packageIn? with
  | none => exact Iff.rfl
  | some n =>
    simp only [ends_then, ends_modify_run, ends_get_run, ends_lift]
    cases (g.release file).idlFiles disk n.dir with
    | error e => exact Iff.rfl
    | ok files =>
      simp only [Except.mapError]
      split <;> exact Iff.rfl

/-! ## Diagnoses -/

def markCurrent (g : Graph) (path : String) : Graph :=
  g.modifyPackage path fun n => { n with state := .current }

theorem ends_diagnose {path : String} {Q : FileDiagnostics → Graph → Prop} :
    Ends (diagnose disk path) g Q ↔
      match g.packages.find? path with
      | none => Q [] g
      | some n =>
        if n.state ≠ .dirty then Q [] g
        else Ends (analyse disk path) g fun _ g' =>
          match (g'.markCurrent path).packages.find? path with
          | none => Q [] (g'.markCurrent path)
          | some n' => Q (.ofNode n') ((g'.markCurrent path).publish path n'.surface?) := by
  unfold diagnose
  rw [ends_bind, ends_get]
  cases g.packages.find? path with
  | none => exact Iff.rfl
  | some n =>
    dsimp only
    split
    · exact Iff.rfl
    · rw [ends_bind]
      refine ends_congr fun _ g' => ?_
      rw [ends_bind, ends_modify, ends_bind, ends_get]
      rw [← markCurrent]
      cases (g'.markCurrent path).packages.find? path <;> exact Iff.rfl

/-! ## What requests about packages leave alone -/

structure Keeps (g g' : Graph) : Prop where
  held : g'.held = g.held
  tracked : g'.tracked = g.tracked
  packages : ∀ key, g.packages.contains key = true → g'.packages.contains key = true

theorem Keeps.refl (g : Graph) : Keeps g g := ⟨rfl, rfl, fun _ h => h⟩

theorem Keeps.trans (h : Keeps g g') (h' : Keeps g' g'') : Keeps g g'' :=
  ⟨h'.held.trans h.held, h'.tracked.trans h.tracked, fun key hk => h'.packages key (h.packages key hk)⟩

theorem keeps_modifyPackage (path : String) (f : PackageNode → PackageNode) : Keeps g (g.modifyPackage path f) :=
  ⟨rfl, rfl, fun key hk => (contains_modifyPackage path f key).trans hk⟩

theorem keeps_enterListed (l : Listed) : Ends (enterListed disk l).run g fun _ g' => Keeps g g' := by
  rw [ends_enterListed]
  cases g.idlFiles disk l.dir with
  | error e => exact .refl g
  | ok files =>
    dsimp only
    split
    · exact .refl g
    · refine ⟨rfl, rfl, fun key hk => ?_⟩
      rw [Table.contains_eq, Table.find?_insert]
      split
      · rfl
      · exact hk

/-- Loading keeps what does not depend on placeholders and memory, and what entering listed packages keeps. -/
theorem kept_load {pattern : String} {P : Graph → Prop} (h : P g)
    (haside : ∀ t overlay memo, P t → P { t with overlay, memo })
    (henter : ∀ l t, P t → Ends (enterListed disk l).run t fun _ t' => P t') :
    Ends (load disk pattern).run g fun _ g' => P g' := by
  rw [ends_load]
  cases g.remembered? pattern with
  | some paths => exact h
  | none =>
    dsimp only
    cases g.readied disk pattern with
    | error e => exact haside g _ g.memo h
    | ok overlay =>
      dsimp only
      have h' : P { g with overlay } := haside g overlay g.memo h
      cases Listed.ofPattern disk g.layout overlay pattern with
      | error e => exact h'
      | ok listed =>
        have hround : ∀ l ∈ listed, ∀ t, P t → Ends (enterListed disk l).run t fun r t' =>
            P t' ∧ ∀ p, r = .ok (some p) → True := fun l _ t ht =>
          (henter l t ht).mono fun _ _ ht' => ⟨ht', fun _ _ => trivial⟩
        refine (ends_filterMapM hround h').mono fun r t ⟨ht, _⟩ => ?_
        cases r with
        | error e => exact ht
        | ok paths => exact haside t t.overlay _ ht

theorem keeps_load (pattern : String) : Ends (load disk pattern).run g fun _ g' => Keeps g g' :=
  kept_load (.refl g) (fun _ _ _ h => ⟨h.held, h.tracked, h.packages⟩) fun l _ ht =>
    (keeps_enterListed l).mono fun _ _ h => ht.trans h

theorem keeps_loadOne (pattern : String) : Ends (loadOne disk pattern).run g fun _ g' => Keeps g g' := by
  rw [ends_loadOne]
  refine (keeps_load pattern).mono fun r _ h => ?_
  split <;> exact h

theorem keeps_markCycle (path : String) : Keeps g (g.markCycle path) := by
  have hall : ∀ (paths : List String) (g : Graph),
      Keeps g (paths.foldl (fun g p => g.modifyPackage p fun n => { n with inCycle := true }) g) := by
    intro paths
    induction paths with
    | nil => exact fun g => .refl g
    | cons p paths ih => exact fun g => (keeps_modifyPackage p _).trans (ih _)
  unfold markCycle
  split
  · exact hall _ _
  · exact .refl g

section
variable {analyse : String → StateM Graph Unit} (ha : ∀ path g, Ends (analyse path) g fun _ g' => Keeps g g')
include ha

theorem keeps_importPackage (path : String) :
    Ends (importPackage disk analyse path).run g fun _ g' => Keeps g g' := by
  refine kept_importPackage (P := Keeps g) (fun _ => .refl g) (fun _ => keeps_loadOne path) ?_ ?_
  · exact fun path t h => h.trans (keeps_markCycle path)
  · exact fun path t h _ => (ha path t).mono fun _ _ h' => h.trans h'

theorem keeps_analyseNode (n : PackageNode) : Ends (analyseNode disk analyse n) g fun _ g' => Keeps g g' := by
  unfold analyseNode
  simp only [ends_bind, ends_get]
  split
  · rw [ends_bind]
    have hpush : Keeps g { g with building := n.path :: g.building } := ⟨rfl, rfl, fun _ h => h⟩
    refine (kept_checkTypes hpush fun path _ t ht => ?_).mono fun _ g' => ?_
    · exact (keeps_importPackage ha path).mono fun _ _ h => ht.trans h
    · rintro ⟨t, ht, rfl⟩
      exact ⟨ht.held, ht.tracked, ht.packages⟩
  · exact .refl g

end

theorem keeps_analyseWithin (fuel : Nat) : ∀ (path : String) (g : Graph),
    Ends (analyseWithin disk fuel path) g fun _ g' => Keeps g g' := by
  induction fuel with
  | zero => exact fun _ g => .refl g
  | succ fuel ih =>
    intro path g
    rw [ends_analyseWithin]
    cases g.packages.find? path with
    | none => exact .refl g
    | some n =>
      refine (keeps_analyseNode ih n).mono fun _ _ h => ?_
      exact ((keeps_modifyPackage path _).trans h).trans (keeps_modifyPackage path _)

theorem keeps_invalidate (path : String) : Keeps g (g.invalidate path) :=
  ⟨rfl, rfl, fun key hk => (contains_invalidate path key).trans hk⟩

theorem keeps_publish (path : String) (surface : Option Surface) : Keeps g (g.publish path surface) := by
  unfold publish
  simp only
  split
  · exact ⟨rfl, rfl, (keeps_invalidate path).packages⟩
  · exact ⟨rfl, rfl, fun _ h => h⟩

theorem find?_publish {path : String} {n : PackageNode} (hn : g.packages.find? path = some n) (hp : n.path = path)
    (surface : Option Surface) : (g.publish path surface).packages.find? path = some n := by
  unfold Graph.publish
  dsimp only
  split
  · rw [find?_invalidate]
    have hsame : invalidateNode path n = n := by simp [invalidateNode, hp]
    simp [hn, hsame]
  · exact hn

theorem keeps_diagnose (path : String) : Ends (diagnose disk path) g fun _ g' => Keeps g g' := by
  rw [ends_diagnose]
  cases g.packages.find? path with
  | none => exact .refl g
  | some n =>
    dsimp only
    split
    · exact .refl g
    · unfold analyse
      rw [ends_bind, ends_get]
      refine (keeps_analyseWithin _ path g).mono fun _ g' h => ?_
      have h' : Keeps g (g'.markCurrent path) := h.trans (keeps_modifyPackage path _)
      cases (g'.markCurrent path).packages.find? path with
      | none => exact h'
      | some n => exact h'.trans (keeps_publish path n.surface?)

end IdlWorkbench.Graph
