import IdlWorkbench.Proofs.Graph.Invariant
import IdlWorkbench.Proofs.Workspace.Overlay

/-!
# Loading keeps the invariant

A package that is listed again has the same directory and, as long as no text is held or released, the same
files, so what is known about it stays. Whatever `load` answers is in the graph afterwards.
-/

namespace IdlWorkbench.Graph

open IdlWorkbench.Path

section
variable {disk : Disk} {m : ModuleRoot} {g : Graph}

/-- A change of the memory alone. -/
theorem Inv.withMemo (hi : Inv disk m g) (memo : Table String (List String))
    (h : ∀ pattern paths, memo.find? pattern = some paths → ∀ p ∈ paths, g.packages.contains p = true) :
    Inv disk m { g with memo } :=
  { hi with
    nodes := fun key n hn => (hi.nodes key n hn).congr rfl
    refs := { hi.refs with memo := h } }

theorem Inv.withOverlay (hi : Inv disk m g) (overlay : Overlay) : Inv disk m { g with overlay } :=
  { hi with
    nodes := fun key n hn => (hi.nodes key n hn).congr rfl
    refs := { hi.refs with } }

/-- An answer is remembered, whose packages are there. -/
theorem Inv.remember (hi : Inv disk m g) (pattern : String) {paths : List String}
    (hpaths : ∀ p ∈ paths, g.packages.contains p = true) :
    Inv disk m { g with memo := g.memo.insert pattern paths } := by
  refine hi.withMemo _ fun pattern' paths' hfind => ?_
  rcases Table.eq_or_find?_of_insert hfind with ⟨-, rfl⟩ | hold
  · exact hpaths
  · exact hi.refs.memo pattern' paths' hold

theorem extends_withMemo (memo : Table String (List String)) : Extends g { g with memo } :=
  { Extends.refl g with }

theorem extends_withOverlay (overlay : Overlay) : Extends g { g with overlay } :=
  { Extends.refl g with }

/-- A new package, or a known one with the same state. -/
theorem Inv.insertNode (hi : Inv disk m g) {key : String} {n : PackageNode} (hn : NodeInv disk m g key n)
    (hs : ∀ old, g.packages.find? key = some old → n.state = old.state) :
    Inv disk m { g with packages := g.packages.insert key n } := by
  have hcontains : ∀ p, g.packages.contains p = true → (g.packages.insert key n).contains p = true := by
    intro p hp
    rw [Table.contains_eq, Table.find?_insert]
    split
    · rfl
    · exact hp
  refine ⟨hi.modules, Table.nodup_keys_insert hi.keys key n, hi.held, hi.imports, ?_,
    hi.refs.mono rfl rfl rfl hcontains, ?_⟩
  · intro k n' hk
    rcases Table.eq_or_find?_of_insert hk with ⟨rfl, rfl⟩ | hold
    · exact hn.congr rfl
    · exact (hi.nodes k n' hold).congr rfl
  · intro p hp
    obtain ⟨n', hn', hb⟩ := hi.building p hp
    simp only [Table.find?_insert]
    split
    · rename_i heq
      rw [eq_of_beq heq] at hn'
      exact ⟨n, rfl, (hs n' hn').trans hb⟩
    · exact ⟨n', hn', hb⟩

theorem extends_insertNode {key : String} {n : PackageNode}
    (hs : ∀ old, g.packages.find? key = some old → n.state = old.state)
    (ha : ∀ old, g.packages.find? key = some old → n.analysis = old.analysis)
    (hu : g.packages.find? key = none → n.state = .untracked) :
    Extends g { g with packages := g.packages.insert key n } := by
  refine ⟨rfl, rfl, rfl, rfl, rfl, ?_, ?_, ?_⟩
  · intro k old hold
    simp only [Table.find?_insert]
    split
    · rename_i heq
      rw [eq_of_beq heq] at hold
      exact ⟨n, rfl, hs old hold⟩
    · exact ⟨old, hold, rfl⟩
  · intro k n' hk
    simp only [Table.find?_insert] at hk
    split at hk
    · rename_i heq
      cases hk
      rw [eq_of_beq heq]
      cases hfind : g.packages.find? key with
      | none => exact Or.inr (hu hfind)
      | some old => exact Or.inl (contains_iff.mpr ⟨old, hfind⟩)
    · exact Or.inl (contains_iff.mpr ⟨n', hk⟩)
  · intro k old hold hsome
    simp only [Table.find?_insert]
    split
    · rename_i heq
      rw [eq_of_beq heq] at hold
      exact ⟨n, rfl, ha old hold ▸ hsome⟩
    · exact ⟨old, hold, hsome⟩

theorem relist_eq {l : Listed} {name : String} {files : List Path} {n : PackageNode} (hf : n.files = files)
    (hd : n.dir = l.dir) : relist l name files n = { n with name, listErrors := l.errors } := by
  subst hf
  unfold relist
  simp only [BEq.rfl, Bool.true_or, if_true, ← hd]

/-! ## Entering a listed package -/

def listedNode (g : Graph) (l : Listed) (files : List Path) : PackageNode :=
  let name := l.name.getD l.dir.fileName
  match g.packages.find? l.path with
  | some n => relist l name files n
  | none => { path := l.path, dir := l.dir, name, files, listErrors := l.errors }

theorem ends_lift {ε ε' α : Type} {f : ε → ε'} {r : Except ε α} {Q : Except ε' α → Graph → Prop} :
    Ends (lift f r).run g Q ↔ Q (r.mapError f) g := by
  cases r <;> exact Iff.rfl

theorem ends_enterListed {l : Listed} {Q : Except LoadError (Option String) → Graph → Prop} :
    Ends (enterListed disk l).run g Q ↔
      match g.idlFiles disk l.dir with
      | .error e => Q (.error (.layout e)) g
      | .ok files =>
        if files.isEmpty && l.errors.isEmpty then Q (.ok none) g
        else Q (.ok (some l.path)) { g with packages := g.packages.insert l.path (listedNode g l files) } := by
  unfold enterListed
  rw [ends_then, ends_get_run]
  simp only [ends_then, ends_lift]
  cases g.idlFiles disk l.dir with
  | error e => exact Iff.rfl
  | ok files =>
    simp only [Except.mapError]
    split <;> exact Iff.rfl

theorem state_listedNode {l : Listed} {files : List Path} :
    (∀ n, g.packages.find? l.path = some n → n.files = files → n.dir = l.dir →
      (listedNode g l files).state = n.state ∧ (listedNode g l files).analysis = n.analysis) ∧
      (g.packages.find? l.path = none → (listedNode g l files).state = .untracked) := by
  unfold listedNode
  refine ⟨fun n hn hf hd => ?_, fun hn => ?_⟩
  · simp only [hn, relist_eq hf hd, and_self]
  · simp only [hn]

/-- A listed package keeps what is known about it. -/
theorem Inv.listedNode (hi : Inv disk m g) {l : Listed} (ho : m.Owns l.dir l.path) {files : List Path}
    (hf : g.idlFiles disk l.dir = .ok files) :
    NodeInv disk m g l.path (listedNode g l files) ∧
      ∀ n, g.packages.find? l.path = some n → n.files = files ∧ n.dir = l.dir := by
  have hknown : ∀ n, g.packages.find? l.path = some n → n.files = files ∧ n.dir = l.dir := by
    intro n hn
    have hdir := (hi.nodes _ n hn).owned.dir_eq ho
    have hfiles := (hi.nodes _ n hn).files
    rw [hdir, hf] at hfiles
    cases hfiles
    exact ⟨rfl, hdir⟩
  refine ⟨?_, hknown⟩
  unfold Graph.listedNode
  cases hn : g.packages.find? l.path with
  | none => exact ⟨rfl, ho, hf, by simp, by simp, by simp⟩
  | some n =>
    obtain ⟨hfiles, hdir⟩ := hknown n hn
    have hnode := hi.nodes _ n hn
    simp only [relist_eq hfiles hdir]
    exact ⟨hnode.path, hnode.owned, hnode.files, hnode.parsed, hnode.cycle, hnode.current⟩

theorem Inv.ends_enterListed (hi : Inv disk m g) {l : Listed} (ho : m.Owns l.dir l.path) :
    Ends (enterListed disk l).run g fun r g' =>
      Inv disk m g' ∧ Extends g g' ∧ ∀ p, r = .ok (some p) → g'.packages.contains p = true := by
  rw [Graph.ends_enterListed]
  cases hf : g.idlFiles disk l.dir with
  | error e => exact ⟨hi, .refl g, fun _ h => nomatch h⟩
  | ok files =>
    simp only
    split
    · exact ⟨hi, .refl g, fun _ h => nomatch h⟩
    · obtain ⟨hnode, hknown⟩ := hi.listedNode ho hf
      have hsame : ∀ n, g.packages.find? l.path = some n → (Graph.listedNode g l files).state = n.state ∧
          (Graph.listedNode g l files).analysis = n.analysis := fun n hn =>
        state_listedNode.1 n hn (hknown n hn).1 (hknown n hn).2
      have hs := fun n hn => (hsame n hn).1
      refine ⟨hi.insertNode hnode hs, extends_insertNode hs (fun n hn => (hsame n hn).2) state_listedNode.2, ?_⟩
      rintro p ⟨⟩
      rw [Table.contains_eq, Table.find?_insert_self]
      rfl

theorem Inv.ends_enterAll : ∀ {listed : List Listed} {g : Graph}, Inv disk m g →
    (∀ l ∈ listed, m.Owns l.dir l.path) →
    Ends (listed.filterMapM (enterListed disk)).run g fun r g' =>
      Inv disk m g' ∧ Extends g g' ∧ ∀ paths, r = .ok paths → ∀ p ∈ paths, g'.packages.contains p = true
  | [], g, hi, _ => by
    rw [List.filterMapM_nil, ends_ok]
    refine ⟨hi, .refl g, ?_⟩
    rintro paths ⟨⟩ p hp
    cases hp
  | l :: listed, g, hi, ho => by
    rw [List.filterMapM_cons, ends_then]
    refine (hi.ends_enterListed (ho l (by simp))).mono fun r g' ⟨hi', he, hr⟩ => ?_
    have ih := hi'.ends_enterAll fun l hl => ho l (List.mem_cons_of_mem _ hl)
    cases r with
    | error e => exact ⟨hi', he, fun _ h => nomatch h⟩
    | ok found =>
      cases found with
      | none => exact ih.mono fun r g'' ⟨hi'', he', hr'⟩ => ⟨hi'', he.trans he', hr'⟩
      | some path =>
        simp only [ends_then]
        refine ih.mono fun r g'' ⟨hi'', he', hr'⟩ => ?_
        cases r with
        | error e => exact ⟨hi'', he.trans he', fun _ h => nomatch h⟩
        | ok rest =>
          simp only [ends_ok]
          refine ⟨hi'', he.trans he', ?_⟩
          rintro paths ⟨⟩ p hp
          rcases List.mem_cons.mp hp with rfl | hp
          · exact he'.contains (hr p rfl)
          · exact hr' rest rfl p hp

/-! ## Loading a pattern -/

/-- The placeholders when a pattern is listed: those of a scan, and that of the directory it names. -/
def readied (disk : Disk) (g : Graph) (pattern : String) : Except LayoutError Overlay :=
  let o := g.overlay.ensureScanned disk g.layout
  let dir := Path.ofString pattern
  if dir.isAbsolute && (Text.stripEnd? Listed.wildcard pattern).isNone then (o.addForDir disk dir).map (·.2)
  else .ok o

/-- What is entered is remembered. -/
theorem ends_enterAll_memo {pattern : String} {listed : List Listed} {Q : Except LoadError (List String) →
      Graph → Prop} :
    Ends (listed.filterMapM (enterListed disk) >>= fun paths => do
        modify fun g => { g with memo := g.memo.insert pattern paths }
        return paths : GraphM LoadError (List String)).run g Q ↔
      Ends (listed.filterMapM (enterListed disk)).run g fun r g' =>
        match r with
        | .error e => Q (.error e) g'
        | .ok paths => Q (.ok paths) { g' with memo := g'.memo.insert pattern paths } := by
  rw [ends_then, ends_iff, ends_iff]
  rcases (listed.filterMapM (enterListed disk)).run.run g with ⟨r, g'⟩
  cases r <;> exact Iff.rfl

theorem ends_scan {Q : Except LoadError Unit → Graph → Prop} :
    Ends (scan disk).run g Q ↔ Q (.ok ()) { g with overlay := g.overlay.ensureScanned disk g.layout } := by
  unfold scan
  rw [ends_then, ends_get_run]
  simp only [Overlay.run_scanAll]
  exact Iff.rfl

/-- Listing a pattern and entering what is listed. -/
theorem ends_load {pattern : String} {Q : Except LoadError (List String) → Graph → Prop} :
    Ends (load disk pattern).run g Q ↔
      match g.remembered? pattern with
      | some paths => Q (.ok paths) g
      | none =>
        match g.readied disk pattern with
        | .error e => Q (.error (.layout e)) { g with overlay := g.overlay.ensureScanned disk g.layout }
        | .ok overlay =>
          match Listed.ofPattern disk g.layout overlay pattern with
          | .error e => Q (.error (.layout e)) { g with overlay }
          | .ok listed => Ends (listed.filterMapM (enterListed disk)).run { g with overlay } fun r g' =>
              match r with
              | .error e => Q (.error e) g'
              | .ok paths => Q (.ok paths) { g' with memo := g'.memo.insert pattern paths } := by
  unfold load
  rw [ends_then, ends_get_run]
  simp only
  cases g.remembered? pattern with
  | some paths => exact Iff.rfl
  | none =>
    rw [ends_then, ends_scan]
    simp only
    rw [ends_then]
    unfold addPlaceholder readied
    simp only
    split
    · rw [ends_then, ends_get_run]
      simp only
      rw [ends_then, ends_lift]
      cases (g.overlay.ensureScanned disk g.layout).addForDir disk (Path.ofString pattern) with
      | error e => exact Iff.rfl
      | ok r =>
        simp only [Except.mapError, Except.map]
        rw [ends_set_run]
        simp only
        rw [ends_then, ends_get_run]
        simp only
        rw [ends_then, ends_lift]
        cases Listed.ofPattern disk g.layout r.2 pattern with
        | error e => exact Iff.rfl
        | ok listed => exact ends_enterAll_memo
    · rw [ends_ok]
      simp only
      rw [ends_then, ends_get_run]
      simp only
      rw [ends_then, ends_lift]
      cases Listed.ofPattern disk g.layout (g.overlay.ensureScanned disk g.layout) pattern with
      | error e => exact Iff.rfl
      | ok listed => exact ends_enterAll_memo

theorem Inv.ends_load (hd : disk.WellNamed) (hm : m.dir.Rooted) (hi : Inv disk m g) {pattern : String}
    (hp : m.Straight pattern) :
    Ends (load disk pattern).run g fun r g' =>
      Inv disk m g' ∧ Extends g g' ∧ ∀ paths, r = .ok paths → ∀ p ∈ paths, g'.packages.contains p = true := by
  rw [Graph.ends_load]
  cases hmemo : g.remembered? pattern with
  | some paths =>
    refine ⟨hi, .refl g, ?_⟩
    rintro _ ⟨⟩
    exact hi.refs.memo pattern paths (Option.filter_eq_some_iff.mp hmemo).1
  | none =>
    simp only
    cases g.readied disk pattern with
    | error e => exact ⟨hi.withOverlay _, extends_withOverlay _, fun _ h => nomatch h⟩
    | ok overlay =>
      have hi' := hi.withOverlay overlay
      have he : Extends g { g with overlay } := extends_withOverlay overlay
      simp only
      cases hlist : Listed.ofPattern disk g.layout overlay pattern with
      | error e => exact ⟨hi', he, fun _ h => nomatch h⟩
      | ok listed =>
        have ho := Listed.owns_of_ofPattern hi.modules hm hd hp hlist
        refine (hi'.ends_enterAll ho).mono fun r g' ⟨hi'', he', hr⟩ => ?_
        cases r with
        | error e => exact ⟨hi'', he.trans he', fun _ h => nomatch h⟩
        | ok paths =>
          refine ⟨hi''.remember pattern (hr paths rfl), (he.trans he').trans (extends_withMemo _), ?_⟩
          rintro _ ⟨⟩
          exact hr paths rfl

theorem ends_loadOne {pattern : String} {Q : Except LoadError String → Graph → Prop} :
    Ends (loadOne disk pattern).run g Q ↔ Ends (load disk pattern).run g fun r g' =>
      match r with
      | .error e => Q (.error e) g'
      | .ok [path] => Q (.ok path) g'
      | .ok paths => Q (.error (.packageCount pattern paths.length)) g' := by
  unfold loadOne
  rw [ends_then, ends_iff, ends_iff]
  rcases (load disk pattern).run.run g with ⟨r, g'⟩
  rcases r with e | paths
  · exact Iff.rfl
  · rcases paths with _ | ⟨path, _ | ⟨_, _⟩⟩ <;> exact Iff.rfl

theorem Inv.ends_loadOne (hd : disk.WellNamed) (hm : m.dir.Rooted) (hi : Inv disk m g) {pattern : String}
    (hp : m.Straight pattern) :
    Ends (loadOne disk pattern).run g fun r g' =>
      Inv disk m g' ∧ Extends g g' ∧ ∀ p, r = .ok p → g'.packages.contains p = true := by
  rw [Graph.ends_loadOne]
  refine (hi.ends_load hd hm hp).mono fun r g' ⟨hi', he, hr⟩ => ?_
  rcases r with e | paths
  · exact ⟨hi', he, fun _ h => nomatch h⟩
  · rcases paths with _ | ⟨path, _ | ⟨_, _⟩⟩
    · exact ⟨hi', he, fun _ h => nomatch h⟩
    · refine ⟨hi', he, ?_⟩
      rintro p ⟨⟩
      exact hr [path] rfl path (by simp)
    · exact ⟨hi', he, fun _ h => nomatch h⟩

end

end IdlWorkbench.Graph
