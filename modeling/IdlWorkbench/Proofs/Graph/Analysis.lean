import IdlWorkbench.Proofs.Graph.Load

/-!
# Analysing keeps the invariant

An analysis marks a package as being checked, imports what its files ask for, which may load and analyse other
packages, and gives the package its state back. So every package has in the end the state that it had, and a
package that is flagged as part of a cycle is being checked at that moment.
-/

namespace IdlWorkbench.Graph

open IdlWorkbench.Path

variable {disk : Disk} {m : ModuleRoot} {g g' : Graph}

/-! ## Changing one package -/

theorem find?_modifyPackage (path : String) (f : PackageNode → PackageNode) (key : String) :
    (g.modifyPackage path f).packages.find? key =
      if key = path then (g.packages.find? key).map f else g.packages.find? key := by
  rw [modifyPackage, Table.find?_modify]
  simp

theorem contains_modifyPackage (path : String) (f : PackageNode → PackageNode) (key : String) :
    (g.modifyPackage path f).packages.contains key = g.packages.contains key := by
  rw [Table.contains_eq, Table.contains_eq, find?_modifyPackage]
  split <;> simp

theorem keys_modifyPackage (path : String) (f : PackageNode → PackageNode) :
    (g.modifyPackage path f).packages.keys = g.packages.keys := Table.keys_modify g.packages path f

theorem Refs.modifyPackage (h : Refs g) (path : String) (f : PackageNode → PackageNode) :
    Refs (g.modifyPackage path f) := by
  refine h.mono rfl rfl rfl fun p hp => ?_
  rw [contains_modifyPackage]
  exact hp

theorem Inv.modifyNode (hi : Inv disk m g) {path : String} {f : PackageNode → PackageNode}
    (hf : ∀ n, g.packages.find? path = some n → NodeInv disk m g path (f n))
    (hb : path ∈ g.building → ∀ n, n.state = .building → (f n).state = .building) :
    Inv disk m (g.modifyPackage path f) := by
  refine ⟨hi.modules, (keys_modifyPackage path f).symm ▸ hi.keys, hi.held, hi.imports, ?_,
    hi.refs.modifyPackage path f, ?_⟩
  · intro key n hn
    rw [find?_modifyPackage] at hn
    split at hn
    · rename_i heq
      subst heq
      obtain ⟨old, hold, rfl⟩ := Option.map_eq_some_iff.mp hn
      exact (hf old hold).congr rfl
    · exact (hi.nodes key n hn).congr rfl
  · intro p hp
    obtain ⟨n, hn, hs⟩ := hi.building p hp
    rw [find?_modifyPackage]
    by_cases heq : p = path
    · subst heq
      rw [if_pos rfl, hn]
      exact ⟨f n, rfl, hb hp n hs⟩
    · rw [if_neg heq]
      exact ⟨n, hn, hs⟩

theorem extends_modifyPackage {path : String} {f : PackageNode → PackageNode}
    (hf : ∀ n, g.packages.find? path = some n → (f n).state = n.state ∧ (f n).analysis = n.analysis) :
    Extends g (g.modifyPackage path f) := by
  have hkept : ∀ key n, g.packages.find? key = some n → ∃ n', (g.modifyPackage path f).packages.find? key = some n' ∧
      n'.state = n.state ∧ n'.analysis = n.analysis := by
    intro key n hn
    rw [find?_modifyPackage]
    by_cases heq : key = path
    · subst heq
      rw [if_pos rfl, hn]
      exact ⟨f n, rfl, hf n hn⟩
    · rw [if_neg heq]
      exact ⟨n, hn, rfl, rfl⟩
  refine ⟨rfl, rfl, rfl, rfl, rfl, ?_, ?_, ?_⟩
  · intro key n hn
    obtain ⟨n', hn', hs, -⟩ := hkept key n hn
    exact ⟨n', hn', hs⟩
  · intro key n hn
    left
    rw [← contains_modifyPackage path f]
    exact contains_iff.mpr ⟨n, hn⟩
  · intro key n hn hsome
    obtain ⟨n', hn', -, ha⟩ := hkept key n hn
    exact ⟨n', hn', ha ▸ hsome⟩

/-! ## Cycles -/

theorem Inv.flagAll : ∀ {paths : List String} {g : Graph}, Inv disk m g → (∀ p ∈ paths, p ∈ g.building) →
    Inv disk m (paths.foldl (fun g p => g.modifyPackage p fun n => { n with inCycle := true }) g) ∧
      Extends g (paths.foldl (fun g p => g.modifyPackage p fun n => { n with inCycle := true }) g)
  | [], g, hi, _ => ⟨hi, .refl g⟩
  | p :: paths, g, hi, hp => by
    have hi' : Inv disk m (g.modifyPackage p fun n => { n with inCycle := true }) := by
      apply hi.modifyNode
      · intro n hn
        obtain ⟨n', hn', hs⟩ := hi.building p (hp p (by simp))
        rw [hn] at hn'
        cases hn'
        have := hi.nodes p n hn
        exact ⟨this.path, this.owned, this.files, this.parsed, fun _ => Or.inr hs, this.current⟩
      · exact fun _ _ h => h
    have he : Extends g (g.modifyPackage p fun n => { n with inCycle := true }) :=
      extends_modifyPackage fun _ _ => ⟨rfl, rfl⟩
    obtain ⟨hi'', he'⟩ := hi'.flagAll fun q hq => hp q (List.mem_cons_of_mem _ hq)
    exact ⟨hi'', he.trans he'⟩

theorem Inv.markCycle (hi : Inv disk m g) (path : String) :
    Inv disk m (g.markCycle path) ∧ Extends g (g.markCycle path) := by
  unfold Graph.markCycle
  split
  · rename_i h
    apply hi.flagAll
    intro p hp
    rcases List.mem_append.mp hp with hp | hp
    · exact (List.takeWhile_sublist _).subset hp
    · rw [List.mem_singleton.mp hp]
      simpa using h
  · exact ⟨hi, .refl g⟩

/-! ## Importing -/

def shown (g : Graph) (path : String) : Except ImportError Surface :=
  match g.packages.find? path with
  | none => .error .cycle
  | some n =>
    if n.inCycle then .error .cycle
    else
      match n.surface? with
      | some s => .ok s
      | none => .error (.broken ((n.errors.head?.map (·.message)).getD ("package " ++ path ++ " has errors")))

def standardSurface (importPath : String) : Except ImportError Surface :=
  match Surface.standard? importPath with
  | some s => .ok s
  | none => .error (.notStandard importPath)

theorem ends_surfaceOf {path : String} {Q : Except ImportError Surface → Graph → Prop} :
    Ends (surfaceOf path).run g Q ↔ Q (shown g path) g := by
  unfold surfaceOf shown
  rw [ends_then, ends_get_run]
  simp only
  cases g.packages.find? path with
  | none => exact Iff.rfl
  | some n =>
    simp only
    split
    · exact Iff.rfl
    · cases n.surface? <;> exact Iff.rfl

theorem ends_importPackage {analyse : String → StateM Graph Unit} {importPath : String}
    {Q : Except ImportError Surface → Graph → Prop} :
    Ends (importPackage disk analyse importPath).run g Q ↔
      if g.layout.isStandard importPath then Q (standardSurface importPath) g
      else Ends (loadOne disk importPath).run g fun r g' =>
        match r with
        | .error e => Q (.error (.load e)) g'
        | .ok path =>
          match g'.packages.find? path with
          | none => Q (.error (.load (.packageCount importPath 0))) g'
          | some n =>
            match n.listErrors with
            | e :: _ => Q (.error (.broken e.message)) g'
            | [] =>
              if n.state = .building then Q (.error .cycle) (g'.markCycle path)
              else if n.analysis.isNone then Ends (analyse path) g' fun _ g'' => Q (shown g'' path) g''
              else Q (shown g' path) g' := by
  unfold importPackage standardSurface
  rw [ends_then, ends_get_run]
  simp only
  split
  · cases Surface.standard? importPath <;> exact Iff.rfl
  · rw [ends_then, ends_adapt]
    unfold Ends
    rcases (loadOne disk importPath).run.run g with ⟨r, g'⟩
    cases r with
    | error e => exact Iff.rfl
    | ok path =>
      simp only [Except.mapError]
      change Ends (get >>= _ : GraphM ImportError Surface).run g' Q ↔ _
      rw [ends_then, ends_get_run]
      simp only
      cases g'.packages.find? path with
      | none => exact Iff.rfl
      | some n =>
        simp only
        cases n.listErrors with
        | cons e _ => exact Iff.rfl
        | nil =>
          simp only
          split
          · exact Iff.rfl
          · split
            · exact ends_surfaceOf
            · exact ends_surfaceOf

/-- An import keeps what loading, the flagging of cycles and the analysis keep. -/
theorem kept_importPackage {analyse : String → StateM Graph Unit} {importPath : String} {P : Graph → Prop}
    (h : g.layout.isStandard importPath = true → P g)
    (hload : g.layout.isStandard importPath = false → Ends (loadOne disk importPath).run g fun _ g' => P g')
    (hcycle : ∀ path t, P t → P (t.markCycle path))
    (ha : ∀ path t, P t → (∀ n, t.packages.find? path = some n → n.state ≠ .building) →
      Ends (analyse path) t fun _ t' => P t') :
    Ends (importPackage disk analyse importPath).run g fun _ g' => P g' := by
  rw [ends_importPackage]
  split
  · rename_i hs
    exact h hs
  · rename_i hs
    refine (hload (Bool.eq_false_iff.mpr hs)).mono fun r g' h' => ?_
    cases r with
    | error e => exact h'
    | ok path =>
      dsimp only
      cases hn : g'.packages.find? path with
      | none => exact h'
      | some n =>
        dsimp only
        cases n.listErrors with
        | cons e _ => exact h'
        | nil =>
          dsimp only
          split
          · exact hcycle path g' h'
          · rename_i hb
            split
            · refine ha path g' h' fun n' hn' => ?_
              rw [hn] at hn'
              cases hn'
              exact hb
            · exact h'

/-- The check of a package keeps what its imports keep while the package is on the stack, and it is given the
surfaces that they answer with. -/
theorem answered_checkTypes {analyse : String → StateM Graph Unit} {n : PackageNode} {parsed : List ParsedFile}
    {P : Graph → Prop} {A : Surface → Prop} (hpush : P { g with building := n.path :: g.building })
    (himport : ∀ path ∈ Check.importPaths (parsed.map (·.source)), ∀ t, P t →
      Ends (importPackage disk analyse path).run t fun r t' => P t' ∧ ∀ s, r = .ok s → A s) :
    Ends (checkTypes disk analyse n parsed) g fun result g' =>
      (∃ t, P t ∧ g' = { t with building := t.building.tail }) ∧
        ∃ imported : Table String Imported, result = check n.path n.name (parsed.map (·.source)) imported ∧
          ∀ path s, imported.find? path = some (.ok s) → A s := by
  unfold checkTypes
  simp only [ends_bind, ends_modify]
  have hround : ∀ path ∈ Check.importPaths (parsed.map (·.source)), ∀ t, P t →
      Ends (do
        let r ← (importPackage disk analyse path).run
        return (path, r.mapError ImportError.message)) t fun answer t' =>
          P t' ∧ ∀ s, answer.2 = .ok s → A s := by
    intro path hpath t ht
    rw [ends_bind]
    refine (himport path hpath t ht).mono fun r _ ⟨ht', hr⟩ => ⟨ht', fun s hs => ?_⟩
    cases r with
    | error e => cases hs
    | ok s' =>
      cases hs
      exact hr s rfl
  refine (ends_mapM hround hpush).mono fun imported t ⟨ht, hall⟩ => ⟨⟨t, ht, rfl⟩, imported, rfl, ?_⟩
  intro path s hfind
  exact forall_of_forall₂ hall _ (Table.mem_of_find? hfind) s rfl

theorem kept_checkTypes {analyse : String → StateM Graph Unit} {n : PackageNode} {parsed : List ParsedFile}
    {P : Graph → Prop} (hpush : P { g with building := n.path :: g.building })
    (himport : ∀ path ∈ Check.importPaths (parsed.map (·.source)), ∀ t, P t →
      Ends (importPackage disk analyse path).run t fun _ t' => P t') :
    Ends (checkTypes disk analyse n parsed) g fun _ g' => ∃ t, P t ∧
    g' = { t with building := t.building.tail } := by
  have hall := answered_checkTypes (A := fun _ => True) hpush fun path hpath t ht =>
    (himport path hpath t ht).mono fun _ _ ht' => ⟨ht', fun _ _ => trivial⟩
  exact hall.mono fun _ _ h => h.1

def Analyses (disk : Disk) (m : ModuleRoot) (analyse : String → StateM Graph Unit) : Prop :=
  ∀ path g, Inv disk m g → (∀ n, g.packages.find? path = some n → n.state ≠ .building) →
    Ends (analyse path) g fun _ g' => Inv disk m g' ∧ Extends g g'

section
variable (hd : disk.WellNamed) (hm : m.dir.Rooted) {analyse : String → StateM Graph Unit}
  (ha : Analyses disk m analyse)
include hd hm ha

theorem Inv.ends_importPackage (hi : Inv disk m g) {importPath : String} (hp : DotFree importPath) :
    Ends (importPackage disk analyse importPath).run g fun _ g' => Inv disk m g' ∧ Extends g g' := by
  refine kept_importPackage (P := fun t => Inv disk m t ∧ Extends g t) (fun _ => ⟨hi, .refl g⟩) (fun _ => ?_) ?_ ?_
  · exact (hi.ends_loadOne hd hm (PlainPattern.straight (Or.inr hp))).mono fun _ _ ⟨hi', he, _⟩ => ⟨hi', he⟩
  · rintro path t ⟨ht, he⟩
    exact (ht.markCycle path).imp_right he.trans
  · rintro path t ⟨ht, he⟩ hs
    exact (ha path t ht hs).mono fun _ _ ⟨ht', he'⟩ => ⟨ht', he.trans he'⟩

/-! ## Checking -/

omit hd hm ha in
/-- A package is on the stack while its imports are looked up. -/
theorem Inv.push (hi : Inv disk m g) {path : String} (hn : ∃ n, g.packages.find? path = some n ∧
      n.state = .building) :
    Inv disk m { g with building := path :: g.building } := by
  refine ⟨hi.modules, hi.keys, hi.held, hi.imports, fun key n hn => (hi.nodes key n hn).congr rfl,
    { hi.refs with }, ?_⟩
  intro p hp
  rcases List.mem_cons.mp hp with rfl | hp
  · exact hn
  · exact hi.building p hp

omit hd hm ha in
theorem Inv.pop (hi : Inv disk m g) : Inv disk m { g with building := g.building.tail } := by
  refine ⟨hi.modules, hi.keys, hi.held, hi.imports, fun key n hn => (hi.nodes key n hn).congr rfl,
    { hi.refs with }, ?_⟩
  intro p hp
  exact hi.building p (List.mem_of_mem_tail hp)

omit hd hm ha in
theorem Extends.pop {path : String} (he : Extends { g with building := path :: g.building } g') :
    Extends g { g' with building := g'.building.tail } := by
  have hpop : g'.building.tail = g.building := by rw [he.building]; rfl
  exact { he with building := hpop }

theorem Inv.ends_checkTypes (hi : Inv disk m g) {n : PackageNode} {parsed : List ParsedFile}
    (hn : ∃ n', g.packages.find? n.path = some n' ∧ n'.state = .building)
    (hp : ∀ path ∈ Check.importPaths (parsed.map (·.source)), DotFree path) :
    Ends (checkTypes disk analyse n parsed) g fun _ g' => Inv disk m g' ∧ Extends g g' := by
  have himport : ∀ path ∈ Check.importPaths (parsed.map (·.source)), ∀ t,
      (Inv disk m t ∧ Extends { g with building := n.path :: g.building } t) →
      Ends (importPackage disk analyse path).run t fun _ t' =>
        Inv disk m t' ∧ Extends { g with building := n.path :: g.building } t' := fun path hpath t ⟨ht, het⟩ =>
    (ht.ends_importPackage hd hm ha (hp path hpath)).mono fun _ _ ⟨ht', het'⟩ => ⟨ht', het.trans het'⟩
  refine (kept_checkTypes ⟨hi.push hn, .refl _⟩ himport).mono fun _ g' => ?_
  rintro ⟨t, ⟨ht, het⟩, rfl⟩
  exact ⟨ht.pop, het.pop⟩

theorem Inv.ends_analyseNode (hi : Inv disk m g) {n n' : PackageNode} (hn : g.packages.find? n.path = some n')
    (hs : n'.state = .building) (hf : n'.files = n.files) :
    Ends (analyseNode disk analyse n) g fun a g' =>
      (Inv disk m g' ∧ Extends g g') ∧ a.parsed = n.files.map (ParsedFile.ofPath disk g) := by
  unfold analyseNode
  simp only [ends_bind, ends_get]
  split
  · have hplain := hi.plain_imports (extension_of_idlFiles (hi.nodes _ n' hn).files)
    rw [hf] at hplain
    rw [ends_bind]
    refine (hi.ends_checkTypes hd hm ha ⟨n', hn, hs⟩ hplain).mono fun result g' h => ?_
    exact ⟨h, rfl⟩
  · exact ⟨⟨hi, .refl g⟩, rfl⟩

end

/-! ## Packages being checked -/

def startChecking (g : Graph) (path : String) : Graph :=
  g.modifyPackage path fun n => { n.reset with state := .building }

def finishChecking (g : Graph) (path : String) (a : Analysis) (state : Lifecycle) : Graph :=
  g.modifyPackage path fun n => { n with analysis := some a, state }

theorem ends_analyseWithin {fuel : Nat} {path : String} {Q : Unit → Graph → Prop} :
    Ends (analyseWithin disk (fuel + 1) path) g Q ↔
      match g.packages.find? path with
      | none => Q () g
      | some n => Ends (analyseNode disk (analyseWithin disk fuel) n) (g.startChecking path) fun a t =>
          Q () (t.finishChecking path a n.state) := by
  rw [analyseWithin, ends_bind, ends_get]
  cases g.packages.find? path <;> exact Iff.rfl

theorem analysed_analyseWithin {fuel : Nat} {path : String} : Ends (analyseWithin disk (fuel + 1) path) g fun _ g' =>
    ∀ n, g'.packages.find? path = some n → n.analysis.isSome = true := by
  rw [ends_analyseWithin]
  cases hn : g.packages.find? path with
  | none => simp
  | some n =>
    unfold Ends
    intro n' hn'
    rw [finishChecking, find?_modifyPackage, if_pos rfl] at hn'
    obtain ⟨last, -, rfl⟩ := Option.map_eq_some_iff.mp hn'
    rfl

theorem find?_startChecking {path : String} {n : PackageNode} (hn : g.packages.find? path = some n) :
    (g.startChecking path).packages.find? path = some { n.reset with state := .building } := by
  rw [startChecking, find?_modifyPackage, if_pos rfl, hn]
  rfl

section
variable {path : String} {n : PackageNode} (hi : Inv disk m g) (hn : g.packages.find? path = some n)
  (hs : n.state ≠ .building)
include hi hn hs

theorem Inv.not_mem_building : path ∉ g.building := by
  intro hb
  obtain ⟨n', hn', hb⟩ := hi.building path hb
  rw [hn] at hn'
  cases hn'
  exact hs hb

theorem Inv.startChecking : Inv disk m (g.startChecking path) := by
  apply hi.modifyNode
  · intro n' hn'
    have h := hi.nodes path n' hn'
    exact ⟨h.path, h.owned, h.files, by simp [PackageNode.reset], by simp, by simp⟩
  · exact fun h => absurd h (hi.not_mem_building hn hs)

theorem Inv.finishChecking {t : Graph} {a : Analysis} (ht : Inv disk m t) (he : Extends (g.startChecking path) t)
    (hparsed : a.parsed = n.files.map (ParsedFile.ofPath disk g)) :
    Inv disk m (t.finishChecking path a n.state) := by
  have hnode := hi.nodes path n hn
  have hheld : t.held = g.held := he.held
  apply ht.modifyNode
  · intro last hlast
    have hlastNode := ht.nodes path last hlast
    have hfiles : last.files = n.files := by
      have h := hlastNode.files
      rw [hlastNode.owned.dir_eq hnode.owned, idlFiles_congr hheld, hnode.files] at h
      exact (Except.ok.inj h).symm
    refine ⟨hlastNode.path, hlastNode.owned, hlastNode.files, ?_, fun _ => Or.inl rfl, fun _ => rfl⟩
    rintro _ ⟨⟩
    rw [hparsed, hfiles, ofPath_congr hheld]
  · intro h
    have hb : t.building = g.building := he.building
    rw [hb] at h
    exact absurd h (hi.not_mem_building hn hs)

omit hi hs in
theorem extends_finishChecking {t : Graph} {a : Analysis} (he : Extends (g.startChecking path) t) :
    Extends g (t.finishChecking path a n.state) := by
  refine ⟨he.layout, he.held, he.tracked, he.published, he.building, ?_, ?_, ?_⟩
  · intro key old hold
    rw [Graph.finishChecking, find?_modifyPackage]
    by_cases heq : key = path
    · subst heq
      obtain ⟨last, hlast, -⟩ := he.kept key _ (find?_startChecking hn)
      rw [hn] at hold
      cases hold
      rw [if_pos rfl, hlast]
      exact ⟨_, rfl, rfl⟩
    · rw [if_neg heq]
      refine he.kept key old ?_
      rw [Graph.startChecking, find?_modifyPackage, if_neg heq]
      exact hold
  · intro key last hlast
    by_cases heq : key = path
    · subst heq
      exact Or.inl (contains_iff.mpr ⟨n, hn⟩)
    · rw [Graph.finishChecking, find?_modifyPackage, if_neg heq] at hlast
      rcases he.added key last hlast with h | h
      · rw [Graph.startChecking, contains_modifyPackage] at h
        exact Or.inl h
      · exact Or.inr h
  · intro key old hold hsome
    rw [Graph.finishChecking, find?_modifyPackage]
    by_cases heq : key = path
    · subst heq
      obtain ⟨last, hlast, -⟩ := he.kept key _ (find?_startChecking hn)
      rw [if_pos rfl, hlast]
      exact ⟨_, rfl, rfl⟩
    · rw [if_neg heq]
      refine he.known key old ?_ hsome
      rw [Graph.startChecking, find?_modifyPackage, if_neg heq]
      exact hold

end

/-- An analysis of any depth keeps the invariant, and every package has its state back in the end. -/
theorem analyses_analyseWithin (hd : disk.WellNamed) (hm : m.dir.Rooted) (fuel : Nat) :
    Analyses disk m (analyseWithin disk fuel) := by
  induction fuel with
  | zero => exact fun path g hi _ => ⟨hi, .refl g⟩
  | succ fuel ha =>
    intro path g hi hs
    rw [ends_analyseWithin]
    cases hn : g.packages.find? path with
    | none => exact ⟨hi, .refl g⟩
    | some n =>
      have hi' := hi.startChecking hn (hs n hn)
      have hstart : (g.startChecking path).packages.find? n.path = some { n.reset with state := .building } := by
        rw [(hi.nodes path n hn).path]
        exact find?_startChecking hn
      refine (hi'.ends_analyseNode hd hm ha hstart rfl rfl).mono fun a t h => ?_
      obtain ⟨⟨ht, he⟩, hparsed⟩ := h
      rw [ofPath_congr rfl] at hparsed
      exact ⟨hi.finishChecking hn (hs n hn) ht he hparsed, extends_finishChecking hn he⟩

end IdlWorkbench.Graph
