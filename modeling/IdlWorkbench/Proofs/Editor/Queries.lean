import IdlWorkbench.Editor.Definition
import IdlWorkbench.Editor.Formatting
import IdlWorkbench.Proofs.Grammar.Imports
import IdlWorkbench.Proofs.Graph.Typed

/-!
# Queries do not disturb the graph

Formatting a file and going to a definition load and analyse packages. Whether they succeed or fail, the packages
that were there keep their states and files, and those that come in are packages that nobody asked diagnostics of.
So what is published, and what has to be published next, stays as it was.

A query loads the directory of its file, an import of a file, or the package of a type in the tables of a file.
-/

namespace IdlWorkbench

open IdlWorkbench.Path

/-! ## Where queries lead -/

theorem Path.isAbsolute_parent {file : String} {dir : Path} (ha : (ofString file).isAbsolute = true)
    (hd : (ofString file).parent? = some dir) : (ofString dir.text).isAbsolute = true := by
  obtain ⟨s, rest, hs⟩ := isAbsolute_iff.mp ha
  have hslash : ∀ t ∈ "" :: s :: rest, '/' ∉ t.toList := fun t ht => slash_not_mem_segments (hs ▸ ht)
  rw [parent?, hs] at hd
  obtain ⟨front, hfront, rfl⟩ := Option.map_eq_some_iff.mp hd
  obtain ⟨-, hpre⟩ := filterMap_front? hfront
  have hdir : ∀ t ∈ ("" :: if front.isEmpty then [""] else front : List String), '/' ∉ t.toList := by
    intro t ht
    rcases List.mem_cons.mp ht with rfl | ht
    · simp
    · split at ht
      · rw [List.mem_singleton.mp ht]
        simp
      · exact hslash t (List.mem_cons_of_mem _ (hpre.subset ht))
  rw [ofString_text hdir (List.cons_ne_nil _ _), isAbsolute_iff]
  cases front with
  | nil => exact ⟨"", [], rfl⟩
  | cons t front => exact ⟨t, front, rfl⟩

namespace Target

variable {offset : Nat} {spec : ImportSpec}

mutual

theorem exists_of_ofTree : ∀ {t : Tree} {inWrapper : Bool},
    ofTree offset inWrapper t = some (.imported spec) → ∃ u ∈ t.nodes, ImportSpec.ofTree? u = some spec
  | .leaf _, _, h => nomatch h
  | .node kind range children, inWrapper, h => by
    rw [Tree.nodes]
    rw [ofTree] at h
    split at h
    · cases hs : ImportSpec.ofTree? (.node kind range children) with
      | none => simp [hs] at h
      | some spec' =>
        simp only [hs, Option.elim_some, Option.some_inj, imported.injEq] at h
        exact ⟨_, List.mem_cons_self, h ▸ hs⟩
    · cases h
    · obtain ⟨u, hu, hs⟩ := exists_of_among (Option.some_inj.mp h)
      exact ⟨u, List.mem_cons_of_mem _ hu, hs⟩
    · obtain ⟨u, hu, hs⟩ := exists_of_among (Option.some_inj.mp h)
      exact ⟨u, List.mem_cons_of_mem _ hu, hs⟩
    · cases h

theorem exists_of_among : ∀ {ts : List Tree} {inWrapper : Bool},
    among offset inWrapper ts = .imported spec → ∃ u ∈ Tree.nodesOf ts, ImportSpec.ofTree? u = some spec
  | [], inWrapper, h => by
    rw [among] at h
    split at h <;> cases h
  | t :: ts, inWrapper, h => by
    rw [Tree.nodesOf]
    rw [among] at h
    split at h
    · rename_i target htarget
      split at htarget
      · obtain ⟨u, hu, hs⟩ := exists_of_ofTree (htarget.trans (congrArg some h))
        exact ⟨u, List.mem_append_left _ hu, hs⟩
      · cases htarget
    · obtain ⟨u, hu, hs⟩ := exists_of_among h
      exact ⟨u, List.mem_append_right _ hu, hs⟩

end

/-- An import that the cursor is on is one of the imports of the files. -/
theorem mem_importPaths {sources : List Source} {text : String} (hmem : .ofText text ∈ sources)
    (h : find (Source.ofText text).tree offset = .imported spec) {path : String}
    (hp : spec.importPath? = some path) :
    path ∈ Check.importPaths sources := by
  obtain ⟨u, hu, hs⟩ := exists_of_among h
  have hnode : u ∈ (parse text).tree.nodes := by
    obtain ⟨_, hroot⟩ := tree_parse text
    rw [hroot, Tree.nodes]
    exact List.mem_cons_of_mem _ hu
  obtain ⟨literal, hliteral, -⟩ := Option.bind_eq_some_iff.mp hp
  refine Check.mem_importPaths.mpr ⟨_, hmem, (literal, path, spec.name.map Token.text), ?_, rfl⟩
  refine List.mem_filterMap.mpr ⟨spec, mem_importSpecs hnode hs, ?_⟩
  simp [hliteral, hp]

end Target

/-! ## Queries -/

inductive Query where
  | format (settings : FormatSettings) (file : String)
  | definition (file : String) (position : Position)
deriving DecidableEq, Repr

namespace Query

def after (disk : Disk) (g : Graph) : Query → Graph
  | format settings file => ((Graph.formatDocument disk settings (.ofString file)).run.run g).2
  | definition file position => ((Graph.gotoDefinition disk (.ofString file) position).run.run g).2

/-- A query about a file. The directory of a file to format is loaded as it is written; where that makes it an import
path of the module, the path has no part to resolve. -/
def Plain (m : ModuleRoot) : Query → Prop
  | format _ file => ∀ dir, (Path.ofString file).parent? = some dir → m.Straight dir.text
  | definition _ _ => True

theorem plain_of_isAbsolute (m : ModuleRoot) (settings : FormatSettings) {file : String}
    (h : (Path.ofString file).isAbsolute = true) : (format settings file).Plain m :=
  fun _ hdir => Or.inl (Path.isAbsolute_parent h hdir)

end Query

inductive Operation where
  | request (r : Request)
  | query (q : Query)
deriving DecidableEq, Repr

namespace Operation

def after (disk : Disk) (g : Graph) : Operation → Graph
  | request r => r.after disk g
  | query q => q.after disk g

def Plain (m : ModuleRoot) : Operation → Prop
  | request r => r.Plain
  | query q => q.Plain m

end Operation

namespace Graph

def operated (disk : Disk) (g : Graph) (operations : List Operation) : Graph :=
  operations.foldl (Operation.after disk) g

/-- What there is to diagnose and to publish is the same, and so are the packages that were there, as far as their
states and files go. -/
structure Undisturbed (g g' : Graph) : Prop where
  tracked : g'.tracked = g.tracked
  held : g'.held = g.held
  published : g'.published = g.published
  kept : ∀ key n, g.packages.find? key = some n →
    ∃ n', g'.packages.find? key = some n' ∧ n'.state = n.state ∧ n'.files = n.files
  added : ∀ key n', g.packages.find? key = none → g'.packages.find? key = some n' → n'.state = .untracked
  dirty : g'.dirty = g.dirty

variable {disk : Disk} {m : ModuleRoot} {g t : Graph}

theorem Extends.dirty_eq (h : Extends g t) : t.dirty = g.dirty := by
  unfold dirty
  rw [h.tracked]
  refine List.filter_congr fun path _ => ?_
  cases hn : g.packages.find? path with
  | some n =>
    obtain ⟨n', hn', hs⟩ := h.kept path n hn
    simp [hn', hs]
  | none =>
    cases hn' : t.packages.find? path with
    | none => rfl
    | some n' =>
      rcases h.added path n' hn' with hk | hs
      · rw [Table.contains_eq, hn] at hk
        cases hk
      · simp [hs]

theorem Inv.undisturbed (hi : Inv disk m g) (hi' : Inv disk m t) (h : Extends g t) : Undisturbed g t := by
  refine ⟨h.tracked, h.held, h.published, fun key n hn => ?_, fun key n' hn hn' => ?_, h.dirty_eq⟩
  · obtain ⟨n', hn', hs⟩ := h.kept key n hn
    have hnode := hi.nodes key n hn
    have hnode' := hi'.nodes key n' hn'
    -- the files are those of the directory, which goes with the import path
    have hfiles := hnode'.files
    rw [hnode'.owned.dir_eq hnode.owned, idlFiles_congr h.held, hnode.files] at hfiles
    exact ⟨n', hn', hs, (Except.ok.inj hfiles).symm⟩
  · refine (h.added key n' hn').resolve_left fun hk => ?_
    rw [Table.contains_eq, hn] at hk
    cases hk

/-! ## What a query does on the way -/

/-- A graph that is at rest and has come from `g` by loading and analysing. -/
structure Consulted (disk : Disk) (m : ModuleRoot) (g t : Graph) : Prop where
  resting : Resting disk m t
  typed : Typed m t
  extended : Extends g t

section
variable (hd : disk.WellNamed) (hm : m.dir.Rooted) (h : Consulted disk m g t)
include hd hm h

theorem Consulted.ends_load {pattern : String} (hp : m.Straight pattern) :
    Ends (load disk pattern).run t fun _ t' => Consulted disk m g t' :=
  ((h.resting.inv.ends_load hd hm hp).and (sheds_load pattern)).mono fun _ _ ⟨⟨hi, he, _⟩, hs⟩ =>
    ⟨h.resting.extends hi he, h.typed.sheds hs, h.extended.trans he⟩

theorem Consulted.ends_loadOne {pattern : String} (hp : m.Straight pattern) :
    Ends (loadOne disk pattern).run t fun _ t' => Consulted disk m g t' := by
  rw [Graph.ends_loadOne]
  refine (h.ends_load hd hm hp).mono fun r _ h' => ?_
  split <;> exact h'

/-- A package is analysed if need be, and answered as it stands in the graph then. -/
theorem Consulted.ends_ensureAnalysed (path : String) : Ends (ensureAnalysed disk path) t fun found t' =>
    Consulted disk m g t' ∧ ∀ n, found = some n → t'.packages.find? path = some n := by
  unfold ensureAnalysed
  rw [ends_bind, ends_get]
  cases hn : t.packages.find? path with
  | none => exact ⟨h, nofun⟩
  | some n =>
    dsimp only
    split
    · rw [ends_bind]
      unfold analyse
      rw [ends_bind, ends_get]
      have hstate : ∀ n, t.packages.find? path = some n → n.state ≠ .building :=
        fun n hn => h.resting.states path n hn
      have hinv := analyses_analyseWithin hd hm (t.size disk + 2) path t h.resting.inv hstate
      have htyped := keepsTyped_analyseWithin hd hm (t.size disk + 2) path t h.resting.inv h.typed hstate
      refine (hinv.and htyped).mono fun _ t' ⟨⟨hi, he⟩, ht⟩ => ?_
      exact ⟨⟨h.resting.extends hi he, ht, h.extended.trans he⟩, fun _ hfound => hfound⟩
    · exact ⟨h, fun _ hfound => hfound⟩

theorem Consulted.ends_ensuring {ε α : Type} (path : String) {f : Option PackageNode → GraphM ε α}
    (hf : ∀ found t', Consulted disk m g t' → (∀ n, found = some n → t'.packages.find? path = some n) →
      Ends (f found).run t' fun _ t'' => Consulted disk m g t'') :
    Ends (liftM (ensureAnalysed disk path) >>= f : GraphM ε α).run t fun _ t' => Consulted disk m g t' := by
  rw [ends_then, ends_liftM]
  exact (h.ends_ensureAnalysed hd hm path).mono fun found t' ⟨h', hfound⟩ => hf found t' h' hfound

/-! ## Formatting -/

theorem Consulted.ends_formatDocument (settings : FormatSettings) {file : Path}
    (hp : ∀ dir, file.parent? = some dir → m.Straight dir.text) :
    Ends (formatDocument disk settings file).run t fun _ t' => Consulted disk m g t' := by
  unfold formatDocument
  cases hdir : file.parent? with
  | none => exact h
  | some dir =>
    dsimp only
    rw [ends_then, ends_adapt]
    refine (h.ends_loadOne hd hm (hp dir hdir)).mono fun r t' h' => ?_
    cases r with
    | error e => exact h'
    | ok path =>
      dsimp only [Except.mapError]
      refine h'.ends_ensuring hd hm path fun found t'' h'' _ => ?_
      cases found with
      | none => exact h''
      | some n =>
        dsimp only
        split
        · exact h''
        · split
          · exact h''
          · rw [ends_lift]
            exact h''

/-! ## Going to definitions -/

theorem Consulted.ends_importLocations {spec : ImportSpec} (hp : ∀ path, spec.importPath? = some path →
      m.Straight path) :
    Ends (importLocations disk spec).run t fun _ t' => Consulted disk m g t' := by
  unfold importLocations
  cases hpath : spec.importPath? with
  | none => exact h
  | some path =>
    dsimp only
    rw [ends_then, ends_adapt]
    refine (h.ends_load hd hm (hp path hpath)).mono fun r t' h' => ?_
    rcases r with e | _ | ⟨package, _ | ⟨_, _⟩⟩ <;> exact h'

theorem Consulted.ends_typeLocations (package : String) {r : NamedRef} (hr : m.Straight r.package) :
    Ends (typeLocations disk package r).run t fun _ t' => Consulted disk m g t' := by
  unfold typeLocations
  split
  all_goals
    rw [ends_then, ends_get_run]
    dsimp only
  · rw [ends_then, ends_ok]
    refine h.ends_ensuring hd hm r.package fun found t' h' _ => ?_
    split <;> exact h'
  · split
    · exact h
    · rw [ends_then, ends_adapt]
      refine (h.ends_loadOne hd hm hr).mono fun answer t' h' => ?_
      cases answer with
      | error e => exact h'
      | ok owner =>
        refine h'.ends_ensuring hd hm owner fun found t'' h'' _ => ?_
        split <;> exact h''

theorem Consulted.ends_referenceLocations {n : PackageNode} (hn : ∃ key, t.packages.find? key = some n) (file : Nat)
    (reference : Tree) :
    Ends (referenceLocations disk n file reference).run t fun _ t' => Consulted disk m g t' := by
  obtain ⟨key, hn⟩ := hn
  unfold referenceLocations
  split
  · rename_i r hr
    obtain ⟨table, htable, hr⟩ := Option.bind_eq_some_iff.mp hr
    obtain ⟨c, hc, htable⟩ := Option.bind_eq_some_iff.mp htable
    have hchecked : t.checkedAt? key = some c := by
      rw [checkedAt?, hn]
      exact hc
    refine h.ends_typeLocations hd hm n.path ?_
    exact (h.typed key c hchecked).types table (List.mem_of_getElem? htable) _ (Table.mem_of_find? hr) r rfl
  · exact h
  · exact h

omit hd hm in
theorem Consulted.straight_imported {key : String} {n : PackageNode} (hn : t.packages.find? key = some n)
    {f : ParsedFile}
    (hf : f ∈ n.parsed) {offset : Nat} {spec : ImportSpec} (hs : Target.find f.source.tree offset = .imported spec)
    {path : String} (hp : spec.importPath? = some path) : m.Straight path := by
  have hnode := h.resting.inv.nodes key n hn
  have hplain := h.resting.inv.plain_imports (extension_of_idlFiles hnode.files)
  have hparsed : f ∈ n.files.map (ParsedFile.ofPath disk t) := by
    unfold PackageNode.parsed at hf
    cases ha : n.analysis with
    | none =>
      rw [ha] at hf
      cases hf
    | some a =>
      rw [ha] at hf
      exact hnode.parsed a ha ▸ hf
  have hsource := List.mem_map_of_mem (f := ParsedFile.source) hparsed
  obtain ⟨file, -, rfl⟩ := List.mem_map.mp hparsed
  exact PlainPattern.straight (Or.inr (hplain path (Target.mem_importPaths hsource hs hp)))

theorem Consulted.ends_gotoDefinition (file : Path) (position : Position) :
    Ends (gotoDefinition disk file position).run t fun _ t' => Consulted disk m g t' := by
  unfold gotoDefinition
  rw [ends_then, ends_get_run]
  dsimp only
  split
  · exact h
  · rename_i n₀ _
    refine h.ends_ensuring hd hm n₀.path fun found t' h' hfound => ?_
    cases found with
    | none => exact h'
    | some n =>
      have hn := hfound n rfl
      dsimp only
      split
      · exact h'
      · split
        · rename_i index f _ hf
          split
          · exact h'
          · split
            · rename_i spec hs
              refine h'.ends_importLocations hd hm fun path hpath => ?_
              exact h'.straight_imported hn (List.mem_of_find?_eq_some hf) hs hpath
            · exact h'.ends_referenceLocations hd hm ⟨_, hn⟩ index _
            · exact h'
            · exact h'
        · exact h'

theorem Consulted.query {q : Query} (hq : q.Plain m) : Consulted disk m g (q.after disk t) := by
  cases q with
  | format settings file => exact h.ends_formatDocument hd hm settings hq
  | definition file position => exact h.ends_gotoDefinition hd hm (.ofString file) position

end

/-! ## From the start -/

theorem Resting.consulted (h : Resting disk m g) (ht : Typed m g) : Consulted disk m g g := ⟨h, ht, .refl g⟩

/-- Between operations a graph is at rest, and what has been checked leads to straight import paths. -/
theorem Resting.operated (hd : disk.WellNamed) (hm : m.dir.Rooted) (hi : disk.PlainImports) :
    ∀ {operations : List Operation} {g : Graph}, Resting disk m g → Typed m g → (∀ o ∈ operations, o.Plain m) →
      Resting disk m (g.operated disk operations) ∧ Typed m (g.operated disk operations)
  | [], _, h, ht, _ => ⟨h, ht⟩
  | o :: operations, g, h, ht, ho => by
    have hone := ho o List.mem_cons_self
    have hstep : Resting disk m (o.after disk g) ∧ Typed m (o.after disk g) := by
      cases o with
      | request r => exact ⟨h.request hd hm hi hone, ht.request hd hm h r⟩
      | query q =>
        have hq := (h.consulted ht).query hd hm hone
        exact ⟨hq.resting, hq.typed⟩
    exact hstep.1.operated hd hm hi hstep.2 fun o' ho' => ho o' (List.mem_cons_of_mem _ ho')

theorem typed_discover {root : Path} (hg : discover disk root = .ok g) : Typed m g := by
  unfold discover at hg
  cases hl : Layout.discover disk root with
  | error e => rw [hl] at hg; cases hg
  | ok layout =>
    rw [hl] at hg
    cases hg
    exact nofun

/-- Whatever has been asked of a graph over a single module before, a query leaves alone what diagnostics depend on.
-/
theorem query_undisturbed (hd : disk.WellNamed) (hi : disk.PlainImports) (root : String)
    (hg : discover disk (Path.ofString root).normalize = .ok g) (hm : g.layout.modules = [m])
    {past : List Operation} (hp : ∀ o ∈ past, o.Plain m) {q : Query} (hq : q.Plain m) :
    Undisturbed (g.operated disk past) (q.after disk (g.operated disk past)) := by
  have hrooted := rooted_discover hg m (by rw [hm]; simp)
  obtain ⟨hrest, htyped⟩ := (resting_discover hi hg hm).operated hd hrooted hi (typed_discover hg) hp
  have hquery := (hrest.consulted htyped).query hd hrooted hq
  exact hrest.inv.undisturbed hquery.resting.inv hquery.extended

/-! ## A sample -/

/-- Operations that make a package, ask about it and diagnose the one that it imports. -/
def sampleOperations : List Operation :=
  [.request (.add "/w/b/b.gunk" "package b\n\nimport \"example.com/m/a\"\n"),
    .query (.definition "/w/b/b.gunk" ⟨2, 10⟩), .request (.track "example.com/m/a"),
    .request (.diagnose "example.com/m/a"), .query (.format {} "/w/c/c.gunk")]

theorem query_undisturbed_sample :
    sampleDisk.WellNamed ∧ Undisturbed
      (operated sampleDisk { layout := ⟨[⟨"example.com/m", .ofString "/w"⟩]⟩ } sampleOperations)
      (Query.after sampleDisk (operated sampleDisk { layout := ⟨[⟨"example.com/m", .ofString "/w"⟩]⟩ }
        sampleOperations)
        (.format {} "/w/a/a.gunk")) := by
  have hd : sampleDisk.WellNamed := by decide
  have hfile (m : ModuleRoot) : (Query.format {} "/w/a/a.gunk").Plain m := Query.plain_of_isAbsolute m _ (by decide)
  have hp : ∀ o ∈ sampleOperations, o.Plain ⟨"example.com/m", .ofString "/w"⟩ := by
    have hadd : (Request.add "/w/b/b.gunk" "package b\n\nimport \"example.com/m/a\"\n").Plain := by decide +kernel
    have htrack : (Request.track "example.com/m/a").Plain := by decide
    have hformat (m : ModuleRoot) : (Query.format {} "/w/c/c.gunk").Plain m :=
      Query.plain_of_isAbsolute m _ (by decide)
    intro o ho
    simp only [sampleOperations, List.mem_cons, List.not_mem_nil, or_false] at ho
    rcases ho with rfl | rfl | rfl | rfl | rfl
    · exact hadd
    · trivial
    · exact htrack
    · trivial
    · exact hformat _
  exact ⟨hd, query_undisturbed hd plainImports_sampleDisk "/w/a" rfl rfl hp (hfile _)⟩

end Graph

end IdlWorkbench
