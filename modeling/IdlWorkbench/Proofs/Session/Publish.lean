import IdlWorkbench.Proofs.Graph.Steps
import IdlWorkbench.Proofs.Session.Notes

/-!
# Publishing

What each package that is published keeps, publishing everything keeps.
-/

namespace IdlWorkbench

open IdlWorkbench.Path

namespace Graph

variable {disk : Disk} {m : ModuleRoot} {g : Graph}

theorem ends_publishPackage {lint : Bool} {path : String} {Q : Published → Graph → Prop} :
    Ends (publishPackage disk lint path) g Q ↔ Ends (diagnose disk path) g fun ds g' =>
      match lint, g'.packages.find? path with
      | true, some n => Q ((Lint.ofNode n).foldl (fun t (file, ds) => FileDiagnostics.add t file ds) ds) g'
      | _, _ => Q ds g' := by
  unfold publishPackage
  rw [ends_bind]
  refine ends_congr fun ds g' => ?_
  rw [ends_bind, ends_get]
  cases lint <;> cases g'.packages.find? path <;> exact Iff.rfl

section
variable {lint : Bool} {I : Graph → Prop} {T : String → Prop} {P : Path × List Diagnostic → Prop}
  (ht : ∀ g, I g → ∀ path ∈ g.dirty, T path)
  (hp : ∀ path g, T path → I g → Ends (publishPackage disk lint path) g fun ps g' => I g' ∧ ∀ e ∈ ps, P e)
include ht hp

theorem ends_publishWithin : ∀ (fuel : Nat) (seen : List String) {g : Graph}, I g →
    Ends (publishWithin disk lint fuel seen) g fun ps g' => I g' ∧ ∀ e ∈ ps, P e
  | 0, _, g, hg => ⟨hg, fun _ h => nomatch h⟩
  | fuel + 1, seen, g, hg => by
    rw [publishWithin, ends_bind, ends_get]
    split
    · exact ⟨hg, fun _ h => nomatch h⟩
    · rw [ends_bind]
      have hround : ∀ path ∈ g.dirty.filter (!seen.contains ·), ∀ g', I g' →
          Ends (publishPackage disk lint path) g' fun ps g'' => I g'' ∧ ∀ e ∈ ps, P e := fun path hpath g' hg' =>
        hp path g' (ht g hg path (List.mem_filter.mp hpath).1) hg'
      refine (ends_mapM hround hg).mono fun now g' ⟨hg', hnow⟩ => ?_
      rw [ends_bind]
      refine (ends_publishWithin fuel _ hg').mono fun later g'' ⟨hg'', hlater⟩ => ⟨hg'', fun e he => ?_⟩
      rcases List.mem_append.mp he with he | he
      · obtain ⟨ps, hps, he⟩ := List.mem_flatten.mp he
        exact forall_of_forall₂ hnow ps hps e he
      · exact hlater e he

theorem ends_publishAll (hg : I g) : Ends (publishAll disk lint) g fun ps g' => I g' ∧ ∀ e ∈ ps, P e := by
  unfold publishAll
  rw [ends_bind, ends_get]
  exact ends_publishWithin ht hp _ _ hg

end

theorem keeps_publishPackage (lint : Bool) (path : String) :
    Ends (publishPackage disk lint path) g fun _ g' => Keeps g g' := by
  rw [ends_publishPackage]
  refine (keeps_diagnose path).mono fun _ _ h => ?_
  split <;> exact h

theorem keeps_publishAll (lint : Bool) : Ends (publishAll disk lint) g fun _ g' => Keeps g g' := by
  have hone : ∀ path t, True → Keeps g t →
      Ends (publishPackage disk lint path) t fun ps t' => Keeps g t' ∧ ∀ e ∈ ps, True := by
    intro path t _ ht
    exact (keeps_publishPackage lint path).mono fun _ _ h => ⟨ht.trans h, fun _ _ => trivial⟩
  exact (ends_publishAll (fun _ _ _ _ => trivial) hone (.refl g)).mono fun _ _ h => h.1

end Graph

/-! ## What an editor shows -/

/-- The diagnostics of a file that were published last. -/
def Published.last (ps : Published) (p : Path) : List Diagnostic :=
  ((ps.reverse.find? fun e => e.1 == p).map (·.2)).getD []

theorem Published.of_last_append {ps qs : Published} {p : Path} (h : Published.last (ps ++ qs) p ≠ []) :
    (∃ e ∈ qs, (e.1 == p) = true ∧ e.2 ≠ []) ∨ (Published.last ps p ≠ [] ∧ ∀ e ∈ qs, ¬(e.1 == p) = true) := by
  unfold Published.last at h ⊢
  rw [List.reverse_append, List.find?_append] at h
  cases hq : qs.reverse.find? (fun e => e.1 == p) with
  | some e =>
    rw [hq] at h
    have hbeq := List.find?_some hq
    exact Or.inl ⟨e, List.mem_reverse.mp (List.mem_of_find?_eq_some hq), hbeq, h⟩
  | none =>
    rw [hq, Option.none_or] at h
    exact Or.inr ⟨h, fun e he => List.find?_eq_none.mp hq e (List.mem_reverse.mpr he)⟩

namespace Session

def published (disk : Disk) : Session → List Note → Published
  | _, [] => []
  | s, n :: notes => (s.hear disk n).1 ++ published disk (s.hear disk n).2 notes

theorem published_append (disk : Disk) (more : List Note) : ∀ (s : Session) (notes : List Note),
    s.published disk (notes ++ more) = s.published disk notes ++ (s.after disk notes).published disk more
  | s, [] => rfl
  | s, n :: notes => by
    rw [List.cons_append, published, published_append disk more _ notes, published, List.append_assoc]
    rfl

theorem after_snoc (disk : Disk) (s : Session) (notes : List Note) (n : Note) :
    s.after disk (notes ++ [n]) = ((s.after disk notes).hear disk n).2 := after_append disk s notes [n]

end Session

/-! ## Sessions over a single module -/

/-- A note about an IDL file in a directory whose text means this directory, with imports that have no part to
resolve. Any file may be closed. -/
def Note.Plain (n : Note) : Prop :=
  ∀ text ∈ n.text?, n.file.isAbsolute = true ∧ n.file.extension? = some idlExtension ∧ PlainImports text ∧
    ∀ dir ∈ Graph.directoryOf? n.file, Text.stripEnd? Listed.wildcard dir.text = none

instance (n : Note) : Decidable n.Plain :=
  inferInstanceAs (Decidable (∀ text ∈ n.text?, _ ∧ _ ∧ PlainImports text ∧ ∀ dir ∈ Graph.directoryOf? n.file, _))

theorem Note.plainNames (n : Note) : PlainNames n.file.resolved := by
  have h : ∀ file : String, PlainNames (Path.ofString file).normalize.resolved := by
    intro file
    rw [normalize_eq, resolved_ofNames _ (proper_resolved _)]
    exact plain_resolved_ofString file
  cases n <;> exact h _

theorem segments_wild (base : String) :
    (Path.ofString (base ++ Listed.wildcard)).segments = (Path.ofString base).segments ++ ["..."] := by
  have hp : base ++ Listed.wildcard = base ++ "/" ++ "..." := by
    apply String.toList_inj.mp
    simp [Listed.wildcard]
  rw [hp, segments_append]
  rfl

theorem isAbsolute_wild {base : String} (h : (Path.ofString base).isAbsolute = true) :
    (Path.ofString (base ++ Listed.wildcard)).isAbsolute = true := by
  obtain ⟨s, rest, heq⟩ := isAbsolute_iff.mp h
  exact isAbsolute_iff.mpr ⟨s, rest ++ ["..."], by rw [segments_wild, heq]; rfl⟩

theorem PlainPattern.wild {base : String} (h : PlainPattern base) : PlainPattern (base ++ Listed.wildcard) := by
  rcases h with h | h
  · exact Or.inl (isAbsolute_wild h)
  · right
    unfold DotFree
    rw [segments_wild]
    intro s hs
    rcases List.mem_append.mp hs with hs | hs
    · exact h s hs
    · rw [List.mem_singleton.mp hs]
      decide

namespace Graph

section
variable {disk : Disk} {m : ModuleRoot} {g : Graph} (hd : disk.WellNamed) (hm : m.dir.Rooted)
include hd hm

theorem Resting.ends_act (hi : disk.PlainImports) (h : Resting disk m g) {n : Note} (hn : n.Plain) :
    Ends (n.act disk) g fun _ g' => Resting disk m g' := by
  have hx : ∀ text ∈ n.text?, n.file.normalize.extension? = some idlExtension := by
    rw [n.normal_file]
    exact fun text ht => (hn text ht).2.1
  cases n with
  | opened file text =>
    exact h.ends_addFile hd hm (Note.plainNames _) (hx text rfl) (hn text rfl).2.2.1
  | changed file text =>
    exact h.ends_updateFile hd hm (Note.plainNames _) (hx text rfl) (hn text rfl).2.2.1
  | closed file =>
    rw [Note.ends_closed]
    refine (h.ends_closeFile hd hm hi _).mono fun r g' h' => ?_
    split <;> exact h'

end

end Graph

/-- A session over a single module starts consistent, and nobody has asked for diagnostics. -/
theorem Session.Opens.resting {disk : Disk} (hd : disk.WellNamed) (hi : disk.PlainImports) {settings : Settings}
    {root : String} {s : Session} (h : Session.Opens disk settings root s) {m : ModuleRoot}
    (hm : Layout.discover disk (Path.ofString root).normalize = .ok ⟨[m]⟩) :
    m.dir.Rooted ∧ ∃ g, s = { settings, graph := some g } ∧ Graph.Resting disk m g ∧
      ∀ key n, g.packages.find? key = some n → n.state = .untracked := by
  obtain ⟨g₀, g, hg₀, hload, rfl⟩ := h.graph
  have heq : g₀ = { layout := ⟨[m]⟩ } := by
    unfold Graph.discover at hg₀
    rw [hm] at hg₀
    exact (Except.ok.inj hg₀).symm
  have hrooted : m.dir.Rooted := Graph.rooted_discover hg₀ m (by rw [heq]; simp)
  have hrest := Graph.resting_discover hi hg₀ (by rw [heq])
  have hplain : PlainPattern (Path.ofString root).normalize.text := by
    rw [normalize_eq]
    exact plainPattern_text (plain_resolved_ofString root)
  have hstates : Ends (Graph.loadTracked disk ((Path.ofString root).normalize.text ++ Listed.wildcard)).run g₀
      fun _ g' => ∀ key n, g'.packages.find? key = some n → n.state = .untracked := by
    unfold Graph.loadTracked
    rw [ends_then]
    refine (hrest.inv.ends_load hd hrooted hplain.wild.straight).mono fun r g' ⟨_, he, _⟩ => ?_
    have hall : ∀ key n, g'.packages.find? key = some n → n.state = .untracked := by
      intro key n hn
      refine (he.added key n hn).resolve_left fun hk => ?_
      rw [heq] at hk
      cases hk
    cases r <;> exact hall
  refine ⟨hrooted, g, rfl, ?_⟩
  exact hload.2 ▸ (hrest.ends_loadTracked hd hrooted hplain.wild).and hstates

end IdlWorkbench
