import IdlWorkbench.Proofs.Session.Turns

/-!
# What an editor shows after turns

A file belongs to one package, so what is shown for it is what the last turn of this package gave. That stays so
until the package has another turn or the file is closed.
-/

namespace IdlWorkbench

open IdlWorkbench.Path

/-! ## Diagnostics by file -/

namespace FileDiagnostics

structure Lists (t : FileDiagnostics) (file : Path) (d : Diagnostic) : Prop where
  distinct : t.keys.Pairwise fun p q => ¬(p == q) = true
  found : ∃ ds, t.find? file = some ds ∧ d ∈ ds

theorem distinct_add {t : FileDiagnostics} (h : t.keys.Pairwise fun p q => ¬(p == q) = true) (file : Path)
    (ds : List Diagnostic) : (t.add file ds).keys.Pairwise fun p q => ¬(p == q) = true := by
  rw [add, Table.keys_insert]
  split
  · exact h
  · rename_i hnew
    refine List.pairwise_append.mpr ⟨h, by simp, fun p hp q hq hbeq => hnew ?_⟩
    rw [List.mem_singleton.mp hq] at hbeq
    exact List.any_eq_true.mpr ⟨p, hp, hbeq⟩

theorem distinct_foldl_add {α : Type} {file : α → Path} {ds : α → List Diagnostic} : ∀ (as : List α)
    {t : FileDiagnostics}, (t.keys.Pairwise fun p q => ¬(p == q) = true) →
      (as.foldl (fun t a => FileDiagnostics.add t (file a) (ds a)) t).keys.Pairwise fun p q => ¬(p == q) = true
  | [], _, h => h
  | a :: as, _, h => distinct_foldl_add as (distinct_add h (file a) (ds a))

theorem Lists.add {t : FileDiagnostics} {file : Path} {d : Diagnostic} (h : t.Lists file d) (other : Path)
    (ds : List Diagnostic) : (t.add other ds).Lists file d := by
  refine ⟨distinct_add h.distinct other ds, ?_⟩
  obtain ⟨old, hold, hd⟩ := h.found
  rw [FileDiagnostics.add, Table.find?_insert]
  split
  · rename_i hsame
    rw [← Table.find?_congr t hsame, hold]
    exact ⟨_, rfl, List.mem_append_left _ hd⟩
  · exact ⟨old, hold, hd⟩

theorem Lists.foldl_add {α : Type} {file : α → Path} {ds : α → List Diagnostic} {p : Path} {d : Diagnostic} :
    ∀ (as : List α) {t : FileDiagnostics}, t.Lists p d →
      (as.foldl (fun t a => FileDiagnostics.add t (file a) (ds a)) t).Lists p d
  | [], _, h => h
  | a :: as, _, h => Lists.foldl_add as (h.add (file a) (ds a))

theorem lists_add {t : FileDiagnostics} (h : t.keys.Pairwise fun p q => ¬(p == q) = true) (file : Path)
    (d : Diagnostic) :
    (t.add file [d]).Lists file d := by
  refine ⟨distinct_add h file [d], ?_⟩
  rw [FileDiagnostics.add, Table.find?_insert_self]
  exact ⟨_, rfl, by simp⟩

theorem lists_ofNode {n : PackageNode} {e : PackageError} (he : e ∈ n.errors) :
    (ofNode n).Lists e.file e.toDiagnostic := by
  obtain ⟨before, after, heq⟩ := List.append_of_mem he
  have hfiles : Table.keys (n.files.foldl (fun t file => FileDiagnostics.add t file []) []) |>.Pairwise
      fun p q => ¬(p == q) = true := distinct_foldl_add n.files .nil
  rw [ofNode, heq, List.foldl_append, List.foldl_cons]
  exact Lists.foldl_add after (lists_add (distinct_foldl_add before hfiles) e.file e.toDiagnostic)

end FileDiagnostics

namespace Published

variable {ps qs : Published} {p : Path}

theorem last_append_of_none (h : ∀ e ∈ qs, ¬(e.1 == p) = true) : last (ps ++ qs) p = last ps p := by
  unfold last
  rw [List.reverse_append, List.find?_append, List.find?_eq_none.mpr fun e he => h e (List.mem_reverse.mp he),
    Option.none_or]

theorem last_append_of_mem (h : ∃ e ∈ qs, (e.1 == p) = true) : last (ps ++ qs) p = last qs p := by
  unfold last
  obtain ⟨e, he, hbeq⟩ := h
  obtain ⟨e', he'⟩ := Option.isSome_iff_exists.mp
    (List.find?_isSome.mpr ⟨e, List.mem_reverse.mpr he, hbeq⟩ : (qs.reverse.find? fun e => e.1 == p).isSome = true)
  rw [List.reverse_append, List.find?_append, he']
  rfl

theorem mem_last_of_lists {t : FileDiagnostics} {d : Diagnostic} (h : t.Lists p d) :
    (∃ e ∈ t, (e.1 == p) = true) ∧ d ∈ last t p := by
  obtain ⟨ds, hds, hd⟩ := h.found
  obtain ⟨before, key, after, heq, hkey⟩ : ∃ before key after, t = before ++ (key, ds) ::
    after ∧ (key == p) = true := by
    induction t with
    | nil => cases hds
    | cons e t ih =>
      rw [Table.find?, List.lookup_cons] at hds
      split at hds
      · rename_i hbeq
        cases hds
        exact ⟨[], e.1, t, rfl, BEq.symm hbeq⟩
      · obtain ⟨before, key, after, rfl, hkey⟩ := ih ⟨(List.pairwise_cons.mp h.distinct).2, ds, hds, hd⟩ hds
        exact ⟨e :: before, key, after, rfl, hkey⟩
  subst heq
  refine ⟨⟨(key, ds), by simp, hkey⟩, ?_⟩
  -- no entry behind is about the same file
  have hafter : ∀ e ∈ after, ¬(e.1 == p) = true := by
    intro e he hbeq
    have hdistinct := h.distinct
    rw [Table.keys, List.map_append, List.map_cons] at hdistinct
    have hrest := (List.pairwise_cons.mp (List.pairwise_append.mp hdistinct).2.1).1
    exact hrest e.1 (List.mem_map_of_mem he) (BEq.trans hkey (BEq.symm hbeq))
  rw [List.append_cons, last_append_of_none hafter, last_append_of_mem ⟨(key, ds), by simp, hkey⟩]
  simpa [last, hkey] using hd

end Published

namespace Graph

variable {disk : Disk} {m : ModuleRoot} {g g' : Graph}

/-! ## Files of one package -/

section
variable (hd : disk.WellNamed) (hm : m.dir.Rooted)
include hd hm

theorem Inv.of_mem_files (hi : Inv disk m g) {path : String} {n : PackageNode} (hn : g.packages.find? path = some n)
    {file : Path} (hf : file ∈ n.files) : file.Normal ∧ file.parent? = some n.dir := by
  have hr := hi.rooted_dir hm hn
  exact (filesOf_of_idlFiles hd hi.held hr.normal (hi.nodes path n hn).files).parent? hd hi.held hr.normal hf

/-- Files of different packages are different, also in different graphs. -/
theorem Inv.not_coversAt (hi : Inv disk m g) (hi' : Inv disk m g') {path other : String} {n : PackageNode}
    (hn : g.packages.find? path = some n) {file : Path} (hf : file ∈ n.files) (hne : other ≠ path) {p : Path}
    (hp : g'.CoversAt other p) : ¬(p == file) = true := by
  intro hbeq
  obtain ⟨n', hn', hc⟩ := hp
  obtain ⟨q, hq, hbeq'⟩ := List.contains_iff_exists_mem_beq.mp hc
  obtain ⟨hnormal, hparent⟩ := hi.of_mem_files hd hm hn hf
  obtain ⟨hnormal', hparent'⟩ := hi'.of_mem_files hd hm hn' hq
  have hsame : q = file := hnormal'.eq_of_beq hnormal (BEq.trans (BEq.symm hbeq') hbeq)
  rw [hsame, hparent, Option.some_inj] at hparent'
  exact hne ((hi'.nodes other n' hn').owned.path_eq hm (hparent' ▸ (hi.nodes path n hn).owned))

variable (lint : Bool)

theorem Steady.given_other (h : Steady disk m g) {path : String} {n : PackageNode}
    (hn : g.packages.find? path = some n)
    {file : Path} (hf : file ∈ n.files) (h' : Steady disk m g') {other : String} (hne : other ≠ path)
    (hother : g'.packages.contains other = true) : ∀ e ∈ given disk lint (other, g'), ¬(e.1 == file) = true := by
  intro e he
  have hpublishes : Publishes disk m g' g' := ⟨h'.resting, h'.filled, .refl g'⟩
  have hcovers := (hpublishes.ends_publishPackage hd hm h'.resting.inv lint hother).2 e he
  exact h.resting.inv.not_coversAt hd hm h'.resting.inv hn hf hne hcovers

variable (hnamed : m.Named)
include hnamed

/-- After the turns, what is shown for a file is what the turn of its package gave for it. -/
theorem Steady.last_turns (h : Steady disk m g) {path : String} {t : Graph}
    (ht : (path, t) ∈ g.turns disk lint) {n : PackageNode} (hn : t.packages.find? path = some n) {file : Path}
    (hf : file ∈ n.files) (hentry : ∃ e ∈ given disk lint (path, t), (e.1 == file) = true) (before : Published) :
    Published.last (before ++ (g.turns disk lint).flatMap (given disk lint)) file =
      Published.last (given disk lint (path, t)) file := by
  have hturns := h.forall_turns hd hm hnamed lint
  have hnodup := h.nodup_turns hd hm hnamed lint
  obtain ⟨pre, post, heq⟩ := List.append_of_mem ht
  rw [heq] at hturns hnodup ⊢
  have hpost : ∀ e ∈ post.flatMap (given disk lint), ¬(e.1 == file) = true := by
    intro e he
    obtain ⟨turn, hturn, he⟩ := List.mem_flatMap.mp he
    obtain ⟨hsteady, ⟨n', hn', -⟩, -⟩ := hturns turn (by simp [hturn])
    obtain ⟨hsteady₀, -⟩ := hturns (path, t) (by simp)
    refine hsteady₀.given_other hd hm lint hn hf hsteady ?_ (contains_iff.mpr ⟨n', hn'⟩) e he
    intro hsame
    have hmem := List.mem_map_of_mem (f := Prod.fst) hturn
    rw [hsame] at hmem
    rw [List.map_append, List.map_cons, List.nodup_append] at hnodup
    exact (List.nodup_cons.mp hnodup.2.1).1 hmem
  rw [List.flatMap_append, List.flatMap_cons, ← List.append_assoc, ← List.append_assoc,
    Published.last_append_of_none hpost, Published.last_append_of_mem hentry]

/-- After the turns, a diagnostic is shown for a file if the turn of its package listed it. -/
theorem Steady.mem_last_turns (h : Steady disk m g) {path : String} {t : Graph}
    (ht : (path, t) ∈ g.turns disk lint) {n : PackageNode} (hn : t.packages.find? path = some n) {file : Path}
    (hf : file ∈ n.files) {d : Diagnostic} (hlists : FileDiagnostics.Lists (given disk lint (path, t)) file d)
    (before : Published) :
    d ∈ Published.last (before ++ (g.turns disk lint).flatMap (given disk lint)) file := by
  obtain ⟨hentry, hmem⟩ := Published.mem_last_of_lists hlists
  rw [h.last_turns hd hm lint hnamed ht hn hf hentry]
  exact hmem

end

end Graph

/-! ## Sessions -/

namespace Session

variable {disk : Disk} {m : ModuleRoot} {s : Session}

def turns (disk : Disk) (s : Session) (n : Note) : List (String × Graph) :=
  match s.graph with
  | none => []
  | some g => (((n.act disk).run g).2).turns disk s.settings.lint

def Rests (disk : Disk) (path : String) : Session → List Note → Prop
  | _, [] => True
  | s, n :: notes => (∀ turn ∈ s.turns disk n, turn.1 ≠ path) ∧ Rests disk path (s.hear disk n).2 notes

instance (disk : Disk) (path : String) : (s : Session) → (notes : List Note) → Decidable (s.Rests disk path notes)
  | _, [] => inferInstanceAs (Decidable True)
  | s, n :: notes =>
    have : Decidable (Rests disk path (s.hear disk n).2 notes) := instDecidableRests disk path _ notes
    inferInstanceAs (Decidable (_ ∧ _))

theorem clears_act (n : Note) {g : Graph} : Ends (n.act disk) g fun now _ => ∀ e ∈ now,
    n.text? = none ∧ e.1 = n.file := by
  cases n with
  | opened file text => exact fun e he => nomatch he
  | changed file text => exact fun e he => nomatch he
  | closed file =>
    rw [Note.ends_closed]
    unfold Ends
    dsimp only
    split
    · intro e he
      rw [List.mem_singleton.mp he]
      exact ⟨rfl, rfl⟩
    · exact fun e he => nomatch he

/-- A note acts on the graph and then leads to turns; what it does itself is at most to clear its file. -/
structure Hears (disk : Disk) (m : ModuleRoot) (s : Session) (n : Note) (now : Published) (g g' : Graph) : Prop where
  steady : Graph.Steady disk m g
  turns : s.turns disk n = g.turns disk s.settings.lint
  clears : ∀ e ∈ now, n.text? = none ∧ e.1 = n.file
  published : (s.hear disk n).1 = now ++ (s.turns disk n).flatMap (Graph.given disk s.settings.lint)
  after : (s.hear disk n).2 = { s with graph := some g' }
  next : Graph.Steady disk m g'

section
variable (hd : disk.WellNamed) (hm : m.dir.Rooted) (hnamed : m.Named) (hi : disk.NeatImports)
include hd hm hnamed hi

theorem hears {g : Graph} (h : Graph.Steady disk m g) (hg : s.graph = some g) {n : Note} (hn : n.Neat) :
    ∃ now g₁ g', Hears disk m s n now g₁ g' := by
  have hact := (h.ends_act hd hm hnamed hi hn).and (clears_act n)
  rw [ends_iff] at hact
  have hall := (hact.1.ends_publishAll hd hm hnamed s.settings.lint).and Graph.ends_turns
  have hturns : s.turns disk n = (((n.act disk).run g).2).turns disk s.settings.lint := by
    rw [Session.turns, hg]
  have hheard := s.hear_run hg n (Q := fun ps g' => Graph.Steady disk m g' ∧
    ps = ((n.act disk).run g).1 ++ (s.turns disk n).flatMap (Graph.given disk s.settings.lint)) <| by
      refine ends_iff.mpr (hall.mono fun later g' hlater => ⟨hlater.1, ?_⟩)
      rw [hturns, hlater.2]
  obtain ⟨g', hafter, hnext, hpublished⟩ := hheard
  exact ⟨_, _, g', hact.1, hturns, hact.2, hpublished, hafter, hnext⟩

end

end Session

end IdlWorkbench
