import IdlWorkbench.Proofs.Graph.Ranked
import IdlWorkbench.Proofs.Session.Faithful

/-!
# Edits that can be seen to be passed on

Where imports lead downwards, checking from scratch settles at a depth that is known, so that it can be computed
whether a package shows something else after an edit. With that, it can be decided of a session whether its edits
are passed on. -/

namespace IdlWorkbench

open IdlWorkbench.Path

namespace Graph

variable {disk : Disk} {m : ModuleRoot} {lint : Bool} {rank : String → Nat} {depth : Nat} {g w : Graph}

/-! ## Answers -/

def differAt (disk : Disk) (depth : Nat) (g w : Graph) (path : String) : Bool :=
  match g.batchImport disk (g.batchWithin disk depth) path, w.batchImport disk (w.batchWithin disk depth) path with
  | .ok s, .ok s' => !s.same s'
  | _, _ => false

/-- What a package has imported without recording the edited one is wanted and shows something else. -/
def CarriesAt (disk : Disk) (depth : Nat) (g w : Graph) (edited : String) : Prop :=
  ∀ e ∈ g.packages, e.1 ≠ edited → ∀ a ∈ e.2.analysis, a.checked.isSome = true → edited ∉ a.imports →
    ∀ path ∈ g.importPaths disk e.2, g.layout.isStandard path = false →
      g.Wanted path ∧ differAt disk depth g w path = true

instance (disk : Disk) (depth : Nat) (g w : Graph) (edited : String) : Decidable (CarriesAt disk depth g w edited) :=
  inferInstanceAs (Decidable (∀ e ∈ g.packages, e.1 ≠ edited → ∀ a ∈ e.2.analysis, a.checked.isSome = true →
    edited ∉ a.imports → ∀ path ∈ g.importPaths disk e.2, g.layout.isStandard path = false → _ ∧ _))

section
variable (hd : disk.WellNamed) (hm : m.dir.Rooted) (hnamed : m.Named) (h : Steady disk m g) (h' : Steady disk m w)
  (hf : Falls disk m rank g) (hf' : Falls disk m rank w) (hdepth : ∀ path, rank path < depth)
include hd hm hnamed h h' hf hf' hdepth

theorem differs_of_differAt {path : String} (hneat : NeatPath path) (hdiffer : differAt disk depth g w path = true) :
    Differs disk g w path := by
  unfold differAt at hdiffer
  refine ⟨depth, fun fuel hfuel => ?_⟩
  rw [hf.batchImport hd hm hnamed h.resting.inv hneat (hdepth path) hfuel,
    hf'.batchImport hd hm hnamed h'.resting.inv hneat (hdepth path) hfuel]
  split at hdiffer
  · rename_i s s' hs hs'
    exact ⟨s, s', hs, hs', by simpa using hdiffer⟩
  · cases hdiffer

theorem CarriesAt.carries {edited : String} (hc : CarriesAt disk depth g w edited) : Carries disk g w edited := by
  intro key n a hn ha hsome hne hunrecorded path hpath hstd
  obtain ⟨hwanted, hdiffer⟩ := hc (key, n) (Table.mem_of_find? hn) hne a ha hsome hunrecorded path hpath hstd
  exact Or.inr ⟨hwanted, differs_of_differAt hd hm hnamed h h' hf hf' hdepth (hf.neat n path hpath hstd) hdiffer⟩

end

/-! ## Turns -/

/-- In each turn, the package imports nothing, or nothing that has a later turn has been imported. -/
def Orderly (disk : Disk) (w : Graph) : List (String × Graph) → Prop
  | [] => True
  | (path, t) :: after => ((∀ x ∈ t.packages.find? path, w.importPaths disk x = []) ∨
      ∀ e ∈ t.packages, ∀ turn ∈ after, turn.1 ∉ e.2.imports) ∧ Orderly disk w after

instance (disk : Disk) (w : Graph) : (turns : List (String × Graph)) → Decidable (Orderly disk w turns)
  | [] => inferInstanceAs (Decidable True)
  | (path, t) :: after =>
    have : Decidable (Orderly disk w after) := instDecidableOrderly disk w after
    inferInstanceAs (Decidable (((∀ x ∈ t.packages.find? path, _) ∨ ∀ e ∈ t.packages, ∀ turn ∈ after, _) ∧ _))

theorem Orderly.of_append {turn : String × Graph} {after : List (String × Graph)} :
    ∀ {before : List (String × Graph)},
    Orderly disk w (before ++ turn :: after) → Orderly disk w (turn :: after)
  | [], h => h
  | _ :: _, h => h.2.of_append

theorem Orderly.timely (h : Orderly disk w (w.turns disk lint)) : Timely disk lint g w := by
  intro before path t after heq x hx key n hn _ hlead turn hturn himports
  rw [heq] at h
  rcases h.of_append.1 with hleaf | hlate
  · obtain ⟨z, ⟨p, hp, -⟩, -⟩ := Relation.TransGen.head'_iff.mp hlead
    rw [importPaths_bare, hleaf x hx] at hp
    cases hp
  · exact absurd himports (hlate (key, n) (Table.mem_of_find? hn) turn hturn)

structure Checks (disk : Disk) (lint : Bool) (depth : Nat) (g : Graph) (n : Note) : Prop where
  takes : g.Takes n
  carries : ∀ p ∈ (if n.text?.isSome then g.acted disk n else g).packageOf? n.file,
    CarriesAt disk depth g (g.acted disk n) p.path
  orderly : Orderly disk (g.acted disk n) ((g.acted disk n).turns disk lint)

instance (disk : Disk) (lint : Bool) (depth : Nat) (g : Graph) (n : Note) : Decidable (Checks disk lint depth g n) :=
  decidable_of_iff (g.Takes n ∧
    (∀ p ∈ (if n.text?.isSome then g.acted disk n else g).packageOf? n.file,
      CarriesAt disk depth g (g.acted disk n) p.path) ∧
    Orderly disk (g.acted disk n) ((g.acted disk n).turns disk lint))
    ⟨fun ⟨h, hc, ho⟩ => ⟨h, hc, ho⟩, fun ⟨h, hc, ho⟩ => ⟨h, hc, ho⟩⟩

theorem Draws.heldAfter {texts : List (Path × String)} (h : Draws texts g.held) {n : Note}
    (hn : ∀ text ∈ n.text?, (n.file, text) ∈ texts) : Draws texts (g.heldAfter n) := by
  intro p text hfind
  unfold Graph.heldAfter at hfind
  split at hfind
  · rename_i text' htext
    split at hfind
    · rcases Table.beq_or_find?_of_insert hfind with ⟨hbeq, rfl⟩ | hold
      · exact ⟨n.file, n.normal_file, hbeq, hn _ htext⟩
      · exact h p text hold
    · exact h p text hfind
  · split at hfind
    · exact h p text (Table.find?_of_erase hfind).2
    · exact h p text hfind

end Graph

namespace Note

def texts (notes : List Note) : List (Path × String) := notes.filterMap fun n => n.text?.map (n.file, ·)

theorem mem_texts {notes : List Note} {n : Note} (hn : n ∈ notes) {text : String} (h : text ∈ n.text?) :
    (n.file, text) ∈ texts notes :=
  List.mem_filterMap.mpr ⟨n, hn, Option.map_eq_some_iff.mpr ⟨text, h, rfl⟩⟩

theorem texts_append (notes more : List Note) : texts (notes ++ more) = texts notes ++ texts more :=
  List.filterMap_append

end Note

namespace Session

variable {disk : Disk} {m : ModuleRoot} {rank : String → Nat} {depth : Nat}

def Checks (disk : Disk) (depth : Nat) : Session → List Note → Prop
  | _, [] => True
  | s, n :: notes =>
    (∀ g ∈ s.graph, Graph.Checks disk s.settings.lint depth g n) ∧ Checks disk depth (s.hear disk n).2 notes

instance (disk : Disk) (depth : Nat) : (s : Session) → (notes : List Note) → Decidable (s.Checks disk depth notes)
  | _, [] => inferInstanceAs (Decidable True)
  | s, n :: notes =>
    have : Decidable (Checks disk depth (s.hear disk n).2 notes) := instDecidableChecks disk depth _ notes
    inferInstanceAs (Decidable ((∀ g ∈ s.graph, Graph.Checks disk s.settings.lint depth g n) ∧ _))

/-- What is held are texts of notes. -/
theorem Faithful.draws {s : Session} {g : Graph} {past : List Note} {ps : Published}
    (h : Faithful disk m past ps s g) :
    Graph.Draws (Note.texts past) g.held := by
  intro p text hfind
  obtain ⟨k, hk, hbeq⟩ := Table.exists_key_of_find? hfind
  have hn := (h.placed k hk).1
  rw [Table.find?_congr _ hbeq, h.find?_held hn] at hfind
  obtain ⟨n, hmem, rfl, htext⟩ := Note.exists_of_lastText? hfind
  exact ⟨n.file, hn, hbeq, Note.mem_texts hmem htext⟩

section
variable (hd : disk.WellNamed) (hm : m.dir.Rooted) (hnamed : m.Named) (hi : disk.NeatImports)
  (hdepth : ∀ path, rank path < depth) {texts : List (Path × String)} (hdisk : disk.texts ⊆ texts)
  (hr : Ranked ⟨[m]⟩ rank texts)
include hd hm hnamed hi hdepth hdisk hr

theorem Faithful.passesOn : ∀ {notes past : List Note} {ps : Published} {s : Session} {g : Graph},
    Faithful disk m past ps s g → (∀ n ∈ notes, n.Neat) → Note.texts (past ++ notes) ⊆ texts →
      s.Checks disk depth notes → s.PassesOn disk notes
  | [], _, _, _, _, _, _, _, _ => trivial
  | n :: notes, past, ps, s, g, h, hn, hall, hc => by
    have hneat := hn n (by simp)
    obtain ⟨hchecks, hrest⟩ := And.imp_left (fun hall => hall g h.graph) hc
    have hact := (h.toSteady.ends_act hd hm hnamed hi hneat).and (Graph.held_act n)
    rw [ends_iff] at hact
    obtain ⟨hsteady, hheld⟩ := hact
    have hdraws : Graph.Draws texts g.held := fun p text hfind => by
      obtain ⟨f, hf, hbeq, hmem⟩ := h.draws p text hfind
      refine ⟨f, hf, hbeq, hall ?_⟩
      rw [Note.texts_append]
      exact List.mem_append_left _ hmem
    have hnote : ∀ text ∈ n.text?, (n.file, text) ∈ texts := fun text htext =>
      hall (Note.mem_texts (by simp) htext)
    have hinv := h.resting.inv
    have hinv' := hsteady.resting.inv
    have hfalls : Graph.Falls disk m rank g :=
      Graph.falls_of_ranked hd hm hinv hdisk hdraws (hinv.layout_eq ▸ hr)
    have hfalls' : Graph.Falls disk m rank (g.acted disk n) :=
      Graph.falls_of_ranked hd hm hinv' hdisk (hheld ▸ hdraws.heldAfter hnote) (hinv'.layout_eq ▸ hr)
    have hpassed : Graph.PassedOn disk s.settings.lint g n :=
      ⟨hchecks.takes, fun p hp => (hchecks.carries p hp).carries hd hm hnamed h.toSteady hsteady hfalls hfalls'
        hdepth,
        fun _ _ _ _ z _ => hfalls'.acyclic hd hm hnamed hinv' z, hchecks.orderly.timely⟩
    obtain ⟨g', h'⟩ := h.hear hd hm hnamed hi hneat hpassed
    refine ⟨fun g₁ hg₁ => ?_, h'.passesOn (fun n' hn' => hn n' (List.mem_cons_of_mem _ hn')) ?_ hrest⟩
    · rw [h.graph] at hg₁
      cases hg₁
      exact hpassed
    · rw [← List.append_cons]
      exact hall

end

/-- Where imports lead downwards in all texts, it can be computed whether edits are passed on. -/
theorem Opens.passesOn (hd : disk.WellNamed) (hi : disk.NeatImports) {settings : Settings} {root : String}
    {s : Session}
    (h : Opens disk settings root s) (hm : Layout.discover disk (Path.ofString root).normalize = .ok ⟨[m]⟩)
    (hnamed : m.Named) (hdepth : ∀ path, rank path < depth) {notes : List Note} (hn : ∀ n ∈ notes, n.Neat)
    (hr : Ranked ⟨[m]⟩ rank (disk.texts ++ Note.texts notes)) (hc : s.Checks disk depth notes) :
    s.PassesOn disk notes := by
  obtain ⟨hrooted, g, hg⟩ := h.faithful hd hi hm hnamed
  exact hg.passesOn hd hrooted hnamed hi hdepth (List.subset_append_left ..) hr hn (List.subset_append_right ..) hc

end Session

end IdlWorkbench
