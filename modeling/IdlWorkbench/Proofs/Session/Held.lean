import IdlWorkbench.Proofs.Session.Publish

/-!
# Held texts mirror the editor

Only a note about a file changes what is held for it: loading, analysing and publishing leave the held texts
alone, whatever goes wrong in them. The text of a note is held as long as the file has a directory, and a
closed file is released only if a package is loaded for its directory. These two are all that can go wrong: the
held texts are those of the editor exactly as long as the graph takes the notes.
-/

namespace IdlWorkbench

open IdlWorkbench.Path

namespace Graph

variable {disk : Disk} {g : Graph}

/-! ## Held texts after an edit -/

theorem held_noteEdit (path : String) : (g.noteEdit path).held = g.held := by
  rw [noteEdit, (keeps_invalidate path).held, held_evictMemo]
  rfl

theorem held_loadNew (dir : Path) (text : String) :
    Ends (loadNew disk dir text).run g fun _ g' => g'.held = g.held := by
  rw [ends_loadNew]
  split
  · rfl
  · refine (keeps_loadOne dir.text).mono fun r _ h => ?_
    cases r <;> exact h.held

section
variable {file : Path} (hn : file.Normal)
include hn

/-- A text is held for a file unless the file has no directory, even if its package cannot be loaded. -/
theorem held_addFile (text : String) : Ends (addFile disk file text).run g fun _ g' =>
    g'.held = if (directoryOf? file).isSome then g.held.insert file text else g.held := by
  rw [ends_addFile hn]
  cases directoryOf? file with
  | none => rfl
  | some dir =>
    simp only [Option.isSome_some, if_true]
    cases g.packageIn? dir with
    | some n => exact held_noteEdit n.path
    | none =>
      refine (held_loadNew dir text).mono fun r g' h => ?_
      cases r with
      | error e => exact h
      | ok path => exact (held_noteEdit path).trans h

theorem held_updateFile (text : String) : Ends (updateFile disk file text).run g fun _ g' =>
    g'.held = if (directoryOf? file).isSome then g.held.insert file text else g.held := by
  rw [ends_updateFile hn]
  cases hdir : directoryOf? file with
  | none => rfl
  | some dir =>
    dsimp only
    cases g.packageIn? dir with
    | none => exact hdir ▸ held_addFile hn text
    | some n =>
      cases (g.hold file text).idlFiles disk dir with
      | error e => rfl
      | ok files => exact held_noteEdit n.path

theorem held_closeFile : Ends (closeFile disk file).run g fun _ g' =>
    g'.held = if (g.packageOf? file).isSome then g.held.erase file else g.held := by
  rw [ends_closeFile hn]
  cases g.packageOf? file with
  | none => rfl
  | some n =>
    dsimp only
    cases (g.release file).idlFiles disk n.dir with
    | error e => rfl
    | ok files =>
      have h : (g.released file n.path).held = g.held.erase file := held_evictMemo n.path
      dsimp only
      split <;> exact h

end

/-! ## Notes that the graph takes -/

/-- A note that the graph can follow: a file that is opened or changed has a directory, and a package is loaded
for that of a held file that is closed. -/
def Takes (g : Graph) : Note → Prop
  | n@(.opened _ _) | n@(.changed _ _) => (directoryOf? n.file).isSome
  | n@(.closed _) => g.held.contains n.file → (g.packageOf? n.file).isSome

instance (g : Graph) : (n : Note) → Decidable (g.Takes n)
  | .opened _ _ => inferInstanceAs (Decidable (_ = true))
  | .changed _ _ => inferInstanceAs (Decidable (_ = true))
  | .closed _ => inferInstanceAs (Decidable (_ → _ = true))

def heldAfter (g : Graph) (n : Note) : Table Path String :=
  match n.text? with
  | some text => if (directoryOf? n.file).isSome then g.held.insert n.file text else g.held
  | none => if (g.packageOf? n.file).isSome then g.held.erase n.file else g.held

theorem held_act (n : Note) : Ends (n.act disk) g fun _ g' => g'.held = g.heldAfter n := by
  cases n with
  | opened file text => exact held_addFile (Note.normal_file _) text
  | changed file text => exact held_updateFile (Note.normal_file _) text
  | closed file =>
    rw [Note.ends_closed]
    refine (held_closeFile (Note.normal_file _)).mono fun r g' h => ?_
    split <;> exact h

def Placed (held : Table Path String) : Prop := ∀ p ∈ held.keys, p.Normal ∧ (directoryOf? p).isSome

theorem placed_heldAfter (h : Placed g.held) (n : Note) : Placed (g.heldAfter n) := by
  unfold heldAfter
  split
  · split
    · rename_i hdir
      intro p hp
      rw [Table.keys_insert] at hp
      split at hp
      · exact h p hp
      · rcases List.mem_append.mp hp with hp | hp
        · exact h p hp
        · rw [List.mem_singleton.mp hp]
          exact ⟨n.normal_file, hdir⟩
    · exact h
  · split
    · intro p hp
      rw [Table.keys_erase] at hp
      exact h p (List.mem_filter.mp hp).1
    · exact h

theorem Placed.directory {held : Table Path String} (h : Placed held) {p : Path} (hp : p.Normal) {text : String}
    (ht : held.find? p = some text) : (directoryOf? p).isSome := by
  obtain ⟨k, hk, he⟩ := Table.exists_key_of_find? ht
  obtain ⟨hn, hdir⟩ := h k hk
  exact hp.eq_of_beq hn he ▸ hdir

theorem find?_heldAfter_of_ne {p : Path} (hp : p.Normal) {n : Note} (hne : p ≠ n.file) :
    (g.heldAfter n).find? p = g.held.find? p := by
  have hbeq : ¬(p == n.file) = true := fun he => hne (hp.eq_of_beq n.normal_file he)
  unfold heldAfter
  split
  · split
    · rw [Table.find?_insert, if_neg hbeq]
    · rfl
  · split
    · rw [Table.find?_erase, if_neg hbeq]
    · rfl

/-- The text of a note is then held exactly if the graph takes the note. -/
theorem find?_heldAfter_iff (h : Placed g.held) (n : Note) : (g.heldAfter n).find? n.file = n.text? ↔ g.Takes n := by
  have htext : ∀ text, (if (directoryOf? n.file).isSome then g.held.insert n.file text else g.held).find? n.file =
      some text ↔ (directoryOf? n.file).isSome := by
    intro text
    split
    · rename_i hdir
      simp [Table.find?_insert_self, hdir]
    · rename_i hdir
      exact ⟨fun ht => h.directory n.normal_file ht, fun hd => absurd hd hdir⟩
  cases n with
  | opened file text => exact htext text
  | changed file text => exact htext text
  | closed file =>
    simp only [heldAfter, Note.text?, Takes, Table.contains_eq]
    split
    · rename_i hpackage
      simp [Table.find?_erase, hpackage]
    · rename_i hpackage
      simp [hpackage]

end Graph

/-! ## Sessions -/

def Note.lastText? (notes : List Note) (p : Path) : Option String :=
  (notes.reverse.find? fun n => n.file = p).bind Note.text?

namespace Session

def held? (s : Session) (p : Path) : Option String := s.graph.bind fun g => g.held.find? p

/-- The held texts are those that the editor has after some notes. -/
def Mirrors (s : Session) (notes : List Note) : Prop := ∀ p : Path, p.Normal → s.held? p = Note.lastText? notes p

def Takes (disk : Disk) : Session → List Note → Prop
  | _, [] => True
  | s, n :: notes => (∀ g ∈ s.graph, g.Takes n) ∧ Takes disk (s.hear disk n).2 notes

instance (disk : Disk) : (s : Session) → (notes : List Note) → Decidable (s.Takes disk notes)
  | _, [] => inferInstanceAs (Decidable True)
  | s, n :: notes =>
    have : Decidable (Takes disk (s.hear disk n).2 notes) := instDecidableTakes disk _ notes
    inferInstanceAs (Decidable (_ ∧ _))

variable {disk : Disk} {settings : Settings} {root : String} {s : Session}

theorem lastText?_append (notes : List Note) (n : Note) (p : Path) :
    Note.lastText? (notes ++ [n]) p = if n.file = p then n.text? else Note.lastText? notes p := by
  unfold Note.lastText?
  rw [List.reverse_append, List.reverse_singleton, List.singleton_append, List.find?_cons]
  split <;> simp_all

/-- The held texts are those of the editor, and after another note they still are exactly if it is taken. -/
theorem Mirrors.hear_iff (disk : Disk) {past : List Note} (h : s.Mirrors past) {g : Graph} (hg : s.graph = some g)
    (hp : Graph.Placed g.held) (n : Note) :
    ∃ g', (s.hear disk n).2.graph = some g' ∧ Graph.Placed g'.held ∧
      ((s.hear disk n).2.Mirrors (past ++ [n]) ↔ g.Takes n) := by
  obtain ⟨g', hs, hheld⟩ := s.hear_run hg n (Q := fun _ g' => g'.held = g.heldAfter n)
    ((Graph.held_act n).mono fun _ _ h => (Graph.keeps_publishAll _).mono fun _ _ h' => h'.held.trans h)
  refine ⟨g', by rw [hs], hheld ▸ Graph.placed_heldAfter hp n, ?_⟩
  have hfind : ∀ p, (s.hear disk n).2.held? p = (g.heldAfter n).find? p := by
    intro p
    rw [hs, ← hheld]
    rfl
  rw [← Graph.find?_heldAfter_iff hp n]
  constructor
  · intro hm
    rw [← hfind, hm n.file n.normal_file, lastText?_append, if_pos rfl]
  · intro ht p hn
    rw [hfind, lastText?_append]
    split
    · rename_i he
      rw [← he, ht]
    · rename_i hne
      rw [Graph.find?_heldAfter_of_ne hn (Ne.symm hne), ← h p hn, held?, hg]
      rfl

theorem Mirrors.after_iff : ∀ {notes past : List Note} {s : Session} {g : Graph},
    s.Mirrors past → s.graph = some g → Graph.Placed g.held →
      ((∀ more, more <+: notes → (s.after disk more).Mirrors (past ++ more)) ↔ s.Takes disk notes)
  | [], past, s, _, h, _, _ => by
    refine ⟨fun _ => trivial, fun _ more hmore => ?_⟩
    rw [List.prefix_nil.mp hmore, List.append_nil]
    exact h
  | n :: notes, past, s, g, h, hg, hp => by
    obtain ⟨g', hg', hp', hiff⟩ := h.hear_iff disk hg hp n
    have hcons : ∀ more, s.after disk (n :: more) = (s.hear disk n).2.after disk more := fun _ => rfl
    constructor
    · intro hall
      have hn : (s.hear disk n).2.Mirrors (past ++ [n]) := hall [n] (by simp)
      refine ⟨fun g₁ hg₁ => ?_, (Mirrors.after_iff hn hg' hp').mp fun more hmore => ?_⟩
      · rw [hg] at hg₁
        cases hg₁
        exact hiff.mp hn
      · have := hall (n :: more) (List.cons_prefix_cons.mpr ⟨rfl, hmore⟩)
        rwa [hcons, List.append_cons] at this
    · rintro ⟨hn, hnotes⟩ more hmore
      have hm := hiff.mpr (hn g hg)
      cases more with
      | nil =>
        rw [List.append_nil]
        exact h
      | cons n' more =>
        obtain ⟨rfl, hrest⟩ := List.cons_prefix_cons.mp hmore
        rw [hcons, List.append_cons]
        exact (Mirrors.after_iff hm hg' hp').mpr hnotes more hrest

/-- Nothing is held when a workspace has just been opened. -/
theorem Opens.held (h : Opens disk settings root s) : ∃ g, s.graph = some g ∧ g.held = [] := by
  obtain ⟨g₀, g, hg₀, hload, rfl⟩ := h.graph
  refine ⟨g, rfl, ?_⟩
  have hstart : g₀.held = [] := by
    unfold Graph.discover at hg₀
    cases hl : Layout.discover disk (Path.ofString root).normalize with
    | error e => rw [hl] at hg₀; cases hg₀
    | ok layout => rw [hl] at hg₀; cases hg₀; rfl
  have hkept : Ends (Graph.loadTracked disk ((Path.ofString root).normalize.text ++ Listed.wildcard)).run g₀
      fun _ g' => g'.held = g₀.held := by
    unfold Graph.loadTracked
    rw [ends_then]
    refine (Graph.keeps_load _).mono fun r _ h => ?_
    cases r <;> exact h.held
  rw [← hstart, ← hkept, ← hload.2]

/-- After every note the held texts are those that the editor has, exactly if each note is taken when it
comes. -/
theorem mirrors_iff (h : Opens disk settings root s) (notes : List Note) :
    (∀ past, past <+: notes → (s.after disk past).Mirrors past) ↔ s.Takes disk notes := by
  obtain ⟨g, hg, hheld⟩ := h.held
  have hp : Graph.Placed g.held := by
    rw [hheld]
    exact fun _ hp => nomatch hp
  have hm : s.Mirrors [] := by
    intro p _
    rw [held?, hg, Option.bind_some, hheld]
    rfl
  exact hm.after_iff hg hp

/-- Notes about a file of a new package, about one that was never open, and about one outside the module. -/
def sampleNotes : List Note :=
  [.opened "/w/b/b.gunk" "package b\n", .closed "/w/c/x.gunk",
    .changed "/w/a/../b/b.gunk" "package b\n\nconst X = 1\n",
    .opened "/out/x.gunk" "package x\n", .closed "/w/b/b.gunk"]

theorem mirrors_iff_sample : Opens Graph.sampleDisk {} "/w/a" (opened Graph.sampleDisk {} "/w/a") ∧
    ∀ past, past <+: sampleNotes →
      ((opened Graph.sampleDisk {} "/w/a").after Graph.sampleDisk past).Mirrors past := by
  have h : Opens Graph.sampleDisk {} "/w/a" (opened Graph.sampleDisk {} "/w/a") := opens_opened (by decide +kernel)
  exact ⟨h, (mirrors_iff h sampleNotes).mpr (by decide +kernel)⟩

end Session

end IdlWorkbench
