import IdlWorkbench.Proofs.Workspace.Overlay

/-!
# Directories without IDL files

A placeholder stays when the package that it was made for is gone. In a directory without IDL files on disk it says
nothing: only host files that do not agree make a package there, and those stand on disk. This holds of all
placeholders that loading and editing leave behind (`Overlay.Placed`), however the directories were written.
-/

namespace IdlWorkbench

open IdlWorkbench.Path

/-! ## Files under other spellings -/

namespace Disk

variable {d : Disk}

theorem sublist_of_filterMap : ∀ {segments names : List String},
    segments.filterMap component? = names.map .name → names.Sublist segments
  | [], names, h => by
    cases names with
    | nil => exact .slnil
    | cons _ _ => cases h
  | s :: segments, names, h => by
    rw [List.filterMap_cons] at h
    split at h
    · exact (sublist_of_filterMap h).cons s
    · rename_i c hc
      cases names with
      | nil => cases h
      | cons t names =>
        obtain ⟨rfl, htail⟩ := List.cons.inj h
        rw [(proper_of_component? hc).1]
        exact (sublist_of_filterMap htail).cons_cons t

/-- What says nothing on the way does not change where the way leads. -/
theorem walk_names : ∀ {segments names base : List String} {entry : Entry} {x : List String × Entry},
    segments.filterMap component? = names.map .name → d.walk base entry segments = .ok x →
    d.walk base entry names = .ok x
  | [], names, base, entry, x, hn, h => by
    cases names with
    | nil => exact h
    | cons _ _ => cases hn
  | s :: segments, names, base, entry, x, hn, h => by
    rw [List.filterMap_cons] at hn
    split at hn
    · rename_i hs
      have hidle : d.walk base entry (s :: segments) = d.walk base entry segments ∨
          d.walk base entry (s :: segments) = .error .notADirectory := by
        unfold component? at hs
        split at hs
        · rw [walk]
          split
          · exact Or.inr rfl
          · exact Or.inl rfl
        · rw [walk]
          split
          · exact Or.inr rfl
          · exact Or.inl rfl
        · cases hs
        · cases hs
      rcases hidle with heq | heq
      · exact walk_names hn (heq ▸ h)
      · rw [heq] at h
        cases h
    · rename_i c hc
      cases names with
      | nil => cases hn
      | cons t names =>
        obtain ⟨rfl, htail⟩ := List.cons.inj hn
        obtain ⟨rfl, hs⟩ := proper_of_component? hc
        rw [walk_cons hs] at h ⊢
        split at h
        · cases h
        · rename_i hdir
          rw [if_neg hdir]
          split at h
          · cases h
          · rename_i hlong
            rw [if_neg hlong]
            split at h
            · cases h
            · exact walk_names htail h

theorem size_intercalate_le {names segments : List String} (h : names.Sublist segments) :
    ("/".intercalate names).utf8ByteSize ≤ ("/".intercalate segments).utf8ByteSize := by
  have hcons (s : String) (l : List String) : ("/".intercalate (s :: l)).utf8ByteSize =
      s.utf8ByteSize + if l = [] then 0 else 1 + ("/".intercalate l).utf8ByteSize := by
    cases l with
    | nil => simp
    | cons t l =>
      rw [String.intercalate_cons_cons, String.utf8ByteSize_append, String.utf8ByteSize_append, if_neg (by simp),
        Nat.add_assoc]
      rfl
  induction h with
  | slnil => exact Nat.le_refl _
  | @cons names segments s h ih =>
    rw [hcons]
    split
    · rename_i hnil
      rw [hnil] at h
      rw [List.sublist_nil.mp h]
      simp
    · omega
  | @cons_cons names segments s h ih =>
    rw [hcons, hcons]
    by_cases hn : names = []
    · rw [if_pos hn]
      omega
    · have hs : segments ≠ [] := by
        rintro rfl
        exact hn (List.sublist_nil.mp h)
      rw [if_neg hn, if_neg hs]
      omega

/-- What is found under some spelling is found under the normal one. -/
theorem locate_of_components {p q : Path} (hq : q.Normal) (h : p.components = q.components) {x : List String × Entry}
    (hx : d.locate p = .ok x) : d.locate q = .ok x := by
  have hp := isAbsolute_of_locate hx
  have hqa : q.isAbsolute = true := by
    rw [isAbsolute, ← h]
    exact hp
  have hqn := hq.eq_ofNames
  rw [hqa] at hqn
  obtain ⟨s, rest, hseg⟩ := isAbsolute_iff.mp hp
  have hpath : p = ⟨"" :: s :: rest⟩ := by rw [← hseg]
  have hnames : (s :: rest).filterMap component? = q.resolved.map .name := by
    rw [hpath, components_cons (Or.inr (by simp)), hqn, components_absolute (proper_resolved q)] at h
    exact (List.cons.inj h).2
  have hsub := sublist_of_filterMap hnames
  have htext : q.text.utf8ByteSize ≤ p.text.utf8ByteSize := by
    rw [hqn, text_ofNames, hpath, text, String.intercalate_cons_cons, String.utf8ByteSize_append,
      String.utf8ByteSize_append, String.utf8ByteSize_append]
    have := size_intercalate_le hsub
    have hslash : "/".utf8ByteSize = 1 := rfl
    omega
  obtain ⟨hnul, hlong, -, hwalk⟩ := locate_eq_ok.mp hx
  refine locate_eq_ok.mpr ⟨fun t ht => ?_, by omega, hqa, ?_⟩
  · have hcases : t = "" ∨ t ∈ q.resolved := by
      rw [hqn] at ht
      cases hr : q.resolved with
      | nil =>
        rw [hr, ofNames_nil] at ht
        simp at ht
        exact Or.inl ht
      | cons u us =>
        rw [hr, ofNames_cons] at ht
        exact (List.mem_cons.mp ht).imp_right id
    rcases hcases with rfl | ht
    · simp
    · exact hnul t (by rw [hpath]; exact List.mem_cons_of_mem _ (hsub.subset ht))
  · rw [hpath] at hwalk
    rw [hqn, walk_segments]
    exact walk_names hnames hwalk

theorem isFile_of_components {p q : Path} (hq : q.Normal) (h : p.components = q.components)
    (hp : d.isFile p = true) :
    d.isFile q = true := by
  unfold isFile at hp ⊢
  split at hp
  · rename_i hl
    rw [locate_of_components hq h hl]
  · cases hp

/-- An IDL file under some spelling of a directory is one under the normal spelling. -/
theorem filesWithExtension_ne_nil {dir dir' : Path} (hd : d.WellNamed) (hn : dir.Normal)
    (h : dir'.components = dir.components) {extension : String} {file : Path} {files : List Path}
    (hf : d.filesWithExtension dir' extension = .ok (file :: files)) :
    d.filesWithExtension dir extension ≠ .ok [] := by
  intro hnone
  obtain ⟨hx, hfile, names, hlist, s, hs, rfl⟩ := mem_filesWithExtension hf List.mem_cons_self
  have hproper := (hd.list hlist hs).1
  have hcomp : (dir'.child s).components = (dir.child s).components := by
    rw [components_child dir' hproper, components_child dir hproper, h]
  have hmem := mem_filesWithExtension_of_isFile hnone (hn.child hproper) (hn.parent?_child hproper)
    (by rw [← hx, extension?, extension?, fileName?, fileName?, hcomp])
    (isFile_of_components (hn.child hproper) hcomp hfile)
  cases hmem

theorem stem_cases (p : Path) : p.stem = p.segments ∨ p.segments = p.stem ++ [""] := by
  unfold stem
  split
  · rename_i hlast
    exact Or.inr (List.dropLast_append_getLast? "" hlast).symm
  · exact Or.inl rfl

theorem walk_stem {p : Path} (ha : p.isAbsolute = true) {names : List String} {entry : Entry}
    (h : d.walk [] .directory p.segments.tail = .ok (names, entry)) :
    d.walk [] .directory p.stem.tail = .ok (names, entry) ∧ p.stem ≠ [] := by
  obtain ⟨s, rest, hseg⟩ := isAbsolute_iff.mp ha
  rcases stem_cases p with heq | heq
  · rw [heq, hseg]
    rw [hseg] at h
    exact ⟨h, List.cons_ne_nil _ _⟩
  · have hne : p.stem ≠ [] := by
      intro hnil
      rw [hnil, hseg] at heq
      cases heq
    refine ⟨?_, hne⟩
    rw [heq, List.tail_append_of_ne_nil hne, walk_append] at h
    cases hw : d.walk [] .directory p.stem.tail with
    | error e =>
      rw [hw] at h
      cases h
    | ok y =>
      rw [hw] at h
      change d.walk y.1 y.2 [""] = _ at h
      rw [walk] at h
      split at h
      · cases h
      · rw [walk] at h
        exact h

theorem size_child_le (p : Path) (s : String) :
    (p.child s).text.utf8ByteSize ≤ p.text.utf8ByteSize + 1 + s.utf8ByteSize := by
  have happend (l : List String) (t : String) :
      ("/".intercalate (l ++ [t])).utf8ByteSize ≤ ("/".intercalate l).utf8ByteSize + 1 + t.utf8ByteSize := by
    cases l with
    | nil => simp
    | cons u l =>
      rw [String.intercalate_append_of_ne_nil (by simp) (by simp)]
      simp only [String.utf8ByteSize_append]
      have hslash : "/".utf8ByteSize = 1 := rfl
      simp [hslash]
  have hchild := happend p.stem s
  change ("/".intercalate (p.stem ++ [s])).utf8ByteSize ≤ _
  have hstem : ("/".intercalate p.stem).utf8ByteSize ≤ p.text.utf8ByteSize := by
    rcases stem_cases p with heq | heq
    · rw [heq]
      exact Nat.le_refl _
    · rw [text, heq]
      exact size_intercalate_le (List.sublist_append_left _ _)
  omega

/-- What stands in a directory is found through any spelling of the directory that leaves room for a name. -/
theorem locate_child {p q : Path} (hq : q.Normal) (h : p.components = q.components) {names : List String}
    (hp : d.locate p = .ok (names, .directory)) (hroom : p.text.utf8ByteSize + maxName < maxPath) {s : String}
    (hs : Proper s) {x : List String × Entry} (hx : d.locate (q.child s) = .ok x) :
    d.locate (p.child s) = .ok x := by
  obtain ⟨hnul, -, ha, hwalk⟩ := locate_eq_ok.mp hp
  obtain ⟨hnul', -, -, hwalk'⟩ := locate_eq_ok.mp hx
  obtain ⟨-, -, hqa, hfront⟩ := locate_eq_ok.mp (locate_of_components hq h hp)
  have hqn := hq.eq_ofNames
  rw [hqa] at hqn
  have hplain : ∀ t ∈ q.resolved ++ [s], Proper t := by
    intro t ht
    rcases List.mem_append.mp ht with ht | ht
    · exact proper_resolved q t ht
    · rwa [List.mem_singleton.mp ht]
  have hchild : q.child s = ofNames true (q.resolved ++ [s]) := by
    rw [hqn, child_ofNames true (proper_resolved q), ← hqn]
  rw [hqn, walk_segments] at hfront
  rw [hchild, walk_segments, walk_append, hfront] at hwalk'
  have hlast : d.walk names .directory [s] = .ok x := hwalk'
  have hshort : s.utf8ByteSize ≤ maxName := by
    rw [walk_cons hs] at hlast
    split at hlast
    · cases hlast
    · split at hlast
      · cases hlast
      · rename_i hle
        exact Nat.le_of_not_lt hle
  obtain ⟨hstem, hne⟩ := walk_stem ha hwalk
  refine locate_eq_ok.mpr ⟨fun t ht => ?_, ?_, ?_, ?_⟩
  · rcases List.mem_append.mp ht with ht | ht
    · refine hnul t ?_
      rcases stem_cases p with heq | heq
      · rwa [← heq]
      · rw [heq]
        exact List.mem_append_left _ ht
    · refine hnul' t ?_
      rw [hchild, List.mem_singleton.mp ht]
      cases q.resolved <;> simp [ofNames]
  · have := size_child_le p s
    omega
  · rw [isAbsolute, decide_eq_true_eq] at ha ⊢
    rw [components_child p hs, List.head?_append, ha]
    rfl
  · rw [child, List.tail_append_of_ne_nil hne, walk_append, hstem]
    exact hlast

section
variable {p q : Path} (hq : q.Normal) (h : p.components = q.components)
  (hroom : p.text.utf8ByteSize + maxName < maxPath)
include hq h

theorem list_of_components {inside : List String} (hl : d.list p = .ok inside) :
    (∃ names, d.locate p = .ok (names, .directory)) ∧ d.list q = .ok inside := by
  unfold list at hl ⊢
  split at hl
  · rename_i names hp
    exact ⟨⟨names, hp⟩, by rw [locate_of_components hq h hp]; exact hl⟩
  · cases hl
  · cases hl

include hroom

/-- A spelling that leaves room for a name shows the same files. -/
theorem filesWithExtension_spelled (hd : d.WellNamed) {inside : List String} (hl : d.list p = .ok inside)
    (extension : String) : ∃ kept : List String, d.filesWithExtension p extension = .ok (kept.map p.child) ∧
      d.filesWithExtension q extension = .ok (kept.map q.child) ∧
        ∀ s ∈ kept, d.read (p.child s) = d.read (q.child s) := by
  obtain ⟨⟨names, hp⟩, hlq⟩ := list_of_components hq h hl
  have hlocate : ∀ s ∈ inside, ∀ x, d.locate (q.child s) = .ok x ↔ d.locate (p.child s) = .ok x := by
    intro s hs x
    have hproper := (hd.list hl hs).1
    refine ⟨locate_child hq h hp hroom hproper, locate_of_components (hq.child hproper) ?_⟩
    rw [components_child p hproper, components_child q hproper, h]
  have hfile : ∀ s ∈ inside, d.isFile (p.child s) = d.isFile (q.child s) := by
    intro s hs
    rw [Bool.eq_iff_iff]
    unfold isFile
    constructor
    · intro hf
      split at hf
      · rename_i hx
        rw [(hlocate s hs _).mpr hx]
      · cases hf
    · intro hf
      split at hf
      · rename_i hx
        rw [(hlocate s hs _).mp hx]
      · cases hf
  refine ⟨inside.filter fun s => (q.child s).extension? = some extension && d.isFile (q.child s), ?_, ?_, ?_⟩
  · unfold filesWithExtension
    rw [hl]
    dsimp only
    rw [List.filter_map]
    congr 2
    refine List.filter_congr fun s hs => ?_
    have hproper := (hd.list hl hs).1
    have hcomp : (p.child s).components = (q.child s).components := by
      rw [components_child p hproper, components_child q hproper, h]
    have hx : (p.child s).extension? = (q.child s).extension? := by
      rw [extension?, extension?, fileName?, fileName?, hcomp]
    simp only [Function.comp_apply, hfile s hs, hx]
  · unfold filesWithExtension
    rw [hlq]
    dsimp only
    rw [List.filter_map]
    rfl
  · intro s hs
    obtain ⟨hmem, hkept⟩ := List.mem_filter.mp hs
    rw [Bool.and_eq_true] at hkept
    have hf := hkept.2
    unfold isFile at hf
    split at hf
    · rename_i hx
      unfold read
      rw [hx, (hlocate s hmem _).mp hx]
    · cases hf

end

end Disk

/-! ## Placeholders that loading and editing leave behind -/

namespace Overlay

variable {disk : Disk} {o o' : Overlay}

/-- A directory may have a placeholder: it holds no host files, or it holds IDL files on disk. -/
def MayHold (disk : Disk) (dir : Path) : Prop :=
  dir.Normal ∧ disk.filesWithExtension dir hostExtension = .ok [] ∨
    ∃ file files, disk.filesWithExtension dir idlExtension = .ok (file :: files)

/-- There is one placeholder at most for a directory, and only where there may be one. -/
structure Placed (disk : Disk) (o : Overlay) : Prop where
  distinct : o.files.keys.Pairwise fun p q => ¬(p == q) = true
  form : ∀ p ∈ o.files.keys, ∃ dir : Path, MayHold disk dir ∧ p = dir.child placeholder

theorem placed_empty (disk : Disk) : Placed disk {} := ⟨.nil, fun _ h => nomatch h⟩

theorem Placed.insertPlaceholder (h : Placed disk o) {dir : Path} (hdir : MayHold disk dir) (name : String) :
    Placed disk (o.insertPlaceholder dir name) := by
  unfold Overlay.insertPlaceholder
  constructor
  · dsimp only
    rw [Table.keys_insert]
    split
    · exact h.distinct
    · rename_i hany
      refine List.pairwise_append.mpr ⟨h.distinct, by simp, fun p hp q hq he => hany ?_⟩
      rw [List.mem_singleton.mp hq] at he
      exact List.any_eq_true.mpr ⟨p, hp, he⟩
  · intro p hp
    dsimp only at hp
    rw [Table.keys_insert] at hp
    split at hp
    · exact h.form p hp
    · rcases List.mem_append.mp hp with hp | hp
      · exact h.form p hp
      · exact ⟨dir, hdir, List.mem_singleton.mp hp⟩

theorem idl_of_nameFor {dir : Path} {name : String} (h : nameFor disk dir = .ok (some name)) :
    ∃ file files, disk.filesWithExtension dir idlExtension = .ok (file :: files) := by
  unfold nameFor at h
  obtain ⟨hosts, -, h⟩ := bind_eq_ok.mp h
  split at h
  · cases h
  · obtain ⟨files, hfiles, h⟩ := bind_eq_ok.mp h
    cases files with
    | nil => cases h
    | cons file files => exact ⟨file, files, hfiles⟩

/-- A spelling that leaves room for a name asks for the same placeholder. -/
theorem Spells.of_room (hd : disk.WellNamed) {dir : Path}
    (hroom : dir.text.utf8ByteSize + Disk.maxName < Disk.maxPath) : Spells disk dir := by
  intro d hn hbeq name hname
  have hc : dir.components = d.components := (beq_iff.mp hbeq).symm
  obtain ⟨file, files, hfiles⟩ := idl_of_nameFor hname
  obtain ⟨-, -, inside, hl, -⟩ := Disk.mem_filesWithExtension hfiles List.mem_cons_self
  obtain ⟨hosts, hhosts, hhosts', -⟩ := Disk.filesWithExtension_spelled hn hc hroom hd hl hostExtension
  obtain ⟨idl, hidl, hidl', hread⟩ := Disk.filesWithExtension_spelled hn hc hroom hd hl idlExtension
  have hlast : dir.fileName = d.fileName := by rw [fileName, fileName, fileName?, fileName?, hc]
  unfold nameFor at hname ⊢
  rw [hhosts, hidl] at hname
  rw [hhosts', hidl']
  cases hosts with
  | cons _ _ => exact hname
  | nil =>
    cases idl with
    | nil => exact hname
    | cons s idl =>
      simp only [bind, Except.bind, List.map_nil, List.map_cons, hread s (by simp), hlast] at hname ⊢
      exact hname

theorem Placed.withPlaceholder (h : Placed disk o) (dir : Path) : Placed disk (o.withPlaceholder disk dir) := by
  rw [withPlaceholder_eq]
  split
  · rename_i name hname
    exact h.insertPlaceholder (Or.inr (idl_of_nameFor hname)) name
  · exact h

theorem Placed.addForDir (h : Placed disk o) {dir : Path} {added : Bool}
    (ho : o.addForDir disk dir = .ok (added, o')) : Placed disk o' := by
  have hwith := h.withPlaceholder dir
  rw [Overlay.withPlaceholder, ho] at hwith
  exact hwith

theorem Placed.addForNewPackage (h : Placed disk o) {dir : Path} (hn : dir.Normal) {name : String} {added : Bool}
    (ho : o.addForNewPackage disk dir name = .ok (added, o')) : Placed disk o' := by
  unfold Overlay.addForNewPackage at ho
  obtain ⟨hosts, hhosts, ho⟩ := bind_eq_ok.mp ho
  cases hosts with
  | nil =>
    cases ho
    exact h.insertPlaceholder (Or.inl ⟨hn, hhosts⟩) name
  | cons _ _ =>
    cases ho
    exact h

theorem Placed.ensureScanned (h : Placed disk o) (layout : Layout) : Placed disk (o.ensureScanned disk layout) := by
  have hdirs : ∀ (dirs : List Path) (o : Overlay), Placed disk o →
      Placed disk (dirs.foldl (Overlay.withPlaceholder disk) o) := by
    intro dirs
    induction dirs with
    | nil => exact fun _ h => h
    | cons dir dirs ih => exact fun o h => ih _ (h.withPlaceholder dir)
  have hmodules : ∀ (modules : List ModuleRoot) (o : Overlay), Placed disk o →
      Placed disk (modules.foldl (sweep disk) o) := by
    intro modules
    induction modules with
    | nil => exact fun _ h => h
    | cons m modules ih =>
      intro o h
      refine ih _ ?_
      unfold sweep
      split
      · exact h
      · exact hdirs _ _ ⟨h.distinct, h.form⟩
  exact ensureScanned_eq_foldl layout o ▸ hmodules layout.modules o h

section
variable (hd : disk.WellNamed) (h : Placed disk o) {dir : Path} (hn : dir.Normal)
  (hidl : disk.filesWithExtension dir idlExtension = .ok [])
include hd h hn hidl

/-- A placeholder in a directory without IDL files on disk is spelled in one way, and there are no host files. -/
theorem Placed.key_eq {p : Path} (hp : p ∈ o.files.keys) (hc : ∃ c, p.components = dir.components ++ [c]) :
    p = dir.child placeholder ∧ disk.filesWithExtension dir hostExtension = .ok [] := by
  obtain ⟨dir', hmay, rfl⟩ := h.form p hp
  obtain ⟨c, hc⟩ := hc
  rw [components_child dir' proper_placeholder] at hc
  have heq : dir'.components = dir.components := (List.append_inj' hc rfl).1
  rcases hmay with ⟨hn', hhosts⟩ | ⟨file, files, hfiles⟩
  · rw [hn'.eq_of_beq hn (beq_iff.mpr heq)] at hhosts ⊢
    exact ⟨rfl, hhosts⟩
  · exact absurd hidl (Disk.filesWithExtension_ne_nil hd hn heq hfiles)

theorem Placed.filesIn_cases : o.filesIn dir = [] ∨
    disk.filesWithExtension dir hostExtension = .ok [] ∧ ∃ e, o.filesIn dir = [e] := by
  have hkey : ∀ e ∈ o.filesIn dir, e.1 = dir.child placeholder ∧
      disk.filesWithExtension dir hostExtension = .ok [] := by
    rintro ⟨p, text⟩ he
    obtain ⟨hmem, hparent⟩ := List.mem_filter.mp he
    refine h.key_eq hd hn hidl (List.mem_map_of_mem hmem) ?_
    dsimp only at hparent ⊢
    cases hp : p.parent? with
    | none =>
      rw [hp] at hparent
      cases hparent
    | some q =>
      rw [hp, Option.some_beq_some] at hparent
      rw [← beq_iff.mp hparent]
      exact components_of_parent? hp
  have hdistinct : (o.filesIn dir).Pairwise fun e e' => ¬(e.1 == e'.1) = true :=
    (List.pairwise_map.mp h.distinct).filter _
  match hfiles : o.filesIn dir with
  | [] => exact Or.inl rfl
  | [e] => exact Or.inr ⟨(hkey e (by simp [hfiles])).2, e, rfl⟩
  | e :: e' :: rest =>
    rw [hfiles] at hkey hdistinct
    have hne := (List.pairwise_cons.mp hdistinct).1 e' (by simp)
    rw [(hkey e (by simp)).1, (hkey e' (by simp)).1] at hne
    exact absurd BEq.rfl hne

theorem Placed.get?_host {hosts : List Path} (hf : disk.filesWithExtension dir hostExtension = .ok hosts)
    {file : Path}
    (hin : file ∈ hosts) : o.get? file = none := by
  rw [← Option.not_isSome_iff_eq_none]
  intro hs
  obtain ⟨⟨key, text⟩, hmem, hkey⟩ := List.lookup_isSome_iff.mp hs
  obtain ⟨-, -, names, hlist, s, hname, rfl⟩ := Disk.mem_filesWithExtension hf hin
  have hc : key.components = dir.components ++ [.name s] := by
    rw [← components_child dir (hd.list hlist hname).1]
    exact (beq_iff.mp hkey).symm
  have hnone := (h.key_eq hd hn hidl (List.mem_map_of_mem hmem) ⟨_, hc⟩).2
  rw [hf] at hnone
  cases hnone
  cases hin

end

end Overlay

/-! ## Listing -/

namespace Listed

variable {disk : Disk} {layout : Layout} {o : Overlay}

/-- The package of a directory, if its host files on disk do not agree. -/
def troubled? (disk : Disk) (layout : Layout) (dir : Path) : Except LayoutError (Option Listed) :=
  (ofDir? disk layout {} dir).map (·.filter (!·.errors.isEmpty))

theorem disagreement_of_length_le {dir : Path} : ∀ {clauses : List (String × Path)},
    clauses.length ≤ 1 → disagreement dir clauses = []
  | [], _ => rfl
  | [_], _ => rfl

/-- Where there are no IDL files on disk, placeholders do not change which packages have problems. -/
theorem troubled?_eq (hd : disk.WellNamed) (ho : o.Placed disk) {dir : Path} (hn : dir.Normal)
    (hidl : disk.filesWithExtension dir idlExtension = .ok []) {path : String}
    (hhome : layout.importPathOf? dir = some path) :
    (ofDir? disk layout o dir).map (·.filter (!·.errors.isEmpty)) = troubled? disk layout dir := by
  obtain ⟨hosts, hhosts⟩ := Disk.filesWithExtension_isOk hidl hostExtension
  rcases ho.filesIn_cases hd hn hidl with hnone | ⟨hbare, e, hone⟩
  · have hempty : ({} : Overlay).filesIn dir = [] := rfl
    have hall : hosts.filter (fun f => (o.get? f).isNone) = hosts := by
      refine List.filter_eq_self.mpr fun f hf => ?_
      rw [ho.get?_host hd hn hidl hhosts hf]
      rfl
    have hall' : hosts.filter (fun f => (({} : Overlay).get? f).isNone) = hosts :=
      List.filter_eq_self.mpr fun f _ => rfl
    have hsame : ofDir? disk layout o dir = ofDir? disk layout {} dir := by
      unfold ofDir? ofDir hasHostFiles clauses
      simp only [hnone, hempty, hhosts, bind, Except.bind, hall, hall']
    rw [troubled?, hsame]
  · have hlist : ∃ cs : List (String × Path), cs.length ≤ 1 ∧ clauses disk o dir = .ok cs := by
      refine ⟨_, ?_, by unfold clauses; rw [hbare, hone]; rfl⟩
      exact List.length_filterMap_le _ _
    obtain ⟨cs, hlen, hcs⟩ := hlist
    have hsome : hasHostFiles disk o dir = .ok true := by
      unfold hasHostFiles
      rw [hone]
      rfl
    have hfalse : hasHostFiles disk {} dir = .ok false := by
      unfold hasHostFiles
      rw [hbare]
      rfl
    rw [troubled?, Overlay.ofDir?_eq hhome hsome, hcs]
    unfold ofDir?
    rw [hfalse]
    simp [Except.map, disagreement_of_length_le hlen, bind, Except.bind, pure, Except.pure]

end Listed

end IdlWorkbench
