import IdlWorkbench.Disk
import IdlWorkbench.Proofs.Path

/-!
# What a disk finds

Only absolute paths lead somewhere. A path in normal form leads to the entry under its own names, and every
text that can be read stands in an entry.
-/

namespace IdlWorkbench.Disk

open IdlWorkbench.Path

variable {d : Disk}

theorem isAbsolute_of_locate {p : Path} {x : List String × Entry} (h : d.locate p = .ok x) :
    p.isAbsolute = true := by
  unfold locate at h
  split at h
  · cases h
  · split at h
    · cases h
    · split at h
      · assumption
      · cases h

theorem isAbsolute_of_isFile {p : Path} (h : d.isFile p = true) : p.isAbsolute = true := by
  unfold isFile at h
  split at h
  · rename_i hl
    exact isAbsolute_of_locate hl
  · cases h

theorem isAbsolute_of_list {p : Path} {names : List String} (h : d.list p = .ok names) : p.isAbsolute = true := by
  unfold list at h
  split at h
  · rename_i hl
    exact isAbsolute_of_locate hl
  · cases h
  · cases h

theorem locate_eq_ok {p : Path} {x : List String × Entry} : d.locate p = .ok x ↔
    (∀ s ∈ p.segments, '\x00' ∉ s.toList) ∧ p.text.utf8ByteSize ≤ maxPath ∧ p.isAbsolute = true ∧
      d.walk [] .directory p.segments.tail = .ok x := by
  have hnul : ¬(p.segments.any fun s => s.toList.contains '\x00') = true ↔ ∀ s ∈ p.segments, '\x00' ∉ s.toList := by
    simp
  unfold locate
  constructor
  · intro h
    split at h
    · cases h
    · rename_i hany
      split at h
      · cases h
      · rename_i hlong
        split at h
        · rename_i ha
          exact ⟨hnul.mp hany, by omega, ha, h⟩
        · cases h
  · rintro ⟨hany, hsize, ha, h⟩
    rw [if_neg (hnul.mpr hany), if_neg (by omega), if_pos ha]
    exact h

theorem walk_cons {s : String} (hs : Proper s) (names rest : List String) (entry : Entry) :
    d.walk names entry (s :: rest) =
      if !entry.isDirectory then .error .notADirectory
      else if maxName < s.utf8ByteSize then .error .nameTooLong
      else
        match d.find? (names ++ [s]) with
        | none => .error .notFound
        | some next => d.walk (names ++ [s]) next rest := by
  obtain ⟨hempty, hdot, hup⟩ := hs
  exact walk.eq_5 d names entry s rest hempty hdot hup

theorem find?_of_walk : ∀ {segments names : List String} {entry : Entry} {x : List String × Entry},
    (∀ s ∈ segments, Proper s) → d.find? names = some entry → d.walk names entry segments = .ok x →
    x.1 = names ++ segments ∧ d.find? x.1 = some x.2
  | [], names, entry, x, _, hf, h => by
    rw [walk] at h
    cases h
    exact ⟨by simp, hf⟩
  | s :: rest, names, entry, x, hp, hf, h => by
    rw [walk_cons (hp s (by simp))] at h
    split at h
    · cases h
    · split at h
      · cases h
      · split at h
        · cases h
        · rename_i next hnext
          have ih := find?_of_walk (fun t ht => hp t (List.mem_cons_of_mem _ ht)) hnext h
          simpa using ih

theorem walk_segments (names : List String) :
    d.walk [] .directory (ofNames true names).segments.tail = d.walk [] .directory names := by
  cases names with
  | nil =>
    change d.walk [] .directory [""] = d.walk [] .directory []
    simp only [walk, Entry.isDirectory, Bool.not_true, Bool.false_eq_true, if_false]
  | cons s names => rfl

/-- A path in normal form leads to the entry under its names. -/
theorem find?_of_locate {names : List String} (hn : ∀ s ∈ names, Proper s) {x : List String × Entry}
    (h : d.locate (ofNames true names) = .ok x) : x.1 = names ∧ d.find? names = some x.2 := by
  unfold locate at h
  split at h
  · cases h
  · split at h
    · cases h
    · rw [isAbsolute_ofNames hn, if_pos rfl, walk_segments] at h
      obtain ⟨h1, h2⟩ := find?_of_walk hn rfl h
      rw [List.nil_append] at h1
      exact ⟨h1, h1 ▸ h2⟩

theorem walk_append (back : List String) : ∀ (front names : List String) (entry : Entry),
    d.walk names entry (front ++ back) = d.walk names entry front >>= fun y => d.walk y.1 y.2 back
  | [], _, _ => rfl
  | s :: front, names, entry => by
    by_cases hs : Proper s
    · rw [List.cons_append, walk_cons hs, walk_cons hs]
      split
      · rfl
      · split
        · rfl
        · cases d.find? (names ++ [s]) with
          | none => rfl
          | some next => exact walk_append back front (names ++ [s]) next
    · have hcases : s = "" ∨ s = "." ∨ s = ".." := by
        unfold Proper at hs
        tauto
      rcases hcases with rfl | rfl | rfl
      all_goals
        rw [List.cons_append, walk, walk]
        split
        · rfl
        · exact walk_append back front _ _

theorem text_ofNames (names : List String) : (ofNames true names).text = "/" ++ "/".intercalate names := by
  cases names with
  | nil => rfl
  | cons s names =>
    rw [ofNames_cons, text]
    simp only [if_true, String.intercalate_cons_cons]
    simp

theorem text_ofNames_append_le (a b : List String) :
    (ofNames true a).text.utf8ByteSize ≤ (ofNames true (a ++ b)).text.utf8ByteSize := by
  rw [text_ofNames, text_ofNames]
  cases a with
  | nil => simp [String.utf8ByteSize_append]
  | cons s a =>
    cases b with
    | nil => simp
    | cons t b =>
      rw [String.intercalate_append_of_ne_nil (by simp) (by simp)]
      simp only [String.utf8ByteSize_append]
      omega

/-- The directories on the way to what is found are found too. -/
theorem locate_front {a b : List String} (hp : ∀ s ∈ a ++ b, Proper s) {x : List String × Entry}
    (h : d.locate (ofNames true (a ++ b)) = .ok x) (hdir : b ≠ [] ∨ x.2 = .directory) :
    d.locate (ofNames true a) = .ok (a, .directory) := by
  have ha : ∀ s ∈ a, Proper s := fun s hs => hp s (List.mem_append_left _ hs)
  unfold locate at h ⊢
  split at h
  · cases h
  · rename_i hnul
    split at h
    · cases h
    · rename_i hlong
      rw [isAbsolute_ofNames hp, if_pos rfl] at h
      have hle := text_ofNames_append_le a b
      have hnul' : ¬((ofNames true a).segments.any fun s => s.toList.contains '\x00') = true := by
        intro hany
        obtain ⟨s, hs, hc⟩ := List.any_eq_true.mp hany
        refine hnul (List.any_eq_true.mpr ⟨s, ?_, hc⟩)
        cases a with
        | nil =>
          have : s = "" := by simpa [ofNames_nil] using hs
          rw [this] at hc
          simp at hc
        | cons t a =>
          rw [List.cons_append, ofNames_cons]
          rw [ofNames_cons] at hs
          simp only [if_true, List.mem_cons, List.mem_append] at hs ⊢
          tauto
      rw [if_neg hnul', if_neg (by omega), isAbsolute_ofNames ha, if_pos rfl, walk_segments]
      rw [walk_segments, walk_append b a [] .directory] at h
      cases hw : d.walk [] .directory a with
      | error e => rw [hw] at h; cases h
      | ok y =>
        rw [hw] at h
        obtain ⟨hnames, -⟩ := find?_of_walk ha rfl hw
        obtain ⟨names, entry⟩ := y
        cases hnames
        have hentry : entry = .directory := by
          cases b with
          | nil =>
            cases h
            exact hdir.resolve_left fun h => h rfl
          | cons s b =>
            have hs : d.walk a entry (s :: b) = .ok x := h
            rw [walk_cons (hp s (by simp))] at hs
            cases entry with
            | directory => rfl
            | file text => cases hs
        rw [hentry]

theorem mem_entries_of_find? {names : List String} {text : Option String} (h : d.find? names = some (.file text)) :
    (names, .file text) ∈ d.entries := by
  unfold find? at h
  split at h
  · cases h
  · obtain ⟨before, after, hl, -⟩ := List.lookup_eq_some_iff.mp h
    simp [hl]

/-- A name in a directory is the last one of an entry. -/
theorem exists_of_mem_list {names inside : List String} (hn : ∀ s ∈ names, Proper s)
    (h : d.list (ofNames true names) = .ok inside) {s : String} (hs : s ∈ inside) :
    ∃ e ∈ d.entries, e.1.dropLast = names := by
  unfold list at h
  split at h
  · rename_i base hlocate
    cases h
    obtain ⟨e, he, hm⟩ := List.mem_filterMap.mp hs
    simp only at hm
    split at hm
    · split at hm
      · rename_i hlast
        exact ⟨e, he, hlast.trans (find?_of_locate hn hlocate).1⟩
      · cases hm
    · cases hm
  · cases h
  · cases h

/-- A file stands in the directory that its path says. -/
theorem exists_child_of_isFile {p dir : Path} (hn : p.Normal) (hp : p.parent? = some dir) (h : d.isFile p = true) :
    ∃ names, d.list dir = .ok names ∧ ∃ s ∈ names, p = dir.child s := by
  have ha := isAbsolute_of_isFile h
  rw [hn.parent?_eq] at hp
  split at hp
  · cases hp
  · rename_i hne
    cases hp
    have hproper := proper_resolved p
    have hsplit := List.dropLast_append_getLast hne
    have hfront : ∀ s ∈ p.resolved.dropLast, Proper s := fun s hs => hproper s (List.dropLast_subset _ hs)
    have heq : p = ofNames true p.resolved := by
      conv_lhs => rw [hn.eq_ofNames, ha]
    unfold isFile at h
    split at h
    · rename_i base text hlocate
      rw [heq] at hlocate
      obtain ⟨-, hfind⟩ := find?_of_locate hproper hlocate
      rw [← hsplit] at hlocate
      have hdir := locate_front (hsplit.symm ▸ hproper) hlocate (Or.inl (by simp))
      refine ⟨d.namesIn p.resolved.dropLast, ?_, p.resolved.getLast hne, ?_, ?_⟩
      · rw [ha, list, hdir]
      · refine List.mem_filterMap.mpr ⟨_, mem_entries_of_find? hfind, ?_⟩
        simp [List.getLast?_eq_getLast_of_ne_nil hne]
      · rw [ha, child_ofNames true hfront, hsplit]
        exact heq
    · cases h

theorem isDirectory_of_list {p : Path} {names : List String} (h : d.list p = .ok names) :
    d.isDirectory p = true := by
  unfold list at h
  unfold isDirectory
  split at h
  · rename_i hlocate
    rw [hlocate]
  · cases h
  · cases h

theorem isDirectory_of_mem_directories {root : Path} {names : List String} (h : names ∈ d.directories root) :
    d.isDirectory (names.foldl Path.child root) = true := by
  unfold directories at h
  split at h
  · exact (List.mem_filter.mp h).2
  · cases h

theorem mem_directories {root : Path} {base names : List String} (h : d.locate root = .ok (base, .directory))
    (hf : d.find? (base ++ names) = some .directory) (hd : d.isDirectory (names.foldl Path.child root) = true) :
    names ∈ d.directories root := by
  unfold directories
  rw [h]
  refine List.mem_filter.mpr ⟨?_, hd⟩
  cases names with
  | nil => simp
  | cons s names =>
    refine List.mem_cons_of_mem _ (List.mem_filterMap.mpr ⟨(base ++ s :: names, .directory), ?_, ?_⟩)
    · unfold find? at hf
      rw [if_neg (by simp)] at hf
      obtain ⟨before, after, hl, -⟩ := List.lookup_eq_some_iff.mp hf
      simp [hl]
    · simp [Entry.isDirectory, List.isPrefixOf_iff_prefix]

theorem entry_of_walk : ∀ {segments names : List String} {entry : Entry} {x : List String × Entry},
    d.walk names entry segments = .ok x → x.2 = entry ∨ x.2 = .directory ∨ ∃ key, d.find? key = some x.2
  | [], _, _, _, h => by
    rw [walk] at h
    cases h
    exact Or.inl rfl
  | s :: rest, names, entry, x, h => by
    unfold walk at h
    split at h
    · cases h
    · split at h
      · exact entry_of_walk h
      · exact entry_of_walk h
      · rcases entry_of_walk h with hx | hx
        · exact Or.inr (Or.inl hx)
        · exact Or.inr hx
      · split at h
        · cases h
        · split at h
          · cases h
          · rename_i next hnext
            rcases entry_of_walk h with hx | hx
            · exact Or.inr (Or.inr ⟨_, hx ▸ hnext⟩)
            · exact Or.inr hx

theorem mem_entries_of_read {p : Path} {text : String} (h : d.read p = .ok text) :
    ∃ key, (key, .file (some text)) ∈ d.entries := by
  unfold Disk.read at h
  split at h
  · rename_i names t hl
    cases h
    unfold locate at hl
    split at hl
    · cases hl
    · split at hl
      · cases hl
      · split at hl
        · rcases entry_of_walk hl with hx | hx | ⟨key, hx⟩
          · cases hx
          · cases hx
          · exact ⟨key, mem_entries_of_find? hx⟩
        · cases hl
  · cases h
  · cases h
  · cases h

def texts (d : Disk) : List (Path × String) :=
  d.entries.filterMap fun (names, entry) =>
    match entry with
    | .file text => text.map (ofNames true names, ·)
    | .directory => none

theorem mem_texts {names : List String} {text : String} (h : (names, .file (some text)) ∈ d.entries) :
    (ofNames true names, text) ∈ d.texts := List.mem_filterMap.mpr ⟨_, h, rfl⟩

theorem exists_of_read {p : Path} {text : String} (h : d.read p = .ok text) :
    ∃ f, (p.Normal → f = p) ∧ (f, text) ∈ d.texts := by
  by_cases hp : p.Normal
  · refine ⟨p, fun _ => rfl, ?_⟩
    unfold Disk.read at h
    split at h
    · rename_i names t hl
      cases h
      have heq := hp.eq_ofNames
      rw [isAbsolute_of_locate hl] at heq
      rw [heq] at hl ⊢
      exact mem_texts (mem_entries_of_find? (find?_of_locate (proper_resolved p) hl).2)
    · cases h
    · cases h
    · cases h
  · obtain ⟨key, hkey⟩ := mem_entries_of_read h
    exact ⟨ofNames true key, fun hn => absurd hn hp, mem_texts hkey⟩

end IdlWorkbench.Disk
