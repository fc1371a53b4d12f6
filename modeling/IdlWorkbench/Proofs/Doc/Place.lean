import IdlWorkbench.Doc.Tag
import IdlWorkbench.Proofs.Grammar.Lossless
import IdlWorkbench.Proofs.Token.Comment

/-!
# Places of tags

The text of a tag is put together from lines of comments. `toFile` leads from every character of it to the
same character of the file, in order and inside the doc that the tag stands in.

Two facts about the lines of a doc carry this: a line shows the characters that stand in the file from its
origin on, and the lines are stacked, each one behind the end of the one above it.
-/

namespace IdlWorkbench

open Text

/-! ## Lines in a file -/

namespace DocLine

def stop (l : DocLine) : Nat := l.origin + l.text.utf8ByteSize

/-- From the byte `skip` on, the line shows what stands in the file from its origin on. -/
def Shows (file : List Char) (skip : Nat) (l : DocLine) : Prop :=
  ∀ before c after, l.text.toList = before ++ c :: after → skip ≤ bytes before →
    charAt? (l.origin + bytes before) file = some c

end DocLine

/-- A line of a file: it shows what stands there, and no line break is among it. -/
def Lies (file : List Char) (l : DocLine) : Prop := l.Shows file 0 ∧ '\n' ∉ l.text.toList

theorem lies_of_split {file : List Char} (before line after : List Char) {kept : String} {origin : Nat}
    (h : file = before ++ line ++ after) (ho : bytes before = origin) (hk : kept.toList <+: line)
    (hn : '\n' ∉ line) :
    Lies file ⟨kept, origin⟩ := by
  obtain ⟨dropped, rfl⟩ := hk
  refine ⟨fun pre c post hsplit _ => ?_, fun hmem => hn (List.mem_append_left _ hmem)⟩
  have hfile : file = (before ++ pre) ++ c :: (post ++ dropped ++ after) := by
    rw [h, hsplit]
    simp
  rw [hfile, ← ho, ← bytes_append]
  exact charAt?_bytes c _ _

/-- The lines stand between two places, each behind the end of the one before it. -/
def Stacked (lo : Nat) : List DocLine → (hi : Nat) → Prop
  | [], _ => True
  | l :: ls, hi => lo ≤ l.origin ∧ l.stop ≤ hi ∧ Stacked (l.stop + 1) ls hi

namespace Stacked

variable {lo lo' hi hi' : Nat} {ls ms : List DocLine}

theorem mono (h : Stacked lo ls hi) (hlo : lo' ≤ lo) (hhi : hi ≤ hi') : Stacked lo' ls hi' := by
  induction ls generalizing lo lo' with
  | nil => trivial
  | cons l ls ih => exact ⟨hlo.trans h.1, h.2.1.trans hhi, ih h.2.2 (Nat.le_refl _)⟩

theorem append (h : Stacked lo ls hi) (h' : Stacked (hi + 1) ms hi') (hlo : lo ≤ hi + 1) (hhi : hi ≤ hi') :
    Stacked lo (ls ++ ms) hi' := by
  induction ls generalizing lo with
  | nil => exact h'.mono hlo (Nat.le_refl _)
  | cons l ls ih => exact ⟨h.1, h.2.1.trans hhi, ih h.2.2 (Nat.succ_le_succ h.2.1)⟩

theorem append_left (h : Stacked lo (ls ++ ms) hi) : Stacked lo ls hi := by
  induction ls generalizing lo with
  | nil => trivial
  | cons l ls ih => exact ⟨h.1, h.2.1, ih h.2.2⟩

theorem append_right (h : Stacked lo (ls ++ ms) hi) : Stacked lo ms hi := by
  induction ls generalizing lo with
  | nil => exact h
  | cons l ls ih => exact (ih h.2.2).mono (h.1.trans (by rw [DocLine.stop]; omega)) (Nat.le_refl _)

end Stacked

/-! ## Lines of comments -/

theorem prefix_dropReturns (s : String) : (Doc.dropReturns s).toList <+: s.toList := by
  rw [Doc.dropReturns, String.toList_ofList]
  exact prefix_dropEndWhile _ _

theorem utf8ByteSize_dropReturns_le (s : String) : (Doc.dropReturns s).utf8ByteSize ≤ s.utf8ByteSize := by
  rw [← bytes_toList, ← bytes_toList]
  exact bytes_le_of_prefix (prefix_dropReturns s)

theorem not_mem_splitOn (cs : List Char) : ∀ p ∈ cs.splitOn '\n', '\n' ∉ p := by
  rw [List.splitOn]
  induction cs with
  | nil => simp
  | cons c cs ih =>
    rw [List.splitOnP_cons_eq_if_modifyHead]
    by_cases hc : c = '\n'
    · simpa [hc] using ih
    · cases hs : cs.splitOnP (· == '\n') with
      | nil => simp [hc]
      | cons q qs =>
        rw [hs] at ih
        simpa [hc, Ne.symm hc] using ih

/-- Lines of a block comment. -/
theorem lies_placeLines {file after : List Char} : ∀ (pieces : List String) (origin : Nat) (before : List Char),
    file = before ++ ['\n'].intercalate (pieces.map String.toList) ++ after → bytes before = origin →
    (∀ p ∈ pieces, '\n' ∉ p.toList) →
    (∀ l ∈ Doc.placeLines origin pieces, Lies file l) ∧
      Stacked origin (Doc.placeLines origin pieces) (origin + bytes (['\n'].intercalate (pieces.map String.toList)))
  | [], _, _, _, _, _ => ⟨by simp [Doc.placeLines], trivial⟩
  | [p], origin, before, h, ho, hn => by
    rw [List.map_singleton, List.intercalate_singleton] at h ⊢
    refine ⟨?_, Nat.le_refl _, ?_, trivial⟩
    · simp only [Doc.placeLines, List.mem_singleton]
      rintro l rfl
      exact lies_of_split before _ after h ho (prefix_dropReturns p) (hn p (by simp))
    · have := utf8ByteSize_dropReturns_le p
      rw [bytes_toList]
      exact Nat.add_le_add_left this origin
  | p :: q :: pieces, origin, before, h, ho, hn => by
    have hjoin : ['\n'].intercalate ((p :: q :: pieces).map String.toList) =
        p.toList ++ '\n' :: ['\n'].intercalate ((q :: pieces).map String.toList) := by
      rw [List.map_cons, List.map_cons, List.intercalate_cons_cons, List.append_assoc]
      rfl
    rw [hjoin] at h ⊢
    have hlen := utf8ByteSize_dropReturns_le p
    have hnl : '\n'.utf8Size = 1 := by decide
    have hfile : file = (before ++ p.toList ++ ['\n']) ++
      ['\n'].intercalate ((q :: pieces).map String.toList) ++ after := by
      rw [h]
      simp
    have hbytes : bytes (before ++ p.toList ++ ['\n']) = origin + p.utf8ByteSize + 1 := by
      simp [bytes_append, bytes, ho, bytes_toList, hnl, Nat.add_assoc]
    obtain ⟨hl, hs⟩ := lies_placeLines (q :: pieces) _ _ hfile hbytes fun r hr => hn r (List.mem_cons_of_mem _ hr)
    rw [Doc.placeLines]
    refine ⟨fun l hmem => ?_, Nat.le_refl _, ?_, hs.mono ?_ ?_⟩
    · rcases List.mem_cons.mp hmem with rfl | hmem
      · exact lies_of_split before p.toList _ (by rw [h, ← List.append_assoc, List.append_assoc]) ho
          (prefix_dropReturns p) (hn p (by simp))
      · exact hl l hmem
    · rw [DocLine.stop, bytes_append, bytes_toList]
      dsimp only
      omega
    · rw [DocLine.stop]
      dsimp only
      omega
    · rw [bytes_append, bytes_toList, bytes, hnl]
      omega

theorem blockInner?_eq {t : Token} {inner : List Char} (h : t.text.toList = '/' :: '*' :: (inner ++ ['*', '/'])) :
    t.blockInner? = some (String.ofList inner) := by
  have hstart : strip? "/*" t.text = some (String.ofList (inner ++ ['*', '/'])) := by simp [strip?, h]
  have hend : (['*', '/']).isSuffixOf (inner ++ ['*', '/']) = true :=
    List.isSuffixOf_iff_suffix.mpr (List.suffix_append _ _)
  simp [Token.blockInner?, hstart, stripEnd?, hend]

theorem utf8Size_slash : '/'.utf8Size = 1 := by decide

theorem utf8Size_star : '*'.utf8Size = 1 := by decide

theorem utf8Size_blank : ' '.utf8Size = 1 := by decide

section
variable {file before after : List Char} {t : Token} (hfile : file = before ++ t.text.toList ++ after)
  (ho : bytes before = t.offset)
include hfile ho

/-- The one line that a line comment has behind its marker of `lead` characters. -/
theorem lies_lineComment (lead body : List Char) (htext : t.text.toList = lead ++ body) (hn : '\n' ∉ body)
    (hlead : 2 ≤ bytes lead) :
    Lies file ⟨Doc.dropReturns (String.ofList body), t.offset + bytes lead⟩ ∧
      Stacked (t.offset + 2) [⟨Doc.dropReturns (String.ofList body), t.offset + bytes lead⟩] t.stop := by
  have hkept := prefix_dropReturns (String.ofList body)
  rw [String.toList_ofList] at hkept
  refine ⟨lies_of_split (before ++ lead) body after ?_ ?_ hkept hn, Nat.add_le_add_left hlead _, ?_, trivial⟩
  · rw [hfile, htext]
    simp
  · rw [bytes_append, ho]
  · have := bytes_le_of_prefix hkept
    rw [DocLine.stop, Token.stop, ← bytes_toList t.text, htext, bytes_append, ← bytes_toList (Doc.dropReturns _)]
    dsimp only
    omega

theorem lies_blockComment {inner : List Char} (htext : t.text.toList = '/' :: '*' :: (inner ++ ['*', '/'])) :
    (∀ l ∈ Doc.placeLines (t.offset + 2) (split (String.ofList inner)), Lies file l) ∧
      Stacked (t.offset + 2) (Doc.placeLines (t.offset + 2) (split (String.ofList inner))) t.stop := by
  have hjoin : ['\n'].intercalate ((split (String.ofList inner)).map String.toList) = inner := by
    rw [split, String.toList_ofList, List.map_map]
    have : String.toList ∘ String.ofList = id := funext fun _ => String.toList_ofList
    rw [this, List.map_id, List.intercalate_splitOn]
  have hfile' : file = (before ++ ['/', '*']) ++
    ['\n'].intercalate ((split (String.ofList inner)).map String.toList) ++
      (['*', '/'] ++ after) := by
    rw [hjoin, hfile, htext]
    simp
  have hbytes : bytes (before ++ ['/', '*']) = t.offset + 2 := by
    simp [bytes_append, bytes, utf8Size_slash, utf8Size_star, ho]
  obtain ⟨hl, hs⟩ := lies_placeLines _ _ _ hfile' hbytes fun p hp => by
    rw [split, String.toList_ofList] at hp
    obtain ⟨q, hq, rfl⟩ := List.mem_map.mp hp
    rw [String.toList_ofList]
    exact not_mem_splitOn inner q hq
  refine ⟨hl, hs.mono (Nat.le_refl _) ?_⟩
  rw [hjoin, Token.stop, ← bytes_toList t.text, htext]
  simp only [bytes, bytes_append, utf8Size_slash, utf8Size_star]
  omega

end

/-- The lines of a comment stand in its text, behind the marker. -/
theorem lies_linesOfComment {text : String} {t : Token} (ht : t ∈ Token.tokenize text) (hc : t.isComment = true) :
    (∀ l ∈ Doc.linesOfComment t, Lies text.toList l) ∧ Stacked (t.offset + 2) (Doc.linesOfComment t) t.stop := by
  obtain ⟨before, after, hfile, ho⟩ := Token.lies_of_mem ht
  have hshape := Token.isComment_of_mem ht hc
  generalize hkind : t.kind = k at hshape
  generalize htext : t.text.toList = cs at hshape
  cases hshape with
  | line hn =>
    rename_i body
    rw [Doc.linesOfComment, hkind, htext]
    dsimp only [List.drop]
    split
    · rename_i body
      have := lies_lineComment hfile ho ['/', '/', ' '] body (by rw [htext]; rfl)
        (fun h => hn (List.mem_cons_of_mem _ h)) (by decide)
      simpa [bytes, utf8Size_slash, utf8Size_blank] using this
    · have := lies_lineComment hfile ho ['/', '/'] body (by rw [htext]; rfl) hn (by decide)
      simpa [bytes, utf8Size_slash] using this
  | block inner =>
    rw [Doc.linesOfComment, hkind, blockInner?_eq htext]
    exact lies_blockComment hfile ho htext

/-! ## Lines of a doc -/

/-- The tokens stand between two places, one behind the other. -/
def Spread (lo : Nat) : List Token → (hi : Nat) → Prop
  | [], _ => True
  | t :: ts, hi => lo ≤ t.offset ∧ t.stop ≤ hi ∧ Spread t.stop ts hi

theorem Spread.mono {lo lo' hi : Nat} {ts : List Token} (h : Spread lo ts hi)
    (hlo : lo' ≤ lo) : Spread lo' ts hi := by
  cases ts with
  | nil => trivial
  | cons t ts => exact ⟨hlo.trans h.1, h.2⟩

theorem Spread.stacked {text : String} {hi : Nat} : ∀ {ts : List Token} {lo : Nat},
    Spread lo ts hi → (∀ t ∈ ts, t ∈ Token.tokenize text ∧ t.isComment = true) →
    Stacked (lo + 1) (ts.flatMap Doc.linesOfComment) hi
  | [], _, _, _ => trivial
  | t :: ts, lo, h, ht => by
    obtain ⟨hmem, hc⟩ := ht t (by simp)
    have hlines := (lies_linesOfComment hmem hc).2
    have hrest := h.2.2.stacked fun u hu => ht u (List.mem_cons_of_mem t hu)
    have hlo := h.1
    have hle : t.offset ≤ t.stop := by
      rw [Token.stop]
      omega
    rw [List.flatMap_cons]
    exact (hlines.mono (by omega) (Nat.le_refl _)).append hrest (by omega) h.2.1

/-- Tokens among children that fill a range are spread over it. -/
theorem spread_tokens : ∀ {children : List Tree} {lo hi : Nat},
    Tree.TiledFrom lo children hi → Spread lo ((Tree.tokens children).filter Token.isComment) hi
  | [], _, _, _ => trivial
  | .leaf t :: children, lo, hi, h => by
    rw [Tree.TiledFrom] at h
    obtain ⟨rfl, -, hrest⟩ := h
    have hspread := spread_tokens hrest
    have hle := Grammar.stop_of_tiledFrom hrest
    rw [Tree.tokens, List.filterMap_cons, Tree.token?, List.filter_cons]
    split
    · exact ⟨Nat.le_refl _, by rw [hle]; exact Nat.le_add_right _ _, hspread⟩
    · refine hspread.mono ?_
      rw [Tree.range, Token.range, Token.stop]
      exact Nat.le_add_right _ _
  | .node k r ds :: children, lo, hi, h => by
    rw [Tree.TiledFrom] at h
    obtain ⟨rfl, htiled, hrest⟩ := h
    have hstop := Grammar.stop_of_tiled htiled
    refine (spread_tokens hrest).mono ?_
    rw [hstop]
    exact Nat.le_add_right _ _

theorem TiledFrom.tiled {t : Tree} : ∀ {ts : List Tree} {lo hi : Nat}, Tree.TiledFrom lo ts hi → t ∈ ts → t.Tiled
  | u :: us, lo, hi, h, ht => by
    rw [Tree.TiledFrom] at h
    rcases List.mem_cons.mp ht with rfl | ht
    · exact h.2.1
    · exact TiledFrom.tiled h.2.2 ht

mutual

/-- What hangs in a tiled tree is tiled, and its leaves are leaves of the tree. -/
theorem tiled_of_mem_branches {p b : Tree} : ∀ {t : Tree},
    (p, b) ∈ t.branches → t.Tiled → b.Tiled ∧ ∀ x ∈ b.leaves, x ∈ t.leaves
  | .leaf _, h, _ => by simp [Tree.branches] at h
  | .node k r ts, h, ht => by
    rw [Tree.branches] at h
    rw [Tree.Tiled] at ht
    rw [Tree.leaves]
    exact tiled_of_mem_branchesOf h fun u hu => TiledFrom.tiled ht hu

theorem tiled_of_mem_branchesOf {p b : Tree} : ∀ {parent : Tree} {ts : List Tree},
    (p, b) ∈ Tree.branchesOf parent ts →
    (∀ u ∈ ts, u.Tiled) → b.Tiled ∧ ∀ x ∈ b.leaves, x ∈ Tree.leavesOf ts
  | _, [], h, _ => by simp [Tree.branchesOf] at h
  | parent, .leaf t :: ts, h, ht => by
    rw [Tree.branchesOf] at h
    obtain ⟨hb, hl⟩ := tiled_of_mem_branchesOf h fun u hu => ht u (List.mem_cons_of_mem _ hu)
    refine ⟨hb, fun x hx => ?_⟩
    rw [Tree.leavesOf]
    exact List.mem_append_right _ (hl x hx)
  | parent, .node k r ds :: ts, h, ht => by
    have hnode := ht (.node k r ds) (by simp)
    rw [Tree.branchesOf, List.cons_append, List.mem_cons, List.mem_append] at h
    rw [Tree.leavesOf]
    rcases h with h | h | h
    · cases h
      exact ⟨hnode, fun x hx => List.mem_append_left _ hx⟩
    · rw [Tree.Tiled] at hnode
      obtain ⟨hb, hl⟩ := tiled_of_mem_branchesOf h fun u hu => TiledFrom.tiled hnode hu
      refine ⟨hb, fun x hx => List.mem_append_left _ ?_⟩
      rw [Tree.leaves]
      exact hl x hx
    · obtain ⟨hb, hl⟩ := tiled_of_mem_branchesOf h fun u hu => ht u (List.mem_cons_of_mem _ hu)
      exact ⟨hb, fun x hx => List.mem_append_right _ (hl x hx)⟩

end

theorem exists_of_doc {t : Tree} {d : Doc} (h : Doc.ofTree? t = some d) :
    ∃ children, t = .node .doc d.range children ∧ d.comments = (Tree.tokens children).filter Token.isComment := by
  rw [Doc.ofTree?.eq_def] at h
  split at h
  · cases h
    exact ⟨_, rfl, rfl⟩
  · cases h

/-- The lines of every doc of a file stand in the doc's range, one below the other. -/
theorem lies_lines {text : String} {tree : Tree} {owner : ByteRange} {doc : Doc}
    (hleaves : tree.leaves = Token.tokenize text)
    (htiled : tree.Tiled) (h : (owner, doc) ∈ tree.docs) :
    (∀ l ∈ doc.lines, Lies text.toList l) ∧ Stacked doc.range.start doc.lines doc.range.stop := by
  obtain ⟨⟨parent, below⟩, hmem, hdoc⟩ := List.mem_filterMap.mp h
  obtain ⟨d, hd, heq⟩ := Option.map_eq_some_iff.mp hdoc
  cases heq
  obtain ⟨children, rfl, hcs⟩ := exists_of_doc hd
  obtain ⟨hbelow, hsub⟩ := tiled_of_mem_branches hmem htiled
  rw [Tree.Tiled] at hbelow
  have hcomments : ∀ t ∈ doc.comments, t ∈ Token.tokenize text ∧ t.isComment = true := by
    intro t ht
    rw [hcs] at ht
    obtain ⟨ht, hc⟩ := List.mem_filter.mp ht
    refine ⟨?_, hc⟩
    obtain ⟨u, hu, hut⟩ := List.mem_filterMap.mp ht
    rw [← hleaves]
    apply hsub
    rw [Tree.leaves]
    cases u with
    | leaf v =>
      cases hut
      exact Tree.mem_leavesOf.mpr ⟨_, hu, by simp [Tree.leaves]⟩
    | node => cases hut
  have hspread := spread_tokens hbelow
  rw [← hcs] at hspread
  refine ⟨fun l hl => ?_, (hspread.stacked hcomments).mono (Nat.le_succ _) (Nat.le_refl _)⟩
  obtain ⟨t, ht, hl⟩ := List.mem_flatMap.mp hl
  obtain ⟨hmem, hc⟩ := hcomments t ht
  exact (lies_linesOfComment hmem hc).1 l hl

/-! ## Offsets in a tag -/

def joined (ls : List DocLine) : List Char := ['\n'].intercalate (ls.map (·.text.toList))

theorem joined_singleton (l : DocLine) : joined [l] = l.text.toList := List.intercalate_singleton

theorem joined_cons {l : DocLine} {ls : List DocLine} (h : ls ≠ []) :
    joined (l :: ls) = l.text.toList ++ '\n' :: joined ls := by
  cases ls with
  | nil => exact absurd rfl h
  | cons m ls =>
    rw [joined, List.map_cons, List.map_cons, List.intercalate_cons_cons, List.append_assoc]
    rfl

/-- A start of the lines ends in the first line or below it. -/
theorem prefix_joined {l : DocLine} {ls : List DocLine} {before : List Char} (h : before <+: joined (l :: ls)) :
    before <+: l.text.toList ∨
      ls ≠ [] ∧ ∃ below, before = l.text.toList ++ '\n' :: below ∧ below <+: joined ls := by
  by_cases hls : ls = []
  · subst hls
    rw [joined_singleton] at h
    exact Or.inl h
  · rw [joined_cons hls] at h
    rcases List.prefix_or_prefix_of_prefix h (List.prefix_append _ _) with h' | ⟨below, rfl⟩
    · exact Or.inl h'
    · rw [List.prefix_append_right_inj] at h
      cases below with
      | nil => exact Or.inl (by simp)
      | cons c below =>
        rw [List.cons_prefix_cons] at h
        exact Or.inr ⟨hls, below, by rw [h.1], h.2⟩

/-- The place that the end of `before` stands for where lines begin at `origins`. -/
def placeOf (origins : List Nat) (before : List Char) : Nat :=
  let column := bytes (before.reverse.takeWhile (· ≠ '\n'))
  match origins[before.count '\n']? <|> origins.getLast? with
  | some origin => origin + column
  | none => column

theorem toFile_eq (s : TagSource) (offset : Nat) : s.toFile offset = placeOf s.origins (s.before offset) := rfl

theorem placeOf_line (origin : Nat) (origins : List Nat) {before : List Char} (h : '\n' ∉ before) :
    placeOf (origin :: origins) before = origin + bytes before := by
  have hall : before.reverse.takeWhile (· ≠ '\n') = before.reverse := by
    rw [List.takeWhile_eq_self_iff]
    intro c hc
    have : c ≠ '\n' := fun hn => h (hn ▸ List.mem_reverse.mp hc)
    simpa using this
  rw [placeOf, hall, List.count_eq_zero_of_not_mem h, bytes_reverse]
  rfl

theorem placeOf_below (origin : Nat) {origins : List Nat} (ho : origins ≠ []) {line : List Char} (h : '\n' ∉ line)
    (below : List Char) : placeOf (origin :: origins) (line ++ '\n' :: below) = placeOf origins below := by
  have hcount : (line ++ '\n' :: below).count '\n' = below.count '\n' + 1 := by
    rw [List.count_append, List.count_eq_zero_of_not_mem h, List.count_cons_self, Nat.zero_add]
  have hcolumn : (line ++ '\n' :: below).reverse.takeWhile (· ≠ '\n') = below.reverse.takeWhile (· ≠ '\n') := by
    rw [List.reverse_append, List.reverse_cons, List.append_assoc, List.takeWhile_append]
    split
    · rename_i hlen
      rw [List.singleton_append, List.takeWhile_cons_of_neg (by simp), List.append_nil]
      exact (List.takeWhile_prefix _).eq_of_length hlen |>.symm
    · rfl
  have hlast : (origin :: origins).getLast? = origins.getLast? := by
    obtain ⟨o, os, rfl⟩ := List.exists_cons_of_ne_nil ho
    rfl
  rw [placeOf, hcount, hcolumn, hlast, List.getElem?_cons_succ]
  rfl

/-- What holds of the lines that a tag is put together from: they are stacked, and no line break is in one. -/
def Laid (lo : Nat) (ls : List DocLine) (hi : Nat) : Prop := Stacked lo ls hi ∧ ∀ l ∈ ls, '\n' ∉ l.text.toList

theorem Laid.tail {lo hi : Nat} {l : DocLine} {ls : List DocLine} (h : Laid lo (l :: ls) hi) :
    Laid (l.stop + 1) ls hi :=
  ⟨h.1.2.2, fun m hm => h.2 m (List.mem_cons_of_mem l hm)⟩

section
variable {lo hi : Nat} {l : DocLine} {ls : List DocLine} {before : List Char} (h : Laid lo (l :: ls) hi)
include h

/-- The place of an offset in the first line. -/
theorem placeOf_first (hb : before <+: l.text.toList) :
    placeOf ((l :: ls).map DocLine.origin) before = l.origin + bytes before ∧ l.origin + bytes before ≤ l.stop := by
  have hn : '\n' ∉ before := fun hmem => h.2 l (by simp) (hb.subset hmem)
  have hle := bytes_le_of_prefix hb
  rw [bytes_toList] at hle
  refine ⟨placeOf_line _ _ hn, ?_⟩
  rw [DocLine.stop]
  omega

theorem placeOf_rest (hls : ls ≠ []) (below : List Char) :
    placeOf ((l :: ls).map DocLine.origin) (l.text.toList ++ '\n' :: below) = placeOf (ls.map DocLine.origin)
      below :=
  placeOf_below _ (by simpa using hls) (h.2 l (by simp)) below

end

theorem placeOf_inside {hi : Nat} : ∀ {ls : List DocLine} {lo : Nat} {before : List Char},
    ls ≠ [] → Laid lo ls hi → before <+: joined ls →
    lo ≤ placeOf (ls.map DocLine.origin) before ∧ placeOf (ls.map DocLine.origin) before ≤ hi
  | l :: ls, lo, before, _, h, hb => by
    have hlo := h.1.1
    have hhi := h.1.2.1
    rcases prefix_joined hb with hb | ⟨hls, below, rfl, hbelow⟩
    · obtain ⟨hplace, hstop⟩ := placeOf_first h hb
      rw [hplace]
      omega
    · have hin := placeOf_inside hls h.tail hbelow
      rw [placeOf_rest h hls]
      rw [DocLine.stop] at hin
      omega

/-- Later offsets have later places. -/
theorem placeOf_lt {hi : Nat} : ∀ {ls : List DocLine} {lo : Nat} {before before' : List Char},
    ls ≠ [] → Laid lo ls hi →
    before <+: joined ls → before' <+: joined ls → bytes before < bytes before' →
    placeOf (ls.map DocLine.origin) before < placeOf (ls.map DocLine.origin) before'
  | l :: ls, lo, before, before', _, h, hb, hb', hlt => by
    rcases prefix_joined hb with hb | ⟨hls, below, rfl, hbelow⟩
    · obtain ⟨hplace, hstop⟩ := placeOf_first h hb
      rw [hplace]
      rcases prefix_joined hb' with hb' | ⟨hls, below, rfl, hbelow⟩
      · rw [(placeOf_first h hb').1]
        omega
      · have hin := placeOf_inside hls h.tail hbelow
        rw [placeOf_rest h hls]
        omega
    · rw [bytes_append, bytes] at hlt
      rcases prefix_joined hb' with hb' | ⟨-, below', rfl, hbelow'⟩
      · have := bytes_le_of_prefix hb'
        omega
      · rw [bytes_append, bytes] at hlt
        rw [placeOf_rest h hls, placeOf_rest h hls]
        exact placeOf_lt hls h.tail hbelow hbelow' (by omega)

/-- The place of a character is where it stands in the file; of the first line only what it shows counts. -/
theorem charAt?_placeOf {file : List Char} {hi : Nat} {c : Char} (hc : c ≠ '\n') :
    ∀ {ls : List DocLine} {l : DocLine}
    {lo skip : Nat} {before : List Char}, Laid lo (l :: ls) hi → l.Shows file skip → (∀ m ∈ ls, Lies file m) →
    before ++ [c] <+: joined (l :: ls) → skip ≤ bytes before →
    charAt? (placeOf ((l :: ls).map DocLine.origin) before) file = some c
  | ls, l, lo, skip, before, h, hl, hls, hb, hskip => by
    rcases prefix_joined hb with ⟨after, hafter⟩ | ⟨hne, below, heq, hbelow⟩
    · rw [(placeOf_first h ⟨c :: after, by simpa using hafter⟩).1]
      exact hl before c after (by simpa using hafter.symm) hskip
    · -- The character stands behind a line break, so what is before it does not end there.
      rcases List.eq_nil_or_concat below with rfl | ⟨pre, d, rfl⟩
      · have := List.append_inj_right' heq rfl
        simp at this
        exact absurd this hc
      · obtain ⟨m, ms, rfl⟩ := List.exists_cons_of_ne_nil hne
        have heq' : before ++ [c] = (l.text.toList ++ '\n' :: pre) ++ [d] := by rw [heq]; simp
        obtain ⟨rfl, hcd⟩ := List.append_inj' heq' rfl
        cases hcd
        rw [placeOf_rest h hne]
        rw [List.concat_eq_append] at hbelow
        exact charAt?_placeOf hc h.tail (hls m (by simp)).1 (fun n hn => hls n (List.mem_cons_of_mem m hn))
          hbelow (Nat.zero_le _)

/-! ## Tags -/

/-- The lines of a tag: the first with its marker overwritten, the others as they stand in the doc. -/
theorem exists_lines_of_tag {s : TagSource} : ∀ {index : Nat} {ls : List DocLine}, s ∈ DocParts.tagsFrom index ls →
    ∃ above line start more below, ls = above ++ (line :: more ++ below) ∧
      DocParts.tagStart? line.text = some start ∧
      s.text = "\n".intercalate (start :: more.map DocLine.text) ∧ s.origins = line.origin ::
        more.map DocLine.origin ∧
      ∀ l ∈ more, DocParts.tagStart? l.text = none
  | index, [], h => by simp [DocParts.tagsFrom] at h
  | index, line :: rest, h => by
    rw [DocParts.tagsFrom] at h
    split at h
    · obtain ⟨above, l, start, more, below, rfl, hs⟩ := exists_lines_of_tag h
      exact ⟨line :: above, l, start, more, below, rfl, hs⟩
    · rename_i start hstart
      rcases List.mem_cons.mp h with rfl | h
      · obtain ⟨below, hbelow⟩ : DocParts.continuation rest <+: rest := List.takeWhile_prefix _
        refine ⟨[], line, start, _, below, by simp [hbelow], hstart, rfl, rfl, fun l hl => ?_⟩
        simpa using List.mem_takeWhile_imp hl
      · obtain ⟨above, l, start, more, below, rfl, hs⟩ := exists_lines_of_tag h
        exact ⟨line :: above, l, start, more, below, rfl, hs⟩

/-- Blanks take the place of the marker. -/
theorem exists_of_tagStart? {line start : String} (h : DocParts.tagStart? line = some start) :
    ∃ rest, line.toList = "+gunk".toList ++ rest ∧ start.toList = List.replicate 5 ' ' ++ rest := by
  rw [DocParts.tagStart?, Option.map_eq_some_iff] at h
  obtain ⟨rest, hrest, rfl⟩ := h
  rw [strip?] at hrest
  split at hrest
  · rename_i hlead
    obtain ⟨rest', hrest'⟩ := List.isPrefixOf_iff_prefix.mp hlead
    rw [Option.some.injEq] at hrest
    refine ⟨' ' :: rest', ?_, ?_⟩
    · rw [← hrest']
      simp [tagMarker]
    · rw [← hrest, ← hrest']
      simp [tagMarker]
      rfl
  · cases hrest

theorem shows_tagStart {file : List Char} {line : DocLine} {start : String} (h : Lies file line)
    (hs : DocParts.tagStart? line.text = some start) :
    (⟨start, line.origin⟩ : DocLine).Shows file tagMarker.utf8ByteSize ∧ '\n' ∉ start.toList ∧
      start.utf8ByteSize = line.text.utf8ByteSize := by
  obtain ⟨rest, hline, hstart⟩ := exists_of_tagStart? hs
  have hmarker : bytes "+gunk".toList = 5 := by decide
  have hblanks : bytes (List.replicate 5 ' ') = 5 := by decide
  refine ⟨fun before c after hsplit hskip => ?_, ?_, ?_⟩
  · have hpre : List.replicate 5 ' ' <+: before := by
      refine prefix_of_bytes_le (List.prefix_append _ rest) ⟨c :: after, hsplit.symm.trans hstart⟩ ?_
      rw [hblanks]
      exact hskip
    obtain ⟨mid, rfl⟩ := hpre
    rw [hsplit, List.append_assoc] at hstart
    have hrest := (List.append_cancel_left hstart).symm
    have hshows := h.1 ("+gunk".toList ++ mid) c after (by rw [hline, hrest, List.append_assoc]) (Nat.zero_le _)
    rw [bytes_append, hmarker] at hshows
    rw [bytes_append, hblanks]
    exact hshows
  · intro hn
    rw [hstart, List.mem_append] at hn
    rcases hn with hn | hn
    · simp at hn
    · exact h.2 (by rw [hline]; exact List.mem_append_right _ hn)
  · rw [← bytes_toList, ← bytes_toList, hstart, hline, bytes_append, bytes_append, hmarker, hblanks]

/-- The text of a tag stands where `toFile` says, inside the range of its doc. -/
structure TagSource.Placed (text : String) (doc : ByteRange) (s : TagSource) : Prop where
  /-- Behind the marker, every character that is no line break stands at its place in the file. -/
  shows : ∀ offset c, charAt? offset s.text.toList = some c → tagMarker.utf8ByteSize ≤ offset → c ≠ '\n' →
    charAt? (s.toFile offset) text.toList = some c
  increasing : ∀ m n, IsBoundary m s.text.toList → IsBoundary n s.text.toList → m < n → s.toFile m < s.toFile n
  inside : ∀ offset, doc.start ≤ s.toFile offset ∧ s.toFile offset ≤ doc.stop
  /-- No range is turned around. -/
  ordered : ∀ r : ByteRange, r.start ≤ r.stop → (s.rangeToFile r).start ≤ (s.rangeToFile r).stop

/-- Tags whose lines are laid out in a range of the file, and show what stands there, are placed. -/
theorem TagSource.placed_of_laid {text : String} {doc : ByteRange} {s : TagSource} {l : DocLine} {ls : List DocLine}
    (hlaid : Laid doc.start (l :: ls) doc.stop) (hl : l.Shows text.toList tagMarker.utf8ByteSize)
    (hls : ∀ m ∈ ls, Lies text.toList m) (htext : s.text.toList = joined (l :: ls))
    (ho : s.origins = (l :: ls).map DocLine.origin) : s.Placed text doc := by
  have hb (offset : Nat) : s.before offset <+: joined (l :: ls) := htext ▸ prefix_takeBytes offset s.text.toList
  have hplace (offset : Nat) : s.toFile offset = placeOf ((l :: ls).map DocLine.origin) (s.before offset) := by
    rw [toFile_eq, ho]
  have hne : l :: ls ≠ [] := List.cons_ne_nil l ls
  refine ⟨fun offset c hc hskip hn => ?_, fun m n hm hn hlt => ?_, fun offset => ?_, fun r hr => ?_⟩
  · obtain ⟨before, after, hsplit, hbytes⟩ := exists_of_charAt? hc
    have hbefore : s.before offset = before := by rw [TagSource.before, hsplit, ← hbytes, takeBytes_bytes]
    rw [hplace, hbefore]
    refine charAt?_placeOf hn hlaid hl hls ⟨after, ?_⟩ (hbytes ▸ hskip)
    rw [← htext, hsplit, List.append_assoc]
    rfl
  · rw [hplace, hplace]
    refine placeOf_lt hne hlaid (hb m) (hb n) ?_
    rw [TagSource.before, hm, TagSource.before, hn]
    exact hlt
  · rw [hplace]
    exact placeOf_inside hne hlaid (hb offset)
  · show s.toFile r.start ≤ s.toFile r.stop
    rw [hplace, hplace]
    have hle := bytes_takeBytes_mono s.text.toList hr
    rcases Nat.eq_or_lt_of_le hle with heq | hlt
    · have hpre := prefix_of_bytes_le (hb r.start) (hb r.stop) heq.le
      have hpre' := prefix_of_bytes_le (hb r.stop) (hb r.start) heq.ge
      rw [hpre.eq_of_length_le hpre'.length_le]
    · exact (placeOf_lt hne hlaid (hb _) (hb _) hlt).le

/-- The tags of a doc in a file are placed in its range. -/
theorem placed_of_mem_tags {text : String} {doc : Doc} {s : TagSource} (hlines : ∀ l ∈ doc.lines, Lies text.toList l)
    (hstacked : Stacked doc.range.start doc.lines doc.range.stop) (hs : s ∈ doc.parts.tags) :
    s.Placed text doc.range := by
  obtain ⟨above, line, start, more, below, hdoc, hstart, htext, ho, -⟩ := exists_lines_of_tag hs
  rw [hdoc] at hlines hstacked
  have hmem : ∀ l ∈ line :: more, Lies text.toList l := fun l hl =>
    hlines l (List.mem_append_right _ (List.mem_append_left _ hl))
  obtain ⟨hshows, hn, hsize⟩ := shows_tagStart (hmem line (by simp)) hstart
  have hst := hstacked.append_right.append_left
  have hlaid : Laid doc.range.start (⟨start, line.origin⟩ :: more) doc.range.stop := by
    refine ⟨⟨hst.1, ?_, ?_⟩, fun l hl => ?_⟩
    · rw [DocLine.stop, hsize]
      exact hst.2.1
    · rw [DocLine.stop, hsize]
      exact hst.2.2
    · rcases List.mem_cons.mp hl with rfl | hl
      · exact hn
      · exact (hmem l (List.mem_cons_of_mem _ hl)).2
  refine TagSource.placed_of_laid hlaid hshows (fun m hm => hmem m (List.mem_cons_of_mem _ hm)) ?_ ho
  rw [htext, String.toList_intercalate, joined, List.map_cons, List.map_cons, List.map_map]
  rfl

/-- Every tag of a file comes from a doc of the file, and offsets in the tag lead to the places in that doc
where its characters stand. -/
theorem tags_placed (text : String) (owner : ByteRange) (tags : List Tag)
    (h : (owner, tags) ∈ (parse text).tree.tags) :
    ∃ doc, (owner, doc) ∈ (parse text).tree.docs ∧ tags = doc.parts.parsedTags ∧
      ∀ tag ∈ tags, tag.source.Placed text doc.range := by
  have hcovers := Grammar.parse_covers text
  generalize (parse text).tree = tree at *
  obtain ⟨⟨owner', doc⟩, hdoc, htags⟩ := List.mem_filterMap.mp h
  dsimp only at htags
  split at htags
  · cases htags
  · cases htags
    obtain ⟨hlines, hstacked⟩ := lies_lines hcovers.leaves hcovers.tiled hdoc
    refine ⟨doc, hdoc, rfl, fun tag htag => ?_⟩
    obtain ⟨s, hs, rfl⟩ := List.mem_map.mp htag
    exact placed_of_mem_tags hlines hstacked hs

/-- A doc with prose, a tag of three lines and one of one line. -/
def taggedText : String :=
  "package a\n\n// Größe\n//\n// +gunk T\x7b\n//\tÄ: \"ü\",\n//  B: 2\x7d\n// +gunk x\ntype T int\n"

theorem tags_placed_sample : ∃ owner tags doc, (owner, tags) ∈ (parse taggedText).tree.tags ∧
    tags.map (fun t => (t.source.text, [6, 10, 15, 21].map t.source.toFile)) =
      [("      T\x7b\n\tÄ: \"ü\",\n B: 2\x7d", [34, 40, 45, 54]), ("      x", [69, 70, 70, 70])] ∧
    (owner, doc) ∈ (parse taggedText).tree.docs ∧ ∀ tag ∈ tags, tag.source.Placed taggedText doc.range := by
  have htags : (parse taggedText).tree.tags.map (fun p =>
      p.2.map fun t => (t.source.text, [6, 10, 15, 21].map t.source.toFile)) =
        [[("      T\x7b\n\tÄ: \"ü\",\n B: 2\x7d", [34, 40, 45, 54]), ("      x", [69, 70, 70, 70])]] := by
    decide +kernel
  obtain ⟨⟨owner, tags⟩, hmem, hplaces⟩ := List.mem_map.mp (htags ▸ List.mem_singleton_self _)
  obtain ⟨doc, hdoc, -, hplaced⟩ := tags_placed _ owner tags hmem
  exact ⟨owner, tags, doc, hmem, hplaces, hdoc, hplaced⟩

end IdlWorkbench
