import IdlWorkbench.Proofs.Doc.Attach
import IdlWorkbench.Proofs.Doc.Place
import IdlWorkbench.Proofs.Format.Comments
import IdlWorkbench.Proofs.Format.Lines
import Mathlib.Data.List.DropRight

/-!
# Printed tags are read again

A doc with tags is written anew: its prose, an empty line and the printed tags, each line as a comment of its own.
Read again, a line of prose must not look like a tag, the first line of a tag must, and the others must not; no
blank may be lost at the end of a line, as it can belong to a raw string. `Fit` says this of the tag as it stands in
the doc. -/

namespace IdlWorkbench.Format

open Token Grammar

/-! ## Lines without blanks at their ends -/

theorem dropEndWhile_eq (p : Char → Bool) (cs : List Char) : Text.dropEndWhile p cs = cs.rdropWhile p := rfl

theorem dropEndWhile_eq_self_iff {p : Char → Bool} {cs : List Char} :
    Text.dropEndWhile p cs = cs ↔ ∀ c ∈ cs.getLast?, p c = false := by
  rw [dropEndWhile_eq, List.rdropWhile_eq_self_iff]
  rcases List.eq_nil_or_concat cs with rfl | ⟨cs, c, rfl⟩ <;> simp

theorem trimEnd_eq_self_iff {s : String} : Text.trimEnd s = s ↔ ∀ c ∈ s.toList.getLast?, Text.isBlank c = false := by
  rw [← dropEndWhile_eq_self_iff, Text.trimEnd, ← String.toList_inj, String.toList_ofList]

/-- Lines end in no blank exactly if no blank stands in front of a line break or at the end. -/
theorem flush_iff : ∀ {ls : List (List Char)}, ls ≠ [] → (∀ l ∈ ls, '\n' ∉ l) →
    ((∀ l ∈ ls, ∀ c ∈ l.getLast?, Text.isBlank c = false) ↔
      (['\n'].intercalate ls).IsChain (fun c d => d = '\n' → c = '\n' ∨ Text.isBlank c = false) ∧
        ∀ c ∈ (['\n'].intercalate ls).getLast?, c = '\n' ∨ Text.isBlank c = false)
  | l :: ls, _, hn => by
    have hline : l.IsChain fun c d => d = '\n' → c = '\n' ∨ Text.isBlank c = false := by
      refine List.Pairwise.isChain (List.pairwise_of_forall_mem_list fun _ _ d hd hbreak => ?_)
      exact absurd (hbreak ▸ hd) (hn l (by simp))
    have hlast : (∀ c ∈ l.getLast?, Text.isBlank c = false) ↔ ∀ c ∈ l.getLast?, c = '\n' ∨ Text.isBlank c = false :=
      forall₂_congr fun c hc => by
        have hne : c ≠ '\n' := fun hbreak => hn l (by simp) (hbreak ▸ List.mem_of_getLast? hc)
        simp [hne]
    cases ls with
    | nil =>
      rw [List.intercalate_singleton]
      simp only [List.mem_singleton, forall_eq, hline, true_and]
      exact hlast
    | cons m ls =>
      have ih := flush_iff (List.cons_ne_nil m ls) fun k hk => hn k (List.mem_cons_of_mem l hk)
      rw [List.forall_mem_cons, ih, hlast, List.intercalate_cons_cons, List.append_assoc, List.singleton_append,
        List.isChain_append, List.isChain_cons, List.getLast?_append]
      generalize ['\n'].intercalate (m :: ls) = below
      cases below with
      | nil => simp [hline]
      | cons c cs => simp [hline, and_assoc, and_left_comm, List.getLast?_cons_cons]

/-- The lines of a text end in no blank. -/
theorem flush_split_iff {s : String} : (∀ line ∈ Text.split s, Text.trimEnd line = line) ↔
    s.toList.IsChain (fun c d => d = '\n' → c = '\n' ∨ Text.isBlank c = false) ∧
      ∀ c ∈ s.toList.getLast?, c = '\n' ∨ Text.isBlank c = false := by
  have h := flush_iff (List.splitOn_ne_nil '\n' s.toList) (not_mem_splitOn s.toList)
  rw [List.intercalate_splitOn] at h
  rw [← h, Text.split, List.forall_mem_map]
  simp only [trimEnd_eq_self_iff, String.toList_ofList]

/-! ## Lines that begin tags -/

theorem tagStart?_eq_none_iff {line : String} : DocParts.tagStart? line = none ↔ ¬tagLead <+: line.toList := by
  rw [DocParts.tagStart?, Option.map_eq_none_iff, Text.strip?]
  split <;> rename_i h <;> rw [List.isPrefixOf_iff_prefix] at h <;> simpa [tagLead] using h

theorem tagStart?_lead (line : String) : DocParts.tagStart? (tagMarker ++ " " ++ line) =
      some ("      " ++ line) := by
  have hline : (tagMarker ++ " " ++ line).toList = (tagMarker ++ " ").toList ++ line.toList := String.toList_append
  have hlead : (tagMarker ++ " ").toList.isPrefixOf ((tagMarker ++ " ").toList ++ line.toList) = true :=
    List.isPrefixOf_iff_prefix.mpr (List.prefix_append _ _)
  rw [DocParts.tagStart?, Text.strip?, hline, if_pos hlead, List.drop_left, String.ofList_toList, Option.map_some]
  rfl

theorem prefix_line_iff {lead l : List Char} (hlead : '\n' ∉ lead) (ls : List (List Char)) :
    lead <+: ['\n'].intercalate (l :: ls) ↔ lead <+: l := by
  cases ls with
  | nil => rw [List.intercalate_singleton]
  | cons m ls =>
    rw [List.intercalate_cons_cons, List.append_assoc, List.singleton_append]
    refine ⟨fun h => ?_, fun h => h.trans (List.prefix_append _ _)⟩
    rcases List.prefix_or_prefix_of_prefix h (List.prefix_append _ _) with h' | ⟨below, rfl⟩
    · exact h'
    · cases below with
      | nil => simp
      | cons c below =>
        obtain ⟨rfl, -⟩ := List.cons_prefix_cons.mp ((List.prefix_append_right_inj l).mp h)
        exact absurd (by simp) hlead

/-- The lines below the first start with `lead` exactly if it stands below a line break. -/
theorem lead_below_iff {lead : List Char} (hlead : '\n' ∉ lead) : ∀ {l : List Char} {ls : List (List Char)},
    '\n' ∉ l →
    (∀ m ∈ ls, '\n' ∉ m) →
    ((∀ below, '\n' :: below <:+ ['\n'].intercalate (l :: ls) → ¬lead <+: below) ↔ ∀ m ∈ ls, ¬lead <+: m)
  | l, [], hl, _ => by
    rw [List.intercalate_singleton]
    simpa using fun below h => absurd (h.subset (by simp)) hl
  | l, m :: ls, hl, hls => by
    have ih := lead_below_iff hlead (hls m (by simp)) fun k hk => hls k (List.mem_cons_of_mem m hk)
    have hsuffix (below : List Char) : '\n' :: below <:+ ['\n'].intercalate (l :: m :: ls) ↔
        below = ['\n'].intercalate (m :: ls) ∨ '\n' :: below <:+ ['\n'].intercalate (m :: ls) := by
      rw [List.intercalate_cons_cons, List.append_assoc, List.singleton_append]
      constructor
      · intro h
        rcases suffix_of_suffix_append h with ⟨ds, -, hds⟩ | h
        · exact absurd (hds.subset (by simp)) hl
        · simpa [List.suffix_cons_iff] using h
      · rintro (rfl | h)
        · exact List.suffix_append _ _
        · exact h.trans ((List.suffix_cons _ _).trans (List.suffix_append _ _))
    simp only [hsuffix, or_imp, forall_and, forall_eq, ih, prefix_line_iff hlead, List.forall_mem_cons]

theorem not_mem_tagLead : '\n' ∉ tagLead := by decide

/-! ## Tokens of a tag -/

/-- No line of a tag below its first one starts as a tag does. -/
theorem tagLead_below {doc : Doc} {s : TagSource} (hlines : ∀ l ∈ doc.lines, '\n' ∉ l.text.toList)
    (hs : s ∈ doc.parts.tags) : ∀ below, '\n' :: below <:+ s.text.toList → ¬tagLead <+: below := by
  obtain ⟨above, line, start, more, below, hdoc, hstart, htext, -, hmore⟩ := exists_lines_of_tag hs
  rw [hdoc] at hlines
  obtain ⟨rest, hline, hrest⟩ := exists_of_tagStart? hstart
  have hfirst : '\n' ∉ start.toList := by
    have : '\n' ∉ rest := fun h => hlines line (by simp) (by rw [hline]; exact List.mem_append_right _ h)
    simp [hrest, this]
  rw [htext, String.toList_intercalate, List.map_cons, List.map_map]
  refine (lead_below_iff not_mem_tagLead hfirst ?_).mpr ?_
  · exact List.forall_mem_map.mpr fun l hl => hlines l (by simp [hl])
  · exact List.forall_mem_map.mpr fun l hl => tagStart?_eq_none_iff.mp (hmore l hl)

/-- A token is hemmed if its lines end in no blank: where it has several, it is a raw string. -/
theorem hemmed_token {source : String} {t : Token} (ht : t ∈ tokenize source) (htrivia : t.kind.isTrivia = false)
    (herror : t.kind ≠ .error) (hflush : ∀ line ∈ Text.split t.text, Text.trimEnd line = line)
    (hbelow : ∀ below, '\n' :: below <:+ source.toList → ¬tagLead <+: below) : Hemmed t.text.toList := by
  have hstands := stands_of_mem ht htrivia herror
  obtain ⟨hchain, hend⟩ := flush_split_iff.mp hflush
  obtain ⟨before, after, hsource, -⟩ := lies_of_mem ht
  obtain ⟨c, cs, hcs, hc⟩ := hstands.head (by rintro hk; simp [hk, TokenKind.isTrivia] at htrivia)
  refine ⟨⟨c, cs, hcs, ?_⟩, ?_, hchain, fun below h => ?_⟩
  · rintro rfl
    cases hc
  · obtain ⟨init, d, hd⟩ : ∃ init d, t.text.toList = init ++ [d] :=
      ⟨_, _, (List.dropLast_append_getLast (by rw [hcs]; simp)).symm⟩
    refine ⟨init, d, hd, ?_⟩
    rcases hend d (by simp [hd]) with rfl | hblank
    · obtain ⟨body, hbody⟩ := hstands.eq_raw htrivia herror (by simp [hd])
      have hlast := congrArg List.getLast? (hd.symm.trans hbody)
      rw [← List.cons_append, List.getLast?_concat, List.getLast?_concat] at hlast
      cases hlast
    · exact hblank
  · obtain ⟨body, hbody⟩ := hstands.eq_raw htrivia herror (h.subset (by simp))
    refine ⟨fun hlead => ?_, fun hlead => ?_⟩
    · refine hbelow (below ++ after) ?_ (hlead.trans (List.prefix_append _ _))
      obtain ⟨pre, hpre⟩ := h
      exact ⟨before ++ pre, by rw [hsource, ← hpre]; simp⟩
    · have hquote : '`' ∈ below := by
        obtain ⟨pre, hpre⟩ := h
        rw [hbody] at hpre
        have hlast := congrArg List.getLast? hpre
        rw [← List.cons_append, List.getLast?_concat, List.getLast?_append] at hlast
        cases below with
        | nil => simp at hlast
        | cons d ds =>
          rw [List.getLast?_cons_cons] at hlast
          exact List.mem_of_getLast? (by simpa using hlast)
      exact absurd (hlead.subset hquote) (by decide)

/-- A tag that can be read again when it is printed: it parses, its types are made of names, selectors, slices, maps,
pointers and channels, and no line of a token in it ends in a blank. -/
structure Fit (tag : Tag) : Prop where
  sound : tag.errors = []
  plain : Plain (tokenize tag.source.text)
  flush : ∀ t ∈ significant (tokenize tag.source.text), ∀ line ∈ Text.split t.text, Text.trimEnd line = line

theorem isBlank_tagIndent : ∀ c ∈ tagIndent.toList, isBlank c = true := by simp [tagIndent, isBlank]

theorem isBlank_blanks : ∀ c ∈ "      ".toList, isBlank c = true := by simp [isBlank]

theorem blanks_tagIndent : Blanks tagIndent := ⟨by simp [tagIndent], by simp [tagIndent]⟩

section
variable {doc : Doc} {s : TagSource} (hfit : Fit (.ofSource s))
include hfit

theorem Fit.ok : (parseExpr s.text).ok = true := by
  simpa [Parse.ok, Tag.errors, Tag.ofSource] using hfit.sound

/-- The lines of a printed tag are hemmed. -/
theorem Fit.hemmed (hlines : ∀ l ∈ doc.lines, '\n' ∉ l.text.toList) (hs : s ∈ doc.parts.tags) :
    Hemmed (exprText 0 tagIndent (Tag.ofSource s).expr).toList := by
  have htokens : AllHemmed (significant (tokenize s.text)) := fun t ht herror => by
    obtain ⟨hmem, htrivia⟩ := List.mem_filter.mp ht
    exact hemmed_token hmem (by simpa [Token.isTrivia] using htrivia) herror (hfit.flush t ht)
      (tagLead_below hlines hs)
  have hdrawn := hemmed_expr blanks_tagIndent (exists_drawn hfit.plain hfit.ok)
    (printable_significant s.text).standing
    htokens 0
  rwa [← exprText_shape, Expr.shape_traced, exprText_shape] at hdrawn

/-- Blanks in front of a printed tag do not change what is read. -/
theorem Fit.reread {source : TagSource}
    (hsource : source.text = "      " ++ exprText 0 tagIndent (Tag.ofSource s).expr) :
    (Tag.ofSource source).errors = [] ∧ (Tag.ofSource source).expr.shape = (Tag.ofSource s).expr.shape := by
  have hprints := prints_parsed s.text hfit.plain hfit.ok 0 isBlank_tagIndent
  have hcuts := cuts_behind isBlank_blanks hprints.cuts hprints.visible_append
  rw [← String.toList_append] at hcuts
  obtain ⟨hok, hshape⟩ := parseExpr_of_cuts hcuts (by intro c hc; cases hc)
  rw [Expr.shape_traced] at hshape
  simp only [Tag.errors, Tag.expr, Tag.ofSource, hsource]
  refine ⟨?_, hshape⟩
  rw [Parse.ok, List.isEmpty_iff] at hok
  exact congrArg (List.map _) hok

end

/-! ## Printed tags, line by line -/

theorem intercalate_behind (sep lead l : List Char) (ls : List (List Char)) :
    sep.intercalate ((lead ++ l) :: ls) = lead ++ sep.intercalate (l :: ls) := by
  cases ls with
  | nil => simp
  | cons m ls => simp [List.intercalate_cons_cons]

theorem toList_marked (text : String) : (tagMarker ++ " " ++ text).toList = tagLead ++ text.toList :=
  String.toList_append

theorem hemmed_marked (h : Hemmed w) : Hemmed (tagLead ++ w) := by
  have hmarker : Hemmed (['+'] ++ (['g'] ++ (['u'] ++ (['n'] ++ ['k'])))) :=
    (hemmed_char rfl).append
      ((hemmed_char rfl).append ((hemmed_char rfl).append ((hemmed_char rfl).append (hemmed_char rfl))))
  exact hmarker.append (h.behind blank_singleton)

/-- A printed tag: its first line begins a tag and the others do not. -/
theorem exists_lines_of_hemmed {text : String} (h : Hemmed text.toList) : ∃ first more,
    Text.split (tagMarker ++ " " ++ text) = (tagMarker ++ " " ++ first) :: more ∧
    "\n".intercalate (first :: more) = text ∧
      (∀ line ∈ more, DocParts.tagStart? line = none) ∧
      ∀ line ∈ Text.split (tagMarker ++ " " ++ text), '\n' ∉ line.toList ∧ Text.trimEnd line = line := by
  obtain ⟨first, more, hparts⟩ := List.exists_cons_of_ne_nil (List.splitOn_ne_nil '\n' text.toList)
  have hunbroken := not_mem_splitOn text.toList
  have hjoin : ['\n'].intercalate (text.toList.splitOn '\n') = text.toList := List.intercalate_splitOn ..
  rw [hparts] at hunbroken hjoin
  have hmarked : (tagMarker ++ " " ++ text).toList = ['\n'].intercalate ((tagLead ++ first) :: more) := by
    rw [toList_marked, intercalate_behind, hjoin]
  have hsplit : Text.split (tagMarker ++ " " ++ text) = (tagMarker ++ " " ++ String.ofList first) ::
    more.map String.ofList := by
    have hfirst : '\n' ∉ tagLead ++ first := by simp [not_mem_tagLead, hunbroken first]
    have hall : ∀ l ∈ (tagLead ++ first) :: more, '\n' ∉ l :=
      List.forall_mem_cons.mpr ⟨hfirst, fun l hl => hunbroken l (List.mem_cons_of_mem _ hl)⟩
    rw [Text.split, hmarked, List.splitOn_intercalate _ hall (by simp), List.map_cons, String.ofList_append]
    rfl
  have hlines := hemmed_marked h
  rw [← toList_marked] at hlines
  refine ⟨String.ofList first, more.map String.ofList, hsplit, ?_, ?_, fun line hline => ⟨?_, ?_⟩⟩
  · rw [← String.toList_inj, String.toList_intercalate, ← hjoin]
    simp
  · refine List.forall_mem_map.mpr fun l hl => tagStart?_eq_none_iff.mpr ?_
    rw [String.toList_ofList]
    refine (lead_below_iff not_mem_tagLead (hunbroken first (by simp)) fun k hk => hunbroken k (by simp [hk])).mp ?_
      l hl
    rw [hjoin]
    exact fun below hbelow => (h.apart below hbelow).1
  · obtain ⟨l, hl, rfl⟩ := List.mem_map.mp hline
    rw [String.toList_ofList]
    exact not_mem_splitOn _ l hl
  · refine flush_split_iff.mpr ⟨hlines.flush, ?_⟩ line hline
    obtain ⟨cs, c, hcs, hc⟩ := hlines.last
    rw [hcs]
    intro d hd
    obtain rfl : c = d := by simpa using hd
    exact Or.inr hc

/-! ## Reading the lines -/

section
variable {more rest : List DocLine}

theorem continuation_append (hmore : ∀ l ∈ more, DocParts.tagStart? l.text = none)
    (hrest : ∀ l ∈ rest.head?, DocParts.tagStart? l.text ≠ none) : DocParts.continuation (more ++ rest) = more := by
  have hnone : rest.takeWhile (fun line => (DocParts.tagStart? line.text).isNone) = [] := by
    cases rest with
    | nil => rfl
    | cons l rest => exact List.takeWhile_cons_of_neg (by simpa using hrest l (by simp))
  rw [DocParts.continuation, List.takeWhile_append_of_pos (by simpa using hmore), hnone, List.append_nil]

theorem exists_tagsFrom (hmore : ∀ l ∈ more, DocParts.tagStart? l.text = none) (rest : List DocLine) (index : Nat) :
    ∃ index', DocParts.tagsFrom index (more ++ rest) = DocParts.tagsFrom index' rest := by
  induction more generalizing index with
  | nil => exact ⟨index, rfl⟩
  | cons l more ih =>
    rw [List.cons_append, DocParts.tagsFrom, hmore l (by simp)]
    exact ih (fun m hm => hmore m (List.mem_cons_of_mem l hm)) (index + 1)

end

def tagBlock (texts : List String) : List String := texts.flatMap fun text => Text.split (tagMarker ++ " " ++ text)

theorem tagStart?_head_tagBlock {texts : List String} (h : ∀ text ∈ texts, Hemmed text.toList) :
    ∀ line ∈ (tagBlock texts).head?, DocParts.tagStart? line ≠ none := by
  cases texts with
  | nil => simp [tagBlock]
  | cons text texts =>
    obtain ⟨first, more, hsplit, -⟩ := exists_lines_of_hemmed (h text (by simp))
    rw [tagBlock, List.flatMap_cons, hsplit]
    simp [tagStart?_lead]

/-- From the lines of printed tags the tags are read again, with blanks for their markers. -/
theorem texts_tagsFrom : ∀ {texts : List String},
    (∀ text ∈ texts, Hemmed text.toList) → ∀ {lines : List DocLine} (index : Nat),
    lines.map DocLine.text = tagBlock texts →
      (DocParts.tagsFrom index lines).map TagSource.text = texts.map ("      " ++ ·)
  | [], _, lines, index, hlines => by
    obtain rfl : lines = [] := by simpa [tagBlock] using hlines
    rfl
  | text :: texts, h, lines, index, hlines => by
    have hrest := tagStart?_head_tagBlock fun t ht => h t (List.mem_cons_of_mem text ht)
    obtain ⟨first, more, hsplit, rfl, hmore, -⟩ := exists_lines_of_hemmed (h text (by simp))
    rw [tagBlock, List.flatMap_cons, hsplit, List.cons_append, ← tagBlock, List.map_eq_cons_iff] at hlines
    obtain ⟨line, below, rfl, hline, hbelow⟩ := hlines
    obtain ⟨ms, rest, rfl, rfl, hrestlines⟩ := List.map_eq_append_iff.mp hbelow
    have hms : ∀ l ∈ ms, DocParts.tagStart? l.text = none := fun l hl => hmore _ (List.mem_map_of_mem hl)
    have hcont := @continuation_append _ rest hms (by
      rw [← hrestlines, List.head?_map] at hrest
      simpa using hrest)
    obtain ⟨index', hindex⟩ := exists_tagsFrom hms rest (index + 1)
    have ih := texts_tagsFrom (fun t ht => h t (List.mem_cons_of_mem _ ht)) index' hrestlines
    rw [DocParts.tagsFrom, hline, tagStart?_lead]
    simp only [hcont, hindex, List.map_cons, ih]
    refine congrArg (· :: _) ?_
    rw [← String.toList_inj, String.toList_append, String.toList_intercalate, String.toList_intercalate,
      List.map_cons,
      List.map_cons, String.toList_append, intercalate_behind]

variable {texts : List String} {lines : List DocLine}

/-- Lines with tags below them, taken apart. -/
theorem ofLines_tagBlock {above : List String} (htexts : ∀ text ∈ texts, Hemmed text.toList)
    (habove : ∀ line ∈ above, DocParts.tagStart? line = none)
    (hlines : lines.map DocLine.text = above ++ tagBlock texts) :
    (DocParts.ofLines lines).prose = (above.map Text.trim).filter (!·.isEmpty) ∧
      (DocParts.ofLines lines).tags.map TagSource.text = texts.map ("      " ++ ·) := by
  have hhead := tagStart?_head_tagBlock htexts
  obtain ⟨ls, rest, rfl, rfl, hrest⟩ := List.map_eq_append_iff.mp hlines
  have hls : ∀ l ∈ ls, DocParts.tagStart? l.text = none := fun l hl => habove _ (List.mem_map_of_mem hl)
  have hcont := @continuation_append _ rest hls (by
    rw [← hrest, List.head?_map] at hhead
    simpa using hhead)
  obtain ⟨index, hindex⟩ := exists_tagsFrom hls rest 0
  rw [DocParts.ofLines, hcont, hindex]
  exact ⟨by rw [List.map_map]; rfl, texts_tagsFrom htexts index hrest⟩

/-! ## Comments -/

theorem dropReturns_eq_self {s : String} (h : Text.trimEnd s = s) : Doc.dropReturns s = s := by
  have hlast : ∀ c ∈ s.toList.getLast?, (decide (c = '\r')) = false := by
    intro c hc
    have hblank := trimEnd_eq_self_iff.mp h c hc
    rw [decide_eq_false_iff_not]
    rintro rfl
    cases hblank
  rw [Doc.dropReturns, dropEndWhile_eq_self_iff.mpr hlast, String.ofList_toList]

/-- A line is read from the comment that is made of it. -/
theorem linesOfComment_asComment {line : String} (h : Text.trimEnd line = line) (offset : Nat) :
    (Doc.linesOfComment ⟨.lineComment, asComment line, offset⟩).map DocLine.text = [line] := by
  rw [asComment, h]
  split
  · rename_i hempty
    obtain rfl : line = "" := by simpa using hempty
    simp [Doc.linesOfComment, dropReturns_eq_self h]
  · simp [Doc.linesOfComment, dropReturns_eq_self h]

theorem lines_of_comments : ∀ {lines : List String} {ts : List Token}, (∀ line ∈ lines, Text.trimEnd line = line) →
    ts.map (fun t => (t.kind, t.text)) = lines.map (fun line => (.lineComment, asComment line)) →
      (ts.flatMap Doc.linesOfComment).map DocLine.text = lines
  | [], ts, _, hts => by
    obtain rfl : ts = [] := by simpa using hts
    rfl
  | line :: lines, ts, h, hts => by
    obtain ⟨t, us, rfl, ht, hus⟩ := List.map_eq_cons_iff.mp hts
    obtain ⟨kind, text, offset⟩ := t
    obtain ⟨rfl, rfl⟩ := Prod.mk.inj ht
    rw [List.flatMap_cons, List.map_append, linesOfComment_asComment (h line (by simp)),
      lines_of_comments (fun l hl => h l (List.mem_cons_of_mem _ hl)) hus]
    rfl

theorem trimEnd_trim (s : String) : Text.trimEnd (Text.trim s) = Text.trim s := by
  rw [← String.toList_inj, Text.trimEnd, Text.trim, String.toList_ofList, String.toList_ofList]
  exact List.rdropWhile_idempotent _ _

theorem trim_trim (s : String) : Text.trim (Text.trim s) = Text.trim s := by
  have hstart : (Text.dropEndWhile Text.isBlank (s.toList.dropWhile Text.isBlank)).dropWhile Text.isBlank =
      Text.dropEndWhile Text.isBlank (s.toList.dropWhile Text.isBlank) := by
    rw [List.dropWhile_eq_self_iff]
    intro hlength
    obtain ⟨rest, hrest⟩ := Text.prefix_dropEndWhile Text.isBlank (s.toList.dropWhile Text.isBlank)
    have hhead := List.head?_dropWhile_not Text.isBlank s.toList
    rw [← hrest, List.head?_append, List.head?_eq_getElem?, List.getElem?_eq_getElem hlength] at hhead
    simpa using hhead
  rw [← String.toList_inj, Text.trim, Text.trim, String.toList_ofList, String.toList_ofList, hstart]
  exact List.rdropWhile_idempotent _ _

/-- Prose is trimmed, and no line of it is empty. -/
theorem prose_trimmed (doc : Doc) : ∀ line ∈ doc.parts.prose, Text.trim line = line ∧
    Text.trimEnd line = line ∧ line ≠ "" := by
  intro line hline
  obtain ⟨hmem, hne⟩ := List.mem_filter.mp hline
  obtain ⟨l, -, rfl⟩ := List.mem_map.mp hmem
  exact ⟨trim_trim _, trimEnd_trim _, by simpa using hne⟩

/-! ## Docs -/

def aboveTags (prose : List String) : List String := if prose.isEmpty then [] else prose ++ [""]

theorem prose_aboveTags {prose : List String} (h : ∀ line ∈ prose, Text.trim line = line ∧
      Text.trimEnd line = line ∧ line ≠ "") :
    ((aboveTags prose).map Text.trim).filter (!·.isEmpty) = prose := by
  have hsame : prose.map Text.trim = prose :=
    (List.map_congr_left fun line hline => (h line hline).1).trans (List.map_id' _)
  have hfull : prose.filter (!·.isEmpty) = prose := List.filter_eq_self.mpr fun line hline => by
    simpa using (h line hline).2.2
  have hempty : Text.trim "" = "" := rfl
  rw [aboveTags]
  split
  · rename_i hprose
    rw [List.isEmpty_iff.mp hprose]
    rfl
  · rw [List.map_append, hsame, List.filter_append, hfull, List.map_singleton, hempty]
    simp

theorem mapM_tagLines : ∀ {tags : List Tag}, (∀ tag ∈ tags, tag.errors = []) →
    tags.mapM tagLines = .ok (tags.map fun tag => Text.split (tagMarker ++ " " ++ exprText 0 tagIndent tag.expr))
  | [], _ => rfl
  | tag :: tags, h => by
    have htag : tagLines tag = .ok (Text.split (tagMarker ++ " " ++ exprText 0 tagIndent tag.expr)) := by
      rw [tagLines, h tag (by simp)]
    rw [List.mapM_cons, htag, mapM_tagLines fun t ht => h t (List.mem_cons_of_mem tag ht)]
    rfl

def printedTags (doc : Doc) : List String := doc.parts.parsedTags.map fun tag => exprText 0 tagIndent tag.expr

/-- What is printed for a doc with tags that parse. -/
theorem docLines_eq {doc : Doc} (hne : doc.parts.tags ≠ []) (h : ∀ tag ∈ doc.parts.parsedTags, tag.errors = []) :
    docLines doc = .ok ((aboveTags doc.parts.prose ++ tagBlock (printedTags doc)).map asComment) := by
  rw [docLines, if_neg (by simpa using hne), mapM_tagLines h, tagBlock, printedTags, List.flatMap_map]
  rfl

section
variable {doc : Doc} (hlines : ∀ l ∈ doc.lines, '\n' ∉ l.text.toList)
include hlines

theorem prose_unbroken : ∀ line ∈ doc.parts.prose, '\n' ∉ line.toList := by
  intro line hline hbreak
  obtain ⟨hmem, -⟩ := List.mem_filter.mp hline
  obtain ⟨l, hl, rfl⟩ := List.mem_map.mp hmem
  rw [Text.trim, String.toList_ofList] at hbreak
  have hstart := (Text.prefix_dropEndWhile _ _).subset hbreak
  exact hlines l ((List.takeWhile_prefix _).subset hl) ((List.dropWhile_suffix _).subset hstart)

theorem hemmed_printedTags (hfit : ∀ tag ∈ doc.parts.parsedTags, Fit tag) : ∀ text ∈ printedTags doc,
    Hemmed text.toList := by
  rw [printedTags, DocParts.parsedTags] at *
  simp only [List.forall_mem_map] at hfit ⊢
  exact fun s hs => (hfit s hs).hemmed hlines hs

/-- No line that is printed for a doc is broken or ends in a blank. -/
theorem printed_line (hfit : ∀ tag ∈ doc.parts.parsedTags, Fit tag) :
    ∀ line ∈ aboveTags doc.parts.prose ++ tagBlock (printedTags doc), '\n' ∉ line.toList ∧
    Text.trimEnd line = line := by
  intro line hline
  rcases List.mem_append.mp hline with hline | hline
  · rw [aboveTags] at hline
    split at hline
    · cases hline
    · rcases List.mem_append.mp hline with hline | hline
      · exact ⟨prose_unbroken hlines line hline, (prose_trimmed doc line hline).2.1⟩
      · obtain rfl := List.mem_singleton.mp hline
        exact ⟨by simp, rfl⟩
  · obtain ⟨text, htext, hline⟩ := List.mem_flatMap.mp hline
    obtain ⟨-, -, -, -, -, hall⟩ := exists_lines_of_hemmed (hemmed_printedTags hlines hfit text htext)
    exact hall line hline

end

theorem lines_unbroken {k : NodeKind} {text : String} {tree : Tree} (hc : Covers k text tree) {owner : ByteRange}
    {doc : Doc}
    (h : (owner, doc) ∈ tree.docs) : ∀ l ∈ doc.lines, '\n' ∉ l.text.toList :=
  fun l hl => ((lies_lines hc.leaves hc.tiled h).1 l hl).2

theorem exists_body_asComment {line : String} (h : '\n' ∉ line.toList) (htrim : Text.trimEnd line = line) :
    ∃ body, '\n' ∉ body ∧ (asComment line).toList = '/' :: '/' :: body := by
  rw [asComment, htrim]
  split
  · exact ⟨[], by simp, rfl⟩
  · exact ⟨' ' :: line.toList, by simpa using h, by simp⟩

theorem tagStart?_aboveTags {prose : List String} (h : ∀ line ∈ prose, DocParts.tagStart? line = none) :
    ∀ line ∈ aboveTags prose, DocParts.tagStart? line = none := by
  rw [aboveTags]
  split
  · simp
  · intro line hline
    rcases List.mem_append.mp hline with hline | hline
    · exact h line hline
    · obtain rfl := List.mem_singleton.mp hline
      exact tagStart?_eq_none_iff.mpr (by decide)

theorem tagBlock_ne_nil {texts : List String} (h : texts ≠ []) : tagBlock texts ≠ [] := by
  obtain ⟨text, texts, rfl⟩ := List.exists_cons_of_ne_nil h
  simp [tagBlock, Text.split, List.splitOn_ne_nil]

/-- Tags that are read with blanks for their markers have the same expressions. -/
theorem forall₂_reread {doc : Doc} (hfit : ∀ tag ∈ doc.parts.parsedTags, Fit tag) {sources : List TagSource}
    (h : sources.map TagSource.text = (printedTags doc).map ("      " ++ ·)) :
    List.Forall₂ (fun tag tag' => tag'.errors = [] ∧ tag'.expr.shape = tag.expr.shape) doc.parts.parsedTags
      (sources.map Tag.ofSource) := by
  rw [printedTags, DocParts.parsedTags, List.map_map, List.map_map, ← List.forall₂_eq_eq_eq,
    List.forall₂_map_left_iff,
    List.forall₂_map_right_iff] at h
  rw [DocParts.parsedTags, List.forall_mem_map] at hfit
  rw [DocParts.parsedTags, List.forall₂_map_left_iff, List.forall₂_map_right_iff]
  exact ((List.forall₂_and_left _ _).mpr ⟨hfit, h.flip⟩).imp fun _ _ h => h.1.reread h.2

/-- Tags survive printing. Above a package clause the comments that are printed for a doc are a doc with the same
prose and with as many tags, in the same order, each with an expression of the same shape; the literals in a shape
have their texts. No line of prose may look like a tag once it is trimmed. -/
theorem tags_kept {text : String} {owner : ByteRange} {doc : Doc} (hdoc : (owner, doc) ∈ (parse text).tree.docs)
    (htags : doc.parts.tags ≠ []) (hprose : ∀ line ∈ doc.parts.prose, DocParts.tagStart? line = none)
    (hfit : ∀ tag ∈ doc.parts.parsedTags, Fit tag) (carried : List Token) :
    ∃ comments, (docText (some doc)).run carried = .ok (comments, doc.comments.reverse ++ carried) ∧
      ∃ owner' doc', (parse (attached comments)).tree.docs = [(owner', doc')] ∧
        doc'.parts.prose = doc.parts.prose ∧
        List.Forall₂ (fun tag tag' => tag'.errors = [] ∧ tag'.expr.shape = tag.expr.shape) doc.parts.parsedTags
          doc'.parts.parsedTags := by
  have hlines := lines_unbroken (parse_covers text) hdoc
  have hprinted := printed_line hlines hfit
  have htrimmed : ∀ line ∈ aboveTags doc.parts.prose ++ tagBlock (printedTags doc), Text.trimEnd line = line :=
    fun line hline => (hprinted line hline).2
  have hne : aboveTags doc.parts.prose ++ tagBlock (printedTags doc) ≠ [] :=
    List.append_ne_nil_of_right_ne_nil _ (tagBlock_ne_nil (by simpa [printedTags, DocParts.parsedTags] using htags))
  obtain ⟨owner', doc', hdocs, hcomments⟩ :=
    docs_attached (by simpa using hne) (List.forall_mem_map.mpr fun line hline =>
    exists_body_asComment (hprinted line hline).1 (hprinted line hline).2)
  rw [List.map_map] at hcomments
  have hread := lines_of_comments htrimmed hcomments
  obtain ⟨hparts, hsources⟩ := ofLines_tagBlock (hemmed_printedTags hlines hfit) (tagStart?_aboveTags hprose) hread
  refine ⟨_, ?_, owner', doc', hdocs, hparts.trans (prose_aboveTags (prose_trimmed doc)),
    forall₂_reread hfit hsources⟩
  rw [run_docText, docLines_eq htags fun tag htag => (hfit tag htag).sound, Except.map]

theorem tags_kept_sample : ∃ owner doc comments,
    (owner, doc) ∈ (parse "package a\n\n// b\n// +gunk T\x7ba:\n//\t1\x7d\ntype T int\n").tree.docs ∧
      comments = ["// b", "//", "// +gunk T\x7b", "//         a: 1,", "// \x7d"] ∧
      (docText (some doc)).run [] = .ok (comments, doc.comments.reverse ++ []) ∧
      ∃ owner' doc', (parse (attached comments)).tree.docs = [(owner', doc')] ∧
        doc'.parts.prose = doc.parts.prose ∧
        List.Forall₂ (fun tag tag' => tag'.errors = [] ∧ tag'.expr.shape = tag.expr.shape) doc.parts.parsedTags
          doc'.parts.parsedTags := by
  have hread : (parse "package a\n\n// b\n// +gunk T\x7ba:\n//\t1\x7d\ntype T int\n").tree.docs.map (fun p =>
      (p.2.parts.prose, p.2.parts.tags.map TagSource.text, ((docText (some p.2)).run []).toOption.map Prod.fst)) =
        [(["b"], ["      T\x7ba:\n\t1\x7d"],
          some ["// b", "//", "// +gunk T\x7b", "//         a: 1,", "// \x7d"])] := by
    decide +kernel
  obtain ⟨⟨owner, doc⟩, hmem, hdoc⟩ := List.mem_map.mp (hread ▸ List.mem_singleton_self _)
  obtain ⟨hprose, hrest⟩ := Prod.mk.inj hdoc
  obtain ⟨hsources, hrun⟩ := Prod.mk.inj hrest
  have htags : doc.parts.tags ≠ [] := fun h => by simp [h] at hsources
  have hfit : ∀ tag ∈ doc.parts.parsedTags, Fit tag := by
    refine List.forall_mem_map.mpr fun s hs => ?_
    have htext : s.text = "      T\x7ba:\n\t1\x7d" := List.mem_singleton.mp (hsources ▸ List.mem_map_of_mem hs)
    refine ⟨?_, ?_, ?_⟩
    · have herrors : (parseExpr "      T\x7ba:\n\t1\x7d").errors = [] := by decide +kernel
      simp [Tag.errors, Tag.ofSource, htext, herrors]
    · simp only [Tag.ofSource, htext, Plain]
      decide +kernel
    · simp only [Tag.ofSource, htext]
      decide +kernel
  obtain ⟨comments, hkept, hagain⟩ := tags_kept hmem htags (by rw [hprose]; decide) hfit []
  refine ⟨owner, doc, comments, hmem, ?_, hkept, hagain⟩
  rw [hkept] at hrun
  simpa [Except.toOption] using hrun

end IdlWorkbench.Format
