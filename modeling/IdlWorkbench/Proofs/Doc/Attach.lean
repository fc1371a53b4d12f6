import IdlWorkbench.Doc.Tag
import IdlWorkbench.Proofs.Grammar.DocLines
import IdlWorkbench.Proofs.Token.Stand

/-!
# Comments above a package clause

Line comments that are put above a package clause, each on a line of its own, are read as the doc of the clause.
-/

namespace IdlWorkbench

open Token Grammar

def attached (comments : List String) : String := "\n".intercalate (comments ++ ["package p"])

/-! ## Tokens -/

namespace Token

theorem cuts_lineComment {body : List Char} (h : '\n' ∉ body) :
    Cuts (fun rest => rest.head? = some '\n')
      (fun ts => ∃ offset, ts = [⟨.lineComment, String.ofList ('/' :: '/' :: body), offset⟩])
      ('/' :: '/' :: body) := by
  intro rest hrest offset
  refine ⟨_, _, scan_munch offset ?_, offset, rfl⟩
  have hbody : run (fun c => decide (c ≠ '\n')) (body ++ rest) = body.length :=
    run_append.mpr ⟨fun c hc => decide_eq_true fun hn => h (hn ▸ hc), by simp [hrest]⟩
  have hmunch : munch '/' ('/' :: (body ++ rest)) = (.lineComment, 1 + run (· ≠ '\n') (body ++ rest)) := rfl
  rw [List.cons_append, hmunch, hbody, List.length_cons, Nat.add_comm]

theorem cuts_newline : Cuts Visible (fun ts => ∃ offset, ts = [⟨.whitespace, "\n", offset⟩]) ['\n'] :=
  fun _ hrest offset => ⟨_, _, scan_blanks (by simp [isBlank]) hrest offset, offset, rfl⟩

def CommentLines (comments : List String) (ts : List Token) : Prop :=
  DocLines ts ∧ (ts.filter Token.isComment).map (fun t => (t.kind, t.text)) = comments.map fun c => (.lineComment, c)

theorem cuts_commentLines : ∀ {comments : List String},
    (∀ c ∈ comments, ∃ body, '\n' ∉ body ∧ c.toList = '/' :: '/' :: body) →
      Cuts Visible (CommentLines comments) (comments.flatMap fun c => c.toList ++ ['\n'])
  | [], _ => cuts_nil.mono (fun _ _ => trivial) fun ts hts => by
    subst hts
    exact ⟨trivial, rfl⟩
  | c :: comments, h => by
    obtain ⟨body, hbody, hc⟩ := h c (by simp)
    have hrest := cuts_commentLines fun d hd => h d (List.mem_cons_of_mem c hd)
    have hvisible (rest : List Char) (hv : Visible rest) :
        Visible ((comments.flatMap fun c => c.toList ++ ['\n']) ++ rest) := by
      cases comments with
      | nil => exact hv
      | cons d comments =>
        obtain ⟨dbody, -, hd⟩ := h d (by simp)
        rw [List.flatMap_cons, hd]
        intro e he
        obtain rfl : '/' = e := by simpa using he
        rfl
    have hline := (cuts_lineComment hbody).append cuts_newline fun rest _ => rfl
    rw [← hc] at hline
    refine (hline.append hrest hvisible).mono (fun _ hv => hv) ?_
    rintro ts ⟨us, vs, rfl, ⟨_, _, rfl, ⟨o, rfl⟩, o', rfl⟩, hlines, hcomments⟩
    refine ⟨⟨⟨rfl, rfl, by simp [Token.newlines]⟩, hlines⟩, ?_⟩
    rw [List.append_assoc, List.singleton_append, List.singleton_append, List.filter_cons_of_pos (by rfl),
      List.filter_cons_of_neg (by simp [Token.isComment, TokenKind.isComment]), List.map_cons, List.map_cons,
      hcomments,
      String.ofList_toList]

theorem scan_clause (offset : Nat) : ∃ o o' o'', scan offset 0 "package p".toList =
    [⟨.packageKw, "package", o⟩, ⟨.whitespace, " ", o'⟩, ⟨.ident, "p", o''⟩] := ⟨_, _, _, rfl⟩

end Token

/-! ## The doc -/

namespace Grammar

open State

theorem exists_last_line : ∀ {ts : List Token}, DocLines ts → ts ≠ [] →
    ∃ above blank, ts = above ++ [blank] ∧ blank.kind = .whitespace
  | [comment, blank], h, _ => ⟨[comment], blank, rfl, h.1.2.1⟩
  | comment :: blank :: t :: ts, h, _ => by
    obtain ⟨above, last, heq, hlast⟩ := exists_last_line h.2 (by simp)
    exact ⟨comment :: blank :: above, last, by rw [heq]; rfl, hlast⟩

theorem DocLines.isTrivia : ∀ {ts : List Token}, DocLines ts → ∀ t ∈ ts, t.isTrivia = true
  | [], _ => by simp
  | comment :: blank :: ts, h => by
    have hcomment : comment.isTrivia = true := by
      have := h.1.1
      simp only [Token.isComment] at this
      simp [Token.isTrivia, TokenKind.isTrivia, this]
    have hblank : blank.isTrivia = true := by simp [Token.isTrivia, TokenKind.isTrivia, h.1.2.1]
    exact List.forall_mem_cons.mpr ⟨hcomment, List.forall_mem_cons.mpr ⟨hblank, DocLines.isTrivia h.2⟩⟩

section
variable {above : List Token} {blank : Token}

/-- An item at the start of a file with doc lines above it. -/
theorem item_docLines (hlines : DocLines (above ++ [blank])) {kw : Token} (hkw : kw.isTrivia = false)
    (rest : List Token) (k : NodeKind) (body : Parser) :
    ∃ before offset, (State.ofTokens (above ++ blank :: kw :: rest)).item k body =
      close k (State.ofTokens (above ++ blank :: kw :: rest))
        (body ⟨before, blank :: kw :: rest, offset, [.node .doc ⟨0, offset⟩ (above.map Tree.leaf)], []⟩) := by
  generalize hs : State.ofTokens (above ++ blank :: kw :: rest) = s
  have hrest : s.rest = (above ++ [blank]) ++ kw :: rest := by rw [← hs]; simp [State.ofTokens]
  have htrivia : s.trivia = above ++ [blank] := by
    rw [State.trivia, hrest, List.takeWhile_append_of_pos hlines.isTrivia,
      List.takeWhile_cons_of_neg (by simp [hkw]),
      List.append_nil]
  have hstart : s.docStart? = some 0 := by
    refine docStart?_eq_some_iff.mpr ⟨⟨⟨?_, ?_⟩, ?_⟩, fun r _ => Nat.zero_le r⟩
    · rw [htrivia]
      simp
    · rw [htrivia]
      exact hlines
    · rw [← hs]
      rfl
  have hcount : s.trivia.length - 0 - 1 = above.length := by simp [htrivia]
  rw [State.item, hstart]
  dsimp only
  rw [hcount]
  have hadvance := advance_rest above.length s.opened.opened
  have hdone := advance_done above.length s.opened.opened
  have herrors := advance_errors above.length s.opened.opened
  generalize ha : s.opened.opened.advance above.length = a at hadvance hdone herrors
  refine ⟨a.before, a.offset, ?_⟩
  have hclose : s.opened.node .doc (State.advance above.length) =
      ⟨a.before, blank :: kw :: rest, a.offset, [.node .doc ⟨0, a.offset⟩ (above.map Tree.leaf)], []⟩ := by
    rw [State.node, ha, State.close]
    simp [hadvance, hdone, herrors, State.opened, ← hs, State.ofTokens]
  rw [State.advance, State.node, hclose]

end

theorem name_clause (before : Option Token) (blanks : String) (start offset o o' o'' : Nat) (doc : Tree) :
    name (State.bump ⟨before, [⟨.whitespace, blanks, start⟩, ⟨.packageKw, "package", o⟩, ⟨.whitespace, " ", o'⟩,
      ⟨.ident, "p", o''⟩], offset, [doc], []⟩) =
        ⟨some ⟨.ident, "p", o''⟩, [], o'' + 1, [.node .name ⟨o' + 1, o'' + 1⟩ [.leaf ⟨.ident, "p", o''⟩],
          .leaf ⟨.whitespace, " ", o'⟩, .leaf ⟨.packageKw, "package", o⟩, .leaf ⟨.whitespace, blanks, start⟩, doc],
            []⟩ :=
  rfl

theorem endLine_at_end (closer : TokenKind) (before : Option Token) (offset : Nat) (done : List Tree)
    (errors : List ParseError) :
    State.endLine closer ⟨before, [], offset, done, errors⟩ = ⟨before, [], offset, done, errors⟩ := rfl

theorem sees_package {ts : List Token} (h : ∀ t ∈ ts, t.isTrivia = true) (o : Nat) (rest : List Token) :
    (State.ofTokens (ts ++ ⟨.packageKw, "package", o⟩ :: rest)).sees .packageKw = true := by
  have hnone : ts.find? (!·.isTrivia) = none := List.find?_eq_none.mpr fun t ht => by simp [h t ht]
  rw [State.sees, State.peek, State.ofTokens, List.find?_append, hnone]
  rfl

theorem tokens_leaves (ts : List Token) : Tree.tokens (ts.map Tree.leaf) = ts := by
  rw [Tree.tokens, List.filterMap_map]
  exact List.filterMap_some

theorem branchesOf_leaves (parent : Tree) : ∀ ts : List Token, Tree.branchesOf parent (ts.map Tree.leaf) = []
  | [] => by simp [Tree.branchesOf]
  | t :: ts => by rw [List.map_cons, Tree.branchesOf, branchesOf_leaves parent ts]

/-- The doc lines at the start of a file are the only doc of it. -/
theorem docs_clause {above : List Token} {blanks : String} {start : Nat}
    (hlines : DocLines (above ++ [⟨.whitespace, blanks, start⟩]))
    {text : String} {o o' o'' : Nat} (htext : tokenize text =
      above ++ [⟨.whitespace, blanks, start⟩] ++ [⟨.packageKw, "package", o⟩, ⟨.whitespace, " ", o'⟩,
        ⟨.ident, "p", o''⟩]) :
    ∃ owner doc, (parse text).tree.docs = [(owner, doc)] ∧ doc.comments = above.filter Token.isComment := by
  obtain ⟨before, offset, hitem⟩ := @item_docLines _ _ hlines ⟨.packageKw, "package", o⟩ rfl
    [⟨.whitespace, " ", o'⟩, ⟨.ident, "p", o''⟩] .packageClause fun s => (name s.bump).endLine .error
  have hsees := sees_package hlines.isTrivia o [⟨.whitespace, " ", o'⟩, ⟨.ident, "p", o''⟩]
  rw [← htext] at hsees
  rw [name_clause, endLine_at_end] at hitem
  have htree : (parse text).tree = .node .sourceFile ⟨0, o'' + 1⟩ [.node .packageClause ⟨0, o'' + 1⟩
      [.node .doc ⟨0, offset⟩ (above.map Tree.leaf), .leaf ⟨.whitespace, blanks, start⟩,
        .leaf ⟨.packageKw, "package", o⟩,
        .leaf ⟨.whitespace, " ", o'⟩, .node .name ⟨o' + 1, o'' + 1⟩ [.leaf ⟨.ident, "p", o''⟩]]] := by
    rw [parse, run, sourceFile, packageClause, if_pos hsees, htext, List.append_assoc, List.singleton_append, hitem]
    rfl
  refine ⟨⟨0, o'' + 1⟩, ⟨⟨0, offset⟩, above.filter Token.isComment⟩, ?_, rfl⟩
  rw [htree, Tree.docs]
  simp [Tree.branches, Tree.branchesOf, branchesOf_leaves, Doc.ofTree?, tokens_leaves, Tree.range]

theorem intercalate_concat {α : Type} (sep last : List α) : ∀ parts : List (List α),
    sep.intercalate (parts ++ [last]) = (parts.flatMap fun part => part ++ sep) ++ last
  | [] => by simp
  | part :: parts => by
    rw [List.cons_append, List.intercalate_cons_of_ne_nil (by simp), intercalate_concat sep last parts,
      List.flatMap_cons]
    simp

/-- Comments that are attached to a package clause are its doc. -/
theorem docs_attached {comments : List String} (hne : comments ≠ [])
    (h : ∀ c ∈ comments, ∃ body, '\n' ∉ body ∧ c.toList = '/' :: '/' :: body) :
    ∃ owner doc, (parse (attached comments)).tree.docs = [(owner, doc)] ∧
      doc.comments.map (fun t => (t.kind, t.text)) = comments.map fun c => (.lineComment, c) := by
  have htext : (attached comments).toList = (comments.flatMap fun c => c.toList ++ ['\n']) ++
    "package p".toList := by
    rw [attached, String.toList_intercalate, List.map_append, List.map_singleton, intercalate_concat,
      List.flatMap_map]
    rfl
  obtain ⟨ts, stop, hscan, hlines, hcomments⟩ :=
    cuts_commentLines h "package p".toList (by simp [Visible, isBlank]) 0
  obtain ⟨o, o', o'', hclause⟩ := scan_clause stop
  rw [← htext, hclause] at hscan
  have hts : ts ≠ [] := by
    rintro rfl
    exact hne (by simpa using hcomments.symm)
  obtain ⟨above, ⟨kind, blanks, start⟩, rfl, rfl⟩ := exists_last_line hlines hts
  obtain ⟨owner, doc, hdocs, hdoc⟩ := docs_clause hlines hscan
  refine ⟨owner, doc, hdocs, ?_⟩
  rw [hdoc, ← hcomments, List.filter_append,
    List.filter_cons_of_neg (by simp [Token.isComment, TokenKind.isComment])]
  simp

end Grammar

end IdlWorkbench
