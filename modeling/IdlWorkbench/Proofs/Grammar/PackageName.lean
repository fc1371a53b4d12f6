import IdlWorkbench.Proofs.Grammar.Formed

/-!
# The name of a package

The package a text belongs to can be read off its first two significant tokens, or off its tree. There is at most one
package clause in the tree, which is built where the text starts with the keyword, and a name stands in it only where
an identifier comes next: what is passed at the end of its line, to recover or not, never makes a name. So both ways
give the same answer for every text.
-/

namespace IdlWorkbench

namespace Tree

theorem namesAmong_of_lacks {l : List Tree} (h : ∀ c ∈ l, c.Lacks .name) : namesAmong l = [] := by
  rw [namesAmong, List.filter_eq_nil_iff.mpr fun c hc => by rw [h c hc]; decide]
  rfl

theorem Lacks.not_package {t : Tree} (h : t.Lacks .packageClause) (clause : PackageClause) :
    TopLevel.ofTree? t ≠ some (.package clause) := by
  intro heq
  unfold TopLevel.ofTree? at heq
  split at heq
  · rw [Lacks, isNode, kind?] at h
    simp at h
  all_goals cases heq

end Tree

open IdlWorkbench.Tree

/-- Entries are read off the nodes among the children. -/
theorem entries_filterMap_item? {α : Type} {spec? : Tree → Option α} (hleaf : ∀ tok, spec? (.leaf tok) = none)
    (cs : List Tree) : entries (cs.filterMap (Decl.item? spec?)) = cs.filterMap spec? := by
  have hone (c : Tree) : (Decl.item? spec? c).bind Item.entry? = spec? c := by
    cases c with
    | leaf tok =>
      rw [hleaf, Decl.item?, Item.ofToken?]
      split
      · rfl
      · split <;> rfl
    | node k r ds =>
      change ((spec? (.node k r ds)).map Item.entry).bind Item.entry? = _
      cases spec? (.node k r ds) <;> rfl
  rw [entries, List.filterMap_filterMap]
  exact congrArg (cs.filterMap ·) (funext hone)

namespace SourceFile

def clauseOf? : TopLevel → Option PackageClause
  | .package clause => some clause
  | _ => none

theorem packageClause?_ofTree (t : Tree) :
    (ofTree t).packageClause? = (t.children.filterMap TopLevel.ofTree?).findSome? clauseOf? := by
  rw [packageClause?, ofTree, entries_filterMap_item? fun _ => rfl]
  rfl

theorem clauseOf?_of_lacks {cs : List Tree} (h : ∀ c ∈ cs, c.Lacks .packageClause) :
    (cs.filterMap TopLevel.ofTree?).findSome? clauseOf? = none := by
  refine List.findSome?_eq_none_iff.mpr fun top htop => ?_
  obtain ⟨c, hc, htop⟩ := List.mem_filterMap.mp htop
  cases top with
  | package clause => exact absurd htop ((h c hc).not_package clause)
  | _ => rfl

theorem packageName?_of_lacks {t : Tree} (h : ∀ c ∈ t.children, c.Lacks .packageClause) :
    (ofTree t).packageName? = none := by
  rw [packageName?, packageClause?_ofTree, clauseOf?_of_lacks h]
  rfl

theorem packageName?_of_clause {t : Tree} {as bs cs : List Tree} {r : ByteRange}
    (ht : t.children = as ++ .node .packageClause r cs :: bs) (has : ∀ c ∈ as, c.Lacks .packageClause) :
    (ofTree t).packageName? = (namesAmong cs).head? := by
  rw [packageName?, packageClause?_ofTree, ht, List.filterMap_append, List.findSome?_append, clauseOf?_of_lacks has]
  rfl

end SourceFile

namespace Grammar

open State

theorem lacks_phrase {k : NodeKind} (hk : k ∉ phraseKinds) : ∀ k' ∈ phraseKinds, k' ≠ k :=
  fun _ hk' heq => hk (heq ▸ hk')

/-- What stands behind the package clause. -/
def declarations (s : State) : State :=
  let s := s.repeatWhile (State.sees .importKw) importDecl s.rest.length
  let s := s.repeatWhile (fun s => !s.atEnd) declaration s.rest.length
  s.skipTrivia

theorem sourceFile_eq (s : State) : sourceFile s = declarations (packageClause s) := rfl

/-- Nothing behind the package clause makes another one. -/
theorem clauseless_declarations (s : State) : Makes (Lacks .packageClause) s (declarations s) := by
  have h := lacks_stepwise (k := .packageClause) (by decide)
  have hok := lacks_phrase (k := .packageClause) (by decide)
  have himport {u : State} (hu : u.sees .importKw = true) : Makes (Lacks .packageClause) u (importDecl u) :=
    h.decl hok (by decide) (h.importSpec hok (by decide)) (.of_sees hu (by decide))
  have hdeclaration (u : State) : Makes (Lacks .packageClause) u (declaration u) := by
    rw [declaration]
    split
    · exact h.decl hok (by decide) (h.typeSpec hok (by decide)) (.of_peek ‹_› (by decide))
    · exact h.decl hok (by decide) (h.constSpec hok (by decide)) (.of_peek ‹_› (by decide))
    · obtain ⟨t, ts, ht, hk⟩ := ahead_of_peek ‹_›
      exact (h.complain .lateImport u).trans (himport (sees_iff.mpr ⟨t, ts, ht, hk⟩))
    · exact h.recoverTo _ _ u
  unfold declarations
  extract_lets u v
  have hu : Makes (Lacks .packageClause) s u := Makes.repeatWhile (fun _ hu => himport hu) _ s
  have hv : Makes (Lacks .packageClause) u v := Makes.repeatWhile (fun w _ => hdeclaration w) _ u
  exact hu.trans (hv.trans (h.skipTrivia v))

/-- The names in a package clause: the identifier behind the keyword, and nothing else. -/
theorem names_clause {inner : State} {tok : Token} {toks : List Token} (hahead : inner.ahead = tok :: toks)
    (hfit : inner.Fit) (hdone : ∀ c ∈ inner.done, c.Lacks .name) :
    namesAmong ((name inner.bump).endLine .error).done.reverse = (toks.head?.filter (·.kind = .ident)).toList := by
  have h := lacks_stepwise (k := .name) (by decide)
  have hbehind : inner.bump.ahead = toks := by rw [ahead_bump, hahead, List.tail_cons]
  obtain ⟨keyword, hkeyword, hnameless⟩ := h.bump hfit
  have hbefore : ∀ c ∈ inner.bump.done, c.Lacks .name := by
    rw [hkeyword]
    exact List.forall_mem_append.mpr ⟨hnameless, hdone⟩
  obtain ⟨line, hline, hline'⟩ := h.endLine (by decide) .error (name inner.bump)
  rw [hline]
  by_cases hs : inner.bump.sees .ident = true
  · obtain ⟨id, ids, hid, hk⟩ := sees_iff.mp hs
    obtain ⟨r, hname⟩ := done_name hid hk
    obtain ⟨blanks, hblanks, hblanks'⟩ := h.skipTrivia inner.bump
    obtain rfl : id :: ids = toks := hid.symm.trans hbehind
    have hreverse : (line ++ (name inner.bump).done).reverse =
        (blanks ++ inner.bump.done).reverse ++ .node .name r [.leaf id] :: line.reverse := by
      rw [hname, hblanks]
      simp
    rw [hreverse, namesAmong, List.filter_append, List.filterMap_append]
    have hfront := namesAmong_of_lacks (l := (blanks ++ inner.bump.done).reverse) fun c hc =>
      List.forall_mem_append.mpr ⟨hblanks', hbefore⟩ c (List.mem_reverse.mp hc)
    have hback := namesAmong_of_lacks (l := line.reverse) fun c hc => hline' c (List.mem_reverse.mp hc)
    rw [namesAmong] at hfront hback
    rw [hfront, List.nil_append, List.filter_cons_of_pos rfl, List.filterMap_cons, hback]
    simp [children, significant?_leaf hk, Option.filter_some, hk]
  · have hname : (name inner.bump).done = inner.bump.done := by
      rw [name, if_neg hs]
      rfl
    rw [hname, namesAmong_of_lacks fun c hc =>
      List.forall_mem_append.mpr ⟨hline', hbefore⟩ c (List.mem_reverse.mp hc)]
    cases toks with
    | nil => rfl
    | cons id ids =>
      rw [sees_cons hbehind] at hs
      simpa using hs

/-- Where a text starts with the keyword, its package clause is the first node that is no blank or comment. -/
theorem exists_clause {s : State} {tok : Token} {toks : List Token} (hs : s.ahead = tok :: toks)
    (hk : tok.kind = .packageKw) :
    ∃ above r cs, (packageClause s).done = .node .packageClause r cs :: above ++ s.done ∧
      (∀ c ∈ above, c.Lacks .packageClause) ∧ namesAmong cs = (toks.head?.filter (·.kind = .ident)).toList := by
  have h := (lacks_stepwise (k := .packageClause) (by decide)).and (lacks_stepwise (k := .name) (by decide))
  have hsees : s.sees .packageKw = true := sees_iff.mpr ⟨tok, toks, hs, hk⟩
  obtain ⟨outer, inner, hout, hin, hahead, heq⟩ := h.exists_item ⟨by decide, by decide⟩ s
  obtain ⟨above, habove, hclauseless⟩ := hout.1
  have hnames := names_clause (hahead.trans hs) ((Fit.of_sees hsees (by decide)).congr hahead) hin.2.forall_done
  refine ⟨above, ⟨outer.offset, ((name inner.bump).endLine .error).offset⟩, _, ?_, hclauseless, hnames⟩
  rw [packageClause, if_pos hsees, heq, State.close, habove]
  rfl

end Grammar

/-- The package that the first two significant tokens of a text name is the one that its tree names, and neither
names one where the other does not. -/
theorem package_names_agree (text : String) :
    (parse text).file.packageName?.map Token.text = Token.packageClauseName text := by
  let s : Grammar.State := .ofTokens (Token.tokenize text)
  have hahead : s.ahead = Token.significant (Token.tokenize text) := rfl
  obtain ⟨behind, hbehind, hclauseless⟩ := Grammar.clauseless_declarations (Grammar.packageClause s)
  have hchildren : (parse text).tree.children = (behind ++ (Grammar.packageClause s).done).reverse := by
    rw [parse, Grammar.children_run, Grammar.sourceFile_eq, hbehind]
  have hnone (h : s.sees .packageKw = false) : (parse text).file.packageName? = none := by
    have hdone : (Grammar.packageClause s).done = [] := by
      rw [Grammar.packageClause, if_neg (by simp [h])]
      rfl
    refine SourceFile.packageName?_of_lacks fun c hc => hclauseless c ?_
    rwa [hchildren, hdone, List.append_nil, List.mem_reverse] at hc
  rw [Token.packageClauseName, ← hahead]
  cases htokens : s.ahead with
  | nil =>
    rw [hnone (Grammar.State.sees_nil htokens)]
    rfl
  | cons keyword toks =>
    by_cases hk : keyword.kind = .packageKw
    · obtain ⟨above, r, cs, hdone, habove, hnames⟩ := Grammar.exists_clause htokens hk
      have hsplit : (parse text).tree.children = above.reverse ++ .node .packageClause r cs :: behind.reverse := by
        rw [hchildren, hdone]
        simp [s, Grammar.State.ofTokens]
      rw [Parse.file, SourceFile.packageName?_of_clause hsplit fun c hc => habove c (List.mem_reverse.mp hc), hnames]
      cases toks with
      | nil => rfl
      | cons name toks => by_cases hname : name.kind = .ident <;> simp [Option.filter_some, hk, hname]
    · rw [hnone (by rw [Grammar.State.sees_cons htokens]; simpa using hk)]
      cases toks with
      | nil => rfl
      | cons name toks => simp [hk]

end IdlWorkbench
