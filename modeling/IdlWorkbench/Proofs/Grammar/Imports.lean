import IdlWorkbench.Proofs.Grammar.Account
import IdlWorkbench.Source
import Mathlib.Data.List.Basic

/-!
# Where import specs stand

An import spec is a child of an import declaration, which is a child of the root, and nothing else in the tree
of a source file has one inside it. In a group the specs stand behind the parenthesis. So the imports that are
read off the tree are all import specs that it has.
-/

namespace IdlWorkbench

namespace Tree

def Free (t : Tree) : Prop := t.has .importSpec = false

/-- An import spec, and none inside it. -/
def IsSpec (t : Tree) : Prop := ∃ range children, t = .node .importSpec range children ∧ ∀ c ∈ children, c.Free

def opens (t : Tree) : Bool := t.token?.any (·.kind = .lParen)

theorem free_leaf (tok : Token) : (leaf tok).Free := rfl

theorem free_node {k : NodeKind} {ts : List Tree} (r : ByteRange) (hk : k ≠ .importSpec) (h : ∀ t ∈ ts, t.Free) :
    (node k r ts).Free := by
  rw [Free, has, nodes, List.any_eq_false]
  intro u hu
  rcases List.mem_cons.mp hu with rfl | hu
  · simpa [isNode, kind?] using hk
  · obtain ⟨t, ht, hut⟩ := mem_nodesOf.mp hu
    exact List.any_eq_false.mp (h t ht) u hut

theorem Free.not_isNode {t u : Tree} (h : t.Free) (hu : u ∈ t.nodes) : ¬ u.isNode .importSpec = true :=
  List.any_eq_false.mp h u hu

/-- The children of a declaration: no import spec is left out when its items are read. -/
def Gathers (cs : List Tree) : Prop :=
  ∀ c ∈ cs, c.Free ∨ c.IsSpec ∧ c ∈ if cs.any opens then cs.dropWhile (!opens ·) else cs

theorem gathers_append {pre post : List Tree} (hpre : ∀ c ∈ pre, c.Free) (hpost : ∀ c ∈ post, c.Free ∨ c.IsSpec)
    (ho : (∃ c ∈ pre, c.opens = true) ∨ ∀ c ∈ post, c.opens = false) : Gathers (pre ++ post) := by
  intro c hc
  rcases List.mem_append.mp hc with hc | hc
  · exact Or.inl (hpre c hc)
  · refine (hpost c hc).imp_right fun hspec => ⟨hspec, ?_⟩
    cases hany : pre.any opens with
    | true =>
      rw [List.any_append, hany, Bool.true_or, if_pos rfl, List.dropWhile_append]
      have hne : (pre.dropWhile (!opens ·)).isEmpty = false := by
        obtain ⟨o, hmem, hopen⟩ := List.any_eq_true.mp hany
        rw [Bool.eq_false_iff]
        intro hnil
        have hall := List.dropWhile_eq_nil_iff.mp (List.isEmpty_iff.mp hnil) o hmem
        simp [hopen] at hall
      rw [hne]
      exact List.mem_append_right _ hc
    | false =>
      have hpost : post.any opens = false := by
        rcases ho with ⟨o, hmem, hopen⟩ | ho
        · exact absurd hopen (List.any_eq_false.mp hany o hmem)
        · rw [List.any_eq_false]
          intro u hu
          simp [ho u hu]
      rw [List.any_append, hany, hpost, Bool.or_self, if_neg Bool.false_ne_true]
      exact List.mem_append_right _ hc

def IsTop (t : Tree) : Prop := t.Free ∨ ∃ range cs, t = .node .importDecl range cs ∧ Gathers cs

end Tree

namespace Grammar

open State IdlWorkbench.Tree

/-! ## Children made on the way -/

def Makes (P : Tree → Prop) (s t : State) : Prop := ∃ new, t.done = new ++ s.done ∧ ∀ u ∈ new, P u

namespace Makes

variable {P Q : Tree → Prop} {s t u : State}

theorem of_same (h : t.done = s.done) : Makes P s t := ⟨[], h, by simp⟩

theorem trans (h : Makes P s t) (h' : Makes P t u) : Makes P s u := by
  obtain ⟨new, hnew, hP⟩ := h
  obtain ⟨new', hnew', hP'⟩ := h'
  refine ⟨new' ++ new, by rw [hnew', hnew, List.append_assoc], fun v hv => ?_⟩
  rcases List.mem_append.mp hv with hv | hv
  · exact hP' v hv
  · exact hP v hv

theorem mono (h : Makes P s t) (hPQ : ∀ v, P v → Q v) : Makes Q s t := by
  obtain ⟨new, hnew, hP⟩ := h
  exact ⟨new, hnew, fun v hv => hPQ v (hP v hv)⟩

/-- From a place without children, all that is there was made. -/
theorem forall_done (h : Makes P s.opened t) : ∀ v ∈ t.done, P v := by
  obtain ⟨new, hnew, hP⟩ := h
  rw [hnew, opened_done, List.append_nil]
  exact hP

theorem advance (n : Nat) (s : State) (h : ∀ tok ∈ s.rest.take n, P (.leaf tok)) : Makes P s (s.advance n) := by
  refine ⟨_, advance_done n s, fun v hv => ?_⟩
  obtain ⟨tok, htok, rfl⟩ := List.mem_map.mp (List.mem_reverse.mp hv)
  exact h tok htok

theorem bump (h : ∀ tok, P (.leaf tok)) (s : State) : Makes P s s.bump :=
  (advance _ _ fun tok _ => h tok).trans (advance 1 _ fun tok _ => h tok)

theorem close {k : NodeKind} (h : ∀ r, P (.node k r u.done.reverse)) : Makes P s (State.close k s u) := by
  refine ⟨[_], rfl, fun v hv => ?_⟩
  rw [List.mem_singleton.mp hv]
  exact h _

theorem repeatWhile {go : State → Bool} {p : Parser} (hp : ∀ v, go v = true → Makes P v (p v)) :
    ∀ (n : Nat) (s : State), Makes P s (s.repeatWhile go p n)
  | 0, _ => of_same rfl
  | n + 1, s => by
    rw [State.repeatWhile]
    exact Stepwise.ite (fun hgo => (hp s hgo).trans (repeatWhile hp n _)) fun _ => of_same rfl

end Makes

theorem State.Skips.makes {P : Tree → Prop} {s t : State} (hleaf : ∀ tok, P (.leaf tok))
    (h : Skips s t) : Makes P s t := by
  induction h with
  | refl => exact .of_same rfl
  | bump _ ih => exact ih.trans (.bump hleaf _)

theorem free_close {s u : State} {k : NodeKind} (hk : k ≠ .importSpec) (h : Makes Free s.opened u) (r : ByteRange) :
    (Tree.node k r u.done.reverse).Free :=
  free_node r hk fun v hv => h.forall_done v (List.mem_reverse.mp hv)

/-- Apart from import specs, rules make nodes without import specs. -/
theorem free_stepwise : Stepwise (· ≠ .importSpec) (Makes Free) where
  refl _ := .of_same rfl
  trans := .trans
  advance n s _ := .advance n s fun tok _ => free_leaf tok
  complain _ _ := .of_same rfl
  close hk h := .close (free_close hk h)
  splice h := ⟨_, rfl, h.forall_done⟩
  recover c s u h := by
    have hskip : Makes Free s (s.complain c).skipTrivia := .advance _ _ fun tok _ => free_leaf tok
    exact hskip.trans (.close (free_close (by decide) (h.makes free_leaf)))

theorem ok_phrase : ∀ k ∈ phraseKinds, k ≠ .importSpec := by decide

/-! ## Import specs -/

theorem importBody_makes (s : State) : Makes Free s (
    let s := if s.seesAny [.ident, .dot] then s.tokenNode .name else s
    if s.seesAny [.string, .rawString] then s.tokenNode .literal else s.expected .importPath) :=
  free_stepwise.importBody ok_phrase s

theorem isSpec_close {s u : State} (h : Makes Free s.opened u) (r : ByteRange) :
    (Tree.node .importSpec r u.done.reverse).IsSpec :=
  ⟨r, _, rfl, fun v hv => h.forall_done v (List.mem_reverse.mp hv)⟩

theorem importSpec_makes (group : Bool) (s : State) :
    Makes (fun v => v.Free ∨ v.IsSpec) s (importSpec group s) := by
  refine Stepwise.ite (fun _ => ?_) fun _ => (free_stepwise.recoverLine _ _ s).mono fun _ => Or.inl
  refine Stepwise.ite (fun _ => ?_) fun _ => ?_
  · obtain ⟨outer, inner, hout, hin, -, heq⟩ := free_stepwise.exists_item (by decide) s
    rw [heq]
    refine (hout.mono fun _ => Or.inl).trans (.close fun r => Or.inr (isSpec_close (s := outer) ?_ r))
    exact hin.trans ((importBody_makes _).trans (free_stepwise.endLine (by decide) _ _))
  · refine ((free_stepwise.skipTrivia s).mono fun _ => Or.inl).trans (.close fun r => Or.inr ?_)
    exact isSpec_close (importBody_makes _) r

/-! ## Lines without a parenthesis -/

def Shut (v : Tree) : Prop := v.Free ∧ v.opens = false

theorem shut_leaf {tok : Token} (h : tok.kind ≠ .lParen) : Shut (.leaf tok) :=
  ⟨free_leaf tok, by simpa [opens, token?] using h⟩

theorem shut_trivia {tok : Token} (h : tok.isTrivia = true) : Shut (.leaf tok) := by
  refine shut_leaf fun he => ?_
  simp [Token.isTrivia, he, TokenKind.isTrivia, TokenKind.isComment] at h

theorem skipTrivia_shut (s : State) : Makes Shut s s.skipTrivia :=
  .advance _ _ fun _ ht => shut_trivia (isTrivia_of_mem_take (Nat.le_refl _) ht)

/-- The next significant token goes into the tree behind the blanks before it. -/
theorem done_bump_of_ahead {s : State} {tok : Token} {toks : List Token} (h : s.ahead = tok :: toks) :
    s.bump.done = .leaf tok :: s.skipTrivia.done := by
  rcases dropWhile_isTrivia s.rest with ⟨-, hnil⟩ | ⟨u, rest, hd, -, hsig⟩
  · exact absurd (h.symm.trans hnil) (List.cons_ne_nil _ _)
  · have hu : tok = u := (List.cons.inj (h.symm.trans hsig)).1
    have hrest : s.skipTrivia.rest = tok :: rest := by rw [skipTrivia_rest, hd, hu]
    rw [bump, State.advance, hrest]
    rfl

theorem done_bump {s : State} {k : TokenKind} (h : s.sees k = true) :
    ∃ tok : Token, tok.kind = k ∧ s.bump.done = .leaf tok :: s.skipTrivia.done := by
  obtain ⟨tok, toks, hs, hk⟩ := sees_iff.mp h
  exact ⟨tok, hk, done_bump_of_ahead hs⟩

theorem trailing_shut (s : State) : Makes Shut s s.trailing := by
  rcases trailing_cases s with heq | ⟨gap, hgap, hcomment, heq⟩
  · rw [heq]
    exact .of_same rfl
  · rw [heq]
    refine Makes.trans (.advance _ _ fun _ ht => shut_trivia (hgap _ ht)) (.close fun r => ⟨?_, rfl⟩)
    exact free_close (s := s.advance gap) (by decide) (.advance 1 _ fun tok _ => free_leaf tok) r

theorem recoverLine_shut (what : Expected) (closer : TokenKind) (s : State) :
    Makes Shut s (s.recoverLine what closer) := by
  have hskip : Makes Shut s (s.expected what).skipTrivia := skipTrivia_shut (s.expected what)
  refine hskip.trans (.close fun r => ⟨free_close (s := (s.expected what).skipTrivia) (by decide) ?_ r, rfl⟩)
  exact Stepwise.ite (fun _ => .of_same rfl) fun _ => Stepwise.ite (fun _ => .bump free_leaf _)
    fun _ => (Skips.refl.bump.bumpWhile _ _).makes free_leaf

theorem endLine_shut (closer : TokenKind) (s : State) : Makes Shut s (s.endLine closer) := by
  have hsemi : Makes Shut s (if !s.newlineBefore && s.sees .semicolon then s.bump else s) := by
    refine Stepwise.ite (fun h => ?_) fun _ => .of_same rfl
    obtain ⟨tok, hk, hdone⟩ := done_bump (Bool.and_eq_true_iff.mp h).2
    refine (skipTrivia_shut s).trans ⟨[.leaf tok], hdone, fun v hv => ?_⟩
    rw [List.mem_singleton.mp hv]
    exact shut_leaf (by rw [hk]; decide)
  have htrail := hsemi.trans (trailing_shut _)
  exact Stepwise.ite (fun _ => htrail.trans ((recoverLine_shut _ _ _).trans (trailing_shut _))) fun _ => htrail

/-- A spec that stands alone, up to the end of its line. -/
theorem importLine_makes (s : State) :
    Makes (fun v => (v.Free ∨ v.IsSpec) ∧ v.opens = false) s ((importSpec false s).endLine .error) := by
  have hshut {t u : State} (h : Makes Shut t u) : Makes (fun v => (v.Free ∨ v.IsSpec) ∧ v.opens = false) t u :=
    h.mono fun _ hv => ⟨Or.inl hv.1, hv.2⟩
  refine Makes.trans ?_ (hshut (endLine_shut _ _))
  refine Stepwise.ite (fun _ => ?_) fun _ => hshut (recoverLine_shut _ _ s)
  refine (hshut (skipTrivia_shut s)).trans (.close fun r => ⟨Or.inr ?_, rfl⟩)
  exact isSpec_close (importBody_makes _) r

/-! ## Declarations -/

theorem importDecl_makes (s : State) : Makes IsTop s (importDecl s) := by
  obtain ⟨outer, inner, hout, hin, -, heq⟩ := free_stepwise.exists_item (by decide) s
  rw [importDecl, heq]
  refine (hout.mono fun _ => Or.inl).trans (.close fun r => Or.inr ⟨r, _, rfl, ?_⟩)
  have hbump (t : State) : Makes Free t t.bump := .bump free_leaf t
  have hkeyword := hin.trans (hbump inner)
  rw [grouped]
  split
  · rename_i hopen
    have hparen := hkeyword.trans (hbump inner.bump)
    obtain ⟨tok, hk, hdone⟩ := done_bump hopen
    have hspecs : Makes (fun v => v.Free ∨ v.IsSpec) inner.bump.bump (State.endLine .error (State.expect .rParen
        (inner.bump.bump.repeatWhile (fun s => !s.atEnd && !s.sees .rParen) (importSpec true)
          inner.bump.rest.length))) := by
      have hround (go : State → Bool) (n : Nat) (t : State) :
          Makes (fun v => v.Free ∨ v.IsSpec) t (t.repeatWhile go (importSpec true) n) :=
        .repeatWhile (fun v _ => importSpec_makes true v) n t
      have hend (t : State) : Makes Free t ((t.expect .rParen).endLine .error) :=
        (free_stepwise.expect (by decide) t).trans (free_stepwise.endLine (by decide) _ _)
      exact (hround _ _ _).trans ((hend _).mono fun _ => Or.inl)
    obtain ⟨new, hnew, hP⟩ := hspecs
    rw [hnew, List.reverse_append]
    refine gathers_append (fun c hc => hparen.forall_done c (List.mem_reverse.mp hc))
      (fun c hc => hP c (List.mem_reverse.mp hc)) (Or.inl ⟨.leaf tok, ?_, ?_⟩)
    · rw [List.mem_reverse, hdone]
      exact List.mem_cons_self
    · simp [opens, token?, hk]
  · obtain ⟨new, hnew, hP⟩ := importLine_makes inner.bump
    rw [hnew, List.reverse_append]
    exact gathers_append (fun c hc => hkeyword.forall_done c (List.mem_reverse.mp hc))
      (fun c hc => (hP c (List.mem_reverse.mp hc)).1) (Or.inr fun c hc => (hP c (List.mem_reverse.mp hc)).2)

theorem declaration_makes (s : State) : Makes IsTop s (declaration s) := by
  have hfree {t : State} (h : Makes Free s t) : Makes IsTop s t := h.mono fun _ => Or.inl
  rw [declaration]
  split
  · rename_i hs
    exact hfree (free_stepwise.decl ok_phrase (by decide) (free_stepwise.typeSpec ok_phrase (by decide))
      (.of_peek hs (by decide)))
  · rename_i hs
    exact hfree (free_stepwise.decl ok_phrase (by decide) (free_stepwise.constSpec ok_phrase (by decide))
      (.of_peek hs (by decide)))
  · have hlate : Makes IsTop s (s.complain .lateImport) := .of_same rfl
    exact hlate.trans (importDecl_makes _)
  · exact hfree (free_stepwise.recoverTo _ _ s)

theorem sourceFile_makes (s : State) : Makes IsTop s (sourceFile s) := by
  have hclause : Makes IsTop s (packageClause s) :=
    (free_stepwise.packageClause ok_phrase (by decide) s).mono fun _ => Or.inl
  refine hclause.trans (Makes.trans ?_ ((free_stepwise.skipTrivia _).mono fun _ => Or.inl))
  exact (Makes.repeatWhile (fun v _ => importDecl_makes v) _ _).trans
    (Makes.repeatWhile (fun v _ => declaration_makes v) _ _)

-- a run is opened for any rule, since the unifier would try to run the rule of source files
theorem tree_run (kind : NodeKind) (p : Parser) (text : String) : ∃ range,
    (run kind p text).tree = .node kind range (run kind p text).tree.children := ⟨_, rfl⟩

theorem children_run (kind : NodeKind) (p : Parser) (text : String) :
    (run kind p text).tree.children = (p (.ofTokens (Token.tokenize text))).done.reverse := rfl

theorem isTop_of_parse {text : String} {t : Tree} (h : t ∈ (parse text).tree.children) : t.IsTop := by
  rw [parse, children_run, List.mem_reverse] at h
  exact Makes.forall_done (s := .ofTokens (Token.tokenize text)) (sourceFile_makes _) t h

end Grammar

/-! ## Reading them -/

theorem tree_parse (text : String) : ∃ range, (parse text).tree =
      .node .sourceFile range (parse text).tree.children :=
  Grammar.tree_run .sourceFile Grammar.sourceFile text

/-- The entries of a list are read off its children. -/
theorem exists_of_mem_entries {α : Type} {spec? : Tree → Option α} {cs : List Tree} {a : α}
    (h : a ∈ entries (cs.filterMap (Decl.item? spec?))) : ∃ c ∈ cs, spec? c = some a := by
  obtain ⟨item, hitem, hentry⟩ := List.mem_filterMap.mp h
  obtain ⟨c, hc, hread⟩ := List.mem_filterMap.mp hitem
  cases item with
  | comment t => cases hentry
  | gap n => cases hentry
  | entry b =>
    obtain rfl := Option.some_inj.mp hentry
    refine ⟨c, hc, ?_⟩
    cases c with
    | leaf t =>
      have htoken : Item.ofToken? t = some (Item.entry b) := hread
      rw [Item.ofToken?] at htoken
      split at htoken
      · cases htoken
      · split at htoken <;> cases htoken
    | node k r ds =>
      obtain ⟨b', hb, heq⟩ := Option.map_eq_some_iff.mp hread
      cases heq
      exact hb

/-- The specs of a declaration are read off its children. -/
theorem exists_of_mem_specs {α : Type} {spec? : Tree → Option α} {r : ByteRange} {cs : List Tree} {a : α}
    (h : a ∈ (Decl.ofChildren spec? r cs).specs) : ∃ c ∈ cs, spec? c = some a := by
  obtain ⟨c, hc, hread⟩ := exists_of_mem_entries h
  refine ⟨c, ?_, hread⟩
  split at hc
  · exact (List.dropWhile_sublist _).subset hc
  · exact hc

/-- Items are read off one by one; tokens are none of them. -/
theorem entries_items {α : Type} {f : Tree → Option α} (hleaf : ∀ tok, f (.leaf tok) = none) {ts : List Tree} :
    entries (ts.filterMap (Decl.item? f)) = ts.filterMap f := by
  rw [entries, List.filterMap_filterMap]
  refine List.filterMap_congr fun t _ => ?_
  cases t with
  | leaf tok =>
    rw [hleaf, Decl.item?, Item.ofToken?]
    split
    · rfl
    · split <;> rfl
  | node k r ds =>
    show ((f (.node k r ds)).map Item.entry).bind Item.entry? = _
    cases f (.node k r ds) <;> rfl

theorem mem_entries {α : Type} {f : Tree → Option α} {ts : List Tree} {k : NodeKind} {r : ByteRange} {cs : List Tree}
    (h : .node k r cs ∈ ts) {a : α} (ha : f (.node k r cs) = some a) :
    a ∈ entries (ts.filterMap (Decl.item? f)) := by
  refine List.mem_filterMap.mpr ⟨.entry a, List.mem_filterMap.mpr ⟨_, h, ?_⟩, rfl⟩
  simp [Decl.item?, ha]

/-- The specs of an import declaration are imports of its file. -/
theorem mem_importSpecs_ofTree {t : Tree} {range : ByteRange} {cs : List Tree}
    (h : .node .importDecl range cs ∈ t.children) {r : ByteRange} {ts : List Tree}
    (hc : .node .importSpec r ts ∈ if cs.any Tree.opens then cs.dropWhile (!Tree.opens ·) else cs)
    {spec : ImportSpec}
    (hs : ImportSpec.ofTree? (.node .importSpec r ts) = some spec) : spec ∈ (SourceFile.ofTree t).importSpecs := by
  have hdecl : Decl.ofChildren ImportSpec.ofTree? range cs ∈ (SourceFile.ofTree t).importDecls :=
    List.mem_filterMap.mpr ⟨_, mem_entries h rfl, rfl⟩
  exact List.mem_flatMap.mpr ⟨_, hdecl, mem_entries hc hs⟩

/-- Every import spec in the tree of a source file is among its imports. -/
theorem mem_importSpecs {text : String} {u : Tree} (hu : u ∈ (parse text).tree.nodes) {spec : ImportSpec}
    (hs : ImportSpec.ofTree? u = some spec) : spec ∈ (parse text).file.importSpecs := by
  have hkind : u.isNode .importSpec = true := by
    unfold ImportSpec.ofTree? at hs
    split at hs
    · rfl
    · cases hs
  obtain ⟨_, hroot⟩ := tree_parse text
  rw [hroot, Tree.nodes] at hu
  rcases List.mem_cons.mp hu with rfl | hu
  · cases hkind
  · obtain ⟨t, ht, hut⟩ := Tree.mem_nodesOf.mp hu
    rcases Grammar.isTop_of_parse ht with hfree | ⟨range, cs, rfl, hcs⟩
    · exact absurd hkind (hfree.not_isNode hut)
    · rw [Tree.nodes] at hut
      rcases List.mem_cons.mp hut with rfl | hut
      · cases hkind
      · obtain ⟨c, hc, huc⟩ := Tree.mem_nodesOf.mp hut
        rcases hcs c hc with hfree | ⟨⟨r, ts, rfl, hts⟩, hinside⟩
        · exact absurd hkind (hfree.not_isNode huc)
        · have hself : u = .node .importSpec r ts := by
            rw [Tree.nodes] at huc
            rcases List.mem_cons.mp huc with rfl | huc
            · rfl
            · obtain ⟨v, hv, huv⟩ := Tree.mem_nodesOf.mp huc
              exact absurd hkind ((hts v hv).not_isNode huv)
          exact mem_importSpecs_ofTree ht hinside (hself ▸ hs)

end IdlWorkbench
