import IdlWorkbench.Proofs.Grammar.Imports
import IdlWorkbench.Proofs.Grammar.Nesting

/-!
# What stands below the nodes of a tree

A node says more about its children than that their kinds fit: the field of a struct is never empty, and one without
names holds a type that has one; a struct type starts with its keyword, results are written in parentheses or are
one type, a trailing comment is one comment, and a constant that is declared alone has its doc above the
declaration. `Fits` states this for a node, and the trees of all texts consist of nodes that fit, whether the text
follows the grammar or not. -/

namespace IdlWorkbench

namespace Tree

/-- No doc stands among the children of the constant. -/
def Undocumented (t : Tree) : Prop := ∀ r cs, t = .node .constSpec r cs → ∀ c ∈ cs, c.isNode .doc = false

/-- There is a name among the children of a field, or no struct type. -/
def Titled (cs : List Tree) : Prop := namesAmong cs ≠ [] ∨ ∀ c ∈ cs, c.isNode .structType = false

/-- The children that a node can have, as far as its kind says more than the kinds of the children do. -/
def Fits : NodeKind → List Tree → Prop
  | .field, cs => leavesOf cs ≠ [] ∧ Titled cs
  | .structType, cs => ∃ tok ts, cs = .leaf tok :: ts
  | .resultList, cs => cs.any opens = true ∨ cs.length ≤ 1
  | .trailing, cs => ∃ tok, cs = [.leaf tok] ∧ tok.isComment = true
  | .constDecl, cs => cs.any opens = true ∨ ∀ c ∈ cs, c.Undocumented
  | _, _ => True

def bound : List NodeKind := [.field, .structType, .resultList, .trailing, .constDecl]

theorem fits_of_free {k : NodeKind} (hk : k ∉ bound) (cs : List Tree) : Fits k cs := by
  cases k with
  | field => exact absurd (by decide) hk
  | structType => exact absurd (by decide) hk
  | resultList => exact absurd (by decide) hk
  | trailing => exact absurd (by decide) hk
  | constDecl => exact absurd (by decide) hk
  | _ => trivial

def Formed (t : Tree) : Prop := ∀ k r cs, .node k r cs ∈ t.nodes → Fits k cs

theorem formed_leaf (tok : Token) : (leaf tok).Formed := fun _ _ _ h => by simp [nodes] at h

theorem formed_node {k : NodeKind} {cs : List Tree} (r : ByteRange) (hfit : Fits k cs) (h : ∀ c ∈ cs, c.Formed) :
    (node k r cs).Formed := by
  intro k' r' cs' hmem
  rw [nodes] at hmem
  rcases List.mem_cons.mp hmem with heq | hmem
  · cases heq
    exact hfit
  · obtain ⟨c, hc, hmem⟩ := mem_nodesOf.mp hmem
    exact h c hc k' r' cs' hmem

theorem Formed.fits {k : NodeKind} {r : ByteRange} {cs : List Tree} (h : (node k r cs).Formed) : Fits k cs :=
  h k r cs (by simp [nodes])

def Lacks (k : NodeKind) (t : Tree) : Prop := t.isNode k = false

theorem Formed.child {k : NodeKind} {r : ByteRange} {cs : List Tree} (h : (node k r cs).Formed) {c : Tree}
    (hc : c ∈ cs) :
    c.Formed := fun k' r' cs' hmem =>
  h k' r' cs' (by rw [nodes]; exact List.mem_cons_of_mem _ (mem_nodesOf.mpr ⟨c, hc, hmem⟩))

end Tree

namespace Grammar

open State IdlWorkbench.Tree

variable {s t u : State} {p q : Parser}

/-! ## Steps -/

theorem formed_close {k : NodeKind} (hfit : Fits k u.done.reverse) (h : Makes Formed s.opened u) :
    Makes Formed s (close k s u) :=
  .close fun r => formed_node r hfit fun c hc => h.forall_done c (List.mem_reverse.mp hc)

/-- Rules keep trees formed, apart from those of the nodes that say something about their children. -/
theorem formed_stepwise : Stepwise (· ∉ bound) (Makes Formed) where
  refl _ := .of_same rfl
  trans := .trans
  advance n s _ := .advance n s fun tok _ => formed_leaf tok
  complain _ _ := .of_same rfl
  close hk h := formed_close (fits_of_free hk _) h
  splice h := ⟨_, rfl, h.forall_done⟩
  recover c s u h := by
    have hskip : Makes Formed s (s.complain c).skipTrivia := .advance _ _ fun tok _ => formed_leaf tok
    exact hskip.trans (formed_close trivial (h.makes formed_leaf))

theorem formed_bump (s : State) : Makes Formed s s.bump := .bump formed_leaf s

theorem formed_expect (k : TokenKind) (s : State) : Makes Formed s (s.expect k) :=
  Stepwise.ite (fun _ => formed_bump s) fun _ => .of_same rfl

theorem formed_node_at {k : NodeKind} (hk : k ∉ bound) (hp : ∀ u, Makes Formed u (p u)) (s : State) :
    Makes Formed s (s.nodeAtToken k p) :=
  formed_stepwise.nodeAtToken hk fun u _ => hp u

theorem formed_tokenNode {k : NodeKind} (hk : k ∉ bound) (s : State) : Makes Formed s (s.tokenNode k) :=
  formed_node_at hk formed_bump s

theorem formed_item {k : NodeKind} (hk : k ∉ bound) (hp : ∀ u, Makes Formed u (p u)) (s : State) :
    Makes Formed s (s.item k p) :=
  formed_stepwise.item hk (by decide) fun u _ => hp u

/-- A trailing comment is one token. -/
theorem formed_trailing (s : State) : Makes Formed s s.trailing := by
  unfold State.trailing
  extract_lets gap
  have hgap : Makes Formed s (s.advance gap) := .advance _ _ fun tok _ => formed_leaf tok
  split
  · rename_i tok htok
    refine Stepwise.ite (fun hcomment => hgap.trans (formed_close ?_ (.advance 1 _ fun tok _ => formed_leaf tok)))
      fun _ => .of_same rfl
    have hrest : (s.advance gap).opened.rest = tok :: s.rest.drop (gap + 1) := by
      obtain ⟨hlt, htok⟩ := List.getElem?_eq_some_iff.mp htok
      rw [← htok, ← List.drop_eq_getElem_cons hlt]
      exact advance_rest gap s
    refine ⟨tok, ?_, (Bool.and_eq_true_iff.mp hcomment).1⟩
    simp only [State.advance, hrest]
    rfl
  · exact .of_same rfl

theorem formed_endLine (closer : TokenKind) (s : State) : Makes Formed s (s.endLine closer) := by
  have hsemi : Makes Formed s (if !s.newlineBefore && s.sees .semicolon then s.bump else s) :=
    Stepwise.ite (fun _ => formed_bump s) fun _ => .of_same rfl
  have htrail := hsemi.trans (formed_trailing _)
  exact Stepwise.ite
    (fun _ => htrail.trans ((formed_stepwise.recoverLine _ _ _).trans (formed_trailing _))) fun _ => htrail

/-- A rule that passed a token left a leaf among the children. -/
theorem leavesOf_done_ne_nil (h : Consumes s t) (hlt : t.rest.length < s.rest.length) :
    leavesOf t.done.reverse ≠ [] := by
  obtain ⟨ts, hdone, hrest, -⟩ := h
  intro hnil
  rw [hdone, List.reverse_append, List.reverse_reverse, leavesOf_append, List.append_eq_nil_iff] at hnil
  rw [hrest, hnil.2, List.nil_append] at hlt
  exact Nat.lt_irrefl _ hlt

theorem Makes.mem_done {P : Tree → Prop} {c : Tree} (h : Makes P s t) (hc : c ∈ s.done) : c ∈ t.done := by
  obtain ⟨new, hnew, -⟩ := h
  rw [hnew]
  exact List.mem_append_right _ hc

/-- The token that a node starts with is its first child. -/
theorem exists_first {k : TokenKind} {P : Tree → Prop} (h : s.sees k = true) (hp : ∀ u, Makes P u (p u)) :
    ∃ tok ts, (p s.skipTrivia.opened.bump).done.reverse = .leaf tok :: ts ∧ tok.kind = k := by
  have hsees : s.skipTrivia.opened.sees k = true := (sees_congr k (ahead_opened s)).trans h
  obtain ⟨tok, hk, hdone⟩ := done_bump hsees
  rw [skipTrivia_opened] at hdone
  obtain ⟨new, hnew, -⟩ := hp s.skipTrivia.opened.bump
  exact ⟨tok, new.reverse, by rw [hnew, hdone, opened_done, List.reverse_append]; rfl, hk⟩

theorem Stepwise.and {ok ok' : NodeKind → Prop} {R R' : State → State → Prop} (h : Stepwise ok R)
    (h' : Stepwise ok' R') :
    Stepwise (fun k => ok k ∧ ok' k) (fun s t => R s t ∧ R' s t) where
  refl s := ⟨h.refl s, h'.refl s⟩
  trans hst htu := ⟨h.trans hst.1 htu.1, h'.trans hst.2 htu.2⟩
  advance n s hn := ⟨h.advance n s hn, h'.advance n s hn⟩
  complain c s := ⟨h.complain c s, h'.complain c s⟩
  close hk hs := ⟨h.close hk.1 hs.1, h'.close hk.2 hs.2⟩
  splice hs := ⟨h.splice hs.1, h'.splice hs.2⟩
  recover c _ _ hs := ⟨h.recover c hs, h'.recover c hs⟩

/-- Children that are judged by their kind alone. -/
theorem shallow_stepwise {P : Tree → Prop} {ok : NodeKind → Prop} (hleaf : ∀ tok, P (.leaf tok))
    (hok : ∀ k, ok k → ∀ r cs, P (.node k r cs)) (herror : ∀ r cs, P (.node .error r cs)) :
    Stepwise ok (Makes P) where
  refl _ := .of_same rfl
  trans := .trans
  advance n s _ := .advance n s fun tok _ => hleaf tok
  complain _ _ := .of_same rfl
  close hk _ := .close fun r => hok _ hk r _
  splice h := ⟨_, rfl, h.forall_done⟩
  recover c s _ _ := by
    have hskip : Makes P s (s.complain c).skipTrivia := .advance _ _ fun tok _ => hleaf tok
    exact hskip.trans (.close fun r => herror r _)

theorem lacks_stepwise {k : NodeKind} (hk : k ≠ .error) : Stepwise (· ≠ k) (Makes (Lacks k)) :=
  shallow_stepwise (fun _ => rfl) (fun k' hk' _ _ => by simpa [Lacks, isNode, kind?] using hk')
    fun _ _ => by simpa [Lacks, isNode, kind?] using Ne.symm hk

/-! ## Types -/

def Structless (t : Tree) : Prop := t.isNode .structType = false

theorem structless_stepwise : Stepwise (· ≠ .structType) (Makes Structless) := lacks_stepwise (by decide)

theorem structless_nodeAtToken {k : NodeKind} (hk : k ≠ .structType) (p : Parser) (s : State) :
    Makes Structless s (s.nodeAtToken k p) :=
  .trans (.advance _ _ fun _ _ => rfl) (.close fun r => by simpa [Structless, isNode, kind?] using hk)

theorem structless_endLine (closer : TokenKind) (s : State) : Makes Structless s (s.endLine closer) :=
  structless_stepwise.endLine (by decide) closer s

/-- A name is a token in a node. -/
theorem done_name {s : State} {tok : Token} {toks : List Token} (h : s.ahead = tok :: toks)
    (hk : tok.kind = .ident) :
    ∃ r, (name s).done = .node .name r [.leaf tok] :: s.skipTrivia.done := by
  have hdone := done_bump_of_ahead (s := s.skipTrivia.opened) ((ahead_opened s).trans h)
  rw [skipTrivia_opened, opened_done] at hdone
  refine ⟨⟨s.skipTrivia.offset, s.skipTrivia.opened.bump.offset⟩, ?_⟩
  rw [name, if_pos (sees_iff.mpr ⟨tok, toks, h, hk⟩), tokenNode, nodeAtToken, State.node, close, hdone]
  rfl

theorem significant?_leaf {tok : Token} (hk : tok.kind = .ident) : significant? [.leaf tok] = some tok := by
  simp [significant?, tokens, token?, Token.isTrivia, TokenKind.isTrivia, TokenKind.isComment, hk]

theorem exists_name {s t : State} (hs : s.sees .ident = true) (h : Makes Formed (name s) t) :
    namesAmong t.done.reverse ≠ [] := by
  obtain ⟨tok, toks, hahead, hk⟩ := sees_iff.mp hs
  obtain ⟨r, hmade⟩ := done_name hahead hk
  have hmem := List.mem_reverse.mpr (h.mem_done (hmade ▸ List.mem_cons_self))
  exact List.ne_nil_of_mem (List.mem_filterMap.mpr ⟨_, List.mem_filter.mpr ⟨hmem, rfl⟩, significant?_leaf hk⟩)

theorem formed_name (s : State) : Makes Formed s (name s) :=
  Stepwise.ite (fun _ => formed_tokenNode (by decide) s) fun _ => .of_same rfl

structure ReadsTypes (p : Parser) : Prop where
  conserves : Conserves p
  lt : ∀ s : State, s.seesAny typeStarts = true → (p s).rest.length < s.rest.length
  makes : ∀ s, Makes Formed s (p s)
  /-- A type is one node. -/
  single : ∀ s : State, (p s.skipTrivia.opened).done.length ≤ 1
  structless : ∀ s : State, s.seesAny [.ident, .star] = true → Makes Structless s (p s)

section
variable (hp : ReadsTypes p)
include hp

theorem formed_typeList : ∀ (n : Nat) (s : State), Makes Formed s (typeList p n s)
  | 0, _ => .of_same rfl
  | n + 1, s => by
    have hround (b : Bool) : Makes Formed s (p (if b then name s else s)) :=
      .trans (Stepwise.ite (fun _ => formed_name s) fun _ => .of_same rfl) (hp.makes _)
    rw [typeList]
    refine Stepwise.ite (fun _ => ?_) fun _ => .of_same rfl
    exact Stepwise.ite (fun _ => (hround _).trans ((formed_bump _).trans (formed_typeList n _))) fun _ => hround _

theorem formed_typesInParens (s : State) : Makes Formed s (typesInParens p s) :=
  (formed_bump s).trans ((formed_typeList hp _ _).trans (formed_expect _ _))

theorem formed_results (s : State) : Makes Formed s (s.nodeAtToken .resultList fun s =>
    if s.sees .lParen then typesInParens p s else p s) := by
  refine (formed_stepwise.skipTrivia s).trans (formed_close ?_ ?_)
  · by_cases hopen : s.skipTrivia.opened.sees .lParen = true
    · refine Or.inl (List.any_eq_true.mpr ?_)
      obtain ⟨tok, hk, hdone⟩ := done_bump hopen
      refine ⟨.leaf tok, List.mem_reverse.mpr ?_, by simp [opens, token?, hk]⟩
      simp only [if_pos hopen]
      refine Makes.mem_done ((formed_typeList hp _ _).trans (formed_expect .rParen _)) ?_
      rw [hdone]
      exact List.mem_cons_self
    · right
      simp only [if_neg hopen, List.length_reverse]
      exact hp.single s
  · exact Stepwise.ite (fun _ => formed_typesInParens hp _) fun _ => hp.makes _

theorem formed_signature (s : State) : Makes Formed s (signature p s) := by
  have hparams : Makes Formed s (s.nodeAtToken .paramList fun s =>
      if s.sees .lParen then typesInParens p s else s.expected (.token .lParen)) := by
    refine formed_node_at (by decide) (fun u => ?_) s
    exact Stepwise.ite (fun _ => formed_typesInParens hp u) fun _ => .of_same rfl
  exact Stepwise.ite (fun _ => hparams) fun _ => hparams.trans (formed_results hp _)

omit hp in
theorem formed_members (hq : ∀ u, Makes Formed u (q u)) (s : State) : Makes Formed s (members q s) := by
  refine Stepwise.ite (fun _ => ?_) fun _ => .of_same rfl
  exact formed_node_at (by decide)
    (fun u => (formed_bump u).trans ((Makes.repeatWhile (fun v _ => hq v) _ _).trans (formed_expect _ _))) s

omit hp in
theorem formed_fieldNames (s : State) : Makes Formed s (fieldNames s) :=
  (formed_name s).trans (.repeatWhile (fun u _ => (formed_bump u).trans (formed_name _)) _ _)

theorem formed_field (s : State) : Makes Formed s (field p s) := by
  refine Stepwise.ite (fun hstart => ?_) fun _ => formed_stepwise.recoverLine _ _ s
  obtain ⟨outer, inner, hout, hin, hahead, heq⟩ :=
    (formed_stepwise.and structless_stepwise).exists_item (by decide) s
  rw [heq]
  rw [← seesAny_congr _ hahead] at hstart
  extract_lets embedded v w
  have hnames : Makes Formed inner (if embedded then inner else fieldNames inner) :=
    Stepwise.ite (fun _ => .of_same rfl) fun _ => formed_fieldNames inner
  have hv : Makes Formed inner v := hnames.trans (hp.makes _)
  have hw : Makes Formed v w :=
    Stepwise.ite (fun _ => formed_tokenNode (by decide) v) fun _ => .of_same rfl
  have hend := hw.trans (formed_endLine .rBrace w)
  refine hout.1.trans (formed_close ⟨?_, ?_⟩ (hin.1.trans (hv.trans hend)))
  · have hlt : v.rest.length < inner.rest.length :=
      fieldType_lt hp.conserves hp.lt hstart fun hs => by simp [embedded, hs]
    have hcv : Consumes inner v := hp.conserves.after (.ite (Consumes.refl inner) (fieldNames_conserves inner))
    have hcw : Consumes v (w.endLine .rBrace) :=
      Consumes.endLine _ (.ite ((Consumes.refl v).tokenNode _) (Consumes.refl v))
    exact leavesOf_done_ne_nil (hcv.trans hcw) (Nat.lt_of_le_of_lt hcw.length_le hlt)
  · by_cases hembedded : embedded = true
    · have htype : Makes Structless inner v := by
        simp only [v, if_pos hembedded]
        exact hp.structless inner hstart
      have htag : Makes Structless v w :=
        Stepwise.ite (fun _ => structless_nodeAtToken (by decide) _ v) fun _ => .of_same rfl
      have hall : Makes Structless outer.opened (w.endLine .rBrace) :=
        hin.2.trans (htype.trans (htag.trans (structless_endLine .rBrace w)))
      exact Or.inr fun c hc => hall.forall_done c (List.mem_reverse.mp hc)
    · have hident : inner.sees .ident = true := by
        have hstar : ¬ inner.sees .star = true := fun hstar => hembedded (by simp [embedded, hstar])
        obtain ⟨k, hk, hsees⟩ := seesAny_iff.mp hstart
        rcases List.mem_cons.mp hk with rfl | hk
        · exact hsees
        · exact absurd (List.mem_singleton.mp hk ▸ hsees) hstar
      have hfirst : Makes Formed (name inner) v := by
        simp only [v, if_neg hembedded]
        exact (Makes.repeatWhile (fun u _ => (formed_bump u).trans (formed_name _)) _ _).trans (hp.makes _)
      exact Or.inl (exists_name hident (hfirst.trans hend))

theorem formed_method (s : State) : Makes Formed s (method p s) :=
  Stepwise.ite
    (fun _ => formed_item (by decide)
      (fun u => (formed_name u).trans ((formed_signature hp _).trans (formed_endLine _ _))) s)
    fun _ => formed_stepwise.recoverLine _ _ s

theorem formed_typeWith (s : State) : Makes Formed s (typeWith p s) := by
  have hexpect (k : TokenKind) (u : State) : Makes Formed u (p (u.expect k)) :=
    (formed_expect k u).trans (hp.makes _)
  rw [typeWith]
  split
  · refine Stepwise.ite (fun _ => ?_) fun _ => formed_tokenNode (by decide) s
    exact formed_node_at (by decide) (fun u => (formed_bump u).trans ((formed_bump _).trans (formed_expect _ _))) s
  · exact formed_node_at (by decide) (fun u => (formed_bump u).trans (hexpect _ _)) s
  · exact formed_node_at (by decide) (fun u => (formed_bump u).trans ((hexpect _ _).trans (hexpect _ _))) s
  · exact formed_node_at (by decide) (fun u => (formed_bump u).trans (hp.makes _)) s
  · exact formed_node_at (by decide) (fun u => (formed_bump u).trans (hp.makes _)) s
  · exact formed_node_at (by decide) (fun u => (formed_bump u).trans (formed_signature hp _)) s
  · rename_i hs
    have hsees : s.sees .structKw = true := by
      obtain ⟨tok, toks, hahead, hk⟩ := ahead_of_peek hs
      exact sees_iff.mpr ⟨tok, toks, hahead, hk⟩
    have hmembers := formed_members (formed_field hp)
    obtain ⟨tok, ts, hdone, -⟩ := exists_first hsees hmembers
    exact (formed_stepwise.skipTrivia s).trans
      (formed_close ⟨tok, ts, hdone⟩ ((formed_bump _).trans (hmembers _)))
  · exact formed_node_at (by decide) (fun u => (formed_bump u).trans (formed_members (formed_method hp) _)) s
  · exact .of_same rfl

end

/-- A type is made by its rule alone. -/
theorem typeWith_single (p : Parser) (s : State) : (typeWith p s.skipTrivia.opened).done.length ≤ 1 := by
  have hnode (k : NodeKind) (q : Parser) : (s.skipTrivia.opened.nodeAtToken k q).done.length ≤ 1 := by
    rw [nodeAtToken, skipTrivia_opened]
    exact Nat.le_refl 1
  have hnone (what : Expected) : (s.skipTrivia.opened.expected what).done.length ≤ 1 := Nat.zero_le 1
  rw [typeWith]
  split
  · rw [typeName]
    split
    · exact hnode _ _
    · exact hnode _ _
  all_goals first
    | exact hnode _ _
    | exact hnone _

theorem structless_type (s : State) (hs : s.seesAny [.ident, .star] = true) : Makes Structless s (type s) := by
  rw [type_eq, typeWith]
  split
  · exact Stepwise.ite (fun _ => structless_nodeAtToken (by decide) _ s) fun _ =>
      structless_nodeAtToken (by decide) _ s
  · exact structless_nodeAtToken (by decide) _ s
  · exact structless_nodeAtToken (by decide) _ s
  · exact structless_nodeAtToken (by decide) _ s
  · exact structless_nodeAtToken (by decide) _ s
  · exact structless_nodeAtToken (by decide) _ s
  · rename_i hstruct
    obtain ⟨tok, toks, hahead, hk⟩ := ahead_of_peek hstruct
    simp [seesAny, peek_eq, hahead, hk] at hs
  · exact structless_nodeAtToken (by decide) _ s
  · exact .of_same rfl

/-- `type` below a number of tokens, and elsewhere a parser that reads types as well. -/
def typeBelow (n : Nat) (s : State) : State := if s.rest.length < n then type s else s.tokenNode .nameRef

theorem readsTypes_below {n : Nat} (h : ∀ u : State, u.rest.length < n → Makes Formed u (type u)) :
    ReadsTypes (typeBelow n) where
  conserves s := .ite (type_conserves s) ((Consumes.refl s).tokenNode _)
  lt s hs := by
    rw [typeBelow]
    split
    · exact type_lt hs
    · exact tokenNode_lt _ (ahead_ne_nil_of_seesAny hs)
  makes s := Stepwise.ite (h s) fun _ => formed_tokenNode (by decide) s
  single s := by
    rw [typeBelow]
    split
    · rw [type_eq]
      exact typeWith_single type s
    · rw [tokenNode, nodeAtToken, skipTrivia_opened]
      exact Nat.le_refl 1
  structless s hs := Stepwise.ite (fun _ => structless_type s hs) fun _ => structless_nodeAtToken (by decide) _ s

/-- By induction on the tokens left: the types inside a type have fewer of them. -/
theorem formed_type (s : State) : Makes Formed s (type s) := by
  induction hn : s.rest.length using Nat.strong_induction_on generalizing s with
  | _ n ih =>
    have hagree : typeWith type s = typeWith (typeBelow n) s :=
      typeWith_congr type_conserves fun t ht => (if_pos (hn ▸ ht)).symm
    rw [type_eq, hagree]
    exact formed_typeWith (readsTypes_below fun u hu => ih _ hu u rfl) s

/-! ## Expressions -/

section
variable (hp : ∀ u, Makes Formed u (p u)) (hq : ∀ u, Makes Formed u (q u))
include hp

theorem formed_elements : ∀ (n : Nat) (s : State), Makes Formed s (elements p n s)
  | 0, _ => .of_same rfl
  | n + 1, s => by
    rw [elements]
    refine Stepwise.ite (fun _ => .of_same rfl) fun _ => ?_
    exact Stepwise.ite (fun _ => (hp s).trans ((formed_bump _).trans (formed_elements n _))) fun _ => hp s

theorem formed_element (s : State) : Makes Formed s (element p s) := by
  have hkey : Makes Formed s.skipTrivia.opened (p s.skipTrivia.opened).bump := (hp _).trans (formed_bump _)
  refine (formed_stepwise.skipTrivia s).trans (Stepwise.ite (fun _ => ?_) fun _ => ?_)
  · exact formed_close trivial (hkey.trans (hp _))
  · exact formed_close trivial (hp _)

theorem formed_litBodyWith (s : State) : Makes Formed s (litBodyWith p s) :=
  formed_node_at (by decide)
    (fun u => (formed_bump u).trans ((formed_elements (formed_element hp) _ _).trans (formed_expect _ _))) s

theorem formed_composite (s : State) : Makes Formed s (composite p s) := by
  refine (formed_stepwise.skipTrivia s).trans (Stepwise.ite (fun _ => ?_) fun _ => ?_)
  · exact formed_close trivial ((formed_type _).trans (hp _))
  · exact ⟨_, rfl, (formed_type _).forall_done⟩

include hq

theorem formed_exprWith (s : State) : Makes Formed s (exprWith p q s) := by
  have hliteral := formed_tokenNode (k := .literal) (by decide) s
  have hcomposite := formed_composite hq s
  have hsigned : Makes Formed s (s.nodeAtToken .unaryExpr fun s => p s.bump) :=
    formed_node_at (by decide) (fun u => (formed_bump u).trans (hp _)) s
  rw [exprWith]
  split
  · exact hsigned
  · exact hsigned
  · exact hliteral
  · exact hliteral
  · exact hliteral
  · exact hliteral
  · exact formed_node_at (by decide) (fun u => (formed_bump u).trans ((hp _).trans (formed_expect _ _))) s
  · exact hcomposite
  · exact hcomposite
  · exact hcomposite
  · exact .of_same rfl
  · refine Stepwise.ite (fun _ => .of_same rfl) fun _ => ?_
    exact Makes.trans (.of_same rfl) (formed_tokenNode (by decide) _)

end

theorem formed_exprWithin (n : Nat) :
    (∀ s, Makes Formed s (exprWithin n s)) ∧ ∀ s, Makes Formed s (litBodyWithin n s) := by
  induction n with
  | zero =>
    rw [exprWithin, litBodyWithin]
    exact ⟨fun _ => .of_same rfl, fun _ => .of_same rfl⟩
  | succ n ih =>
    rw [exprWithin, litBodyWithin]
    exact ⟨formed_exprWith ih.1 ih.2,
      formed_litBodyWith fun _ => Stepwise.ite (fun _ => ih.2 _) fun _ => ih.1 _⟩

theorem formed_expr (s : State) : Makes Formed s (expr s) := (formed_exprWithin _).1 s

/-! ## Declarations -/

theorem formed_grouped {spec : Bool → Parser} (hs : ∀ b u, Makes Formed u (spec b u)) (s : State) :
    Makes Formed s (grouped spec s) := by
  refine Makes.trans ?_ (formed_endLine _ _)
  refine Stepwise.ite (fun _ => ?_) fun _ => hs false s
  exact (formed_bump s).trans ((Makes.repeatWhile (fun u _ => hs true u) _ _).trans (formed_expect _ _))

theorem formed_specNode {k : NodeKind} (hk : k ∉ bound) (group : Bool) (hp : ∀ u, Makes Formed u (p u)) (s : State) :
    Makes Formed s (specNode k group p s) :=
  Stepwise.ite (fun _ => formed_item hk (fun u => (hp u).trans (formed_endLine _ _)) s)
    fun _ => formed_node_at hk hp s

theorem formed_importSpec (group : Bool) (s : State) : Makes Formed s (importSpec group s) := by
  refine Stepwise.ite (fun _ => ?_) fun _ => formed_stepwise.recoverLine _ _ s
  refine formed_specNode (by decide) group (fun u => ?_) s
  have hname : Makes Formed u (if u.seesAny [.ident, .dot] then u.tokenNode .name else u) :=
    Stepwise.ite (fun _ => formed_tokenNode (by decide) u) fun _ => .of_same rfl
  refine Stepwise.ite (fun _ => ?_) fun _ => hname.trans (.of_same rfl)
  exact hname.trans (formed_tokenNode (by decide) _)

theorem formed_typeSpec (group : Bool) (s : State) : Makes Formed s (typeSpec group s) :=
  Stepwise.ite (fun _ => formed_specNode (by decide) group (fun u => (formed_name u).trans (formed_type _)) s)
    fun _ => formed_stepwise.recoverLine _ _ s

theorem formed_constSpec (group : Bool) (s : State) : Makes Formed s (constSpec group s) := by
  refine Stepwise.ite (fun _ => ?_) fun _ => formed_stepwise.recoverLine _ _ s
  refine formed_specNode (by decide) group (fun u => ?_) s
  have htype (b : Bool) : Makes Formed u (if b then type (name u) else name u) :=
    Stepwise.ite (fun _ => (formed_name u).trans (formed_type _)) fun _ => formed_name u
  exact Stepwise.ite (fun _ => (htype _).trans ((formed_bump _).trans (formed_expr _))) fun _ => htype _

theorem formed_decl {k : NodeKind} (hk : k ∉ bound) {spec : Bool → Parser} (hs : ∀ b u, Makes Formed u (spec b u))
    (s : State) : Makes Formed s (s.item k fun s => grouped spec s.bump) :=
  formed_item hk (fun u => (formed_bump u).trans (formed_grouped hs _)) s

def Bare (t : Tree) : Prop := t.isNode .doc = false

theorem bare_bump (s : State) : Makes Bare s s.bump := .bump (fun _ => rfl) s

theorem bare_nodeAtToken {k : NodeKind} (hk : k ≠ .doc) (p : Parser) (s : State) :
    Makes Bare s (s.nodeAtToken k p) :=
  .trans (.advance _ _ fun _ _ => rfl) (.close fun r => by simpa [Bare, isNode, kind?] using hk)

theorem bare_name (s : State) : Makes Bare s (name s) :=
  Stepwise.ite (fun _ => bare_nodeAtToken (by decide) _ s) fun _ => .of_same rfl

theorem bare_type (s : State) : Makes Bare s (type s) := by
  rw [type_eq, typeWith]
  split
  · exact Stepwise.ite (fun _ => bare_nodeAtToken (by decide) _ s) fun _ => bare_nodeAtToken (by decide) _ s
  all_goals first
    | exact bare_nodeAtToken (by decide) _ s
    | exact .of_same rfl

theorem bare_expr (s : State) : Makes Bare s (expr s) := by
  have hcomposite (p : Parser) : Makes Bare s (composite p s) := by
    refine (Makes.advance _ _ fun _ _ => rfl).trans (Stepwise.ite (fun _ => .close fun _ => rfl) fun _ => ?_)
    exact ⟨_, rfl, (bare_type _).forall_done⟩
  rw [expr_eq, exprWith]
  split
  all_goals first
    | exact bare_nodeAtToken (by decide) _ s
    | exact hcomposite _
    | exact .of_same rfl
    | exact Stepwise.ite (fun _ => .of_same rfl) fun _ => bare_nodeAtToken (by decide) _ _

theorem undocumented_stepwise : Stepwise (· ≠ .constSpec) (Makes Undocumented) :=
  shallow_stepwise (fun _ _ _ h => by cases h) (fun k hk _ _ _ _ h => by cases h; exact absurd rfl hk)
    fun _ _ _ _ h => by cases h

/-- A constant that is declared alone has no doc of its own. -/
theorem undocumented_constSpec (s : State) : Makes Undocumented s (constSpec false s) := by
  refine Stepwise.ite (fun _ => ?_) fun _ => undocumented_stepwise.recoverLine _ _ s
  refine (undocumented_stepwise.skipTrivia s).trans (.close fun r r' cs heq c hc => ?_)
  obtain ⟨-, -, rfl⟩ := heq
  refine Makes.forall_done (P := Bare) (s := s.skipTrivia) ?_ c (List.mem_reverse.mp hc)
  have htype (b : Bool) : Makes Bare s.skipTrivia.opened
    (if b then type (name s.skipTrivia.opened) else name s.skipTrivia.opened) :=
    Stepwise.ite (fun _ => (bare_name _).trans (bare_type _)) fun _ => bare_name _
  exact Stepwise.ite (fun _ => (htype _).trans ((bare_bump _).trans (bare_expr _))) fun _ => htype _

theorem formed_constDecl (s : State) : Makes Formed s (constDecl s) := by
  obtain ⟨outer, inner, hout, hin, -, heq⟩ := (formed_stepwise.and undocumented_stepwise).exists_item (by decide) s
  rw [constDecl, heq]
  refine hout.1.trans (formed_close ?_ (hin.1.trans ((formed_bump _).trans (formed_grouped formed_constSpec _))))
  have hkeyword : Makes Undocumented inner inner.bump :=
    .trans (undocumented_stepwise.skipTrivia _) (.advance 1 _ fun _ _ _ _ h => by cases h)
  by_cases hopen : inner.bump.sees .lParen = true
  · obtain ⟨tok, hk, hdone⟩ := done_bump hopen
    refine Or.inl (List.any_eq_true.mpr ⟨.leaf tok, List.mem_reverse.mpr ?_, by simp [opens, token?, hk]⟩)
    simp only [grouped, if_pos hopen]
    refine Makes.mem_done (P := Formed) ?_ (hdone ▸ List.mem_cons_self)
    exact (Makes.repeatWhile (fun u _ => formed_constSpec true u) _ _).trans
      ((formed_expect _ _).trans (formed_endLine _ _))
  · refine Or.inr fun c hc => ?_
    refine Makes.forall_done (P := Undocumented) (s := outer) ?_ c (List.mem_reverse.mp hc)
    simp only [grouped, if_neg hopen]
    exact hin.2.trans (hkeyword.trans
      ((undocumented_constSpec _).trans (undocumented_stepwise.endLine (by decide) _ _)))

theorem formed_importDecl (s : State) : Makes Formed s (importDecl s) := formed_decl (by decide) formed_importSpec s

theorem formed_packageClause (s : State) : Makes Formed s (packageClause s) :=
  Stepwise.ite
    (fun _ => formed_item (by decide)
      (fun u => (formed_bump u).trans ((formed_name _).trans (formed_endLine _ _))) s)
    fun _ => .of_same rfl

theorem formed_declaration (s : State) : Makes Formed s (declaration s) := by
  rw [declaration]
  split
  · exact formed_decl (by decide) formed_typeSpec s
  · exact formed_constDecl s
  · have hlate : Makes Formed s (s.complain .lateImport) := .of_same rfl
    exact hlate.trans (formed_importDecl _)
  · exact formed_stepwise.recoverTo _ _ s

theorem formed_sourceFile (s : State) : Makes Formed s (sourceFile s) := by
  refine (formed_packageClause s).trans (Makes.trans ?_ (formed_stepwise.skipTrivia _))
  exact (Makes.repeatWhile (fun v _ => formed_importDecl v) _ _).trans
    (Makes.repeatWhile (fun v _ => formed_declaration v) _ _)

/-- Every node in the tree of a source file fits. -/
theorem parse_formed (text : String) : (parse text).tree.Formed := by
  obtain ⟨range, hroot⟩ := tree_run .sourceFile sourceFile text
  rw [parse, hroot]
  refine formed_node range trivial fun c hc => ?_
  rw [children_run, List.mem_reverse] at hc
  exact Makes.forall_done (s := .ofTokens (Token.tokenize text)) (formed_sourceFile _) c hc

end Grammar

end IdlWorkbench
