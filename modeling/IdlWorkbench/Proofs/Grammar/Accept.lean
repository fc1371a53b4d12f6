import IdlWorkbench.Proofs.Grammar.Drawn

/-!
# The expression parser accepts exactly its grammar

What the grammar of expressions derives, `expr` passes over without a complaint, and the tree that it builds
reads back as the expression of the derivation. Together with `derives_expr` this says which texts
`parseExpr` accepts and what they stand for.

Readers look at two things among the children of a node: the significant tokens that stand there themselves,
and the nodes. `Builds` keeps track of these two.
-/

namespace IdlWorkbench

open IdlWorkbench.Tree Token

/-! ## What readers look at -/

def Tree.inner (cs : List Tree) : List Tree := cs.filter (·.kind?.isSome)

theorem Tree.inner_append (cs ds : List Tree) : inner (cs ++ ds) = inner cs ++ inner ds := List.filter_append ..

theorem Tree.tokens_append (cs ds : List Tree) : tokens (cs ++ ds) = tokens cs ++ tokens ds :=
  List.filterMap_append ..

theorem Token.significant_append (ts us : List Token) : significant (ts ++ us) = significant ts ++ significant us :=
  List.filter_append ..

section
variable {α : Type} {f : Tree → Option α} (hf : ∀ t, f (.leaf t) = none) (cs : List Tree)
include hf

theorem filterMap_inner : cs.filterMap f = (inner cs).filterMap f := by
  induction cs with
  | nil => rfl
  | cons c cs ih =>
    cases c with
    | leaf t => simp [Tree.inner, kind?, hf, ih]
    | node k r ds => simp [Tree.inner, kind?, List.filterMap_cons, ih]

theorem findSome?_inner : cs.findSome? f = (inner cs).findSome? f := by
  induction cs with
  | nil => rfl
  | cons c cs ih =>
    cases c with
    | leaf t => simp [Tree.inner, kind?, hf, ih]
    | node k r ds => simp [Tree.inner, kind?, List.findSome?_cons, ih]

end

theorem typesAmong_eq (cs : List Tree) : typesAmong cs = (inner cs).filterMap TypeExpr.ofTree? := by
  rw [← filterMap_inner fun _ => rfl]
  induction cs with
  | nil => rfl
  | cons c cs ih =>
    rw [typesAmong, List.filterMap_cons]
    split <;> simp_all

theorem exprsAmong_eq (cs : List Tree) : exprsAmong cs = (inner cs).filterMap Expr.ofTree? := by
  rw [← filterMap_inner fun _ => rfl]
  induction cs with
  | nil => rfl
  | cons c cs ih =>
    rw [exprsAmong, List.filterMap_cons]
    split <;> simp_all

theorem elementsAmong_eq (cs : List Tree) : elementsAmong cs = (inner cs).filterMap Element.ofTree? := by
  rw [← filterMap_inner fun _ => rfl]
  induction cs with
  | nil => rfl
  | cons c cs ih =>
    rw [elementsAmong, List.filterMap_cons]
    split <;> simp_all

theorem bodyAmong?_eq (cs : List Tree) : bodyAmong? cs = (inner cs).findSome? LitBody.ofTree? := by
  rw [← findSome?_inner fun _ => rfl]
  induction cs with
  | nil => rfl
  | cons c cs ih =>
    rw [bodyAmong?, List.findSome?_cons]
    split <;> simp_all

def ElementValue.ofTree? (t : Tree) : Option ElementValue :=
  (LitBody.ofTree? t).map .body <|> (Expr.ofTree? t).map .expr

theorem valuesAmong_eq (cs : List Tree) : valuesAmong cs = (inner cs).filterMap ElementValue.ofTree? := by
  rw [← filterMap_inner fun _ => rfl]
  induction cs with
  | nil => rfl
  | cons c cs ih =>
    rw [valuesAmong, List.filterMap_cons, ElementValue.ofTree?]
    split <;> simp_all

theorem typeTokensAmong_eq (cs : List Tree) : typeTokensAmong cs = typeTokensAmong (inner cs) := by
  induction cs with
  | nil => rfl
  | cons c cs ih =>
    cases c with
    | leaf t => simpa [typeTokensAmong, Tree.inner, kind?, TypeExpr.ofTree?] using ih
    | node k r ds =>
      simp only [typeTokensAmong, Tree.inner, kind?, List.filter_cons, Option.isSome_some, ite_true,
        List.find?_cons] at ih ⊢
      cases (TypeExpr.ofTree? (.node k r ds)).isSome with
      | true => rfl
      | false => exact ih

theorem significant?_eq (cs : List Tree) : significant? cs = (significant (tokens cs)).head? := by
  rw [significant?, significant, List.head?_filter]

theorem filter_ident (toks : List Token) :
    toks.filter (·.kind = .ident) = (significant toks).filter (·.kind = .ident) := by
  rw [significant, List.filter_filter]
  refine List.filter_congr fun t _ => ?_
  by_cases h : t.kind = .ident
  · simp [h, Token.isTrivia, TokenKind.isTrivia, TokenKind.isComment]
  · simp [h]

/-- Where only blanks and comments stand beside the nodes, the nodes hold all that is significant. -/
theorem significant_leavesOf {cs : List Tree} (h : significant (tokens cs) = []) :
    significant (leavesOf cs) = (inner cs).flatMap significantLeaves := by
  induction cs with
  | nil => rfl
  | cons c cs ih =>
    rw [leavesOf, significant_append]
    cases c with
    | leaf t =>
      rw [tokens, List.filterMap_cons, token?, significant, List.filter_cons] at h
      by_cases ht : t.isTrivia = true
      · simp only [ht, Bool.not_true, Bool.false_eq_true, ite_false] at h
        simpa [Tree.inner, kind?, leaves, significant, ht] using ih h
      · simp [ht] at h
    | node k r ds =>
      rw [tokens, List.filterMap_cons, token?] at h
      rw [ih h]
      simp [Tree.inner, kind?, significantLeaves, significant]

/-- A type tree that can stand for an expression reads as one. -/
theorem Expr.ofTree?_of_type {t : Tree} {type : TypeExpr} {ts : List Token} (h : TypeExpr.ofTree? t = some type)
    (hlit : Grammar.IsLitType ts type.unplaced) : Expr.ofTree? t = some (.ofType t.significantLeaves type) := by
  cases t with
  | leaf t => cases h
  | node kind range children =>
    cases kind with
    | nameRef =>
      obtain ⟨id, hid, rfl⟩ := Option.map_eq_some_iff.mp h
      rw [Expr.ofTree?, hid]
      rfl
    | selector | sliceType | mapType =>
      cases h
      rfl
    | pointerType | chanType | funcType | structType | interfaceType =>
      cases h
      cases hlit
    | _ => cases h

theorem LitBody.ofTree?_of_expr {t : Tree} {e : Expr} (h : Expr.ofTree? t = some e) : LitBody.ofTree? t = none := by
  cases t with
  | leaf t => rfl
  | node kind range children =>
    cases kind <;> first
      | rfl
      | cases h

theorem LitBody.ofTree?_of_type {t : Tree} {type : TypeExpr} (h : TypeExpr.ofTree? t = some type) :
    LitBody.ofTree? t = none := by
  cases t with
  | leaf t => rfl
  | node kind range children =>
    cases kind <;> first
      | rfl
      | cases h

namespace Grammar

open State

variable {s t u : State} {p : Parser}

/-! ## Building trees without a complaint -/

/-- `t` is reached from `s` without a complaint; among the new children `toks` are the significant tokens and
`nodes` the nodes. -/
def Builds (s t : State) (toks : List Token) (nodes : List Tree) : Prop :=
  ∃ cs, t.done = cs.reverse ++ s.done ∧ t.errors = s.errors ∧ s.rest = leavesOf cs ++ t.rest ∧
    significant (tokens cs) = toks ∧ inner cs = nodes

namespace Builds

variable {toks toks' : List Token} {nodes nodes' : List Tree}

theorem refl (s : State) : Builds s s [] [] := ⟨[], rfl, rfl, rfl, rfl, rfl⟩

theorem trans (h : Builds s t toks nodes) (h' : Builds t u toks' nodes') :
    Builds s u (toks ++ toks') (nodes ++ nodes') := by
  obtain ⟨cs, hd, he, hr, ht, hn⟩ := h
  obtain ⟨ds, hd', he', hr', ht', hn'⟩ := h'
  refine ⟨cs ++ ds, ?_, he'.trans he, ?_, ?_, ?_⟩
  · rw [hd', hd, List.reverse_append, List.append_assoc]
  · rw [hr, hr', leavesOf_append, List.append_assoc]
  · rw [tokens_append, significant_append, ht, ht']
  · rw [inner_append, hn, hn']

theorem errors (h : Builds s t toks nodes) : t.errors = s.errors := h.choose_spec.2.1

end Builds

theorem builds_advance : ∀ (n : Nat) (s : State), Builds s (s.advance n) (significant (s.rest.take n)) []
  | 0, s => Builds.refl s
  | n + 1, s => by
    rw [advance]
    split
    · rename_i h
      rw [h]
      exact Builds.refl s
    · rename_i tok rest h
      have hstep : Builds s { s with before := some tok, rest, offset := tok.stop, done := .leaf tok :: s.done }
          (significant [tok]) [] :=
        ⟨[.leaf tok], rfl, rfl, by simp [leavesOf, leaves, h], rfl, rfl⟩
      have hsplit : significant (s.rest.take (n + 1)) = significant [tok] ++ significant (rest.take n) := by
        rw [h, List.take_succ_cons]
        exact significant_append [tok] _
      rw [hsplit]
      exact hstep.trans (builds_advance n _)

theorem builds_skipTrivia (s : State) : Builds s s.skipTrivia [] [] := by
  have h := builds_advance s.trivia.length s
  have ht : s.trivia = s.rest.take s.trivia.length := List.prefix_iff_eq_take.mp (List.takeWhile_prefix _)
  have hnil : significant s.trivia = [] := by
    rw [significant, List.filter_eq_nil_iff]
    intro b hb
    simpa using List.mem_takeWhile_imp hb
  rwa [← ht, hnil] at h

theorem builds_bump {tok : Token} {ahead : List Token} (h : s.ahead = tok :: ahead) : Builds s s.bump [tok] [] := by
  have hb : Builds s s.bump _ _ := (builds_skipTrivia s).trans (builds_advance 1 s.skipTrivia)
  rcases dropWhile_isTrivia s.rest with ⟨-, hs⟩ | ⟨t, rest, hd, ht, hs⟩
  · rw [State.ahead, hs] at h
    cases h
  · rw [State.ahead, hs, List.cons.injEq] at h
    rw [skipTrivia_rest, hd, h.1] at hb
    simpa [significant, ← h.1, ht] using hb

theorem builds_expect {k : TokenKind} {tok : Token} {ahead : List Token} (h : s.ahead = tok :: ahead)
    (hk : tok.kind = k) : Builds s (s.expect k) [tok] [] ∧ (s.expect k).ahead = ahead := by
  have hs : s.sees k = true := sees_iff.mpr ⟨tok, ahead, h, hk⟩
  rw [expect, if_pos hs]
  exact ⟨builds_bump h, ahead_bump_cons h⟩

/-- The new children go into one node, or stay what they are. -/
theorem builds_close (k : NodeKind) {toks : List Token} {nodes : List Tree}
    (h : Builds s.skipTrivia.opened t toks nodes) :
    ∃ range cs, Builds s (State.close k s.skipTrivia t) [] [.node k range cs] ∧ significant (tokens cs) = toks ∧
      inner cs = nodes ∧ s.skipTrivia.rest = leavesOf cs ++ t.rest := by
  obtain ⟨cs, hd, he, hr, ht, hn⟩ := h
  refine ⟨⟨s.skipTrivia.offset, t.offset⟩, cs, (builds_skipTrivia s).trans ?_, ht, hn, hr⟩
  refine ⟨[.node k _ cs], ?_, he, ?_, rfl, rfl⟩
  · simp [State.close, hd, opened_done]
  · simpa [leavesOf, leaves, State.close, opened] using hr

theorem builds_splice {toks : List Token} {nodes : List Tree} (h : Builds s.skipTrivia.opened t toks nodes) :
    Builds s (State.splice s.skipTrivia t) toks nodes := by
  obtain ⟨cs, hd, he, hr, ht, hn⟩ := h
  exact (builds_skipTrivia s).trans ⟨cs, by simp [State.splice, hd, opened_done], he, hr, ht, hn⟩

/-- The parser builds one node that satisfies `Q`, with nothing significant beside it, and `rest` is left. -/
def Yields (Q : Tree → Prop) (p : Parser) (s : State) (rest : List Token) : Prop :=
  ∃ tree, Builds s (p s) [] [tree] ∧ (p s).ahead = rest ∧ Q tree

section
variable {Q : Tree → Prop} {ts rest : List Token}

theorem Yields.congr {q : Parser} (h : Yields Q p s rest) (he : q s = p s) : Yields Q q s rest := by
  rw [Yields, he]
  exact h

/-- The node holds the tokens that were passed over. -/
theorem Yields.significantLeaves (h : Yields Q p s rest) (hs : s.ahead = ts ++ rest) :
    Yields (fun tree => Q tree ∧ tree.significantLeaves = ts) p s rest := by
  obtain ⟨tree, hb, hrest, hq⟩ := h
  refine ⟨tree, hb, hrest, hq, ?_⟩
  obtain ⟨cs, -, -, hr, ht, hn⟩ := hb
  have : s.ahead = significant (leavesOf cs) ++ (p s).ahead := by
    rw [ahead, hr, significant_append]
    rfl
  rw [significant_leavesOf ht, hn, hs, hrest, List.flatMap_singleton] at this
  exact (List.append_cancel_right this).symm

/-- A node is yielded with the children that its body builds and the tokens that it passes. -/
theorem yields_node_over (kind : NodeKind) {toks : List Token} {nodes : List Tree}
    (hb : Builds s.skipTrivia.opened (p s.skipTrivia.opened) toks nodes)
    (hrest : (p s.skipTrivia.opened).ahead = rest)
    (hq : ∀ range cs, inner cs = nodes → s.skipTrivia.rest = leavesOf cs ++ (p s.skipTrivia.opened).rest →
      significant (tokens cs) = toks → Q (.node kind range cs)) :
    Yields Q (State.nodeAtToken kind p) s rest := by
  obtain ⟨range, cs, hb, ht, hn, hr⟩ := builds_close kind hb
  exact ⟨_, hb, hrest, hq range cs hn hr ht⟩

theorem yields_node (kind : NodeKind) {toks : List Token} {nodes : List Tree}
    (hb : Builds s.skipTrivia.opened (p s.skipTrivia.opened) toks nodes)
    (hrest : (p s.skipTrivia.opened).ahead = rest)
    (hq : ∀ range cs, significant (tokens cs) = toks → inner cs = nodes → Q (.node kind range cs)) :
    Yields Q (State.nodeAtToken kind p) s rest :=
  yields_node_over kind hb hrest fun range cs hn _ ht => hq range cs ht hn

end

def Avoids (ks : List TokenKind) (rest : List Token) : Prop := ∀ tok ∈ rest.head?, tok.kind ∉ ks

theorem avoids_nil (ks : List TokenKind) : Avoids ks [] := by
  intro t ht
  cases ht

theorem avoids_cons {ks : List TokenKind} {tok : Token} (h : tok.kind ∉ ks) (rest : List Token) :
    Avoids ks (tok :: rest) := by
  intro t ht
  rw [List.head?_cons, Option.mem_some_iff] at ht
  rwa [← ht]

theorem Avoids.mono {ks ls : List TokenKind} {rest : List Token} (h : Avoids ks rest) (hsub : ls ⊆ ks) :
    Avoids ls rest :=
  fun t ht hk => h t ht (hsub hk)

theorem Avoids.not_sees {ks : List TokenKind} {k : TokenKind} {rest : List Token} (h : Avoids ks rest) (hk : k ∈ ks)
    (hs : s.ahead = rest) : s.sees k = false := by
  cases rest with
  | nil => exact sees_nil hs
  | cons t rest =>
    rw [sees_cons hs, beq_eq_false_iff_ne]
    intro ht
    exact h t rfl (ht ▸ hk)

section
variable {α : Type}

/-- The parser yields whatever `R` derives where none of `ks` follows, as a tree that `Q` reads. -/
def Accepts (R : List Token → α → Prop) (Q : α → Tree → Prop) (ks : List TokenKind) (p : Parser) (s : State) :
    Prop :=
  ∀ ⦃ts rest : List Token⦄ ⦃a : α⦄, R ts a → s.ahead = ts ++ rest → Avoids ks rest → Yields (Q a) p s rest

def AcceptsInside (R : List Token → α → Prop) (Q : α → Tree → Prop) (ks : List TokenKind) (p : Parser) (s : State) :
    Prop :=
  ∀ ⦃u : State⦄ ⦃us : List Token⦄, us ≠ [] → s.ahead = us ++ u.ahead → Accepts R Q ks p u

variable {R : List Token → α → Prop} {Q : α → Tree → Prop} {ks : List TokenKind}

theorem AcceptsInside.opened (h : AcceptsInside R Q ks p s) : AcceptsInside R Q ks p s.skipTrivia.opened :=
  fun _ _ hus hu => h hus ((ahead_opened s).symm.trans hu)

end

/-! ## Types -/

def ReadsType (type : TypeExpr) (tree : Tree) : Prop := ∃ t, TypeExpr.ofTree? tree = some t ∧ t.unplaced = type

theorem yields_name {id : Token} {rest : List Token} (hs : s.ahead = id :: rest) (hrest : Avoids [.dot] rest) :
    Yields (ReadsType (.name id)) typeName s rest := by
  have hdot : s.secondIs [.dot] = false := by
    rw [secondIs_eq, hs, List.tail_cons]
    cases rest with
    | nil => rfl
    | cons t rest => simpa using hrest t rfl
  have hopen := (ahead_opened s).trans hs
  refine Yields.congr (yields_node .nameRef (builds_bump hopen) (ahead_bump_cons hopen) fun range cs ht _ => ?_) ?_
  · exact ⟨.name id, by rw [TypeExpr.ofTree?, significant?_eq, ht]; rfl, rfl⟩
  · rw [typeName, hdot]
    rfl

theorem yields_selector {q dot id : Token} {rest : List Token} (hs : s.ahead = q :: dot :: id :: rest)
    (hq : q.kind = .ident) (hdot : dot.kind = .dot) (hid : id.kind = .ident) :
    Yields (ReadsType (.selector .nowhere (some q) (some id))) typeName s rest := by
  have hopen := (ahead_opened s).trans hs
  have ha₁ := ahead_bump_cons hopen
  have ha₂ := ahead_bump_cons ha₁
  obtain ⟨hb₃, ha₃⟩ := builds_expect ha₂ hid
  have hb := ((builds_bump hopen).trans (builds_bump ha₁)).trans hb₃
  refine Yields.congr (yields_node (p := fun s => s.bump.bump.expect .ident) .selector hb ha₃ fun range cs ht _ =>
    ?_) ?_
  · refine ⟨.selector range (some q) (some id), ?_, rfl⟩
    rw [TypeExpr.ofTree?, selectorParts, filter_ident, ht]
    simp [hq, hdot, hid]
  · have : s.secondIs [.dot] = true := by simp [secondIs_eq, hs, hdot]
    rw [typeName, this]
    rfl

section
variable {ts rest : List Token} {type : TypeExpr} (hi : AcceptsInside IsType ReadsType [.dot] p s.skipTrivia.opened)
  (ht : IsType ts type) (hrest : Avoids [.dot] rest)
include hi ht hrest

theorem yields_slice {l r : Token} (hs : s.ahead = l :: r :: ts ++ rest) (hr : r.kind = .rBracket) :
    Yields (ReadsType (.slice .nowhere type))
      (State.nodeAtToken .sliceType fun s => p (s.bump.expect .rBracket)) s rest := by
  have hopen := (ahead_opened s).trans hs
  obtain ⟨hb₂, ha₂⟩ := builds_expect (ahead_bump_cons hopen) hr
  obtain ⟨tree, hb₃, ha₃, t, htree, hu⟩ :=
    hi (List.cons_ne_nil l [r]) (by rw [hopen, ha₂]; rfl) ht ha₂ hrest
  refine yields_node .sliceType (((builds_bump hopen).trans hb₂).trans hb₃) ha₃ fun range cs _ hn => ?_
  refine ⟨.slice range t, ?_, by rw [TypeExpr.unplaced, hu]⟩
  rw [TypeExpr.ofTree?, typesAmong_eq, hn]
  simp [htree]

theorem yields_pointer {star : Token} (hs : s.ahead = star :: ts ++ rest) :
    Yields (ReadsType (.pointer .nowhere type)) (State.nodeAtToken .pointerType fun s => p s.bump) s rest := by
  have hopen := (ahead_opened s).trans hs
  have ha₁ := ahead_bump_cons hopen
  obtain ⟨tree, hb₂, ha₂, t, htree, hu⟩ := hi (List.cons_ne_nil star []) (by rw [hopen, ha₁]; rfl) ht ha₁ hrest
  refine yields_node .pointerType ((builds_bump hopen).trans hb₂) ha₂ fun range cs _ hn => ?_
  refine ⟨.pointer range t, ?_, by rw [TypeExpr.unplaced, hu]⟩
  rw [TypeExpr.ofTree?, typesAmong_eq, hn]
  simp [htree]

theorem yields_chan {kw : Token} (hs : s.ahead = kw :: ts ++ rest) :
    Yields (ReadsType (.chan .nowhere type)) (State.nodeAtToken .chanType fun s => p s.bump) s rest := by
  have hopen := (ahead_opened s).trans hs
  have ha₁ := ahead_bump_cons hopen
  obtain ⟨tree, hb₂, ha₂, t, htree, hu⟩ := hi (List.cons_ne_nil kw []) (by rw [hopen, ha₁]; rfl) ht ha₁ hrest
  refine yields_node .chanType ((builds_bump hopen).trans hb₂) ha₂ fun range cs _ hn => ?_
  refine ⟨.chan range t, ?_, by rw [TypeExpr.unplaced, hu]⟩
  rw [TypeExpr.ofTree?, typesAmong_eq, hn]
  simp [htree]

theorem yields_map {m l r : Token} {ks : List Token} {key : TypeExpr} (hk : IsType ks key)
    (hs : s.ahead = m :: l :: (ks ++ r :: ts) ++ rest) (hl : l.kind = .lBracket) (hr : r.kind = .rBracket) :
    Yields (ReadsType (.map .nowhere key type))
      (State.nodeAtToken .mapType fun s => p ((p (s.bump.expect .lBracket)).expect .rBracket)) s rest := by
  have hopen := (ahead_opened s).trans hs
  obtain ⟨hb₂, ha₂⟩ := builds_expect (ahead_bump_cons hopen) hl
  rw [List.append_eq, List.append_assoc, List.cons_append] at ha₂
  obtain ⟨ktree, hb₃, ha₃, k, hktree, hku⟩ :=
    hi (List.cons_ne_nil m [l]) (by rw [hopen, ha₂]; simp) hk ha₂ (avoids_cons (by simp [hr]) _)
  obtain ⟨hb₄, ha₄⟩ := builds_expect ha₃ hr
  obtain ⟨tree, hb₅, ha₅, t, htree, hu⟩ :=
    hi (List.cons_ne_nil m (l :: ks ++ [r])) (by rw [hopen, ha₄]; simp) ht ha₄ hrest
  refine yields_node .mapType (((((builds_bump hopen).trans hb₂).trans hb₃).trans hb₄).trans hb₅) ha₅ fun range cs
    _ hn => ?_
  refine ⟨.map range k t, ?_, by rw [TypeExpr.unplaced, hku, hu]⟩
  rw [TypeExpr.ofTree?, typesAmong_eq, hn]
  simp [hktree, htree]

end

theorem typeWith_of_kind {tok : Token} {ts : List Token} (p : Parser) (h : s.ahead = tok :: ts) :
    typeWith p s = match tok.kind with
      | .ident => typeName s
      | .lBracket => s.nodeAtToken .sliceType fun s => p (s.bump.expect .rBracket)
      | .mapKw => s.nodeAtToken .mapType fun s => p ((p (s.bump.expect .lBracket)).expect .rBracket)
      | .star => s.nodeAtToken .pointerType fun s => p s.bump
      | .chanKw => s.nodeAtToken .chanType fun s => p s.bump
      | .funcKw => s.nodeAtToken .funcType fun s => signature p s.bump
      | .structKw => s.nodeAtToken .structType fun s => members (field p) s.bump
      | .interfaceKw => s.nodeAtToken .interfaceType fun s => members (method p) s.bump
      | _ => s.expected .type := by
  rw [typeWith, peek_eq, h]
  rcases hk : tok.kind <;> simp [hk]

theorem accepts_typeWithin (n : Nat) : ∀ s : State, s.ahead.length < n →
    Accepts IsType ReadsType [.dot] (typeWithin n) s := by
  induction n with
  | zero => exact fun s h => absurd h (Nat.not_lt_zero _)
  | succ n ih =>
    intro s hn ts rest t ht hs hrest
    have hi : AcceptsInside IsType ReadsType [.dot] (typeWithin n) s := fun u us hus hu => by
      have := length_lt_of_append hus hu
      exact ih u (by omega)
    replace hi := hi.opened
    rw [typeWithin]
    cases ht with
    | lit h =>
      cases h with
      | name hid => exact (yields_name hs hrest).congr (by rw [typeWith_of_kind _ hs, hid])
      | selector hq hdot hid => exact (yields_selector hs hq hdot hid).congr (by rw [typeWith_of_kind _ hs, hq])
      | slice hl hr ht => exact (yields_slice hi ht hrest hs hr).congr (by rw [typeWith_of_kind _ hs, hl])
      | map hm hl hk hr hv => exact (yields_map hi hv hrest hk hs hl hr).congr (by rw [typeWith_of_kind _ hs, hm])
    | pointer hk ht => exact (yields_pointer hi ht hrest hs).congr (by rw [typeWith_of_kind _ hs, hk])
    | chan hk ht => exact (yields_chan hi ht hrest hs).congr (by rw [typeWith_of_kind _ hs, hk])

theorem accepts_type (s : State) : Accepts IsType ReadsType [.dot] type s :=
  accepts_typeWithin _ s (Nat.lt_succ_of_le s.length_ahead_le)

/-! ## Expressions -/

section
variable (view : Bool → Bool)

def ReadsExpr (e : Expr) (tree : Tree) : Prop := ∃ x, Expr.ofTree? tree = some x ∧ x.traced view = e

def ReadsBody (b : LitBody) (tree : Tree) : Prop := ∃ x, LitBody.ofTree? tree = some x ∧ x.traced view = b

def ReadsElement (e : Element) (tree : Tree) : Prop := ∃ x, Element.ofTree? tree = some x ∧ x.traced view = e

def ReadsValue (v : ElementValue) (tree : Tree) : Prop := ∃ x, ElementValue.ofTree? tree = some x ∧ x.traced view = v

end

/-- An expression stops where neither of these follows: a name would go on, or a literal would begin. -/
def exprStops : List TokenKind := [.dot, .lBrace]

/-- An element stops where its values do and the first is not a key. -/
def elementStops : List TokenKind := [.dot, .lBrace, .colon]

def AcceptsBehind {α : Type} (all : List Token) (R : List Token → α → Prop) (Q : α → Tree → Prop)
    (ks : List TokenKind)
    (p : Parser) (s : State) : Prop :=
  ∀ ⦃u : State⦄ ⦃us : List Token⦄, us ≠ [] → s.ahead = us ++ u.ahead → u.rest <:+ all → Accepts R Q ks p u

section
variable {α : Type} {all : List Token} {R : List Token → α → Prop} {Q : α → Tree → Prop} {ks : List TokenKind}

theorem AcceptsBehind.opened (h : AcceptsBehind all R Q ks p s) : AcceptsBehind all R Q ks p s.skipTrivia.opened :=
  fun _ _ hus hu => h hus ((ahead_opened s).symm.trans hu)

theorem AcceptsBehind.after {us : List Token} (h : AcceptsBehind all R Q ks p s) (hu : s.ahead = us ++ u.ahead) :
    AcceptsBehind all R Q ks p u := fun v vs hvs hv =>
  @h v (us ++ vs) (by simp [hvs]) (by rw [hu, hv, List.append_assoc])

theorem suffix_opened (h : s.rest <:+ all) : s.skipTrivia.opened.rest <:+ all :=
  (Consumes.refl s).skipTrivia.suffix.trans h

theorem suffix_bump (h : s.rest <:+ all) : s.bump.rest <:+ all := (Consumes.refl s).bump.suffix.trans h

theorem Builds.suffix {toks : List Token} {nodes : List Tree} (hb : Builds s t toks nodes) (h : s.rest <:+ all) :
    t.rest <:+ all := by
  obtain ⟨cs, -, -, hr, -⟩ := hb
  exact List.IsSuffix.trans ⟨leavesOf cs, hr.symm⟩ h

end

section
variable {breaks : Token → Token → Bool} {ts : List Token}

theorem IsLitType.head {t : TypeExpr} (h : IsLitType ts t) :
    ∃ u us, ts = u :: us ∧ (u.kind = .ident ∨ u.kind = .lBracket ∨ u.kind = .mapKw) := by
  cases h with
  | name h => exact ⟨_, _, rfl, Or.inl h⟩
  | selector h _ _ => exact ⟨_, _, rfl, Or.inl h⟩
  | slice h _ _ => exact ⟨_, _, rfl, Or.inr (Or.inl h)⟩
  | map h _ _ _ _ => exact ⟨_, _, rfl, Or.inr (Or.inr h)⟩

theorem DrawsExpr.head {e : Expr} (h : DrawsExpr breaks ts e) :
    ∃ u us, ts = u :: us ∧ u.kind ≠ .lBrace ∧ u.kind ≠ .rBrace := by
  cases h with
  | signed h _ => exact ⟨_, _, rfl, by rcases h with h | h <;> simp [h]⟩
  | literal h =>
    refine ⟨_, _, rfl, ?_, ?_⟩
    · intro hk
      simp [hk, TokenKind.isLiteral] at h
    · intro hk
      simp [hk, TokenKind.isLiteral] at h
  | paren h _ _ => exact ⟨_, _, rfl, by simp [h]⟩
  | bare h =>
    obtain ⟨u, us, rfl, hu⟩ := h.head
    exact ⟨u, us, rfl, by rcases hu with hu | hu | hu <;> simp [hu]⟩
  | composite h _ =>
    obtain ⟨u, us, rfl, hu⟩ := h.head
    exact ⟨u, _, rfl, by rcases hu with hu | hu | hu <;> simp [hu]⟩

theorem DrawsBody.head {b : LitBody} (h : DrawsBody breaks ts b) : ∃ u us, ts = u :: us ∧ u.kind = .lBrace := by
  cases h with
  | braces h _ _ => exact ⟨_, _, rfl, h⟩

theorem DrawsValue.head {v : ElementValue} (h : DrawsValue breaks ts v) :
    ∃ u us, ts = u :: us ∧ u.kind ≠ .rBrace := by
  cases h with
  | expr h =>
    obtain ⟨u, us, hus, -, hu⟩ := h.head
    exact ⟨u, us, hus, hu⟩
  | body h =>
    obtain ⟨u, us, hus, hu⟩ := h.head
    exact ⟨u, us, hus, by simp [hu]⟩

theorem DrawsElement.head {e : Element} (h : DrawsElement breaks ts e) :
    ∃ u us, ts = u :: us ∧ u.kind ≠ .rBrace := by
  cases h with
  | positional h => exact h.head
  | keyed h _ _ =>
    obtain ⟨u, us, rfl, hu⟩ := h.head
    exact ⟨u, _, rfl, hu⟩

end

section
variable {view : Bool → Bool} {breaks : Token → Token → Bool} {all ts rest : List Token} {e : Expr}

theorem yields_literal {tok : Token} (hs : s.ahead = tok :: rest) :
    Yields (ReadsExpr view (.literal tok)) (tokenNode .literal) s rest := by
  have hopen := (ahead_opened s).trans hs
  refine yields_node .literal (builds_bump hopen) (ahead_bump_cons hopen) fun range cs ht _ => ?_
  exact ⟨.literal tok, by rw [Expr.ofTree?, significant?_eq, ht]; rfl, by simp [Expr.traced]⟩

theorem yields_signed {op : Token}
    (hi : AcceptsBehind all (DrawsExpr breaks) (ReadsExpr view) exprStops p s.skipTrivia.opened)
    (hall : s.rest <:+ all)
    (he : DrawsExpr breaks ts e) (hs : s.ahead = op :: ts ++ rest) (hrest : Avoids exprStops rest) :
    Yields (ReadsExpr view (.unary .nowhere op e)) (State.nodeAtToken .unaryExpr fun s => p s.bump) s rest := by
  have hopen := (ahead_opened s).trans hs
  have ha₁ := ahead_bump_cons hopen
  obtain ⟨tree, hb₂, ha₂, x, htree, hx⟩ := hi (List.cons_ne_nil op []) (by rw [hopen, ha₁]; rfl)
    (suffix_bump (suffix_opened hall)) he ha₁ hrest
  refine yields_node .unaryExpr ((builds_bump hopen).trans hb₂) ha₂ fun range cs ht hn => ?_
  refine ⟨.unary range op x, ?_, by rw [Expr.traced, hx]⟩
  rw [Expr.ofTree?, significant?_eq, ht, exprsAmong_eq, hn]
  simp [htree]

theorem yields_paren {l r : Token}
    (hi : AcceptsBehind all (DrawsExpr breaks) (ReadsExpr view) exprStops p s.skipTrivia.opened)
    (hall : s.rest <:+ all)
    (he : DrawsExpr breaks ts e) (hs : s.ahead = l :: (ts ++ [r]) ++ rest) (hr : r.kind = .rParen) :
    Yields (ReadsExpr view (.paren .nowhere e))
      (State.nodeAtToken .parenExpr fun s => (p s.bump).expect .rParen) s rest := by
  have hopen := (ahead_opened s).trans hs
  have ha₁ := ahead_bump_cons hopen
  rw [List.append_eq, List.append_assoc, List.singleton_append] at ha₁
  obtain ⟨tree, hb₂, ha₂, x, htree, hx⟩ :=
    hi (List.cons_ne_nil l []) (by rw [hopen, ha₁]; simp) (suffix_bump (suffix_opened hall)) he ha₁
      (avoids_cons (by simp [hr, exprStops]) _)
  obtain ⟨hb₃, ha₃⟩ := builds_expect ha₂ hr
  refine yields_node .parenExpr (((builds_bump hopen).trans hb₂).trans hb₃) ha₃ fun range cs _ hn => ?_
  refine ⟨.paren range x, ?_, by rw [Expr.traced, hx]⟩
  rw [Expr.ofTree?, exprsAmong_eq, hn]
  simp [htree]

theorem yields_bare {t : TypeExpr} (ht : IsLitType ts t) (hs : s.ahead = ts ++ rest)
    (hrest : Avoids exprStops rest) :
    Yields (ReadsExpr view (.ofType ts t)) (composite p) s rest := by
  have hopen := (ahead_opened s).trans hs
  obtain ⟨tree, hb, ha, ⟨x, htree, hx⟩, hleaves⟩ :=
    (accepts_type _ (.lit ht) hopen (hrest.mono (by simp [exprStops]))).significantLeaves hopen
  have hbrace : (type s.skipTrivia.opened).sees .lBrace = false := hrest.not_sees (by simp [exprStops]) ha
  refine Yields.congr (p := fun s => State.splice s.skipTrivia (type s.skipTrivia.opened))
    ⟨tree, builds_splice hb, ha, ?_⟩ ?_
  · refine ⟨_, Expr.ofTree?_of_type htree (hx ▸ ht), ?_⟩
    rw [traced_ofType, hx, hleaves]
  · simp [composite, hbrace]

theorem yields_composite {t : TypeExpr} {bs : List Token} {b : LitBody}
    (hi : AcceptsBehind all (DrawsBody breaks) (ReadsBody view) [] p s.skipTrivia.opened) (hall : s.rest <:+ all)
    (ht : IsLitType ts t) (hb : DrawsBody breaks bs b) (hs : s.ahead = (ts ++ bs) ++ rest) :
    Yields (ReadsExpr view (.composite .nowhere t ts b)) (composite p) s rest := by
  obtain ⟨u, us, rfl, hu⟩ := ht.head
  obtain ⟨l, ls, rfl, hl⟩ := hb.head
  rw [List.append_assoc] at hs
  have hopen := (ahead_opened s).trans hs
  obtain ⟨tree, hb₁, ha₁, ⟨x, htree, hx⟩, hleaves⟩ :=
    (accepts_type _ (.lit ht) hopen (avoids_cons (by simp [hl]) _)).significantLeaves hopen
  obtain ⟨btree, hb₂, ha₂, y, hbtree, hy⟩ :=
    hi (List.cons_ne_nil u us) (by rw [hopen, ha₁]) (hb₁.suffix (suffix_opened hall))
      hb ha₁ (fun _ _ => List.not_mem_nil)
  have hbrace : (type s.skipTrivia.opened).sees .lBrace = true := sees_iff.mpr ⟨l, _, ha₁, hl⟩
  refine Yields.congr (yields_node (p := fun s => p (type s)) .compositeLit (hb₁.trans hb₂) ha₂ fun range cs _ hn =>
    ?_) ?_
  · refine ⟨.composite range x (u :: us) y, ?_, by rw [Expr.traced, hx, hy]⟩
    rw [Expr.ofTree?, bodyAmong?_eq, typeAmong, typesAmong_eq, typeTokensAmong_eq, hn, typeTokensAmong]
    simp [htree, hbtree, LitBody.ofTree?_of_type htree, hleaves]
  · simp only [composite, hbrace, ite_true]
    rfl

theorem accepts_valueWith {q : Parser} (hp : Accepts (DrawsExpr breaks) (ReadsExpr view) exprStops p s)
    (hq : Accepts (DrawsBody breaks) (ReadsBody view) [] q s) :
    Accepts (DrawsValue breaks) (ReadsValue view) exprStops (valueWith p q) s := by
  intro ts rest v hv hs hrest
  cases hv with
  | expr he =>
    obtain ⟨u, us, rfl, hu, -⟩ := he.head
    obtain ⟨tree, hb, ha, x, htree, hx⟩ := hp he hs hrest
    have hbrace : s.sees .lBrace = false := by
      rw [sees_cons hs]
      simpa using hu
    refine Yields.congr (p := p) ⟨tree, hb, ha, .expr x, ?_, by rw [ElementValue.traced, hx]⟩ ?_
    · simp [ElementValue.ofTree?, LitBody.ofTree?_of_expr htree, htree]
    · simp [valueWith, hbrace]
  | body hbody =>
    obtain ⟨u, us, rfl, hu⟩ := hbody.head
    obtain ⟨tree, hb, ha, x, htree, hx⟩ := hq hbody hs (fun _ _ => List.not_mem_nil)
    have hbrace : s.sees .lBrace = true := sees_iff.mpr ⟨u, _, hs, hu⟩
    refine Yields.congr (p := q) ⟨tree, hb, ha, .body x, ?_, by rw [ElementValue.traced, hx]⟩ ?_
    · simp [ElementValue.ofTree?, htree]
    · simp [valueWith, hbrace]

theorem accepts_element (hv : Accepts (DrawsValue breaks) (ReadsValue view) exprStops p s.skipTrivia.opened)
    (hi : AcceptsBehind all (DrawsValue breaks) (ReadsValue view) exprStops p s) (hall : s.rest <:+ all) :
    Accepts (DrawsElement breaks) (ReadsElement view) elementStops (element p) s := by
  intro ts rest e he hs hrest
  have hopen := (ahead_opened s).trans hs
  cases he with
  | positional h =>
    obtain ⟨tree, hb, ha, x, htree, hx⟩ := hv h hopen (hrest.mono (by simp [exprStops, elementStops]))
    have hcolon : (p s.skipTrivia.opened).sees .colon = false := hrest.not_sees (by simp [elementStops]) ha
    refine Yields.congr (yields_node .element hb ha fun range cs _ hn => ?_) ?_
    · refine ⟨.positional range x, ?_, by rw [Element.traced, hx]⟩
      simp [Element.ofTree?, valuesAmong_eq, hn, htree]
    · simp only [element, hcolon, Bool.false_eq_true, ite_false]
      rfl
  | keyed hk hc hval =>
    rename_i ks key c vs value
    rw [List.append_assoc, List.cons_append] at hopen
    obtain ⟨tree, hb₁, ha₁, x, htree, hx⟩ := hv hk hopen (avoids_cons (by simp [hc, exprStops]) _)
    have ha₂ := ahead_bump_cons ha₁
    have hafter : s.ahead = (ks ++ [c]) ++ (p s.skipTrivia.opened).bump.ahead := by
      rw [ha₂, hs]
      simp
    obtain ⟨vtree, hb₃, ha₃, y, hvtree, hy⟩ :=
      hi (by simp) hafter (suffix_bump (hb₁.suffix (suffix_opened hall))) hval ha₂
      (hrest.mono (by simp [exprStops, elementStops]))
    have hcolon : (p s.skipTrivia.opened).sees .colon = true := sees_iff.mpr ⟨c, _, ha₁, hc⟩
    refine Yields.congr (yields_node (p := fun s => p (p s).bump) .keyedElement
      ((hb₁.trans (builds_bump ha₁)).trans hb₃) ha₃
      fun range cs _ hn => ?_) ?_
    · refine ⟨.keyed range x y, ?_, by rw [Element.traced, hx, hy]⟩
      simp [Element.ofTree?, valuesAmong_eq, hn, htree, hvtree]
    · simp only [element, hcolon, ite_true]
      rfl

/-- The loop over the elements ends at the closing brace, with the elements among the new nodes. -/
theorem builds_elements (n : Nat) : ∀ (s : State) (ts : List Token) (es : List Element) (r : Token)
      (rest : List Token),
    s.ahead.length ≤ n → s.rest <:+ all → Accepts (DrawsElement breaks) (ReadsElement view) elementStops p s →
    AcceptsBehind all (DrawsElement breaks) (ReadsElement view) elementStops p s → DrawsElements breaks ts es →
    s.ahead = ts ++ r :: rest → r.kind = .rBrace → ∃ toks nodes, Builds s (elements p n s) toks nodes ∧
      (elements p n s).ahead = r :: rest ∧ tracedElements view (nodes.filterMap Element.ofTree?) = es := by
  induction n with
  | zero =>
    intro s ts es r rest hn _ _ _ _ hs _
    rw [hs, List.length_append, List.length_cons] at hn
    omega
  | succ n ih =>
    intro s ts es r rest hn hall he hi hes hs hr
    rw [elements]
    have hgo {u : Token} {us : List Token} (h : s.ahead = u :: us) (hu : u.kind ≠ .rBrace) :
        (s.atEnd || s.sees .rBrace) = false := by
      simp [atEnd, peek_eq, sees, h, hu]
    cases hes with
    | none =>
      have hstop : (s.atEnd || s.sees .rBrace) = true := by simp [sees_cons hs, hr]
      rw [if_pos hstop]
      exact ⟨[], [], Builds.refl s, hs, by rw [List.filterMap_nil, tracedElements]⟩
    | last h =>
      obtain ⟨u, us, rfl, hu⟩ := h.head
      obtain ⟨tree, hb, ha, x, htree, hx⟩ := he h hs (avoids_cons (by simp [hr, elementStops]) _)
      have hcomma : (p s).sees .comma = false := by simp [sees_cons ha, hr]
      simp only [hgo hs hu, hcomma, Bool.false_eq_true, ite_false]
      exact ⟨_, _, hb, ha, by simp [tracedElements_eq, htree, hx]⟩
    | comma h hc hes =>
      rename_i ts e c us es
      have hs' : s.ahead = ts ++ c :: (us ++ r :: rest) := by rw [hs]; simp
      obtain ⟨tree, hb, ha, x, htree, hx⟩ := he h hs' (avoids_cons (by simp [hc, elementStops]) _)
      have hgo : (s.atEnd || s.sees .rBrace) = false := by
        obtain ⟨u, us, rfl, hu⟩ := h.head
        exact hgo hs hu
      have hcomma : (p s).sees .comma = true := sees_iff.mpr ⟨c, _, ha, hc⟩
      simp only [hgo, hcomma, Bool.false_eq_true, ite_false, ite_true]
      have ha' := ahead_bump_cons ha
      have hafter : s.ahead = (ts ++ [c]) ++ (p s).bump.ahead := by rw [hs', ha']; simp
      have hlt := length_lt_of_append (by simp) hafter
      have hall' := suffix_bump (hb.suffix hall)
      obtain ⟨toks, nodes, hb', ha'', hes'⟩ :=
        ih (p s).bump us es r rest (by omega) hall' (hi (by simp) hafter hall') (hi.after hafter) hes ha' hr
      refine ⟨_, _, (hb.trans (builds_bump ha)).trans hb', ha'', ?_⟩
      rw [tracedElements_eq] at hes' ⊢
      simp [htree, hx, hes']

/-- A token that is expected is the last one passed. -/
theorem rest_expect {k : TokenKind} {tok : Token} {ahead : List Token} (h : s.ahead = tok :: ahead)
    (hk : tok.kind = k) :
    ∃ gap, s.rest = gap ++ tok :: (s.expect k).rest := by
  have hs : s.sees k = true := sees_iff.mpr ⟨tok, ahead, h, hk⟩
  rw [expect, if_pos hs, rest_bump]
  rcases dropWhile_isTrivia s.rest with ⟨-, hnil⟩ | ⟨t, rest, hd, -, hsig⟩
  · exact absurd (h.symm.trans hnil) (List.cons_ne_nil _ _)
  · obtain rfl : tok = t := (List.cons.inj (h.symm.trans hsig)).1
    refine ⟨s.rest.takeWhile Token.isTrivia, ?_⟩
    rw [hd, List.drop_one, List.tail_cons, ← hd, List.takeWhile_append_dropWhile]

/-- The first token that is passed behind blanks. -/
theorem rest_skipTrivia {tok : Token} {ahead : List Token} (h : s.ahead = tok :: ahead) :
    s.skipTrivia.rest = tok :: s.bump.rest := by
  rw [skipTrivia_rest, rest_bump]
  rcases dropWhile_isTrivia s.rest with ⟨-, hnil⟩ | ⟨t, rest, hd, -, hsig⟩
  · exact absurd (h.symm.trans hnil) (List.cons_ne_nil _ _)
  · obtain rfl : tok = t := (List.cons.inj (h.symm.trans hsig)).1
    rw [hd]
    rfl

theorem accepts_litBodyWith (hshows : Shows view breaks all) (hall : s.rest <:+ all)
    (hi : AcceptsBehind all (DrawsValue breaks) (ReadsValue view) exprStops p s) :
    Accepts (DrawsBody breaks) (ReadsBody view) [] (litBodyWith p) s := by
  intro ts rest b hbody hs _
  replace hi := hi.opened
  have hopen := (ahead_opened s).trans hs
  cases hbody with
  | braces hl hes hr =>
    rename_i l ts es r
    have he : AcceptsBehind all (DrawsElement breaks) (ReadsElement view) elementStops (element p)
      s.skipTrivia.opened :=
      fun u us hus hu hsuffix => accepts_element (hi hus (by rw [hu, ahead_opened u]) (suffix_opened hsuffix))
        (hi.after hu) hsuffix
    have ha₁ : s.skipTrivia.opened.bump.ahead = ts ++ r :: rest := by
      rw [ahead_bump_cons hopen]
      simp
    have hafter : s.skipTrivia.opened.ahead = [l] ++ s.skipTrivia.opened.bump.ahead := by
      rw [hopen, ha₁]
      simp
    have hlen : s.skipTrivia.opened.bump.ahead.length ≤ s.skipTrivia.opened.rest.length :=
      (length_lt_of_append (by simp) hafter).le.trans (length_ahead_le _)
    have hall₁ := suffix_bump (suffix_opened hall)
    obtain ⟨toks, nodes, hb₂, ha₂, hread⟩ :=
      builds_elements _ _ ts es r rest hlen hall₁ (he (by simp) hafter hall₁) (he.after hafter) hes ha₁ hr
    obtain ⟨hb₃, ha₃⟩ := builds_expect ha₂ hr
    refine yields_node_over .litBody (((builds_bump hopen).trans hb₂).trans hb₃) ha₃ fun range cs hn hrest _ => ?_
    refine ⟨⟨range, multilineAmong cs, elementsAmong cs⟩, by simp [LitBody.ofTree?], ?_⟩
    -- the leaves below the body are the tokens from the one brace to the other
    have hleaves : ∃ mid, leavesOf cs = l :: (mid ++ [r]) := by
      have hfirst : s.skipTrivia.rest = l :: s.skipTrivia.opened.bump.rest := by
        have := rest_skipTrivia hopen
        rwa [skipTrivia_opened] at this
      obtain ⟨inside, -, -, hinside, -⟩ := hb₂
      obtain ⟨gap, hlast⟩ := rest_expect ha₂ hr
      rw [hfirst, hinside, hlast] at hrest
      refine ⟨leavesOf inside ++ gap, List.append_cancel_right (hrest.symm.trans ?_)⟩
      simp
    obtain ⟨mid, hleaves⟩ := hleaves
    have hflag : view (multilineAmong cs) = breaks l r := by
      obtain ⟨before, hbefore⟩ := suffix_opened hall
      change before ++ s.skipTrivia.rest = all at hbefore
      rw [hrest, hleaves, ← List.append_assoc] at hbefore
      rw [hshows before l mid r _ hbefore.symm, ← hleaves]
      rfl
    rw [LitBody.traced, hflag, elementsAmong_eq, hn]
    simp [hread]

theorem exprWith_of_kind {tok : Token} {ts : List Token} (p q : Parser) (h : s.ahead = tok :: ts) :
    exprWith p q s = match tok.kind with
      | .minus | .plus => s.nodeAtToken .unaryExpr fun s => p s.bump
      | .int | .float | .string | .rawString => s.tokenNode .literal
      | .lParen => s.nodeAtToken .parenExpr fun s => (p s.bump).expect .rParen
      | .ident | .lBracket | .mapKw => composite q s
      | _ =>
        let s := s.expected .expression
        if s.seesAny [.rBrace, .rParen, .rBracket, .comma] then s else s.tokenNode .error := by
  rw [exprWith, peek_eq, h]
  rcases hk : tok.kind <;> simp [hk]

theorem accepts_exprWith {q : Parser} (hall : s.rest <:+ all)
    (hi : AcceptsBehind all (DrawsExpr breaks) (ReadsExpr view) exprStops p s)
    (hb : AcceptsBehind all (DrawsBody breaks) (ReadsBody view) [] q s) :
    Accepts (DrawsExpr breaks) (ReadsExpr view) exprStops (exprWith p q) s := by
  intro ts rest e he hs hrest
  -- What starts like a type is a composite literal or the type alone.
  have hcomposite {u : Token} {us : List Token} (h : s.ahead = u :: us)
      (hu : u.kind = .ident ∨ u.kind = .lBracket ∨ u.kind = .mapKw) : exprWith p q s = composite q s := by
    rw [exprWith_of_kind p q h]
    rcases hu with hu | hu | hu <;> rw [hu]
  cases he with
  | signed hop he =>
    refine (yields_signed hi.opened hall he hs hrest).congr ?_
    rw [exprWith_of_kind p q hs]
    rcases hop with hop | hop <;> rw [hop]
  | literal ht =>
    refine (yields_literal hs).congr ?_
    rw [exprWith_of_kind p q hs]
    split <;> simp_all [TokenKind.isLiteral]
  | paren hl he hr => exact (yields_paren hi.opened hall he hs hr).congr (by rw [exprWith_of_kind p q hs, hl])
  | bare ht =>
    refine (yields_bare (p := q) ht hs hrest).congr ?_
    obtain ⟨u, us, rfl, hu⟩ := ht.head
    exact hcomposite hs hu
  | composite ht hbody =>
    refine (yields_composite hb.opened hall ht hbody hs).congr ?_
    obtain ⟨u, us, rfl, hu⟩ := ht.head
    exact hcomposite hs hu

theorem accepts_exprWithin (hshows : Shows view breaks all) (n : Nat) : ∀ s : State,
    s.ahead.length < n → s.rest <:+ all →
    Accepts (DrawsExpr breaks) (ReadsExpr view) exprStops (exprWithin n) s ∧
      Accepts (DrawsBody breaks) (ReadsBody view) [] (litBodyWithin n) s := by
  induction n with
  | zero => exact fun s h => absurd h (Nat.not_lt_zero _)
  | succ n ih =>
    intro s hn hall
    have hi {u : State} {us : List Token} (hus : us ≠ []) (hu : s.ahead = us ++ u.ahead) (hsuffix : u.rest <:+ all) :
        Accepts (DrawsExpr breaks) (ReadsExpr view) exprStops (exprWithin n) u ∧
          Accepts (DrawsBody breaks) (ReadsBody view) [] (litBodyWithin n) u := by
      have := length_lt_of_append hus hu
      exact ih u (by omega) hsuffix
    rw [exprWithin, litBodyWithin]
    exact ⟨accepts_exprWith hall (fun u us hus hu hsuffix => (hi hus hu hsuffix).1)
        fun u us hus hu hsuffix => (hi hus hu hsuffix).2,
      accepts_litBodyWith hshows hall fun u us hus hu hsuffix =>
        accepts_valueWith (hi hus hu hsuffix).1 (hi hus hu hsuffix).2⟩

theorem accepts_expr (hshows : Shows view breaks all) (s : State) (hall : s.rest <:+ all) :
    Accepts (DrawsExpr breaks) (ReadsExpr view) exprStops expr s :=
  (accepts_exprWithin hshows _ s (Nat.lt_succ_of_le s.length_ahead_le) hall).1

end

/-! ## Expressions that stand alone -/

/-- Nothing is left behind an expression that is accepted. -/
theorem exprAlone_quiet (hplain : Plain s.ahead) (h : (exprAlone s).errors = s.errors) : ∃ e, IsExpr s.ahead e := by
  rw [exprAlone, skipTrivia_errors] at h
  by_cases hend : (expr s).atEnd = true
  · simp only [hend, ite_true] at h
    obtain ⟨ts, e, hts, he⟩ := derives_expr hplain h
    rw [atEnd_iff.mp hend, List.append_nil] at hts
    exact ⟨e, hts ▸ he⟩
  · simp only [hend, Bool.false_eq_true, ite_false] at h
    have hcomplain : Retains (expr s) ((expr s).complain (.leftOver (expr s).peek)) := (Retains.refl _).complain _
    have hrecover : Retains ((expr s).complain (.leftOver (expr s).peek))
      ((expr s).recoverTo (.leftOver (expr s).peek) []) := by
      refine (Retains.refl _).nodeAtToken .error fun u => .ite (Retains.refl u) ?_
      rw [bumpWhile_eq]
      exact (Retains.refl u).bump.repeatWhile _ (fun v => (Retains.refl v).bump) _
    have hq := ((remembers_expr s).trans hcomplain).quiet hrecover h
    exact absurd ((remembers_expr s).quiet hcomplain hq.1).2 (complain_errors_ne _ _)

theorem yields_exprAlone_drawn {view : Bool → Bool} {breaks : Token → Token → Bool}
    (hshows : Shows view breaks s.rest)
    {e : Expr} (he : DrawsExpr breaks s.ahead e) : Yields (ReadsExpr view e) exprAlone s [] := by
  obtain ⟨tree, hb, ha, hread⟩ := accepts_expr hshows s List.suffix_rfl he (List.append_nil _).symm (avoids_nil _)
  have hend : (expr s).atEnd = true := atEnd_iff.mpr ha
  refine Yields.congr (p := fun s => (expr s).skipTrivia) ⟨tree, hb.trans (builds_skipTrivia _), ?_, hread⟩ ?_
  · rw [ahead_skipTrivia, ha]
  · simp only [exprAlone, hend, ite_true]

/-- The tree reads as the expression, whatever its line breaks. -/
theorem yields_exprAlone {e : Expr} (he : IsExpr s.ahead e) :
    Yields (fun tree => ∃ x, Expr.ofTree? tree = some x ∧ x.unplaced = e) exprAlone s [] := by
  obtain ⟨y, hy, rfl⟩ := exists_drawsExpr (fun _ _ => false) he
  obtain ⟨tree, hb, ha, x, htree, rfl⟩ := yields_exprAlone_drawn (shows_none s.rest) hy
  exact ⟨tree, hb, ha, x, htree, (Expr.unplaced_traced _ x).symm⟩

/-- A text is read as what its tokens derive, with as much of its line breaks as `view` shows. -/
theorem parseExpr_drawn {view : Bool → Bool} {breaks : Token → Token → Bool} {text : String} {e : Expr}
    (hshows : Shows view breaks (tokenize text)) (he : DrawsExpr breaks (significant (tokenize text)) e) :
    (parseExpr text).ok = true ∧ (parseExpr text).expr.traced view = e := by
  obtain ⟨tree, ⟨cs, hd, herrors, -, -, hn⟩, -, x, htree, hx⟩ :=
    yields_exprAlone_drawn (s := .ofTokens (tokenize text)) hshows he
  have hchildren : (parseExpr text).tree.children = cs := by
    show (exprAlone (.ofTokens (tokenize text))).done.reverse = cs
    rw [hd, State.ofTokens, List.append_nil, List.reverse_reverse]
  refine ⟨?_, ?_⟩
  · rw [Parse.ok, List.isEmpty_iff]
    exact List.reverse_eq_nil_iff.mpr herrors
  · rw [Parse.expr, hchildren, exprAmong, exprsAmong_eq, hn]
    simpa [htree] using hx

theorem errors_exprAlone_iff {text : String} : (parseExpr text).ok = true ↔
    (exprAlone (.ofTokens (tokenize text))).errors = [] := by
  rw [Parse.ok, List.isEmpty_iff]
  exact List.reverse_eq_nil_iff

/-- The tokens of an expression that is accepted derive one. -/
theorem exists_isExpr {text : String} (h : Plain (tokenize text)) (hok : (parseExpr text).ok = true) :
    ∃ e, IsExpr (significant (tokenize text)) e :=
  exprAlone_quiet (s := .ofTokens (tokenize text)) (fun t ht => h t (List.mem_filter.mp ht).1)
    (errors_exprAlone_iff.mp hok)

/-- A text without the keywords of struct, interface and function types parses as an expression without
a complaint exactly if the grammar derives its significant tokens, and then it is read as the expression of
the derivation. -/
theorem parseExpr_ok_iff (text : String) (h : Plain (tokenize text)) :
    ((parseExpr text).ok = true ↔ ∃ e, IsExpr (significant (tokenize text)) e) ∧
      ∀ e, IsExpr (significant (tokenize text)) e → (parseExpr text).expr.unplaced = e := by
  refine ⟨⟨exists_isExpr h, fun ⟨e, he⟩ => ?_⟩, fun e he => ?_⟩
  · obtain ⟨tree, hb, -, -⟩ := yields_exprAlone (s := .ofTokens (tokenize text)) he
    exact errors_exprAlone_iff.mpr hb.errors
  · obtain ⟨tree, ⟨cs, hd, -, -, -, hn⟩, -, x, htree, hx⟩ := yields_exprAlone (s := .ofTokens (tokenize text)) he
    have hchildren : (parseExpr text).tree.children = cs := by
      show (exprAlone (.ofTokens (tokenize text))).done.reverse = cs
      rw [hd, State.ofTokens, List.append_nil, List.reverse_reverse]
    rw [Parse.expr, hchildren, exprAmong, exprsAmong_eq, hn]
    simpa [htree] using hx

theorem parseExpr_ok_iff_sample : (parseExpr "[]T{-1}").ok = true ∧
    ∃ e, IsExpr (significant (tokenize "[]T{-1}")) e ∧ (parseExpr "[]T{-1}").expr.unplaced = e := by
  have hplain : Plain (tokenize "[]T{-1}") := by
    unfold Plain
    decide
  have he : ∃ e, IsExpr (significant (tokenize "[]T{-1}")) e := by
    have hvalue : IsValue [⟨.minus, "-", 4⟩, ⟨.int, "1", 5⟩] _ := .expr (.signed (.inr rfl) (.literal rfl))
    exact ⟨_, .composite (.slice rfl rfl (.lit (.name rfl))) (.braces rfl (.last (.positional hvalue)) rfl)⟩
  obtain ⟨hok, hread⟩ := parseExpr_ok_iff "[]T{-1}" hplain
  obtain ⟨e, he⟩ := he
  exact ⟨hok.mpr ⟨e, he⟩, e, he, hread e he⟩

end Grammar

end IdlWorkbench
