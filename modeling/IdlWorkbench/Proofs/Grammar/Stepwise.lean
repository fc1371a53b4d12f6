import IdlWorkbench.Proofs.Grammar.Phrase

/-!
# Relations that every rule keeps

A rule moves by few kinds of steps: it passes tokens, complains and makes nodes. `Stepwise ok R` says that
`R` holds across each of them, for nodes whose kinds are `ok`. A token of kind `error` is passed inside an
`error` node and behind a complaint, never otherwise: every rule looks at a token before it takes it. So each
rule of the grammar keeps such a relation, whatever it meets.
-/

namespace IdlWorkbench.Grammar

open Token

namespace State

inductive Skips (s : State) : State → Prop
  | refl : Skips s s
  | bump {t : State} : Skips s t → Skips s t.bump

theorem Skips.bumpWhile {s : State} (go : State → Bool) : ∀ (n : Nat) {t : State},
    Skips s t → Skips s (t.bumpWhile go n)
  | 0, _, h => h
  | n + 1, t, h => by
    rw [State.bumpWhile]
    split
    · exact h.bump.bumpWhile go n
    · exact h

theorem Skips.retains {s t : State} (h : Skips s t) : Retains s t := by
  induction h with
  | refl => exact .refl _
  | bump _ ih => exact ih.bump

theorem Skips.consumes {s t : State} (h : Skips s t) : Consumes s t := by
  induction h with
  | refl => exact .refl _
  | bump _ ih => exact ih.bump

/-- The next significant token, if there is one, belongs to the language. -/
def Fit (s : State) : Prop := s.sees .error = false

namespace Fit

variable {s t : State}

theorem of_ahead {tok : Token} {toks : List Token} (h : s.ahead = tok :: toks) (hk : tok.kind ≠ .error) : s.Fit := by
  rw [Fit, sees_cons h]
  exact beq_false_of_ne hk

theorem of_sees {k : TokenKind} (h : s.sees k = true) (hk : k ≠ .error) : s.Fit := by
  obtain ⟨tok, toks, hs, rfl⟩ := sees_iff.mp h
  exact of_ahead hs hk

theorem of_seesAny {ks : List TokenKind} (h : s.seesAny ks = true) (hk : .error ∉ ks) : s.Fit := by
  rw [seesAny, peek_eq] at h
  cases hs : s.ahead with
  | nil => simp [hs] at h
  | cons tok toks =>
    refine of_ahead hs fun he => hk ?_
    simpa [hs, he] using h

theorem of_peek {k : TokenKind} (h : s.peek.map Token.kind = some k) (hk : k ≠ .error) : s.Fit := by
  obtain ⟨tok, toks, hs, rfl⟩ := ahead_of_peek h
  exact of_ahead hs hk

theorem congr (h : s.Fit) (he : t.ahead = s.ahead) : t.Fit := by
  rw [Fit, sees, peek_eq] at h ⊢
  rwa [he]

end Fit

end State

open State

/-- A relation between the states before and after the steps that rules are made of. -/
structure Stepwise (ok : NodeKind → Prop) (R : State → State → Prop) : Prop where
  refl (s : State) : R s s
  trans {s t u : State} : R s t → R t u → R s u
  advance (n : Nat) (s : State) : (∀ t ∈ s.rest.take n, t.kind ≠ .error) → R s (s.advance n)
  complain (c : Complaint) (s : State) : R s (s.complain c)
  close {k : NodeKind} {s u : State} : ok k → R s.opened u → R s (close k s u)
  splice {s u : State} : R s.opened u → R s (splice s u)
  /-- Whatever does not fit the grammar is passed behind a complaint. -/
  recover (c : Complaint) {s u : State} : Skips (s.complain c).skipTrivia.opened u →
    R s (State.close .error (s.complain c).skipTrivia u)

theorem kind_ne_error_of_isTrivia {t : Token} (h : t.isTrivia = true) : t.kind ≠ .error := by
  intro he
  simp [Token.isTrivia, he, TokenKind.isTrivia, TokenKind.isComment] at h

theorem isTrivia_of_mem_take {s : State} {n : Nat} (hn : n ≤ s.trivia.length) {t : Token} (ht : t ∈ s.rest.take n) :
    t.isTrivia = true := by
  have hp : s.trivia <+: s.rest := List.takeWhile_prefix _
  have hle : (s.rest.take n).length ≤ s.trivia.length := Nat.le_trans (List.length_take_le n _) hn
  have hsub := (List.prefix_of_prefix_length_le (List.take_prefix n _) hp hle).subset
  exact List.mem_takeWhile_imp (hsub ht)

theorem ahead_advance {s : State} {n : Nat} (h : ∀ t ∈ s.rest.take n, t.isTrivia = true) :
    (s.advance n).ahead = s.ahead := by
  have hnil : significant (s.rest.take n) = [] := by
    rw [significant, List.filter_eq_nil_iff]
    intro t ht
    simp [h t ht]
  rw [ahead, ahead, advance_rest]
  conv_rhs => rw [← List.take_append_drop n s.rest, significant, List.filter_append]
  rw [← significant, hnil, List.nil_append]
  rfl

/-- There is no trailing comment, or it is passed with the blank before it. -/
theorem trailing_cases (s : State) : s.trailing = s ∨ ∃ gap, (∀ t ∈ s.rest.take gap, t.isTrivia = true) ∧
    (∀ t ∈ (s.advance gap).rest.take 1, t.isTrivia = true) ∧
    s.trailing = (s.advance gap).node .trailing (State.advance 1) := by
  unfold State.trailing
  extract_lets gap
  have hgap : ∀ t ∈ s.rest.take gap, t.isTrivia = true := by
    intro t ht
    simp only [gap] at ht
    split at ht
    · rename_i a rest hr
      split at ht
      · rename_i ha
        have : t = a := by simpa [hr] using ht
        simp [Token.isTrivia, TokenKind.isTrivia, this, ha.1]
      · simp at ht
    · simp at ht
  split
  · rename_i t ht
    split
    · rename_i hc
      simp only [Bool.and_eq_true] at hc
      refine Or.inr ⟨gap, hgap, fun t' ht' => ?_, rfl⟩
      have : t' = t := by
        rw [advance_rest] at ht'
        cases hd : s.rest.drop gap with
        | nil => simp [hd] at ht'
        | cons a rest =>
          have ha : s.rest[gap + 0]? = some a := by rw [← List.getElem?_drop, hd]; rfl
          rw [Nat.add_zero, ht] at ha
          cases ha
          simpa [hd] using ht'
      subst this
      simp [Token.isTrivia, TokenKind.isTrivia, show t'.kind.isComment = true from hc.1]
    · exact Or.inl rfl
  · exact Or.inl rfl

namespace Stepwise

variable {ok : NodeKind → Prop} {R : State → State → Prop} {s : State} {p q : Parser}

theorem ite {c : Prop} [Decidable c] {t u : State} (ht : c → R s t) (hu : ¬c → R s u) :
    R s (if c then t else u) := by
  split
  · exact ht ‹_›
  · exact hu ‹_›

section
variable (h : Stepwise ok R)
include h

/-! ## Steps -/

theorem passTrivia {n : Nat} (hn : ∀ t ∈ s.rest.take n, t.isTrivia = true) : R s (s.advance n) :=
  h.advance n s fun t ht => kind_ne_error_of_isTrivia (hn t ht)

theorem skipTrivia (s : State) : R s s.skipTrivia := h.passTrivia fun _ => isTrivia_of_mem_take (Nat.le_refl _)

theorem bump (hs : s.Fit) : R s s.bump := by
  refine h.trans (h.skipTrivia s) (h.advance 1 _ fun t ht => ?_)
  rw [skipTrivia_rest] at ht
  rcases dropWhile_isTrivia s.rest with ⟨hd, -⟩ | ⟨u, rest, hd, -, hsig⟩
  · simp [hd] at ht
  · have : t = u := by simpa [hd] using ht
    subst this
    intro he
    have hseen : s.sees .error = true := sees_iff.mpr ⟨t, _, hsig, he⟩
    exact absurd (hseen.symm.trans hs) (by decide)

theorem expected (what : Expected) (s : State) : R s (s.expected what) := h.complain _ s

theorem expect {k : TokenKind} (hk : k ≠ .error) (s : State) : R s (s.expect k) :=
  ite (fun hs => h.bump (.of_sees hs hk)) fun _ => h.expected _ s

theorem nodeAtToken {k : NodeKind} (hk : ok k) (hp : ∀ u : State, u.ahead = s.ahead → R u (p u)) :
    R s (s.nodeAtToken k p) :=
  h.trans (h.skipTrivia s) (h.close hk (hp _ (ahead_opened s)))

theorem tokenNode {k : NodeKind} (hk : ok k) (hs : s.Fit) : R s (s.tokenNode k) :=
  h.nodeAtToken hk fun _ hu => h.bump (hs.congr hu)

theorem repeatWhile {go : State → Bool} (hp : ∀ u, go u = true → R u (p u)) :
    ∀ (n : Nat) (s : State), R s (s.repeatWhile go p n)
  | 0, s => h.refl s
  | n + 1, s => by
    rw [State.repeatWhile]
    exact ite (fun hgo => h.trans (hp s hgo) (repeatWhile hp n _)) fun _ => h.refl s

/-- The doc and the blanks above an item are trivia, so its body starts before the same tokens. -/
theorem exists_item (hdoc : ok .doc) (s : State) : ∃ outer inner : State, R s outer ∧ R outer.opened inner ∧
    inner.ahead = s.ahead ∧ ∀ (k : NodeKind) (p : Parser), s.item k p = State.close k outer (p inner) := by
  cases hstart : s.docStart? with
  | some start =>
    have hlt := docStart?_lt hstart
    have habove : ∀ t ∈ s.rest.take start, t.isTrivia = true := fun t ht => isTrivia_of_mem_take (by omega) ht
    have hlines : ∀ t ∈ (s.rest.drop start).take (s.trivia.length - start - 1), t.isTrivia = true := by
      intro t ht
      rw [List.take_drop] at ht
      exact isTrivia_of_mem_take (by omega) (List.mem_of_mem_drop ht)
    rw [← advance_rest] at hlines
    refine ⟨s.advance start, _, h.passTrivia habove, h.close hdoc (h.passTrivia hlines), ?_,
      fun k p => by rw [State.item, hstart]; rfl⟩
    exact (ahead_advance (s := (s.advance start).opened.opened) hlines).trans (ahead_advance habove)
  | none =>
    exact ⟨s.skipTrivia, s.skipTrivia.opened, h.skipTrivia s, h.refl _, ahead_opened s,
      fun k p => by rw [State.item, hstart]; rfl⟩

theorem item {k : NodeKind} (hk : ok k) (hdoc : ok .doc) (hp : ∀ u : State, u.ahead = s.ahead → R u (p u)) :
    R s (s.item k p) := by
  obtain ⟨outer, inner, hout, hin, hahead, heq⟩ := h.exists_item hdoc s
  rw [heq]
  exact h.trans hout (h.close hk (h.trans hin (hp inner hahead)))

theorem trailing (hk : ok .trailing) (s : State) : R s s.trailing := by
  rcases trailing_cases s with heq | ⟨gap, hgap, hcomment, heq⟩
  · rw [heq]
    exact h.refl s
  · rw [heq]
    exact h.trans (h.passTrivia hgap) (h.close hk (h.passTrivia hcomment))

theorem recoverTo (c : Complaint) (stop : List TokenKind) (s : State) : R s (s.recoverTo c stop) := by
  apply h.recover
  exact ite (fun _ => .refl) fun _ => Skips.refl.bump.bumpWhile _ _

theorem recoverLine (what : Expected) (closer : TokenKind) (s : State) : R s (s.recoverLine what closer) := by
  apply h.recover
  exact ite (fun _ => .refl) fun _ => ite (fun _ => Skips.refl.bump) fun _ => Skips.refl.bump.bumpWhile _ _

theorem endLine (hk : ok .trailing) (closer : TokenKind) (s : State) : R s (s.endLine closer) := by
  have hsemi : R s (if !s.newlineBefore && s.sees .semicolon then s.bump else s) :=
    ite (fun hs => h.bump (.of_sees (Bool.and_eq_true_iff.mp hs).2 (by decide))) fun _ => h.refl s
  have htrail := h.trans hsemi (h.trailing hk _)
  exact ite (fun _ => h.trans htrail (h.trans (h.recoverLine _ _ _) (h.trailing hk _))) fun _ => htrail

end

end Stepwise

def phraseKinds : List NodeKind :=
  [.doc, .trailing, .name, .nameRef, .selector, .sliceType, .mapType, .pointerType, .chanType, .funcType,
    .paramList, .resultList, .structType, .interfaceType, .fieldList, .field, .fieldTag, .method, .literal,
    .parenExpr, .unaryExpr, .compositeLit, .litBody, .keyedElement, .element]

theorem ok_of_phrase {ok : NodeKind → Prop} (h : ∀ k, k ≠ .error → ok k) : ∀ k ∈ phraseKinds, ok k := by
  intro k hk
  apply h k
  rintro rfl
  exact absurd hk (by decide)

namespace Stepwise

section
variable {ok : NodeKind → Prop} {R : State → State → Prop} {s : State} {p q : Parser}
variable (h : Stepwise ok R) (hok : ∀ k ∈ phraseKinds, ok k)
include h hok

/-! ## Types -/

theorem name (s : State) : R s (name s) :=
  ite (fun hs => h.tokenNode (hok _ (by decide)) (.of_sees hs (by decide))) fun _ => h.expected _ s

theorem typeName (hs : s.Fit) : R s (typeName s) := by
  refine ite (fun hdot => ?_) fun _ => h.tokenNode (hok _ (by decide)) hs
  refine h.nodeAtToken (hok _ (by decide)) fun u hu => ?_
  have hsecond : u.bump.seesAny [.dot] = true := by
    rw [seesAny, peek_eq, ahead_bump, hu, ← secondIs_eq]
    exact hdot
  exact h.trans (h.bump (hs.congr hu)) (h.trans (h.bump (.of_seesAny hsecond (by decide))) (h.expect (by decide) _))

theorem typeList (hp : ∀ u, R u (p u)) : ∀ (n : Nat) (s : State), R s (typeList p n s)
  | 0, s => h.refl s
  | n + 1, s => by
    have hround (b : Bool) : R s (p (if b then Grammar.name s else s)) :=
      h.trans (ite (fun _ => h.name hok s) fun _ => h.refl s) (hp _)
    rw [Grammar.typeList]
    refine ite (fun _ => ?_) fun _ => h.refl s
    refine ite (fun hcomma => ?_) fun _ => hround _
    exact h.trans (hround _) (h.trans (h.bump (.of_sees hcomma (by decide))) (typeList hp n _))

theorem typesInParens (hp : ∀ u, R u (p u)) (hs : s.Fit) : R s (typesInParens p s) :=
  h.trans (h.bump hs) (h.trans (h.typeList hok hp _ _) (h.expect (by decide) _))

theorem signature (hp : ∀ u, R u (p u)) (s : State) : R s (signature p s) := by
  have hparens (u : State) (hu : u.sees .lParen = true) : R u (Grammar.typesInParens p u) :=
    h.typesInParens hok hp (.of_sees hu (by decide))
  have hparams : R s (s.nodeAtToken .paramList fun s =>
      if s.sees .lParen then Grammar.typesInParens p s else s.expected (.token .lParen)) :=
    h.nodeAtToken (hok _ (by decide)) fun u _ => ite (hparens u) fun _ => h.expected _ u
  refine ite (fun _ => hparams) fun _ => h.trans hparams (h.nodeAtToken (hok _ (by decide)) fun u _ => ?_)
  exact ite (hparens u) fun _ => hp u

theorem members (hp : ∀ u, R u (p u)) (s : State) : R s (members p s) := by
  refine ite (fun hs => ?_) fun _ => h.expected _ s
  refine h.nodeAtToken (hok _ (by decide)) fun u hu => ?_
  have hfit : u.Fit := (Fit.of_sees hs (by decide)).congr hu
  exact h.trans (h.bump hfit) (h.trans (h.repeatWhile (fun v _ => hp v) _ _) (h.expect (by decide) _))

theorem fieldNames (s : State) : R s (fieldNames s) :=
  h.trans (h.name hok s)
    (h.repeatWhile (fun u hu => h.trans (h.bump (.of_sees hu (by decide))) (h.name hok _)) _ _)

theorem field (hp : ∀ u, R u (p u)) (s : State) : R s (field p s) := by
  refine ite (fun _ => ?_) fun _ => h.recoverLine _ _ s
  refine h.item (hok _ (by decide)) (hok _ (by decide)) fun u _ => ?_
  have htype (b : Bool) : R u (p (if b then u else Grammar.fieldNames u)) :=
    h.trans (ite (fun _ => h.refl u) fun _ => h.fieldNames hok u) (hp _)
  refine h.trans ?_ (h.endLine (hok _ (by decide)) _ _)
  refine ite (fun htag => ?_) fun _ => htype _
  exact h.trans (htype _)
    (h.tokenNode (hok _ (by decide)) (.of_seesAny (Bool.and_eq_true_iff.mp htag).2 (by decide)))

theorem method (hp : ∀ u, R u (p u)) (s : State) : R s (method p s) := by
  refine ite (fun _ => ?_) fun _ => h.recoverLine _ _ s
  refine h.item (hok _ (by decide)) (hok _ (by decide)) fun u _ => ?_
  exact h.trans (h.name hok u) (h.trans (h.signature hok hp _) (h.endLine (hok _ (by decide)) _ _))

/-- A node that starts with a keyword or an opening token. -/
theorem nodeBehind {k : NodeKind} (hk : k ∈ phraseKinds) (hs : s.Fit) (hp : ∀ u, R u (p u)) :
    R s (s.nodeAtToken k fun s => p s.bump) :=
  h.nodeAtToken (hok k hk) fun _ hu => h.trans (h.bump (hs.congr hu)) (hp _)

theorem typeWith (hp : ∀ u, R u (p u)) (s : State) : R s (typeWith p s) := by
  have hexpect {k : TokenKind} (hk : k ≠ .error) (u : State) : R u (p (u.expect k)) := h.trans (h.expect hk u) (hp _)
  rw [Grammar.typeWith]
  split
  · rename_i hs
    exact h.typeName hok (.of_peek hs (by decide))
  · rename_i hs
    exact h.nodeBehind hok (by decide) (.of_peek hs (by decide)) (hexpect (by decide))
  · rename_i hs
    exact h.nodeBehind hok (p := fun u => p ((p (u.expect .lBracket)).expect .rBracket)) (by decide)
      (.of_peek hs (by decide)) fun u => h.trans (hexpect (by decide) u) (hexpect (by decide) _)
  · rename_i hs
    exact h.nodeBehind hok (by decide) (.of_peek hs (by decide)) hp
  · rename_i hs
    exact h.nodeBehind hok (by decide) (.of_peek hs (by decide)) hp
  · rename_i hs
    exact h.nodeBehind hok (by decide) (.of_peek hs (by decide)) (h.signature hok hp)
  · rename_i hs
    exact h.nodeBehind hok (by decide) (.of_peek hs (by decide)) (h.members hok (h.field hok hp))
  · rename_i hs
    exact h.nodeBehind hok (by decide) (.of_peek hs (by decide)) (h.members hok (h.method hok hp))
  · exact h.expected _ s

theorem typeWithin (n : Nat) : ∀ s : State, R s (typeWithin n s) := by
  induction n with
  | zero => exact h.refl
  | succ n ih => exact h.typeWith hok ih

theorem type (s : State) : R s (type s) := h.typeWithin hok _ s

/-! ## Expressions -/

omit hok in
theorem elements (hp : ∀ u, R u (p u)) : ∀ (n : Nat) (s : State), R s (elements p n s)
  | 0, s => h.refl s
  | n + 1, s => by
    rw [Grammar.elements]
    refine ite (fun _ => h.refl s) fun _ => ite (fun hcomma => ?_) fun _ => hp s
    exact h.trans (hp s) (h.trans (h.bump (.of_sees hcomma (by decide))) (elements hp n _))

theorem element (hp : ∀ u, R u (p u)) (s : State) : R s (element p s) := by
  refine h.trans (h.skipTrivia s) ?_
  refine ite (fun hcolon => ?_) fun _ => h.close (hok _ (by decide)) (hp _)
  refine h.close (hok _ (by decide)) (h.trans (hp _) (h.trans (h.bump (.of_sees hcolon (by decide))) (hp _)))

theorem litBodyWith (hp : ∀ u, R u (p u)) (hs : s.sees .lBrace = true) : R s (litBodyWith p s) := by
  refine h.nodeAtToken (hok _ (by decide)) fun u hu => ?_
  have hfit : u.Fit := (Fit.of_sees hs (by decide)).congr hu
  exact h.trans (h.bump hfit) (h.trans (h.elements (h.element hok hp) _ _) (h.expect (by decide) _))

theorem composite (hq : ∀ u : State, u.sees .lBrace = true → R u (q u)) (s : State) : R s (composite q s) := by
  refine h.trans (h.skipTrivia s) ?_
  refine ite (fun hbrace => ?_) fun _ => h.splice (h.type hok _)
  exact h.close (hok _ (by decide)) (h.trans (h.type hok _) (hq _ hbrace))

theorem exprWith (hp : ∀ u, R u (p u)) (hq : ∀ u : State, u.sees .lBrace = true → R u (q u)) (s : State) :
    R s (exprWith p q s) := by
  rw [Grammar.exprWith]
  split
  · rename_i hs
    exact h.nodeBehind hok (by decide) (.of_peek hs (by decide)) hp
  · rename_i hs
    exact h.nodeBehind hok (by decide) (.of_peek hs (by decide)) hp
  · rename_i hs
    exact h.tokenNode (hok _ (by decide)) (.of_peek hs (by decide))
  · rename_i hs
    exact h.tokenNode (hok _ (by decide)) (.of_peek hs (by decide))
  · rename_i hs
    exact h.tokenNode (hok _ (by decide)) (.of_peek hs (by decide))
  · rename_i hs
    exact h.tokenNode (hok _ (by decide)) (.of_peek hs (by decide))
  · rename_i hs
    exact h.nodeBehind hok (p := fun u => (p u).expect .rParen) (by decide) (.of_peek hs (by decide)) fun u =>
      h.trans (hp u) (h.expect (by decide) _)
  · exact h.composite hok hq s
  · exact h.composite hok hq s
  · exact h.composite hok hq s
  · exact h.expected _ s
  · refine ite (fun _ => h.expected _ s) fun _ => ?_
    exact h.recover (.expected .expression s.peek) Skips.refl.bump

omit h hok in
theorem valueWith (hp : ∀ u, R u (p u)) (hq : ∀ u : State, u.sees .lBrace = true → R u (q u)) (s : State) :
    R s (valueWith p q s) := ite (hq s) fun _ => hp s

theorem exprWithin_litBodyWithin (n : Nat) : (∀ s : State, R s (exprWithin n s)) ∧
    ∀ s : State, s.sees .lBrace = true → R s (litBodyWithin n s) := by
  induction n with
  | zero =>
    rw [exprWithin, litBodyWithin]
    exact ⟨h.refl, fun s _ => h.refl s⟩
  | succ n ih =>
    rw [exprWithin, litBodyWithin]
    exact ⟨h.exprWith hok ih.1 ih.2, fun _ => h.litBodyWith hok (valueWith ih.1 ih.2)⟩

theorem expr (s : State) : R s (expr s) := (h.exprWithin_litBodyWithin hok _).1 s

/-! ## Declarations -/

theorem grouped {spec : Bool → Parser} (hs : ∀ b u, R u (spec b u)) (s : State) : R s (grouped spec s) := by
  refine h.trans ?_ (h.endLine (hok _ (by decide)) _ _)
  refine ite (fun hopen => ?_) fun _ => hs false s
  exact h.trans (h.bump (.of_sees hopen (by decide)))
    (h.trans (h.repeatWhile (fun u _ => hs true u) _ _) (h.expect (by decide) _))

theorem specNode {k : NodeKind} (hk : ok k) (group : Bool) (hp : ∀ u, R u (p u)) (s : State) :
    R s (specNode k group p s) :=
  ite
    (fun _ => h.item hk (hok _ (by decide)) fun u _ => h.trans (hp u) (h.endLine (hok _ (by decide)) _ _))
    fun _ => h.nodeAtToken hk fun u _ => hp u

/-- A path with perhaps a name before it. -/
theorem importBody (s : State) : R s (
    let s := if s.seesAny [.ident, .dot] then s.tokenNode .name else s
    if s.seesAny [.string, .rawString] then s.tokenNode .literal else s.expected .importPath) := by
  have hname : R s (if s.seesAny [.ident, .dot] then s.tokenNode .name else s) :=
    ite (fun hs => h.tokenNode (hok _ (by decide)) (.of_seesAny hs (by decide))) fun _ => h.refl s
  refine ite (fun hpath => ?_) fun _ => h.trans hname (h.expected _ _)
  exact h.trans hname (h.tokenNode (hok _ (by decide)) (.of_seesAny hpath (by decide)))

theorem importSpec (hk : ok .importSpec) (group : Bool) (s : State) : R s (importSpec group s) :=
  ite (fun _ => h.specNode hok hk group (h.importBody hok) s) fun _ => h.recoverLine _ _ s

theorem typeSpec (hk : ok .typeSpec) (group : Bool) (s : State) : R s (typeSpec group s) :=
  ite (fun _ => h.specNode hok hk group (fun u => h.trans (h.name hok u) (h.type hok _)) s)
    fun _ => h.recoverLine _ _ s

theorem constSpec (hk : ok .constSpec) (group : Bool) (s : State) : R s (constSpec group s) := by
  refine ite (fun _ => h.specNode hok hk group (fun u => ?_) s) fun _ => h.recoverLine _ _ s
  have htype (b : Bool) : R u (if b then Grammar.type (Grammar.name u) else Grammar.name u) :=
    ite (fun _ => h.trans (h.name hok u) (h.type hok _)) fun _ => h.name hok u
  refine ite (fun heq => ?_) fun _ => htype _
  exact h.trans (htype _) (h.trans (h.bump (.of_sees heq (by decide))) (h.expr hok _))

/-- A keyword and the specs behind it, with its doc. -/
theorem decl {k : NodeKind} (hk : ok k) {spec : Bool → Parser} (hspec : ∀ b u, R u (spec b u)) (hs : s.Fit) :
    R s (s.item k fun s => Grammar.grouped spec s.bump) :=
  h.item hk (hok _ (by decide)) fun _ hu => h.trans (h.bump (hs.congr hu)) (h.grouped hok hspec _)

theorem packageClause (hk : ok .packageClause) (s : State) : R s (packageClause s) := by
  refine ite (fun hs => ?_) fun _ => h.expected _ s
  refine h.item hk (hok _ (by decide)) fun u hu => ?_
  have hfit : u.Fit := (Fit.of_sees hs (by decide)).congr hu
  exact h.trans (h.bump hfit) (h.trans (h.name hok _) (h.endLine (hok _ (by decide)) _ _))

end

/-! ## Whole texts -/

section
variable {ok : NodeKind → Prop} {R : State → State → Prop}
variable (h : Stepwise ok R) (hall : ∀ k, k ≠ .error → ok k)
include h hall

theorem importDecl {s : State} (hs : s.sees .importKw = true) : R s (importDecl s) := by
  have hok := ok_of_phrase hall
  exact h.decl hok (hall _ (by decide)) (h.importSpec hok (hall _ (by decide))) (.of_sees hs (by decide))

theorem declaration (s : State) : R s (declaration s) := by
  have hok := ok_of_phrase hall
  rw [Grammar.declaration]
  split
  · rename_i hs
    exact h.decl hok (hall _ (by decide)) (h.typeSpec hok (hall _ (by decide))) (.of_peek hs (by decide))
  · rename_i hs
    exact h.decl hok (hall _ (by decide)) (h.constSpec hok (hall _ (by decide))) (.of_peek hs (by decide))
  · rename_i hs
    refine h.trans (h.complain _ s) (h.importDecl hall ?_)
    obtain ⟨t, ts, ht, hk⟩ := ahead_of_peek hs
    exact sees_iff.mpr ⟨t, ts, ht, hk⟩
  · exact h.recoverTo _ _ s

theorem sourceFile (s : State) : R s (sourceFile s) := by
  have hok := ok_of_phrase hall
  refine h.trans (h.packageClause hok (hall _ (by decide)) s) (h.trans ?_ (h.skipTrivia _))
  exact h.trans (h.repeatWhile (fun _ => h.importDecl hall) _ _)
    (h.repeatWhile (fun u _ => h.declaration hall u) _ _)

theorem exprAlone (s : State) : R s (exprAlone s) := by
  have hok := ok_of_phrase hall
  refine h.trans (h.expr hok s) (h.trans ?_ (h.skipTrivia _))
  exact ite (fun _ => h.refl _) fun _ => h.recoverTo _ _ _

end

end Stepwise

end IdlWorkbench.Grammar
