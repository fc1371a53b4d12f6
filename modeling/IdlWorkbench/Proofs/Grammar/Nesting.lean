import IdlWorkbench.Proofs.Grammar.Rounds
import Mathlib.Logic.Relation

/-!
# Nested rules make progress

The rules inside types and expressions call each other. `body` writes each of them over parsers for the rules
that it calls. What a rule answers hangs only on calls that come `Within` its own: fewer tokens are left, or as
many and the rule called ranks lower. So a rule that comes to call itself has consumed a token in between, and
the rules of the grammar are the solution of their own equations: the depth in `type` and `expr` is never met.
-/

namespace IdlWorkbench.Grammar

open State Token

/-- The rules that can come to call themselves. -/
inductive Rule where
  | type
  | types
  | signature
  | fields
  | methods
  | field
  | method
  | expr
  | composite
  | litBody
  | element
  | value
deriving DecidableEq

/-- A rule calls rules of its own rank or above only behind a token. -/
def Rule.rank : Rule → Nat
  | type | litBody => 0
  | types | fields | methods | field | composite => 1
  | signature | expr => 2
  | method | value => 3
  | element => 4

def Within (call within : Rule × State) : Prop :=
  call.2.rest.length < within.2.rest.length ∨
    call.2.rest.length ≤ within.2.rest.length ∧ call.1.rank < within.1.rank

def compositeWith (type litBody : Parser) (s : State) : State :=
  let outer := s.skipTrivia
  let inner := type outer.opened
  if inner.sees .lBrace then close .compositeLit outer (litBody inner) else splice outer inner

/-- The rules, written over parsers for the rules that they call. -/
def body (call : Rule → Parser) : Rule → Parser
  | .type => fun s =>
    match s.peek.map Token.kind with
    | some .ident => typeName s
    | some .lBracket => s.nodeAtToken .sliceType fun s => call .type (s.bump.expect .rBracket)
    | some .mapKw =>
      s.nodeAtToken .mapType fun s => call .type ((call .type (s.bump.expect .lBracket)).expect .rBracket)
    | some .star => s.nodeAtToken .pointerType fun s => call .type s.bump
    | some .chanKw => s.nodeAtToken .chanType fun s => call .type s.bump
    | some .funcKw => s.nodeAtToken .funcType fun s => call .signature s.bump
    | some .structKw => s.nodeAtToken .structType fun s => call .fields s.bump
    | some .interfaceKw => s.nodeAtToken .interfaceType fun s => call .methods s.bump
    | _ => s.expected .type
  | .types => typesInParens (call .type)
  | .signature => fun s =>
    let s := s.nodeAtToken .paramList fun s =>
      if s.sees .lParen then call .types s else s.expected (.token .lParen)
    if s.newlineBefore || !(s.sees .lParen || s.seesAny typeStarts) then s
    else s.nodeAtToken .resultList fun s => if s.sees .lParen then call .types s else call .type s
  | .fields => members (call .field)
  | .methods => members (call .method)
  | .field => field (call .type)
  | .method => fun s =>
    if s.sees .ident then s.item .method fun s => (call .signature (name s)).endLine .rBrace
    else s.recoverLine .methodName .rBrace
  | .expr => fun s =>
    match s.peek.map Token.kind with
    | some .minus | some .plus => s.nodeAtToken .unaryExpr fun s => call .expr s.bump
    | some .int | some .float | some .string | some .rawString => s.tokenNode .literal
    | some .lParen => s.nodeAtToken .parenExpr fun s => (call .expr s.bump).expect .rParen
    | some .ident | some .lBracket | some .mapKw => call .composite s
    | none => s.expected .expression
    | some _ =>
      let s := s.expected .expression
      if s.seesAny [.rBrace, .rParen, .rBracket, .comma] then s else s.tokenNode .error
  | .composite => compositeWith (call .type) (call .litBody)
  | .litBody => fun s =>
    s.nodeAtToken .litBody fun s => (elements (call .element) s.rest.length s.bump).expect .rBrace
  | .element => element (call .value)
  | .value => valueWith (call .expr) (call .litBody)

def rulesOver (type expr litBody : Parser) : Rule → Parser
  | .type => type
  | .types => typesInParens type
  | .signature => signature type
  | .fields => members (field type)
  | .methods => members (method type)
  | .field => field type
  | .method => method type
  | .expr => expr
  | .composite => compositeWith type litBody
  | .litBody => litBody
  | .element => element (valueWith expr litBody)
  | .value => valueWith expr litBody

def litBody (s : State) : State := litBodyWithin (s.rest.length + 1) s

def rules : Rule → Parser := rulesOver type expr litBody

section
variable {t e b : Parser}

theorem rulesOver_conserve (ht : Conserves t) (he : Conserves e) (hb : Conserves b) (r : Rule) :
    Conserves (rulesOver t e b r) := by
  have hvalue := valueWith_conserves he hb
  cases r with
  | type => exact ht
  | types => exact typesInParens_conserves ht
  | signature => exact signature_conserves ht
  | fields => exact members_conserves (field_conserves ht)
  | methods => exact members_conserves (method_conserves ht)
  | field => exact field_conserves ht
  | method => exact method_conserves ht
  | expr => exact he
  | composite =>
    intro s
    have h := (Consumes.refl s).skipTrivia
    exact .ite (h.close _ (hb.after (ht _))) (h.splice (ht _))
  | litBody => exact hb
  | element => exact element_conserves hvalue
  | value => exact hvalue

end

theorem litBody_conserves : Conserves litBody := fun s => litBodyWithin_conserves _ s

theorem rules_conserve : ∀ r, Conserves (rules r) :=
  rulesOver_conserve type_conserves expr_conserves litBody_conserves

/-! ## Rules see only what their calls answer -/

def AgreeBelow (n : Nat) (p q : Parser) : Prop := ∀ t : State, t.rest.length < n → p t = q t

variable {s : State} {p q : Parser} {n : Nat}

theorem nodeAtToken_congr (k : NodeKind) (h : p s.skipTrivia.opened = q s.skipTrivia.opened) :
    s.nodeAtToken k p = s.nodeAtToken k q := congrArg (close k s.skipTrivia) h

theorem opened_le (s : State) : s.skipTrivia.opened.rest.length ≤ s.rest.length :=
  (Consumes.refl s).skipTrivia.length_le

theorem opened_bump_lt (h : s.ahead ≠ []) : s.skipTrivia.opened.bump.rest.length < s.rest.length :=
  Nat.lt_of_lt_of_le (bump_lt (rest_ne_nil_of_ahead (by rwa [ahead_opened]))) (opened_le s)

theorem nodeBehind_congr (k : NodeKind) {kind : TokenKind} (hs : s.peek.map Token.kind = some kind)
    (h : AgreeBelow s.rest.length p q) : (s.nodeAtToken k fun s => p s.bump) =
      s.nodeAtToken k fun s => q s.bump := by
  obtain ⟨t, ts, ht, -⟩ := ahead_of_peek hs
  exact nodeAtToken_congr k (h _ (opened_bump_lt (by simp [ht])))

theorem item_congr (k : NodeKind) (h : ∀ u : State, u.rest.length ≤ s.rest.length → p u = q u) :
    s.item k p = s.item k q := by
  obtain ⟨outer, u, hout, hin, -, hitem⟩ := shrinks_stepwise.exists_item trivial s
  rw [hitem, hitem, h u (Nat.le_trans hin hout)]

theorem repeatWhile_congr (go : State → Bool) (hp : Conserves p) (h : AgreeBelow n p q) :
    ∀ (m : Nat) (s : State), s.rest.length < n → s.repeatWhile go p m = s.repeatWhile go q m
  | 0, _, _ => rfl
  | m + 1, s, hs => by
    rw [State.repeatWhile, State.repeatWhile, ← h s hs, repeatWhile_congr go hp h m]
    exact Nat.lt_of_le_of_lt (hp s).length_le hs

theorem typeList_congr (hp : Conserves p) (h : AgreeBelow n p q) :
    ∀ (m : Nat) (s : State), s.rest.length < n → typeList p m s = typeList q m s
  | 0, _, _ => rfl
  | m + 1, s, hs => by
    have hname (b : Bool) : (if b then name s else s).rest.length < n := by
      have hle := (Consumes.ite (c := b = true) (name_conserves s) (Consumes.refl s)).length_le
      omega
    rw [typeList, typeList]
    simp only [← h _ (hname _)]
    rw [typeList_congr hp h m]
    have hle := (hp.after (.ite (c := (s.sees .ident && !s.secondIs [.dot, .comma, .rParen]) = true)
      (name_conserves s) (Consumes.refl s))).bump.length_le
    omega

theorem typesInParens_congr (hp : Conserves p) (h : AgreeBelow s.rest.length p q) :
    typesInParens p s = typesInParens q s := by
  rw [typesInParens, typesInParens]
  by_cases hs : s.rest = []
  · simp only [hs, List.length_nil, typeList]
  · rw [typeList_congr hp h _ _ (bump_lt hs)]

theorem members_congr (hp : Conserves p) (h : AgreeBelow s.rest.length p q) : members p s = members q s := by
  rw [members, members]
  split
  · rename_i hbrace
    refine nodeAtToken_congr _ ?_
    rw [repeatWhile_congr _ hp h _ _ (opened_bump_lt (ahead_ne_nil_of_sees hbrace))]
  · rfl

theorem field_congr (h : AgreeBelow (s.rest.length + 1) p q) : field p s = field q s := by
  rw [field, field]
  split
  · refine item_congr _ fun u hu => ?_
    have htype (b : Bool) : p (if b then u else fieldNames u) = q (if b then u else fieldNames u) := by
      have hle := (Consumes.ite (c := b = true) (Consumes.refl u) (fieldNames_conserves u)).length_le
      exact h _ (by omega)
    simp only [htype]
  · rfl

theorem elements_congr (hp : Conserves p) (h : AgreeBelow n p q) :
    ∀ (m : Nat) (s : State), s.rest.length < n → elements p m s = elements q m s
  | 0, _, _ => rfl
  | m + 1, s, hs => by
    have hle := (hp s).bump.length_le
    rw [elements, elements]
    simp only [← h s hs]
    rw [elements_congr hp h m _ (by omega)]

theorem element_congr (hp : Conserves p) (h : AgreeBelow (s.rest.length + 1) p q) : element p s = element q s := by
  have hopened := opened_le s
  have hle := (hp s.skipTrivia.opened).bump.length_le
  rw [element, element]
  simp only [← h s.skipTrivia.opened (by omega)]
  rw [h (p s.skipTrivia.opened).bump (by omega)]

section
variable {call call' : Rule → Parser}

theorem body_type_congr (hc : Conserves (call .type))
    (h : ∀ r, AgreeBelow s.rest.length (call r) (call' r)) : body call .type s = body call' .type s := by
  have hexpect (kind : TokenKind) :
      AgreeBelow s.rest.length (fun u => call .type (u.expect kind)) fun u => call' .type (u.expect kind) :=
    fun u hu => h .type _ (Nat.lt_of_le_of_lt ((Consumes.refl u).expect kind).length_le hu)
  simp only [body]
  split
  · rfl
  · exact nodeBehind_congr _ ‹_› (hexpect _)
  · refine nodeBehind_congr (p := fun u => call .type ((call .type (u.expect .lBracket)).expect .rBracket))
      (q := fun u => call' .type ((call' .type (u.expect .lBracket)).expect .rBracket)) _ ‹_› fun u hu => ?_
    have hkey : call .type (u.expect .lBracket) = call' .type (u.expect .lBracket) := hexpect .lBracket u hu
    have hlt : (call .type (u.expect .lBracket)).rest.length < s.rest.length :=
      Nat.lt_of_le_of_lt (hc.after ((Consumes.refl u).expect .lBracket)).length_le hu
    calc call .type ((call .type (u.expect .lBracket)).expect .rBracket)
        = call' .type ((call .type (u.expect .lBracket)).expect .rBracket) := hexpect .rBracket _ hlt
      _ = call' .type ((call' .type (u.expect .lBracket)).expect .rBracket) := by rw [hkey]
  · exact nodeBehind_congr _ ‹_› (h .type)
  · exact nodeBehind_congr _ ‹_› (h .type)
  · exact nodeBehind_congr _ ‹_› (h .signature)
  · exact nodeBehind_congr _ ‹_› (h .fields)
  · exact nodeBehind_congr _ ‹_› (h .methods)
  · rfl

theorem body_signature_congr (hc : Conserves (call .types))
    (htypes : AgreeBelow (s.rest.length + 1) (call .types) (call' .types))
    (htype : AgreeBelow (s.rest.length + 1) (call .type) (call' .type)) :
    body call .signature s = body call' .signature s := by
  have hparams : (s.nodeAtToken .paramList fun s =>
        if s.sees .lParen then call .types s else s.expected (.token .lParen)) =
      s.nodeAtToken .paramList fun s =>
        if s.sees .lParen then call' .types s else s.expected (.token .lParen) := by
    refine nodeAtToken_congr _ ?_
    rw [htypes _ (Nat.lt_succ_of_le (opened_le s))]
  have hle : (s.nodeAtToken .paramList fun s =>
      if s.sees .lParen then call .types s else s.expected (.token .lParen)).rest.length ≤ s.rest.length :=
    ((Consumes.refl s).nodeAtToken _ fun u => .ite (hc u) ((Consumes.refl u).expected _)).length_le
  simp only [body, ← hparams]
  split
  · rfl
  · refine nodeAtToken_congr _ ?_
    have hopened := opened_le (s.nodeAtToken .paramList fun s =>
      if s.sees .lParen then call .types s else s.expected (.token .lParen))
    rw [htypes _ (by omega), htype _ (by omega)]

theorem body_method_congr (h : AgreeBelow (s.rest.length + 1) (call .signature) (call' .signature)) :
    body call .method s = body call' .method s := by
  simp only [body]
  split
  · refine item_congr _ fun u hu => ?_
    have hname := (name_conserves u).length_le
    rw [h _ (by omega)]
  · rfl

theorem body_expr_congr (hexpr : AgreeBelow s.rest.length (call .expr) (call' .expr))
    (hcomposite : s.seesAny typeStarts = true → call .composite s = call' .composite s) :
    body call .expr s = body call' .expr s := by
  have hstart {kind : TokenKind} (hs : s.peek.map Token.kind = some kind) (hk : kind ∈ typeStarts) :
      s.seesAny typeStarts = true := by
    obtain ⟨t, ts, ht, rfl⟩ := ahead_of_peek hs
    exact seesAny_iff.mpr ⟨_, hk, sees_iff.mpr ⟨t, ts, ht, rfl⟩⟩
  simp only [body]
  split
  · exact nodeBehind_congr _ ‹_› hexpr
  · exact nodeBehind_congr _ ‹_› hexpr
  · rfl
  · rfl
  · rfl
  · rfl
  · exact nodeBehind_congr (p := fun u => (call .expr u).expect .rParen)
      (q := fun u => (call' .expr u).expect .rParen) _ ‹_› fun u hu => congrArg (State.expect .rParen) (hexpr u hu)
  · exact hcomposite (hstart ‹_› (by decide))
  · exact hcomposite (hstart ‹_› (by decide))
  · exact hcomposite (hstart ‹_› (by decide))
  · rfl
  · rfl

theorem body_composite_congr (hc : Conserves (call .type))
    (htype : AgreeBelow (s.rest.length + 1) (call .type) (call' .type))
    (hbody : AgreeBelow (s.rest.length + 1) (call .litBody) (call' .litBody)) :
    body call .composite s = body call' .composite s := by
  have hopened := opened_le s
  have hle := (hc s.skipTrivia.opened).length_le
  simp only [body, compositeWith, ← htype s.skipTrivia.opened (by omega)]
  rw [hbody _ (by omega)]

theorem body_litBody_congr (hc : Conserves (call .element))
    (h : AgreeBelow s.rest.length (call .element) (call' .element)) :
    body call .litBody s = body call' .litBody s := by
  refine nodeAtToken_congr _ ?_
  by_cases hs : s.skipTrivia.opened.rest = []
  · simp only [hs, List.length_nil, elements]
  · rw [elements_congr hc h _ _ (Nat.lt_of_lt_of_le (bump_lt hs) (opened_le s))]

/-- What a rule answers hangs only on the calls within its own. -/
theorem body_congr (hc : ∀ r, Conserves (call r)) {r : Rule}
    (h : ∀ r' t, Within (r', t) (r, s) → call r' t = call' r' t) : body call r s = body call' r s := by
  have hlt (r' : Rule) : AgreeBelow s.rest.length (call r') (call' r') := fun t ht => h r' t (Or.inl ht)
  have hle (r' : Rule) (hr : r'.rank < r.rank) : AgreeBelow (s.rest.length + 1) (call r') (call' r') := fun t ht =>
    h r' t (Or.inr ⟨Nat.lt_succ_iff.mp ht, hr⟩)
  cases r with
  | type => exact body_type_congr (hc _) hlt
  | types => exact typesInParens_congr (hc .type) (hlt .type)
  | signature => exact body_signature_congr (hc _) (hle _ (by decide)) (hle _ (by decide))
  | fields => exact members_congr (hc .field) (hlt .field)
  | methods => exact members_congr (hc .method) (hlt .method)
  | field => exact field_congr (hle .type (by decide))
  | method => exact body_method_congr (hle _ (by decide))
  | expr => exact body_expr_congr (hlt _) fun _ => hle _ (by decide) s (Nat.lt_succ_self _)
  | composite => exact body_composite_congr (hc _) (hle _ (by decide)) (hle _ (by decide))
  | litBody => exact body_litBody_congr (hc _) (hlt _)
  | element => exact element_congr (hc .value) (hle .value (by decide))
  | value =>
    simp only [body, valueWith, hle .litBody (by decide) s (Nat.lt_succ_self _),
      hle .expr (by decide) s (Nat.lt_succ_self _)]

end

/-! ## Calls within calls -/

theorem Rule.rank_le (r : Rule) : r.rank ≤ 4 := by cases r <;> decide

theorem Within.trans {a b c : Rule × State} (h : Within a b) (h' : Within b c) : Within a c := by
  unfold Within at *
  omega

theorem within_wf : WellFounded Within := by
  refine Subrelation.wf ?_ (measure fun c : Rule × State => 5 * c.2.rest.length + c.1.rank).wf
  intro a b h
  have hrank := a.1.rank_le
  change 5 * a.2.rest.length + a.1.rank < 5 * b.2.rest.length + b.1.rank
  rcases h with h | ⟨h, hr⟩ <;> omega

/-! ## The rules solve their equations -/

section
variable {t e b t' e' b' : Parser}

/-- Rules over parsers that answer alike below a number of tokens answer alike there. -/
theorem rulesOver_congr (hct : Conserves t) (hce : Conserves e) (hcb : Conserves b) (ht : AgreeBelow n t t')
    (he : AgreeBelow n e e') (hb : AgreeBelow n b b') (c : Rule × State) :
    c.2.rest.length < n → rulesOver t e b c.1 c.2 = rulesOver t' e' b' c.1 c.2 := by
  induction c using within_wf.induction with
  | _ c ih =>
    obtain ⟨r, s⟩ := c
    intro hs
    have hbody : body (rulesOver t e b) r s = body (rulesOver t' e' b') r s := by
      refine body_congr (rulesOver_conserve hct hce hcb) fun r' u hw => ih (r', u) hw ?_
      rcases hw with hlt | ⟨hle, -⟩
      · exact Nat.lt_trans hlt hs
      · exact Nat.lt_of_le_of_lt hle hs
    -- the three rules that the others are given are compared by assumption, the others by their bodies
    cases r with
    | type => exact ht s hs
    | expr => exact he s hs
    | litBody => exact hb s hs
    | types => exact hbody
    | signature => exact hbody
    | fields => exact hbody
    | methods => exact hbody
    | field => exact hbody
    | method => exact hbody
    | composite => exact hbody
    | element => exact hbody
    | value => exact hbody

/-- A rule of the lowest rank calls other rules only where fewer tokens are left. -/
theorem body_rulesOver_congr (hct : Conserves t) (hce : Conserves e) (hcb : Conserves b)
    (ht : AgreeBelow s.rest.length t t') (he : AgreeBelow s.rest.length e e') (hb : AgreeBelow s.rest.length b b')
    {r : Rule} (hr : r.rank = 0) : body (rulesOver t e b) r s = body (rulesOver t' e' b') r s := by
  refine body_congr (rulesOver_conserve hct hce hcb) fun r' u hw => ?_
  rcases hw with hlt | ⟨-, hrank⟩
  · exact rulesOver_congr hct hce hcb ht he hb (r', u) hlt
  · rw [hr] at hrank
    exact absurd hrank (Nat.not_lt_zero _)

end

theorem typeWith_congr (hp : Conserves p) (h : AgreeBelow s.rest.length p q) : typeWith p s = typeWith q s :=
  body_rulesOver_congr (e := id) (b := id) (r := .type) hp conserves_id conserves_id h (fun _ _ => rfl)
    (fun _ _ => rfl) rfl

/-- More depth than tokens changes nothing. -/
theorem typeWithin_enough (n : Nat) : ∀ (m : Nat) (s : State),
    s.rest.length < n → s.rest.length < m → typeWithin n s = typeWithin m s := by
  induction n with
  | zero => intro m s hn; omega
  | succ n ih =>
    intro m s hn hm
    obtain ⟨m, rfl⟩ : ∃ k, m = k + 1 := ⟨m - 1, by omega⟩
    rw [typeWithin, typeWithin]
    exact typeWith_congr (typeWithin_conserves n) fun t ht => ih m t (by omega) (by omega)

theorem type_eq (s : State) : type s = typeWith type s :=
  typeWith_congr (typeWithin_conserves _) fun t ht => typeWithin_enough _ _ t ht (Nat.lt_succ_self _)

theorem exprWith_congr {e e' b b' : Parser} (he : AgreeBelow s.rest.length e e')
    (hb : AgreeBelow s.rest.length b b') : exprWith e b s = exprWith e' b' s := by
  change body (rulesOver type e b) .expr s = body (rulesOver type e' b') .expr s
  refine body_expr_congr he fun hstart => ?_
  have hlt : (type s.skipTrivia.opened).rest.length < s.rest.length := by
    rw [← seesAny_congr _ (ahead_opened s)] at hstart
    exact Nat.lt_of_lt_of_le (type_lt hstart) (opened_le s)
  simp only [rulesOver, compositeWith, hb _ hlt]

theorem litBodyWith_congr {e e' b b' : Parser} (hce : Conserves e) (hcb : Conserves b)
    (he : AgreeBelow s.rest.length e e') (hb : AgreeBelow s.rest.length b b') :
    litBodyWith (valueWith e b) s = litBodyWith (valueWith e' b') s :=
  body_rulesOver_congr (t := id) (r := .litBody) conserves_id hce hcb (fun _ _ => rfl) he hb rfl

theorem exprWithin_enough (n : Nat) : ∀ (m : Nat) (s : State), s.rest.length < n → s.rest.length < m →
    exprWithin n s = exprWithin m s ∧ litBodyWithin n s = litBodyWithin m s := by
  induction n with
  | zero => intro m s hn; omega
  | succ n ih =>
    intro m s hn hm
    obtain ⟨m, rfl⟩ : ∃ k, m = k + 1 := ⟨m - 1, by omega⟩
    have hexpr : AgreeBelow s.rest.length (exprWithin n) (exprWithin m) := fun t ht =>
      (ih m t (by omega) (by omega)).1
    have hbody : AgreeBelow s.rest.length (litBodyWithin n) (litBodyWithin m) := fun t ht =>
      (ih m t (by omega) (by omega)).2
    simp only [exprWithin, litBodyWithin]
    exact ⟨exprWith_congr hexpr hbody,
      litBodyWith_congr (exprWithin_conserves n) (litBodyWithin_conserves n) hexpr hbody⟩

theorem expr_eq (s : State) : expr s = exprWith expr litBody s := by
  rw [expr, exprWithin]
  exact exprWith_congr (fun t ht => (exprWithin_enough _ _ t ht (Nat.lt_succ_self _)).1)
    fun t ht => (exprWithin_enough _ _ t ht (Nat.lt_succ_self _)).2

theorem litBody_eq (s : State) : litBody s = litBodyWith (valueWith expr litBody) s := by
  rw [litBody, litBodyWithin]
  exact litBodyWith_congr (exprWithin_conserves _) (litBodyWithin_conserves _)
    (fun t ht => (exprWithin_enough _ _ t ht (Nat.lt_succ_self _)).1)
    fun t ht => (exprWithin_enough _ _ t ht (Nat.lt_succ_self _)).2

theorem rules_eq (r : Rule) (s : State) : rules r s = body rules r s := by
  cases r with
  | type => exact type_eq s
  | expr => exact expr_eq s
  | litBody => exact litBody_eq s
  | types => rfl
  | signature => rfl
  | fields => rfl
  | methods => rfl
  | field => rfl
  | method => rfl
  | composite => rfl
  | element => rfl
  | value => rfl

/-- No other parsers solve the equations of the rules. -/
theorem rules_unique {call : Rule → Parser} (hc : ∀ r, Conserves (call r))
    (h : ∀ r s, call r s = body call r s) (c : Rule × State) : call c.1 c.2 = rules c.1 c.2 := by
  induction c using within_wf.induction with
  | _ c ih =>
    rw [h, rules_eq]
    exact body_congr hc fun r t hw => ih (r, t) hw

/-- A rule makes a call if another answer to that call alone would change its own. -/
def Asks (call within : Rule × State) : Prop :=
  ∃ other : Rule → Parser, (∀ r t, (r, t) ≠ call → rules r t = other r t) ∧
    body rules within.1 within.2 ≠ body other within.1 within.2

theorem Asks.within {c d : Rule × State} (h : Asks c d) : Within c d := by
  obtain ⟨other, hsame, hne⟩ := h
  by_contra hnot
  refine hne (body_congr rules_conserve fun r t hw => hsame r t ?_)
  rintro rfl
  exact hnot hw

/-- A chain of calls from a rule back to itself consumes a token. -/
theorem length_lt_of_nested {r : Rule} {s t : State} (h : Relation.TransGen Asks (r, t) (r, s)) :
    t.rest.length < s.rest.length := by
  have hw : ∀ {c d : Rule × State}, Relation.TransGen Asks c d → Within c d := by
    intro c d hcd
    induction hcd with
    | single hcd => exact hcd.within
    | tail _ hde ih => exact ih.trans hde.within
  rcases hw h with hlt | ⟨-, hrank⟩
  · exact hlt
  · exact absurd hrank (Nat.lt_irrefl _)

/-! ## Progress -/

/-- Every loop runs to its own end, and each round but the last consumes a token. -/
structure LoopsProgress : Prop where
  sourceFile : ∀ s, ∃ t u : State,
    Rounds (whileTurn (State.sees .importKw) importDecl) (packageClause s) t ∧
    Rounds (whileTurn (fun s => !s.atEnd) declaration) t u ∧ sourceFile s = u.skipTrivia
  grouped : ∀ spec ∈ [importSpec, typeSpec, constSpec], ∀ s : State, s.sees .lParen = true →
    ∃ t, Rounds (whileTurn (before .rParen) (spec true)) s.bump t ∧
      grouped spec s = (t.expect .rParen).endLine .error
  members : ∀ member ∈ [field type, method type], ∀ s : State, s.sees .lBrace = true →
    ∃ t, Rounds (whileTurn (before .rBrace) member) s.skipTrivia.opened.bump t ∧
      members member s = close .fieldList s.skipTrivia (t.expect .rBrace)
  fieldNames : ∀ s : State,
    Rounds (whileTurn (State.sees .comma) fun s => name s.bump) (name s) (fieldNames s)
  typesInParens : ∀ s : State, ∃ t, Rounds (typeTurn type) s.bump t ∧ typesInParens type s = t.expect .rParen
  litBody : ∀ s : State, ∃ t, Rounds (elementTurn (rules .element)) s.skipTrivia.opened.bump t ∧
    litBody s = close .litBody s.skipTrivia (t.expect .rBrace)
  recoverTo : ∀ (c : Complaint) (stop : List TokenKind) (s : State), s.atEnd = false →
    ∃ t, Rounds (whileTurn (fun s => !s.atEnd && !s.seesAny stop) State.bump)
        (s.complain c).skipTrivia.opened.bump t ∧
      s.recoverTo c stop = close .error (s.complain c).skipTrivia t
  recoverLine : ∀ (what : Expected) (closer : TokenKind) (s : State), s.atEnd = false → s.sees closer = false →
    ∃ t, Rounds (whileTurn (fun s => !s.newlineBefore && !s.sees closer) State.bump)
        (s.expected what).skipTrivia.opened.bump t ∧
      s.recoverLine what closer = close .error (s.expected what).skipTrivia t

/-- Rules that call each other come to an end. -/
structure CallsProgress : Prop where
  /-- Between two nested calls of one rule a token is consumed. -/
  nested : ∀ (r : Rule) (s t : State), Relation.TransGen Asks (r, t) (r, s) → t.rest.length < s.rest.length
  /-- Whatever its calls do, a rule sees no answers but to calls within its own. -/
  within : ∀ (call call' : Rule → Parser) (r : Rule) (s : State), (∀ r, Conserves (call r)) →
    (∀ r' t, Within (r', t) (r, s) → call r' t = call' r' t) → body call r s = body call' r s
  /-- The rules solve their equations, and nothing else does. -/
  solution : (∀ r s, rules r s = body rules r s) ∧
    ∀ call : Rule → Parser, (∀ r, Conserves (call r)) → (∀ r s, call r s = body call r s) → call = rules

theorem loops_progress : LoopsProgress where
  sourceFile := sourceFile_rounds
  grouped spec hspec s hs := by
    simp only [List.mem_cons, List.not_mem_nil, or_false] at hspec
    rcases hspec with rfl | rfl | rfl
    · exact grouped_rounds (fun _ => importSpec_lt) hs
    · exact grouped_rounds (fun _ => typeSpec_lt) hs
    · exact grouped_rounds (fun _ => constSpec_lt) hs
  members member hmember s hs := by
    simp only [List.mem_cons, List.not_mem_nil, or_false] at hmember
    rcases hmember with rfl | rfl
    · exact members_rounds (fun _ => field_lt) hs
    · exact members_rounds (fun _ => method_lt) hs
  fieldNames := fieldNames_rounds
  typesInParens := typesInParens_rounds type_conserves
  litBody s := by
    rw [litBody_eq]
    exact litBodyWith_rounds (valueWith_conserves expr_conserves litBody_conserves) s
  recoverTo c stop _ hs := recoverTo_rounds c stop (ahead_ne_nil hs)
  recoverLine what closer _ hs := recoverLine_rounds what closer (ahead_ne_nil hs)

theorem calls_progress : CallsProgress where
  nested _ _ _ := length_lt_of_nested
  within _ _ _ _ hc h := body_congr hc h
  solution := ⟨rules_eq, fun _ hc h => funext fun r => funext fun s => rules_unique hc h (r, s)⟩

/-- The parser makes progress in its loops and in its nested rules, and reads every text to the end. -/
theorem parser_makes_progress : LoopsProgress ∧ CallsProgress ∧
    ∀ s : State, (sourceFile s).rest = [] ∧ (exprAlone s).rest = [] :=
  ⟨loops_progress, calls_progress, fun s => ⟨sourceFile_rest s, exprAlone_rest s⟩⟩

end IdlWorkbench.Grammar
