import IdlWorkbench.Ast.OfTree
import IdlWorkbench.Proofs.Grammar.Ahead

/-!
# The grammar of expressions

`IsExpr ts e` says that the significant tokens `ts` write the expression `e`. Expressions are taken here
without the places of their parts and without their line breaks, which tokens alone do not tell.

What `expr` passes over without a complaint is derived in this grammar.
-/

namespace IdlWorkbench

/-! ## Expressions without places -/

/-- A range for parts whose place does not matter. -/
def ByteRange.nowhere : ByteRange := .point 0

def TypeExpr.unplaced : TypeExpr → TypeExpr
  | .selector _ q id => .selector .nowhere q id
  | .slice _ elem => .slice .nowhere elem.unplaced
  | .map _ key value => .map .nowhere key.unplaced value.unplaced
  | .pointer _ elem => .pointer .nowhere elem.unplaced
  | .chan _ elem => .chan .nowhere elem.unplaced
  | t => t

mutual

def Expr.unplaced : Expr → Expr
  | .selector _ q id => .selector .nowhere q id
  | .paren _ inner => .paren .nowhere inner.unplaced
  | .unary _ op operand => .unary .nowhere op operand.unplaced
  | .composite _ type tokens body => .composite .nowhere type.unplaced tokens body.unplaced
  | .type t tokens => .type t.unplaced tokens
  | e => e

def LitBody.unplaced : LitBody → LitBody
  | ⟨_, _, elements⟩ => ⟨.nowhere, false, unplacedElements elements⟩

def unplacedElements : List Element → List Element
  | [] => []
  | e :: es => e.unplaced :: unplacedElements es

def Element.unplaced : Element → Element
  | .keyed _ key value => .keyed .nowhere key.unplaced value.unplaced
  | .positional _ value => .positional .nowhere value.unplaced

def ElementValue.unplaced : ElementValue → ElementValue
  | .missing => .missing
  | .expr e => .expr e.unplaced
  | .body b => .body b.unplaced

end

/-- The expression that a type written with `tokens` is where no literal body follows. -/
def Expr.ofType (tokens : List Token) : TypeExpr → Expr
  | .name id => .name id
  | .selector range q id => .selector range q id
  | t => .type t tokens

namespace Grammar

open Token State

/-! ## Derivations -/

mutual

inductive IsLitType : List Token → TypeExpr → Prop
  | name {id} : id.kind = .ident → IsLitType [id] (.name id)
  | selector {q dot id} : q.kind = .ident → dot.kind = .dot → id.kind = .ident →
    IsLitType [q, dot, id] (.selector .nowhere (some q) (some id))
  | slice {l r ts t} : l.kind = .lBracket → r.kind = .rBracket → IsType ts t →
    IsLitType (l :: r :: ts) (.slice .nowhere t)
  | map {m l r ks k vs v} : m.kind = .mapKw → l.kind = .lBracket → IsType ks k → r.kind = .rBracket →
    IsType vs v → IsLitType (m :: l :: (ks ++ r :: vs)) (.map .nowhere k v)

inductive IsType : List Token → TypeExpr → Prop
  | lit {ts t} : IsLitType ts t → IsType ts t
  | pointer {star ts t} : star.kind = .star → IsType ts t → IsType (star :: ts) (.pointer .nowhere t)
  | chan {kw ts t} : kw.kind = .chanKw → IsType ts t → IsType (kw :: ts) (.chan .nowhere t)

end

mutual

inductive IsExpr : List Token → Expr → Prop
  | signed {op ts e} : op.kind = .plus ∨ op.kind = .minus → IsExpr ts e → IsExpr (op :: ts) (.unary .nowhere op e)
  | literal {t} : t.kind.isLiteral = true → IsExpr [t] (.literal t)
  | paren {l ts e r} : l.kind = .lParen → IsExpr ts e → r.kind = .rParen →
    IsExpr (l :: (ts ++ [r])) (.paren .nowhere e)
  | bare {ts t} : IsLitType ts t → IsExpr ts (.ofType ts t)
  | composite {ts t bs b} : IsLitType ts t → IsBody bs b → IsExpr (ts ++ bs) (.composite .nowhere t ts b)

inductive IsBody : List Token → LitBody → Prop
  | braces {l ts es r} : l.kind = .lBrace → IsElements ts es → r.kind = .rBrace →
    IsBody (l :: (ts ++ [r])) ⟨.nowhere, false, es⟩

/-- Nothing, or elements with commas between them and perhaps one behind the last. -/
inductive IsElements : List Token → List Element → Prop
  | none : IsElements [] []
  | last {ts e} : IsElement ts e → IsElements ts [e]
  | comma {ts e c us es} : IsElement ts e → c.kind = .comma → IsElements us es →
    IsElements (ts ++ c :: us) (e :: es)

inductive IsElement : List Token → Element → Prop
  | positional {ts v} : IsValue ts v → IsElement ts (.positional .nowhere v)
  | keyed {ks k c vs v} : IsValue ks k → c.kind = .colon → IsValue vs v →
    IsElement (ks ++ c :: vs) (.keyed .nowhere k v)

inductive IsValue : List Token → ElementValue → Prop
  | expr {ts e} : IsExpr ts e → IsValue ts (.expr e)
  | body {ts b} : IsBody ts b → IsValue ts (.body b)

end

/-! ## What is passed over without a complaint -/

variable {s : State} {k : TokenKind} {p : Parser}

theorem ahead_of_peek (h : s.peek.map Token.kind = some k) : ∃ t ts, s.ahead = t :: ts ∧ t.kind = k := by
  rw [peek_eq] at h
  cases hs : s.ahead with
  | nil => simp [hs] at h
  | cons t ts => exact ⟨t, ts, rfl, by simpa [hs] using h⟩

theorem ahead_bump_cons {t : Token} {ts : List Token} (h : s.ahead = t :: ts) : s.bump.ahead = ts := by
  rw [ahead_bump, h, List.tail_cons]

theorem ahead_opened (s : State) : s.skipTrivia.opened.ahead = s.ahead := ahead_skipTrivia s

theorem skipTrivia_opened (s : State) : s.skipTrivia.opened.skipTrivia = s.skipTrivia.opened := by
  have hnil : s.skipTrivia.opened.trivia = [] := by
    change s.skipTrivia.rest.takeWhile Token.isTrivia = []
    rw [skipTrivia_rest]
    rcases dropWhile_isTrivia s.rest with ⟨hd, -⟩ | ⟨tok, rest, hd, htok, -⟩
    · rw [hd]
      rfl
    · rw [hd, List.takeWhile_cons, htok]
      rfl
  rw [skipTrivia, hnil]
  rfl

theorem expect_quiet (h : (s.expect k).errors = s.errors) : ∃ t, s.ahead = t :: (s.expect k).ahead ∧ t.kind = k := by
  rw [expect] at h ⊢
  split at h
  · rename_i hk
    obtain ⟨t, ts, hs, ht⟩ := sees_iff.mp hk
    exact ⟨t, by rw [if_pos hk, hs, ahead_bump_cons hs], ht⟩
  · exact absurd h (expected_errors_ne _ s)

/-- Without a complaint, the parser passes over tokens that `R` allows. -/
def Derives {α : Type} (R : List Token → α → Prop) (p : Parser) (s : State) : Prop :=
  (p s).errors = s.errors → ∃ ts a, s.ahead = ts ++ (p s).ahead ∧ R ts a

/-- Tokens without the keywords of the types that expressions cannot hold. -/
def Plain (ts : List Token) : Prop :=
  ∀ t ∈ ts, t.kind ≠ .structKw ∧ t.kind ≠ .interfaceKw ∧ t.kind ≠ .funcKw

theorem Plain.of_append {ts us : List Token} (h : Plain (ts ++ us)) : Plain us := fun t ht =>
  h t (List.mem_append_right ts ht)

theorem IsType.isLitType {ts : List Token} {t : TypeExpr} (h : IsType ts t)
    (hhead : ∀ u ∈ ts.head?, u.kind ≠ .star ∧ u.kind ≠ .chanKw) : IsLitType ts t := by
  cases h with
  | lit h => exact h
  | pointer hk _ => exact absurd hk (hhead _ (by simp)).1
  | chan hk _ => exact absurd hk (hhead _ (by simp)).2

theorem derives_typeName {t : Token} {ts : List Token} (h : s.ahead = t :: ts) (ht : t.kind = .ident) :
    Derives IsType typeName s := by
  intro hq
  rw [typeName] at hq ⊢
  by_cases hdot : s.secondIs [.dot] = true
  · simp only [hdot, ite_true] at hq ⊢
    rw [secondIs_eq, h] at hdot
    cases ts with
    | nil => simp at hdot
    | cons dot ts =>
      have hu : s.skipTrivia.opened.ahead = t :: dot :: ts := (ahead_opened s).trans h
      have hb : s.skipTrivia.opened.bump.bump.ahead = ts := ahead_bump_cons (ahead_bump_cons hu)
      have hq : (s.skipTrivia.opened.bump.bump.expect .ident).errors = s.skipTrivia.opened.bump.bump.errors := by
        rw [bump_errors, bump_errors]
        exact hq.trans (skipTrivia_errors s).symm
      obtain ⟨id, hid, hk⟩ := expect_quiet hq
      refine ⟨[t, dot, id], _, ?_, .lit (.selector ht (by simpa using hdot) hk)⟩
      rw [h, ← hb, hid]
      rfl
  · simp only [hdot, Bool.false_eq_true, ite_false] at hq ⊢
    refine ⟨[t], _, ?_, .lit (.name ht)⟩
    have hu : s.skipTrivia.opened.ahead = t :: ts := (ahead_opened s).trans h
    exact h.trans (congrArg (t :: ·) (ahead_bump_cons hu).symm)

/-- A node is derived as its body is. -/
theorem Derives.nodeAtToken {α : Type} {R : List Token → α → Prop} (kind : NodeKind)
    (h : Derives R p s.skipTrivia.opened) : Derives R (State.nodeAtToken kind p) s := by
  intro hq
  obtain ⟨ts, a, hts, ha⟩ := h (hq.trans (skipTrivia_errors s).symm)
  exact ⟨ts, a, (ahead_opened s).symm.trans hts, ha⟩

def Inner {α : Type} (R : List Token → α → Prop) (p : Parser) (s : State) : Prop :=
  ∀ ⦃u : State⦄ ⦃ts : List Token⦄, ts ≠ [] → s.ahead = ts ++ u.ahead → Derives R p u

section
variable {α : Type} {R : List Token → α → Prop} {t : Token} {ts : List Token}

theorem Inner.opened (h : Inner R p s) : Inner R p s.skipTrivia.opened := fun _ _ hts hu =>
  h hts ((ahead_opened s).symm.trans hu)

theorem Inner.after (h : Inner R p s) {u : State} (hu : s.ahead = ts ++ u.ahead) : Inner R p u := fun v vs hvs hv =>
  @h v (ts ++ vs) (by simp [hvs]) (by rw [hu, hv, List.append_assoc])

/-- What `p` passes over behind the next token. -/
theorem Inner.bump (h : Inner R p s) (hs : s.ahead = t :: ts) (hq : (p s.bump).errors = s.errors) :
    ∃ us a, s.ahead = t :: us ++ (p s.bump).ahead ∧ R us a := by
  have hb : s.ahead = [t] ++ s.bump.ahead := by
    rw [ahead_bump_cons hs, hs]
    rfl
  obtain ⟨us, a, hus, ha⟩ := h (by simp) hb (hq.trans (bump_errors s).symm)
  exact ⟨us, a, by rw [hb, hus]; rfl, ha⟩

/-- What `p` passes over behind the next token and one that is asked for. -/
theorem Inner.bump_expect (h : Inner R p s) (hp : Remembers p) (hs : s.ahead = t :: ts)
    (hq : (p (s.bump.expect k)).errors = s.errors) :
    ∃ u us a, u.kind = k ∧ s.ahead = t :: u :: us ++ (p (s.bump.expect k)).ahead ∧ R us a := by
  obtain ⟨hq₁, hq₂⟩ := ((Retains.refl s).bump.expect k).quiet (hp _) hq
  obtain ⟨u, hu, hk⟩ := expect_quiet (hq₁.trans (bump_errors s).symm)
  have hb : s.ahead = [t, u] ++ (s.bump.expect k).ahead := by
    rw [hs, ← ahead_bump_cons hs, hu]
    rfl
  obtain ⟨us, a, hus, ha⟩ := h (by simp) hb hq₂
  exact ⟨u, us, a, hk, by rw [hb, hus]; rfl, ha⟩

end

section
variable {t : Token} {ts : List Token} (hi : Inner IsType p s) (hs : s.ahead = t :: ts)
include hi hs

theorem derives_slice (hp : Remembers p) (ht : t.kind = .lBracket) :
    Derives IsType (fun s => p (s.bump.expect .rBracket)) s := by
  intro hq
  obtain ⟨r, us, elem, hr, hus, helem⟩ := hi.bump_expect hp hs hq
  exact ⟨t :: r :: us, _, hus, .lit (.slice ht hr helem)⟩

theorem derives_map (hp : Remembers p) (ht : t.kind = .mapKw) :
    Derives IsType (fun s => p ((p (s.bump.expect .lBracket)).expect .rBracket)) s := by
  intro hq
  have hkey := hp.after ((Retains.refl s).bump.expect .lBracket)
  obtain ⟨hq₃, hqv⟩ := (hkey.expect .rBracket).quiet (hp _) hq
  obtain ⟨hq₂, hqr⟩ := hkey.quiet ((Retains.refl _).expect .rBracket) hq₃
  obtain ⟨l, ks, key, hl, hks, hkey⟩ := hi.bump_expect hp hs hq₂
  obtain ⟨r, hr, hrk⟩ := expect_quiet hqr
  rw [hr, List.append_cons] at hks
  obtain ⟨vs, value, hvs, hvalue⟩ := hi (by simp) hks hqv
  exact ⟨t :: l :: (ks ++ r :: vs), _, by rw [hks, hvs]; simp, .lit (.map ht hl hkey hrk hvalue)⟩

theorem derives_pointer (ht : t.kind = .star) : Derives IsType (fun s => p s.bump) s := by
  intro hq
  obtain ⟨us, elem, hus, helem⟩ := hi.bump hs hq
  exact ⟨t :: us, _, hus, .pointer ht helem⟩

theorem derives_chan (ht : t.kind = .chanKw) : Derives IsType (fun s => p s.bump) s := by
  intro hq
  obtain ⟨us, elem, hus, helem⟩ := hi.bump hs hq
  exact ⟨t :: us, _, hus, .chan ht helem⟩

end

/-- Fewer tokens are left behind the first one. -/
theorem length_lt_of_append {s u : State} {ts : List Token} (hts : ts ≠ []) (h : s.ahead = ts ++ u.ahead) :
    u.ahead.length < s.ahead.length := by
  have hpos := List.length_pos_iff.mpr hts
  rw [h, List.length_append]
  omega

theorem derives_typeWithin (n : Nat) : ∀ s : State,
    s.ahead.length < n → Plain s.ahead → Derives IsType (typeWithin n) s := by
  induction n with
  | zero => exact fun s h => absurd h (Nat.not_lt_zero _)
  | succ n ih =>
    intro s hn hplain
    have hi : Inner IsType (typeWithin n) s := fun u ts hts hu => by
      have := length_lt_of_append hts hu
      exact ih u (by omega) (Plain.of_append (hu ▸ hplain))
    have hp := remembers_typeWithin n
    have hopen {t : Token} {ts : List Token} (h : s.ahead = t :: ts) : s.skipTrivia.opened.ahead = t :: ts :=
      (ahead_opened s).trans h
    rw [typeWithin]
    intro hq
    rw [typeWith] at hq ⊢
    split at hq <;> rename_i hk
    · obtain ⟨t, ts, hs, ht⟩ := ahead_of_peek hk
      exact derives_typeName hs ht hq
    · obtain ⟨t, ts, hs, ht⟩ := ahead_of_peek hk
      exact Derives.nodeAtToken _ (derives_slice hi.opened (hopen hs) hp ht) hq
    · obtain ⟨t, ts, hs, ht⟩ := ahead_of_peek hk
      exact Derives.nodeAtToken _ (derives_map hi.opened (hopen hs) hp ht) hq
    · obtain ⟨t, ts, hs, ht⟩ := ahead_of_peek hk
      exact Derives.nodeAtToken _ (derives_pointer hi.opened (hopen hs) ht) hq
    · obtain ⟨t, ts, hs, ht⟩ := ahead_of_peek hk
      exact Derives.nodeAtToken _ (derives_chan hi.opened (hopen hs) ht) hq
    · obtain ⟨t, ts, hs, ht⟩ := ahead_of_peek hk
      exact absurd ht (hplain t (by simp [hs])).2.2
    · obtain ⟨t, ts, hs, ht⟩ := ahead_of_peek hk
      exact absurd ht (hplain t (by simp [hs])).1
    · obtain ⟨t, ts, hs, ht⟩ := ahead_of_peek hk
      exact absurd ht (hplain t (by simp [hs])).2.1
    · exact absurd hq (expected_errors_ne _ s)

theorem derives_type (h : Plain s.ahead) : Derives IsType type s :=
  derives_typeWithin _ s (Nat.lt_succ_of_le s.length_ahead_le) h

/-! ## Expressions that are passed over -/

theorem derives_valueWith {q : Parser} (hp : Derives IsExpr p s) (hq : s.sees .lBrace = true → Derives IsBody q s) :
    Derives IsValue (valueWith p q) s := by
  intro hquiet
  rw [valueWith] at hquiet ⊢
  split at hquiet
  · rename_i hb
    obtain ⟨ts, b, hts, h⟩ := hq hb hquiet
    exact ⟨ts, _, by simpa [hb] using hts, .body h⟩
  · rename_i hb
    obtain ⟨ts, e, hts, h⟩ := hp hquiet
    exact ⟨ts, _, by simpa [hb] using hts, .expr h⟩

theorem derives_element (hp : Remembers p) (hv : Derives IsValue p s.skipTrivia.opened) (hi : Inner IsValue p s) :
    Derives IsElement (element p) s := by
  intro hq
  have hopen := ahead_opened s
  have hin := hp s.skipTrivia.opened
  rw [element] at hq ⊢
  by_cases hc : (p s.skipTrivia.opened).sees .colon = true
  · simp only [hc, ite_true] at hq ⊢
    have hq : (p (p s.skipTrivia.opened).bump).errors = s.skipTrivia.opened.errors :=
      hq.trans (skipTrivia_errors s).symm
    obtain ⟨hq₁, hq₂⟩ := hin.quiet (hp.after (Retains.refl _).bump) hq
    obtain ⟨ks, key, hks, hkey⟩ := hv hq₁
    obtain ⟨c, ts, hcolon, hck⟩ := sees_iff.mp hc
    have hb : s.ahead = (ks ++ [c]) ++ (p s.skipTrivia.opened).bump.ahead := by
      rw [ahead_bump_cons hcolon, ← hopen, hks, hcolon]
      simp
    obtain ⟨vs, value, hvs, hvalue⟩ := hi (by simp) hb (hq₂.trans (bump_errors _).symm)
    exact ⟨ks ++ c :: vs, _, by rw [hb, hvs]; simp [State.close, ahead], .keyed hkey hck hvalue⟩
  · simp only [hc, Bool.false_eq_true, ite_false] at hq ⊢
    obtain ⟨ts, v, hts, h⟩ := hv (hq.trans (skipTrivia_errors s).symm)
    exact ⟨ts, _, hopen.symm.trans hts, .positional h⟩

theorem derives_elements (hp : Remembers p) (n : Nat) : ∀ s : State,
    s.ahead.length ≤ n → Derives IsElement p s → Inner IsElement p s → Derives IsElements (elements p n) s := by
  induction n with
  | zero =>
    intro s _ _ _ _
    exact ⟨[], [], rfl, .none⟩
  | succ n ih =>
    intro s hn he hi hq
    rw [elements] at hq ⊢
    split at hq
    · rename_i hend
      exact ⟨[], [], by simp [hend], .none⟩
    · rename_i hend
      simp only [hend, Bool.false_eq_true, ite_false] at hq ⊢
      by_cases hc : (p s).sees .comma = true
      · simp only [hc, ite_true] at hq ⊢
        obtain ⟨hq₁, hq₂⟩ := (hp s).quiet ((remembers_elements hp n).after (Retains.refl _).bump) hq
        obtain ⟨ts, e, hts, h⟩ := he hq₁
        obtain ⟨c, us, hcomma, hck⟩ := sees_iff.mp hc
        have hb : s.ahead = (ts ++ [c]) ++ (p s).bump.ahead := by
          rw [ahead_bump_cons hcomma, hts, hcomma]
          simp
        have hlt := length_lt_of_append (by simp) hb
        obtain ⟨us, es, hus, hes⟩ := ih _ (by omega) (hi (by simp) hb) (hi.after hb) (hq₂.trans (bump_errors _).symm)
        exact ⟨ts ++ c :: us, e :: es, by rw [hb, hus]; simp, .comma h hck hes⟩
      · simp only [hc, Bool.false_eq_true, ite_false] at hq ⊢
        obtain ⟨ts, e, hts, h⟩ := he hq
        exact ⟨ts, [e], hts, .last h⟩

theorem derives_litBodyWith (hp : Remembers p) (hb : s.sees .lBrace = true) (hi : Inner IsValue p s) :
    Derives IsBody (litBodyWith p) s := by
  refine Derives.nodeAtToken _ fun hq => ?_
  obtain ⟨l, ts, hs, hl⟩ := sees_iff.mp hb
  replace hi := hi.opened
  replace hs := (ahead_opened s).trans hs
  generalize s.skipTrivia.opened = u at hi hs hq ⊢
  have hbump : u.ahead = [l] ++ u.bump.ahead := by rw [ahead_bump_cons hs, hs]; rfl
  have he : Inner IsElement (element p) u := fun v vs hvs hv =>
    derives_element hp (hi hvs (by rw [ahead_opened, hv])) (hi.after hv)
  have hels := remembers_elements (remembers_element hp) u.rest.length
  obtain ⟨hq₁, hq₂⟩ := (hels.after (Retains.refl u).bump).quiet ((Retains.refl _).expect .rBrace) hq
  have hlen := length_lt_of_append (by simp) hbump
  have := u.length_ahead_le
  obtain ⟨ts, es, hts, h⟩ := derives_elements (remembers_element hp) u.rest.length u.bump (by omega)
    (he (by simp) hbump) (he.after hbump) (hq₁.trans (bump_errors u).symm)
  obtain ⟨r, hr, hrk⟩ := expect_quiet hq₂
  exact ⟨l :: (ts ++ [r]), _, by rw [hbump, hts, hr]; simp, .braces hl h hrk⟩

theorem derives_composite {t : Token} {ts : List Token} (hp : Remembers p) (hs : s.ahead = t :: ts)
    (ht : t.kind ≠ .star ∧ t.kind ≠ .chanKw) (hplain : Plain s.ahead)
    (hi : ∀ ⦃u : State⦄ ⦃us : List Token⦄, us ≠ [] → s.ahead = us ++ u.ahead → u.sees .lBrace = true →
      Derives IsBody p u) :
    Derives IsExpr (composite p) s := by
  intro hq
  have hopen := ahead_opened s
  have htype := derives_type (s := s.skipTrivia.opened) (hopen ▸ hplain)
  have hin := remembers_type s.skipTrivia.opened
  rw [composite] at hq ⊢
  have hlit : ∀ {us : List Token} {a : TypeExpr}, s.skipTrivia.opened.ahead = us ++
    (type s.skipTrivia.opened).ahead →
      IsType us a → IsLitType us a ∧ us ≠ [] := by
    intro us a hus ha
    have hne : us ≠ [] := by
      rintro rfl
      cases ha with
      | lit h => cases h
    refine ⟨ha.isLitType fun u hu => ?_, hne⟩
    rw [hopen, hs] at hus
    cases us with
    | nil => exact absurd rfl hne
    | cons v us =>
      simp only [List.head?_cons, Option.mem_def, Option.some.injEq] at hu
      rw [List.cons_append, List.cons.injEq] at hus
      rw [← hu, ← hus.1]
      exact ht
  by_cases hb : (type s.skipTrivia.opened).sees .lBrace = true
  · simp only [hb, ite_true] at hq ⊢
    have hq : (p (type s.skipTrivia.opened)).errors = s.skipTrivia.opened.errors :=
      hq.trans (skipTrivia_errors s).symm
    obtain ⟨hq₁, hq₂⟩ := hin.quiet (hp _) hq
    obtain ⟨us, a, hus, ha⟩ := htype hq₁
    obtain ⟨hlit, hne⟩ := hlit hus ha
    obtain ⟨bs, b, hbs, hbody⟩ := hi hne (hopen.symm.trans hus) hb hq₂
    exact ⟨us ++ bs, _, by rw [← hopen, hus, hbs, List.append_assoc]; rfl, .composite hlit hbody⟩
  · simp only [hb, Bool.false_eq_true, ite_false] at hq ⊢
    obtain ⟨us, a, hus, ha⟩ := htype (hq.trans (skipTrivia_errors s).symm)
    exact ⟨us, _, hopen.symm.trans hus, .bare (hlit hus ha).1⟩

theorem derives_signed {t : Token} {ts : List Token} (hi : Inner IsExpr p s) (hs : s.ahead = t :: ts)
    (ht : t.kind = .plus ∨ t.kind = .minus) : Derives IsExpr (fun s => p s.bump) s := by
  intro hq
  obtain ⟨us, e, hus, he⟩ := hi.bump hs hq
  exact ⟨t :: us, _, hus, .signed ht he⟩

theorem derives_paren {t : Token} {ts : List Token} (hi : Inner IsExpr p s) (hp : Remembers p)
    (hs : s.ahead = t :: ts)
    (ht : t.kind = .lParen) : Derives IsExpr (fun s => (p s.bump).expect .rParen) s := by
  intro hq
  obtain ⟨hq₁, hq₂⟩ := (hp.after (Retains.refl s).bump).quiet ((Retains.refl _).expect .rParen) hq
  obtain ⟨us, e, hus, he⟩ := hi.bump hs hq₁
  obtain ⟨r, hr, hrk⟩ := expect_quiet hq₂
  exact ⟨t :: (us ++ [r]), _, by rw [hus, hr]; simp, .paren ht he hrk⟩

theorem derives_literal {t : Token} {ts : List Token} (hs : s.ahead = t :: ts) (ht : t.kind.isLiteral = true) :
    Derives IsExpr (tokenNode .literal) s := by
  refine Derives.nodeAtToken _ fun _ => ⟨[t], _, ?_, .literal ht⟩
  have hopen := (ahead_opened s).trans hs
  rw [ahead_bump_cons hopen, hopen]
  rfl

theorem derives_exprWith {q : Parser} (hp : Remembers p) (hq : Remembers q) (hplain : Plain s.ahead)
    (hi : Inner IsExpr p s)
    (hb : ∀ ⦃u : State⦄ ⦃us : List Token⦄, us ≠ [] → s.ahead = us ++ u.ahead → u.sees .lBrace = true →
      Derives IsBody q u) :
    Derives IsExpr (exprWith p q) s := by
  have hopen {t : Token} {ts : List Token} (h : s.ahead = t :: ts) : s.skipTrivia.opened.ahead = t :: ts :=
    (ahead_opened s).trans h
  intro hquiet
  rw [exprWith] at hquiet ⊢
  split at hquiet
  · obtain ⟨t, ts, hs, ht⟩ := ahead_of_peek ‹_›
    exact Derives.nodeAtToken _ (derives_signed hi.opened (hopen hs) (Or.inr ht)) hquiet
  · obtain ⟨t, ts, hs, ht⟩ := ahead_of_peek ‹_›
    exact Derives.nodeAtToken _ (derives_signed hi.opened (hopen hs) (Or.inl ht)) hquiet
  · obtain ⟨t, ts, hs, ht⟩ := ahead_of_peek ‹_›
    exact derives_literal hs (by rw [ht]; rfl) hquiet
  · obtain ⟨t, ts, hs, ht⟩ := ahead_of_peek ‹_›
    exact derives_literal hs (by rw [ht]; rfl) hquiet
  · obtain ⟨t, ts, hs, ht⟩ := ahead_of_peek ‹_›
    exact derives_literal hs (by rw [ht]; rfl) hquiet
  · obtain ⟨t, ts, hs, ht⟩ := ahead_of_peek ‹_›
    exact derives_literal hs (by rw [ht]; rfl) hquiet
  · obtain ⟨t, ts, hs, ht⟩ := ahead_of_peek ‹_›
    exact Derives.nodeAtToken _ (derives_paren hi.opened hp (hopen hs) ht) hquiet
  · obtain ⟨t, ts, hs, ht⟩ := ahead_of_peek ‹_›
    exact derives_composite hq hs (by simp [ht]) hplain hb hquiet
  · obtain ⟨t, ts, hs, ht⟩ := ahead_of_peek ‹_›
    exact derives_composite hq hs (by simp [ht]) hplain hb hquiet
  · obtain ⟨t, ts, hs, ht⟩ := ahead_of_peek ‹_›
    exact derives_composite hq hs (by simp [ht]) hplain hb hquiet
  · exact absurd hquiet (expected_errors_ne _ s)
  · have hr : Retains (s.expected .expression)
        (if (s.expected .expression).seesAny [.rBrace, .rParen, .rBracket, .comma] then s.expected .expression
          else (s.expected .expression).tokenNode .error) :=
      .ite (Retains.refl _) ((Retains.refl _).tokenNode _)
    exact absurd (((Retains.refl s).expected _).quiet hr hquiet).1 (expected_errors_ne _ s)

/-- Without a complaint, expressions and literal bodies pass over what the grammar derives. -/
theorem derives_exprWithin (n : Nat) : ∀ s : State, s.ahead.length < n → Plain s.ahead →
    Derives IsExpr (exprWithin n) s ∧ (s.sees .lBrace = true → Derives IsBody (litBodyWithin n) s) := by
  induction n with
  | zero => exact fun s h => absurd h (Nat.not_lt_zero _)
  | succ n ih =>
    intro s hn hplain
    have hi {u : State} {ts : List Token} (hts : ts ≠ []) (hu : s.ahead = ts ++ u.ahead) :
        Derives IsExpr (exprWithin n) u ∧ (u.sees .lBrace = true → Derives IsBody (litBodyWithin n) u) := by
      have := length_lt_of_append hts hu
      exact ih u (by omega) (Plain.of_append (hu ▸ hplain))
    have hp := remembers_exprWithin n
    have hq := remembers_litBodyWithin n
    rw [exprWithin, litBodyWithin]
    exact ⟨derives_exprWith hp hq hplain (fun u ts hts hu => (hi hts hu).1) fun u ts hts hu => (hi hts hu).2,
      fun hb => derives_litBodyWith (remembers_valueWith hp hq) hb fun u ts hts hu =>
        derives_valueWith (hi hts hu).1 (hi hts hu).2⟩

theorem derives_expr (h : Plain s.ahead) : Derives IsExpr expr s :=
  (derives_exprWithin _ s (Nat.lt_succ_of_le s.length_ahead_le) h).1

end Grammar

end IdlWorkbench
