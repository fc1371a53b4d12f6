import IdlWorkbench.Proofs.Grammar.Phrase

/-!
# Expressions with their line breaks

Whether a literal body held a line break shows in no significant token: it hangs on the blanks and comments
between its braces as well. `DrawsExpr breaks` derives expressions in the grammar of `IsExpr` and takes the line
breaks from `breaks`, which tells for the two braces of a body whether there is one between them. So the
derivations need no blanks, whatever the text has.
-/

namespace IdlWorkbench

def Token.hasBreak (t : Token) : Bool := t.text.toList.contains '\n'

/-! ## Expressions without places -/

section
variable (view : Bool → Bool)

mutual

/-- The expression without the places of its parts, and with what `view` shows of its line breaks. -/
def Expr.traced : Expr → Expr
  | .selector _ q id => .selector .nowhere q id
  | .paren _ inner => .paren .nowhere inner.traced
  | .unary _ op operand => .unary .nowhere op operand.traced
  | .composite _ type tokens body => .composite .nowhere type.unplaced tokens body.traced
  | .type t tokens => .type t.unplaced tokens
  | e => e

def LitBody.traced : LitBody → LitBody
  | ⟨_, multiline, elements⟩ => ⟨.nowhere, view multiline, tracedElements elements⟩

def tracedElements : List Element → List Element
  | [] => []
  | e :: es => e.traced :: tracedElements es

def Element.traced : Element → Element
  | .keyed _ key value => .keyed .nowhere key.traced value.traced
  | .positional _ value => .positional .nowhere value.traced

def ElementValue.traced : ElementValue → ElementValue
  | .missing => .missing
  | .expr e => .expr e.traced
  | .body b => .body b.traced

end

theorem tracedElements_eq (es : List Element) : tracedElements view es = es.map (Element.traced view) := by
  induction es with
  | nil => rw [tracedElements, List.map_nil]
  | cons e es ih => rw [tracedElements, List.map_cons, ih]

end

theorem TypeExpr.unplaced_unplaced (t : TypeExpr) : t.unplaced.unplaced = t.unplaced := by
  induction t using TypeExpr.unplaced.induct <;> simp_all [TypeExpr.unplaced]

mutual

theorem Expr.unplaced_traced (view : Bool → Bool) : ∀ e : Expr, (e.traced view).unplaced = e.unplaced
  | .missing => rfl
  | .literal _ => rfl
  | .name _ => rfl
  | .selector .. => by simp only [Expr.traced, Expr.unplaced]
  | .paren _ inner => by simp only [Expr.traced, Expr.unplaced, Expr.unplaced_traced view inner]
  | .unary _ _ operand => by simp only [Expr.traced, Expr.unplaced, Expr.unplaced_traced view operand]
  | .composite _ _ _ body => by
    simp only [Expr.traced, Expr.unplaced, TypeExpr.unplaced_unplaced, LitBody.unplaced_traced view body]
  | .type .. => by simp only [Expr.traced, Expr.unplaced, TypeExpr.unplaced_unplaced]

theorem LitBody.unplaced_traced (view : Bool → Bool) : ∀ b : LitBody, (b.traced view).unplaced = b.unplaced
  | ⟨_, _, es⟩ => by simp only [LitBody.traced, LitBody.unplaced, unplacedElements_traced view es]

theorem unplacedElements_traced (view : Bool → Bool) : ∀ es : List Element,
    unplacedElements (tracedElements view es) = unplacedElements es
  | [] => rfl
  | e :: es => by
    simp only [tracedElements, unplacedElements, Element.unplaced_traced view e, unplacedElements_traced view es]

theorem Element.unplaced_traced (view : Bool → Bool) : ∀ e : Element, (e.traced view).unplaced = e.unplaced
  | .keyed _ key value => by
    simp only [Element.traced, Element.unplaced, ElementValue.unplaced_traced view key,
      ElementValue.unplaced_traced view value]
  | .positional _ value => by simp only [Element.traced, Element.unplaced, ElementValue.unplaced_traced view value]

theorem ElementValue.unplaced_traced (view : Bool → Bool) : ∀ v : ElementValue, (v.traced view).unplaced = v.unplaced
  | .missing => rfl
  | .expr e => by simp only [ElementValue.traced, ElementValue.unplaced, Expr.unplaced_traced view e]
  | .body b => by simp only [ElementValue.traced, ElementValue.unplaced, LitBody.unplaced_traced view b]

end

namespace Grammar

open Token

/-! ## Derivations -/

mutual

inductive DrawsExpr (breaks : Token → Token → Bool) : List Token → Expr → Prop
  | signed {op ts e} : op.kind = .plus ∨ op.kind = .minus → DrawsExpr breaks ts e →
    DrawsExpr breaks (op :: ts) (.unary .nowhere op e)
  | literal {t} : t.kind.isLiteral = true → DrawsExpr breaks [t] (.literal t)
  | paren {l ts e r} : l.kind = .lParen → DrawsExpr breaks ts e → r.kind = .rParen →
    DrawsExpr breaks (l :: (ts ++ [r])) (.paren .nowhere e)
  | bare {ts t} : IsLitType ts t → DrawsExpr breaks ts (.ofType ts t)
  | composite {ts t bs b} : IsLitType ts t → DrawsBody breaks bs b →
    DrawsExpr breaks (ts ++ bs) (.composite .nowhere t ts b)

inductive DrawsBody (breaks : Token → Token → Bool) : List Token → LitBody → Prop
  | braces {l ts es r} : l.kind = .lBrace → DrawsElements breaks ts es → r.kind = .rBrace →
    DrawsBody breaks (l :: (ts ++ [r])) ⟨.nowhere, breaks l r, es⟩

inductive DrawsElements (breaks : Token → Token → Bool) : List Token → List Element → Prop
  | none : DrawsElements breaks [] []
  | last {ts e} : DrawsElement breaks ts e → DrawsElements breaks ts [e]
  | comma {ts e c us es} : DrawsElement breaks ts e → c.kind = .comma → DrawsElements breaks us es →
    DrawsElements breaks (ts ++ c :: us) (e :: es)

inductive DrawsElement (breaks : Token → Token → Bool) : List Token → Element → Prop
  | positional {ts v} : DrawsValue breaks ts v → DrawsElement breaks ts (.positional .nowhere v)
  | keyed {ks k c vs v} : DrawsValue breaks ks k → c.kind = .colon → DrawsValue breaks vs v →
    DrawsElement breaks (ks ++ c :: vs) (.keyed .nowhere k v)

inductive DrawsValue (breaks : Token → Token → Bool) : List Token → ElementValue → Prop
  | expr {ts e} : DrawsExpr breaks ts e → DrawsValue breaks ts (.expr e)
  | body {ts b} : DrawsBody breaks ts b → DrawsValue breaks ts (.body b)

end

mutual

theorem unplaced_of_isLitType : ∀ {ts : List Token} {t : TypeExpr}, IsLitType ts t → t.unplaced = t
  | _, _, .name _ => by simp [TypeExpr.unplaced]
  | _, _, .selector .. => by rw [TypeExpr.unplaced]
  | _, _, .slice _ _ ht => by rw [TypeExpr.unplaced, unplaced_of_isType ht]
  | _, _, .map _ _ hk _ hv => by rw [TypeExpr.unplaced, unplaced_of_isType hk, unplaced_of_isType hv]

theorem unplaced_of_isType : ∀ {ts : List Token} {t : TypeExpr}, IsType ts t → t.unplaced = t
  | _, _, .lit ht => unplaced_of_isLitType ht
  | _, _, .pointer _ ht => by rw [TypeExpr.unplaced, unplaced_of_isType ht]
  | _, _, .chan _ ht => by rw [TypeExpr.unplaced, unplaced_of_isType ht]

end

theorem unplaced_ofType (ts : List Token) (t : TypeExpr) : (Expr.ofType ts t).unplaced = .ofType ts t.unplaced := by
  cases t <;> simp [Expr.ofType, Expr.unplaced, TypeExpr.unplaced]

theorem traced_ofType (view : Bool → Bool) (ts : List Token) (t : TypeExpr) :
    (Expr.ofType ts t).traced view = .ofType ts t.unplaced := by
  cases t <;> simp [Expr.ofType, Expr.traced, TypeExpr.unplaced]

section
variable (breaks : Token → Token → Bool)

mutual

/-- Whatever the grammar derives can be given line breaks. -/
theorem exists_drawsExpr : ∀ {ts : List Token} {e : Expr}, IsExpr ts e → ∃ x, DrawsExpr breaks ts x ∧ x.unplaced = e
  | _, _, .signed hop he => by
    obtain ⟨x, hx, rfl⟩ := exists_drawsExpr he
    exact ⟨_, .signed hop hx, by rw [Expr.unplaced]⟩
  | _, _, .literal ht => ⟨_, .literal ht, by simp [Expr.unplaced]⟩
  | _, _, .paren hl he hr => by
    obtain ⟨x, hx, rfl⟩ := exists_drawsExpr he
    exact ⟨_, .paren hl hx hr, by rw [Expr.unplaced]⟩
  | _, _, .bare ht => ⟨_, .bare ht, by rw [unplaced_ofType, unplaced_of_isLitType ht]⟩
  | _, _, .composite ht hb => by
    obtain ⟨x, hx, rfl⟩ := exists_drawsBody hb
    exact ⟨_, .composite ht hx, by rw [Expr.unplaced, unplaced_of_isLitType ht]⟩

theorem exists_drawsBody : ∀ {ts : List Token} {b : LitBody}, IsBody ts b → ∃ x,
    DrawsBody breaks ts x ∧ x.unplaced = b
  | _, _, .braces hl hes hr => by
    obtain ⟨xs, hxs, rfl⟩ := exists_drawsElements hes
    exact ⟨_, .braces hl hxs hr, by rw [LitBody.unplaced]⟩

theorem exists_drawsElements : ∀ {ts : List Token} {es : List Element},
    IsElements ts es → ∃ xs, DrawsElements breaks ts xs ∧ unplacedElements xs = es
  | _, _, .none => ⟨_, .none, by rw [unplacedElements]⟩
  | _, _, .last he => by
    obtain ⟨x, hx, rfl⟩ := exists_drawsElement he
    exact ⟨_, .last hx, by rw [unplacedElements, unplacedElements]⟩
  | _, _, .comma he hc hes => by
    obtain ⟨x, hx, rfl⟩ := exists_drawsElement he
    obtain ⟨xs, hxs, rfl⟩ := exists_drawsElements hes
    exact ⟨_, .comma hx hc hxs, by rw [unplacedElements]⟩

theorem exists_drawsElement : ∀ {ts : List Token} {e : Element}, IsElement ts e →
    ∃ x, DrawsElement breaks ts x ∧ x.unplaced = e
  | _, _, .positional hv => by
    obtain ⟨x, hx, rfl⟩ := exists_drawsValue hv
    exact ⟨_, .positional hx, by rw [Element.unplaced]⟩
  | _, _, .keyed hk hc hv => by
    obtain ⟨x, hx, rfl⟩ := exists_drawsValue hk
    obtain ⟨y, hy, rfl⟩ := exists_drawsValue hv
    exact ⟨_, .keyed hx hc hy, by rw [Element.unplaced]⟩

theorem exists_drawsValue : ∀ {ts : List Token} {v : ElementValue}, IsValue ts v →
    ∃ x, DrawsValue breaks ts x ∧ x.unplaced = v
  | _, _, .expr he => by
    obtain ⟨x, hx, rfl⟩ := exists_drawsExpr he
    exact ⟨_, .expr hx, by rw [ElementValue.unplaced]⟩
  | _, _, .body hb => by
    obtain ⟨x, hx, rfl⟩ := exists_drawsBody hb
    exact ⟨_, .body hx, by rw [ElementValue.unplaced]⟩

end

end

/-! ## The line breaks of a text -/

/-- What `view` shows of the line breaks between two tokens of `all` is what `breaks` says. -/
def Shows (view : Bool → Bool) (breaks : Token → Token → Bool) (all : List Token) : Prop :=
  ∀ before l mid r after, all = before ++ (l :: (mid ++ [r])) ++ after →
    breaks l r = view ((l :: (mid ++ [r])).any Token.hasBreak)

/-- Without line breaks every text will do. -/
theorem shows_none (all : List Token) : Shows (fun _ => false) (fun _ _ => false) all := fun _ _ _ _ _ _ => rfl

theorem Shows.inside {view : Bool → Bool} {breaks : Token → Token → Bool} {part all : List Token}
    (h : Shows view breaks all) (hp : part <:+: all) : Shows view breaks part := by
  obtain ⟨x, y, rfl⟩ := hp
  intro before l mid r after hpart
  exact h (x ++ before) l mid r (after ++ y) (by simp [hpart])

def Sorted (ts : List Token) : Prop := ts.Pairwise fun t u => t.offset < u.offset

theorem Sorted.inside {l r : Token} {mid : List Token} (h : Sorted (l :: (mid ++ [r]))) :
    ∀ t ∈ l :: (mid ++ [r]), l.offset ≤ t.offset ∧ t.offset ≤ r.offset := by
  intro t ht
  obtain ⟨hl, hmid⟩ := List.pairwise_cons.mp h
  have hr := (List.pairwise_append.mp hmid).2.2
  rcases List.mem_cons.mp ht with rfl | ht
  · exact ⟨Nat.le_refl _, Nat.le_of_lt (hl r (by simp))⟩
  · refine ⟨Nat.le_of_lt (hl t ht), ?_⟩
    rcases List.mem_append.mp ht with ht | ht
    · exact Nat.le_of_lt (hr t ht r List.mem_cons_self)
    · rw [List.mem_singleton.mp ht]

def breaksIn (all : List Token) (l r : Token) : Bool :=
  all.any fun t => decide (l.offset ≤ t.offset) && decide (t.offset ≤ r.offset) && t.hasBreak

theorem shows_breaksIn {all : List Token} (h : Sorted all) : Shows id (breaksIn all) all := by
  intro before l mid r after hall
  subst hall
  obtain ⟨hfront, -, hafter⟩ := List.pairwise_append.mp h
  obtain ⟨-, hseg, hbefore⟩ := List.pairwise_append.mp hfront
  have hnone {ts : List Token} (hts : ∀ t ∈ ts, t.offset < l.offset ∨ r.offset < t.offset) :
      (ts.any fun t => decide (l.offset ≤ t.offset) && decide (t.offset ≤ r.offset) && t.hasBreak) = false := by
    rw [List.any_eq_false]
    intro t ht
    have := hts t ht
    simp only [Bool.and_eq_true, decide_eq_true_eq]
    omega
  have hinside := Sorted.inside hseg
  have hseg : ((l :: (mid ++ [r])).any fun t => decide (l.offset ≤ t.offset) && decide (t.offset ≤ r.offset)
    && t.hasBreak) =
      (l :: (mid ++ [r])).any Token.hasBreak := by
    rw [Bool.eq_iff_iff, List.any_eq_true, List.any_eq_true]
    exact exists_congr fun t => and_congr_right fun ht => by simp [hinside t ht]
  rw [breaksIn, List.any_append, List.any_append, hseg,
    hnone fun t ht => Or.inl (hbefore t ht l List.mem_cons_self),
    hnone fun t ht => Or.inr (hafter r (by simp) t ht)]
  simp

end Grammar

theorem Token.sorted_of_chained : ∀ {ts : List Token} {start : Nat}, Chained start ts → (∀ t ∈ ts, t.text ≠ "") →
    Grammar.Sorted ts ∧ ∀ t ∈ ts, start ≤ t.offset
  | [], _, _, _ => ⟨.nil, by simp⟩
  | t :: ts, start, h, hne => by
    obtain ⟨rfl, hts⟩ := h
    obtain ⟨hsorted, hle⟩ := sorted_of_chained hts fun u hu => hne u (List.mem_cons_of_mem _ hu)
    have hlt : t.offset < t.stop := by
      have := hne t List.mem_cons_self
      rw [ne_eq, ← String.utf8ByteSize_eq_zero_iff] at this
      rw [Token.stop]
      omega
    refine ⟨List.pairwise_cons.mpr ⟨fun u hu => Nat.lt_of_lt_of_le hlt (hle u hu), hsorted⟩, fun u hu => ?_⟩
    rcases List.mem_cons.mp hu with rfl | hu
    · exact Nat.le_refl _
    · exact Nat.le_of_lt (Nat.lt_of_lt_of_le hlt (hle u hu))

theorem Token.sorted_tokenize (text : String) : Grammar.Sorted (tokenize text) :=
  (sorted_of_chained (scan_chained _ 0 0) (scan_ne_empty _ 0 0)).1

end IdlWorkbench
