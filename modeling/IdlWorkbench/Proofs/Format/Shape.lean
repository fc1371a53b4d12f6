import IdlWorkbench.Format.Expr
import IdlWorkbench.Proofs.Grammar.Drawn

/-!
# The shape of an expression

The shape keeps what an expression says: operators, literals, names, types, and the elements of a literal body
in order. It forgets where all this stands. Of the line breaks it keeps what canonical layout looks at, whether
a body that has elements is spread over lines.
-/

namespace IdlWorkbench

def Token.bare (t : Token) : Token := ⟨t.kind, t.text, 0⟩

@[simp] theorem Token.bare_kind (t : Token) : t.bare.kind = t.kind := rfl

@[simp] theorem Token.bare_text (t : Token) : t.bare.text = t.text := rfl

@[simp] theorem Token.bare_ofList (k : TokenKind) (s : String) (offset : Nat) :
    Token.bare ⟨k, String.ofList s.toList, offset⟩ = ⟨k, s, 0⟩ := by rw [Token.bare, String.ofList_toList]

def TypeExpr.shape : TypeExpr → TypeExpr
  | .name id => .name id.bare
  | .selector _ q id => .selector .nowhere (q.map Token.bare) (id.map Token.bare)
  | .slice _ elem => .slice .nowhere elem.shape
  | .map _ key value => .map .nowhere key.shape value.shape
  | .pointer _ elem => .pointer .nowhere elem.shape
  | .chan _ elem => .chan .nowhere elem.shape
  | t => t

mutual

def Expr.shape : Expr → Expr
  | .missing => .missing
  | .literal t => .literal t.bare
  | .name id => .name id.bare
  | .selector _ q id => .selector .nowhere (q.map Token.bare) (id.map Token.bare)
  | .paren _ inner => .paren .nowhere inner.shape
  | .unary _ op operand => .unary .nowhere op.bare operand.shape
  | .composite _ type tokens body => .composite .nowhere type.shape (tokens.map Token.bare) body.shape
  | .type t tokens => .type t.shape (tokens.map Token.bare)

def LitBody.shape : LitBody → LitBody
  | ⟨_, multiline, elements⟩ => ⟨.nowhere, multiline && !elements.isEmpty, shapesOf elements⟩

def shapesOf : List Element → List Element
  | [] => []
  | e :: es => e.shape :: shapesOf es

def Element.shape : Element → Element
  | .keyed _ key value => .keyed .nowhere key.shape value.shape
  | .positional _ value => .positional .nowhere value.shape

def ElementValue.shape : ElementValue → ElementValue
  | .missing => .missing
  | .expr e => .expr e.shape
  | .body b => .body b.shape

end

@[simp] theorem shapesOf_isEmpty (es : List Element) : (shapesOf es).isEmpty = es.isEmpty := by
  cases es <;> simp [shapesOf]

@[simp] theorem tracedElements_isEmpty (view : Bool → Bool) (es : List Element) :
    (tracedElements view es).isEmpty = es.isEmpty := by cases es <;> simp [tracedElements]

theorem TypeExpr.shape_unplaced (t : TypeExpr) : t.unplaced.shape = t.shape := by
  induction t using TypeExpr.shape.induct <;> simp_all [TypeExpr.shape, TypeExpr.unplaced]

mutual

/-- Line breaks that are traced are part of the shape. -/
theorem Expr.shape_traced : ∀ e : Expr, (e.traced id).shape = e.shape
  | .missing => rfl
  | .literal _ => rfl
  | .name _ => rfl
  | .selector .. => by simp only [Expr.traced, Expr.shape]
  | .paren _ inner => by simp only [Expr.traced, Expr.shape, Expr.shape_traced inner]
  | .unary _ _ operand => by simp only [Expr.traced, Expr.shape, Expr.shape_traced operand]
  | .composite _ _ _ body => by
    simp only [Expr.traced, Expr.shape, TypeExpr.shape_unplaced, LitBody.shape_traced body]
  | .type .. => by simp only [Expr.traced, Expr.shape, TypeExpr.shape_unplaced]

theorem LitBody.shape_traced : ∀ b : LitBody, (b.traced id).shape = b.shape
  | ⟨_, _, es⟩ => by simp only [LitBody.traced, LitBody.shape, id, tracedElements_isEmpty, shapesOf_traced es]

theorem shapesOf_traced : ∀ es : List Element, shapesOf (tracedElements id es) = shapesOf es
  | [] => rfl
  | e :: es => by simp only [tracedElements, shapesOf, Element.shape_traced e, shapesOf_traced es]

theorem Element.shape_traced : ∀ e : Element, (e.traced id).shape = e.shape
  | .keyed _ key value => by
    simp only [Element.traced, Element.shape, ElementValue.shape_traced key, ElementValue.shape_traced value]
  | .positional _ value => by simp only [Element.traced, Element.shape, ElementValue.shape_traced value]

theorem ElementValue.shape_traced : ∀ v : ElementValue, (v.traced id).shape = v.shape
  | .missing => rfl
  | .expr e => by simp only [ElementValue.traced, ElementValue.shape, Expr.shape_traced e]
  | .body b => by simp only [ElementValue.traced, ElementValue.shape, LitBody.shape_traced b]

end

theorem shape_ofType (ts : List Token) (t : TypeExpr) :
    (Expr.ofType ts t).shape = .ofType (ts.map Token.bare) t.shape := by
  cases t <;> simp [Expr.ofType, Expr.shape, TypeExpr.shape]

namespace Format

/-! ## Texts hang on shapes -/

theorem typeText_bare (ts : List Token) : typeText (ts.map Token.bare) = typeText ts := by
  rw [typeText, typeText, List.map_map]
  rfl

theorem tokenText_bare (t : Option Token) : tokenText (t.map Token.bare) = tokenText t := by
  cases t <;> rfl

def elementText (depth : Nat) (unit : String) : Element → ElementText
  | .keyed _ key value => .keyed (valueText depth unit key ++ ":") (valueText depth unit value)
  | .positional _ value => .single (valueText depth unit value)

theorem elementTexts_eq (depth : Nat) (unit : String) (es : List Element) :
    elementTexts depth unit es = es.map (elementText depth unit) := by
  induction es with
  | nil => rfl
  | cons e es ih => cases e <;> simp only [elementTexts, List.map_cons, elementText, ih]

mutual

/-- Expressions of the same shape are written in the same way. -/
theorem exprText_shape (depth : Nat) (unit : String) : ∀ e : Expr,
    exprText depth unit e.shape = exprText depth unit e
  | .missing => rfl
  | .literal _ => rfl
  | .name _ => rfl
  | .selector .. => by simp only [Expr.shape, exprText, selectorText, tokenText_bare]
  | .paren _ inner => by simp only [Expr.shape, exprText, exprText_shape depth unit inner]
  | .unary _ _ operand => by simp only [Expr.shape, exprText, Token.bare_text, exprText_shape depth unit operand]
  | .composite _ _ _ body => by simp only [Expr.shape, exprText, typeText_bare, litBodyText_shape depth unit body]
  | .type .. => by simp only [Expr.shape, exprText, typeText_bare]

theorem litBodyText_shape (depth : Nat) (unit : String) : ∀ b : LitBody,
    litBodyText depth unit b.shape = litBodyText depth unit b
  | ⟨_, multiline, []⟩ => by simp [LitBody.shape, litBodyText, shapesOf, elementTexts, bodyText]
  | ⟨_, multiline, e :: es⟩ => by
    simp only [LitBody.shape, litBodyText, List.isEmpty_cons, Bool.not_false, Bool.and_true,
      elementTexts_shape _ unit (e :: es)]

theorem elementTexts_shape (depth : Nat) (unit : String) : ∀ es : List Element,
    elementTexts depth unit (shapesOf es) = elementTexts depth unit es
  | [] => rfl
  | .keyed _ key value :: es => by
    simp only [shapesOf, Element.shape, elementTexts, valueText_shape depth unit key,
      valueText_shape depth unit value,
      elementTexts_shape depth unit es]
  | .positional _ value :: es => by
    simp only [shapesOf, Element.shape, elementTexts, valueText_shape depth unit value,
      elementTexts_shape depth unit es]

theorem valueText_shape (depth : Nat) (unit : String) : ∀ v : ElementValue,
    valueText depth unit v.shape = valueText depth unit v
  | .missing => rfl
  | .expr e => by simp only [ElementValue.shape, valueText, exprText_shape depth unit e]
  | .body b => by simp only [ElementValue.shape, valueText, litBodyText_shape depth unit b]

end

end Format

end IdlWorkbench
