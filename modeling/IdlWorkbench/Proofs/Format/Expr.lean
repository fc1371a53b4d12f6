import IdlWorkbench.Proofs.Format.Shape
import IdlWorkbench.Proofs.Grammar.Accept
import IdlWorkbench.Proofs.Token.Stand
import Mathlib.Data.List.Forall2

/-!
# Printed expressions parse back

A printed expression is scanned piece by piece: what is printed of each part is cut into tokens by itself, and
these derive a part of the same shape.
-/

namespace IdlWorkbench.Format

open Token Grammar

variable {follow : List Char → Prop} {Q Q' : List Token → Prop} {w : List Char} {breaks : Token → Token → Bool}
  {ts : List Token} {unit : String}

/-- What is printed of an expression, cut into tokens as `Q` says. It starts with no blank. -/
structure Prints (Q : List Token → Prop) (w : List Char) : Prop where
  visible : ∃ c cs, w = c :: cs ∧ isBlank c = false
  cuts : Cuts Follows Q w

theorem Prints.mono (h : Prints Q w) (hQ : ∀ ts, Q ts → Q' ts) : Prints Q' w :=
  ⟨h.visible, h.cuts.mono (fun _ h => h) hQ⟩

theorem Prints.visible_append (h : Prints Q w) (rest : List Char) : Visible (w ++ rest) := by
  obtain ⟨c, cs, rfl, hc⟩ := h.visible
  intro d hd
  obtain rfl : c = d := by simpa using hd
  exact hc

/-- The tokens can be written into another text. -/
def Standing (ts : List Token) : Prop := ∀ t ∈ ts, t.kind ≠ .error → Stands t.kind t.text.toList

theorem Standing.mono {us : List Token} (h : Standing ts) (hus : us ⊆ ts) : Standing us := fun t ht => h t (hus ht)

theorem significant_cons {k : TokenKind} {text : String} {offset : Nat} {us : List Token} (h : k.isTrivia = false) :
    significant (⟨k, text, offset⟩ :: us) = ⟨k, text, offset⟩ :: significant us :=
  List.filter_cons_of_pos (by simp [Token.isTrivia, h])

/-! ## Single tokens -/

section
variable {t : Token} (h : Stands t.kind t.text.toList)
include h

theorem visible_of_stands (ht : t.kind.isTrivia = false) (w : List Char) :
    ∃ c cs, t.text.toList ++ w = c :: cs ∧ isBlank c = false := by
  obtain ⟨c, cs, hcs, hc⟩ := h.head (by rintro hk; simp [hk, TokenKind.isTrivia] at ht)
  exact ⟨c, cs ++ w, by rw [hcs, List.cons_append], hc⟩

theorem prints_token (ht : t.kind.isTrivia = false) :
    Prints (fun us => ∃ offset, us = [⟨t.kind, t.text, offset⟩]) t.text.toList where
  visible := by simpa using visible_of_stands h ht []
  cuts := (cuts_token h).mono (fun _ hrest => hrest.ends _) fun us hus => by rwa [String.ofList_toList] at hus

/-- In front of anything stands a token that nothing goes on. -/
theorem cuts_mark (hk : ∀ c, runsOn t.kind c = false) (hw : Cuts follow Q w) :
    Cuts follow (fun us => ∃ offset vs, us = ⟨t.kind, t.text, offset⟩ :: vs ∧ Q vs) (t.text.toList ++ w) := by
  refine ((cuts_token h).append hw fun _ _ c _ => hk c).mono (fun _ h => h) ?_
  rintro us ⟨_, vs, rfl, ⟨offset, rfl⟩, hvs⟩
  exact ⟨offset, vs, by rw [String.ofList_toList]; rfl, hvs⟩

end

/-! ## Types -/

theorem toList_typeText (ts : List Token) :
    (typeText ts).toList = ts.flatMap fun t => if t.kind = .chanKw then t.text.toList ++
    [' '] else t.text.toList := by
  rw [typeText, String.toList_join, List.flatMap_map]
  refine List.flatMap_congr fun t _ => ?_
  split <;> simp [String.toList_append]

theorem toList_typeText_append (ts us : List Token) :
    (typeText (ts ++ us)).toList = (typeText ts).toList ++ (typeText us).toList := by
  rw [toList_typeText, List.flatMap_append, ← toList_typeText, ← toList_typeText]

theorem toList_typeText_cons {t : Token} (ht : t.kind ≠ .chanKw) (ts : List Token) :
    (typeText (t :: ts)).toList = t.text.toList ++ (typeText ts).toList := by
  rw [toList_typeText, List.flatMap_cons, if_neg ht, ← toList_typeText]

theorem typeText_nil : (typeText []).toList = [] := rfl

def RereadsType (R : List Token → TypeExpr → Prop) (ts : List Token) (t : TypeExpr) (us : List Token) : Prop :=
  ∃ t', R (significant us) t' ∧ t'.shape = t.shape ∧ (significant us).map Token.bare = ts.map Token.bare

theorem prints_name {id : Token} (hid : id.kind = .ident) (hstand : Standing [id]) :
    Prints (RereadsType IsLitType [id] (.name id)) (typeText [id]).toList := by
  have htrivia : id.kind.isTrivia = false := by rw [hid]; rfl
  rw [toList_typeText_cons (by simp [hid]), typeText_nil, List.append_nil]
  refine (prints_token (hstand id (by simp) (by simp [hid])) htrivia).mono ?_
  rintro us ⟨offset, rfl⟩
  rw [RereadsType, significant_cons htrivia]
  exact ⟨_, .name hid, rfl, rfl⟩

theorem prints_selector {q dot id : Token} (hq : q.kind = .ident) (hdot : dot.kind = .dot) (hid : id.kind = .ident)
    (hstand : Standing [q, dot, id]) :
    Prints (RereadsType IsLitType [q, dot, id] (.selector .nowhere (some q) (some id)))
      (typeText [q, dot, id]).toList := by
  have hsq := hstand q (by simp) (by simp [hq])
  have hsdot := hstand dot (by simp) (by simp [hdot])
  have hqt : q.kind.isTrivia = false := by rw [hq]; rfl
  have hdt : dot.kind.isTrivia = false := by rw [hdot]; rfl
  have hit : id.kind.isTrivia = false := by rw [hid]; rfl
  rw [toList_typeText_cons (by simp [hq]), toList_typeText_cons (by simp [hdot]),
    toList_typeText_cons (by simp [hid]),
    typeText_nil, List.append_nil]
  refine ⟨visible_of_stands hsq hqt _, ?_⟩
  have hrest := cuts_mark hsdot (by rw [hdot]; exact fun _ => rfl)
    (prints_token (hstand id (by simp) (by simp [hid])) hit).cuts
  refine ((cuts_token hsq).append hrest fun rest _ => ?_).mono (fun _ h => h) ?_
  · rw [hdot] at hsdot
    rw [hsdot.eq_dot, hq]
    intro c hc
    obtain rfl : '.' = c := by simpa using hc
    rfl
  · rintro us ⟨_, _, rfl, ⟨o, rfl⟩, o', _, rfl, o'', rfl⟩
    rw [String.ofList_toList, List.singleton_append, RereadsType, significant_cons hqt, significant_cons hdt,
      significant_cons hit]
    exact ⟨_, .selector hq hdot hid, rfl, rfl⟩

section
variable {t : TypeExpr}

theorem prints_slice {l r : Token} (hl : l.kind = .lBracket) (hr : r.kind = .rBracket)
    (hstand : Standing (l :: r :: ts))
    (ht : Prints (RereadsType IsType ts t) (typeText ts).toList) :
    Prints (RereadsType IsLitType (l :: r :: ts) (.slice .nowhere t)) (typeText (l :: r :: ts)).toList := by
  have hsl := hstand l (by simp) (by simp [hl])
  have hsr := hstand r (by simp) (by simp [hr])
  have hlt : l.kind.isTrivia = false := by rw [hl]; rfl
  have hrt : r.kind.isTrivia = false := by rw [hr]; rfl
  rw [toList_typeText_cons (by simp [hl]), toList_typeText_cons (by simp [hr])]
  refine ⟨visible_of_stands hsl hlt _, ?_⟩
  refine (cuts_mark hsl (by rw [hl]; exact fun _ => rfl)
    (cuts_mark hsr (by rw [hr]; exact fun _ => rfl) ht.cuts)).mono (fun _ h => h) ?_
  rintro us ⟨o, _, rfl, o', vs, rfl, t', ht', hshape, hcopy⟩
  rw [RereadsType, significant_cons hlt, significant_cons hrt]
  exact ⟨_, .slice hl hr ht', by rw [TypeExpr.shape, TypeExpr.shape, hshape],
    by rw [List.map_cons, List.map_cons, hcopy]; rfl⟩

theorem prints_map {m l r : Token} {ks vs : List Token} {k v : TypeExpr} (hm : m.kind = .mapKw)
    (hl : l.kind = .lBracket)
    (hr : r.kind = .rBracket) (hstand : Standing (m :: l :: (ks ++ r :: vs)))
    (hk : Prints (RereadsType IsType ks k) (typeText ks).toList)
    (hv : Prints (RereadsType IsType vs v) (typeText vs).toList) :
    Prints (RereadsType IsLitType (m :: l :: (ks ++ r :: vs)) (.map .nowhere k v))
      (typeText (m :: l :: (ks ++ r :: vs))).toList := by
  have hsm := hstand m (by simp) (by simp [hm])
  have hsl := hstand l (by simp) (by simp [hl])
  have hsr := hstand r (by simp) (by simp [hr])
  have hmt : m.kind.isTrivia = false := by rw [hm]; rfl
  have hlt : l.kind.isTrivia = false := by rw [hl]; rfl
  have hrt : r.kind.isTrivia = false := by rw [hr]; rfl
  have hlk : ∀ c, runsOn l.kind c = false := by rw [hl]; exact fun _ => rfl
  have hrk : ∀ c, runsOn r.kind c = false := by rw [hr]; exact fun _ => rfl
  rw [toList_typeText_cons (by simp [hm]), toList_typeText_cons (by simp [hl]), toList_typeText_append,
    toList_typeText_cons (by simp [hr])]
  refine ⟨visible_of_stands hsm hmt _, ?_⟩
  have hbehind := hk.cuts.append (cuts_mark hsr hrk hv.cuts) fun rest _ => by
    rw [List.append_assoc]
    exact hsr.follows hrk (by simp [hr]) _
  refine ((cuts_token hsm).append (cuts_mark hsl hlk hbehind) fun rest _ => ?_).mono (fun _ h => h) ?_
  · rw [List.append_assoc]
    exact (hsl.follows hlk (by simp [hl]) _).ends _
  · rintro us ⟨_, _, rfl, ⟨o, rfl⟩, o', _, rfl, _, _, rfl, ⟨k', hk', hks, hkc⟩, o'', _, rfl, v', hv', hvs, hvc⟩
    rw [String.ofList_toList, List.singleton_append, RereadsType, significant_cons hmt, significant_cons hlt,
      significant_append, significant_cons hrt]
    exact ⟨_, .map hm hl hk' hr hv', by rw [TypeExpr.shape, TypeExpr.shape, hks, hvs],
      by simp only [List.map_cons, List.map_append, hkc, hvc]; rfl⟩

theorem prints_pointer {star : Token} (hstar : star.kind = .star) (hstand : Standing (star :: ts))
    (ht : Prints (RereadsType IsType ts t) (typeText ts).toList) :
    Prints (RereadsType IsType (star :: ts) (.pointer .nowhere t)) (typeText (star :: ts)).toList := by
  have hs := hstand star (by simp) (by simp [hstar])
  have htrivia : star.kind.isTrivia = false := by rw [hstar]; rfl
  rw [toList_typeText_cons (by simp [hstar])]
  refine ⟨visible_of_stands hs htrivia _, ?_⟩
  refine (cuts_mark hs (by rw [hstar]; exact fun _ => rfl) ht.cuts).mono (fun _ h => h) ?_
  rintro us ⟨o, vs, rfl, t', ht', hshape, hcopy⟩
  rw [RereadsType, significant_cons htrivia]
  exact ⟨_, .pointer hstar ht', by rw [TypeExpr.shape, TypeExpr.shape, hshape], by rw [List.map_cons, hcopy]; rfl⟩

/-- Only behind the keyword of a channel stands a blank. -/
theorem prints_chan {kw : Token} (hkw : kw.kind = .chanKw) (hstand : Standing (kw :: ts))
    (ht : Prints (RereadsType IsType ts t) (typeText ts).toList) :
    Prints (RereadsType IsType (kw :: ts) (.chan .nowhere t)) (typeText (kw :: ts)).toList := by
  have hs := hstand kw (by simp) (by simp [hkw])
  have htrivia : kw.kind.isTrivia = false := by rw [hkw]; rfl
  rw [toList_typeText, List.flatMap_cons, if_pos hkw, ← toList_typeText, List.append_assoc]
  refine ⟨visible_of_stands hs htrivia _, ?_⟩
  have hblank := (cuts_blanks (w := [' ']) (by simp [isBlank])).append ht.cuts fun rest _ => ht.visible_append rest
  refine ((cuts_token hs).append hblank fun rest _ => ?_).mono (fun _ h => h) ?_
  · rw [hkw]
    intro c hc
    obtain rfl : ' ' = c := by simpa using hc
    rfl
  · rintro us ⟨_, _, rfl, ⟨o, rfl⟩, _, _, rfl, hblank, t', ht', hshape, hcopy⟩
    rw [String.ofList_toList, List.singleton_append, RereadsType, significant_cons htrivia,
      significant_append, hblank,
      List.nil_append]
    exact ⟨_, .chan hkw ht', by rw [TypeExpr.shape, TypeExpr.shape, hshape], by rw [List.map_cons, hcopy]; rfl⟩

end

mutual

theorem prints_litType : ∀ {ts : List Token} {t : TypeExpr},
    IsLitType ts t → Standing ts → Prints (RereadsType IsLitType ts t) (typeText ts).toList
  | _, _, .name hid, hstand => prints_name hid hstand
  | _, _, .selector hq hdot hid, hstand => prints_selector hq hdot hid hstand
  | _, _, .slice hl hr ht, hstand => prints_slice hl hr hstand (prints_type ht (hstand.mono (by simp)))
  | _, _, .map hm hl hk hr hv, hstand =>
    prints_map hm hl hr hstand (prints_type hk (hstand.mono fun _ h => by simp [h]))
      (prints_type hv (hstand.mono fun _ h => by simp [h]))

theorem prints_type : ∀ {ts : List Token} {t : TypeExpr}, IsType ts t → Standing ts →
    Prints (RereadsType IsType ts t) (typeText ts).toList
  | _, _, .lit ht, hstand => by
    refine (prints_litType ht hstand).mono ?_
    rintro us ⟨t', ht', hshape⟩
    exact ⟨t', .lit ht', hshape⟩
  | _, _, .pointer hstar ht, hstand => prints_pointer hstar hstand (prints_type ht (hstand.mono (by simp)))
  | _, _, .chan hkw ht, hstand => prints_chan hkw hstand (prints_type ht (hstand.mono (by simp)))

end

/-! ## Expressions -/

/-- Whatever tells their line breaks, the tokens derive something of the shape of `a`. -/
def Redraws {α : Type} (R : (Token → Token → Bool) → List Token → α → Prop) (shape : α → α) (a : α)
    (us : List Token) : Prop :=
  ∀ breaks, Shows id breaks us → ∃ x, R breaks (significant us) x ∧ shape x = shape a

/-- Blanks in front of what is printed change nothing. -/
theorem cuts_behind {α : Type} {R : (Token → Token → Bool) → List Token → α → Prop} {shape : α → α} {a : α}
    {pad : List Char} (hpad : ∀ c ∈ pad, isBlank c = true) (hw : Cuts follow (Redraws R shape a) w)
    (hvisible : ∀ rest, Visible (w ++ rest)) : Cuts follow (Redraws R shape a) (pad ++ w) := by
  refine ((cuts_blanks hpad).append hw fun rest _ => hvisible rest).mono (fun _ h => h) ?_
  rintro us ⟨bs, vs, rfl, hbs, hvs⟩ breaks hshows
  rw [significant_append, hbs, List.nil_append]
  exact hvs breaks (hshows.inside (List.suffix_append ..).isInfix)

/-- So do blanks behind it. -/
theorem cuts_before {α : Type} {R : (Token → Token → Bool) → List Token → α → Prop} {shape : α → α} {a : α}
    {pad : List Char} (hw : Cuts follow (Redraws R shape a) w) (hpad : ∀ c ∈ pad, isBlank c = true)
    (hf : ∀ rest, follow (pad ++ rest)) : Cuts Visible (Redraws R shape a) (w ++ pad) := by
  refine (hw.append (cuts_blanks hpad) fun rest _ => hf rest).mono (fun _ h => h) ?_
  rintro us ⟨vs, bs, rfl, hvs, hbs⟩ breaks hshows
  rw [significant_append, hbs, List.append_nil]
  exact hvs breaks (hshows.inside (List.prefix_append ..).isInfix)

theorem cuts_lead {c : Char} {k : TokenKind} (hc : punctuation? c = some k) (hw : Cuts follow Q w) :
    Cuts follow (fun us => ∃ offset vs, us = ⟨k, String.ofList [c], offset⟩ :: vs ∧ Q vs) (c :: w) := by
  refine ((cuts_punctuation hc).append hw fun _ _ => trivial).mono (fun _ h => h) ?_
  rintro us ⟨_, vs, rfl, ⟨offset, rfl⟩, hvs⟩
  exact ⟨offset, vs, rfl, hvs⟩

/-- Behind a stretch stands a character that is a token. -/
theorem cuts_trail {c : Char} {k : TokenKind} (hc : punctuation? c = some k) (hw : Cuts follow Q w)
    (hf : ∀ rest, follow (c :: rest)) : Cuts (fun _ => True)
      (fun us => ∃ offset vs, us = vs ++ [⟨k, String.ofList [c], offset⟩] ∧ Q vs) (w ++ [c]) := by
  refine (hw.append (cuts_punctuation hc) fun rest _ => hf rest).mono (fun _ h => h) ?_
  rintro us ⟨vs, _, rfl, hvs, offset, rfl⟩
  exact ⟨offset, vs, rfl, hvs⟩

theorem follows_cons {c : Char} (h : isIdentRest c = false ∧ c ≠ '.') (rest : List Char) : Follows (c :: rest) := by
  intro d hd
  obtain rfl : c = d := by simpa using hd
  exact h

section
variable {e : Expr}

theorem prints_literal {t : Token} (ht : t.kind.isLiteral = true) (hstand : Standing [t]) :
    Prints (Redraws DrawsExpr Expr.shape (.literal t)) t.text.toList := by
  have htrivia : t.kind.isTrivia = false := by
    revert ht; cases t.kind <;> simp [TokenKind.isLiteral, TokenKind.isTrivia, TokenKind.isComment]
  have hstands := hstand t (by simp) (by intro hk; rw [hk] at ht; cases ht)
  refine (prints_token hstands htrivia).mono ?_
  rintro us ⟨offset, rfl⟩ breaks -
  rw [significant_cons htrivia]
  exact ⟨_, .literal ht, rfl⟩

theorem prints_signed {op : Token} (hop : op.kind = .plus ∨ op.kind = .minus) (hstand : Standing (op :: ts))
    (h : Prints (Redraws DrawsExpr Expr.shape e) w) :
    Prints (Redraws DrawsExpr Expr.shape (.unary .nowhere op e)) (op.text.toList ++ w) := by
  have htrivia : op.kind.isTrivia = false := by rcases hop with hk | hk <;> rw [hk] <;> rfl
  have hs := hstand op (by simp) (by rcases hop with hk | hk <;> simp [hk])
  refine ⟨visible_of_stands hs htrivia w, ?_⟩
  refine (cuts_mark hs (by rcases hop with hk | hk <;> rw [hk] <;> exact fun _ => rfl) h.cuts).mono (fun _ h => h) ?_
  rintro us ⟨offset, vs, rfl, hvs⟩ breaks hshows
  obtain ⟨x, hx, hshape⟩ := hvs breaks (hshows.inside (List.suffix_cons ..).isInfix)
  rw [significant_cons htrivia]
  exact ⟨_, .signed hop hx, by rw [Expr.shape, Expr.shape, hshape]; rfl⟩

theorem prints_paren (h : Prints (Redraws DrawsExpr Expr.shape e) w) :
    Prints (Redraws DrawsExpr Expr.shape (.paren .nowhere e)) ('(' :: (w ++ [')'])) := by
  refine ⟨⟨_, _, rfl, rfl⟩, ?_⟩
  have hw := cuts_trail (c := ')') rfl h.cuts fun rest => follows_cons (by decide) rest
  refine (cuts_lead (c := '(') rfl hw).mono (fun _ _ => trivial) ?_
  rintro us ⟨o, _, rfl, o', vs, rfl, hvs⟩ breaks hshows
  obtain ⟨x, hx, hshape⟩ := hvs breaks (hshows.inside ⟨[_], [_], rfl⟩)
  rw [significant_cons rfl, significant_append, significant_cons rfl]
  exact ⟨_, .paren rfl hx rfl, by rw [Expr.shape, Expr.shape, hshape]⟩

theorem prints_bare {t : TypeExpr} (h : Prints (RereadsType IsLitType ts t) w) :
    Prints (Redraws DrawsExpr Expr.shape (.ofType ts t)) w := by
  refine h.mono ?_
  rintro us ⟨t', ht', hshape, hcopy⟩ breaks -
  exact ⟨_, .bare ht', by rw [shape_ofType, shape_ofType, hshape, hcopy]⟩

theorem prints_composite {t : TypeExpr} {b : LitBody} {w' : List Char} (h : Prints (RereadsType IsLitType ts t) w)
    (hb : Prints (Redraws DrawsBody LitBody.shape b) ('\x7b' :: w')) :
    Prints (Redraws DrawsExpr Expr.shape (.composite .nowhere t ts b)) (w ++ '\x7b' :: w') := by
  obtain ⟨c, cs, rfl, hc⟩ := h.visible
  refine ⟨⟨c, _, List.cons_append, hc⟩, ?_⟩
  refine (h.cuts.append hb.cuts fun rest _ => follows_cons (by decide) _).mono (fun _ h => h) ?_
  rintro us ⟨as, bs, rfl, ⟨t', ht', htshape, hcopy⟩, hbs⟩ breaks hshows
  obtain ⟨x, hx, hshape⟩ := hbs breaks (hshows.inside (List.suffix_append ..).isInfix)
  rw [significant_append]
  exact ⟨_, .composite ht' hx, by rw [Expr.shape, Expr.shape, htshape, hcopy, hshape]⟩

theorem any_hasBreak (us : List Token) : us.any Token.hasBreak = (us.flatMap (·.text.toList)).contains '\n' := by
  rw [Bool.eq_iff_iff]
  simp [Token.hasBreak]

/-- The line breaks of a body show between its braces. -/
theorem prints_braces {range : ByteRange} {multiline : Bool} {es : List Element}
    (h : Cuts follow (Redraws DrawsElements shapesOf es) w) (hf : ∀ rest, follow ('\x7d' :: rest))
    (hflag : es ≠ [] → multiline = w.contains '\n') :
    Prints (Redraws DrawsBody LitBody.shape ⟨range, multiline, es⟩) ('\x7b' :: (w ++ ['\x7d'])) := by
  refine ⟨⟨_, _, rfl, by decide⟩, ?_⟩
  refine (cuts_lead (c := '\x7b') rfl (cuts_trail (c := '\x7d') rfl h.chars hf)).mono (fun _ _ => trivial) ?_
  rintro us ⟨o, _, rfl, o', vs, rfl, hvs, hchars⟩ breaks hshows
  obtain ⟨xs, hxs, hshape⟩ := hvs breaks (hshows.inside ⟨[_], [_], rfl⟩)
  have hbreaks := hshows [] _ vs _ [] (List.append_nil _).symm
  rw [significant_cons rfl, significant_append, significant_cons rfl]
  refine ⟨_, .braces rfl hxs rfl, ?_⟩
  have hempty : xs.isEmpty = es.isEmpty := by rw [← shapesOf_isEmpty xs, hshape, shapesOf_isEmpty]
  rw [LitBody.shape, LitBody.shape, hshape, hempty, hbreaks, List.any_cons, List.any_append, any_hasBreak, hchars]
  cases es with
  | nil => simp
  | cons e es =>
    rw [hflag (List.cons_ne_nil e es)]
    simp [Token.hasBreak]

end

/-! ## Elements -/

/-- `w` is the text of an element; any number of blanks may stand behind its key. -/
def Spells (w : List Char) : ElementText → Prop
  | .single value => w = value.toList
  | .keyed key value => ∃ pad, (∀ c ∈ pad, c = ' ') ∧ w = key.toList ++ (pad ++ value.toList)

theorem spells_oneLine : ∀ el : ElementText, Spells el.oneLine.toList el
  | .single _ => rfl
  | .keyed key value => ⟨[' '], by simp, by simp [ElementText.oneLine]⟩

theorem mem_repeatText {n : Nat} {c : Char} (h : c ∈ (repeatText n unit).toList) : c ∈ unit.toList := by
  rw [repeatText, String.toList_join, List.mem_flatMap] at h
  obtain ⟨s, hs, hc⟩ := h
  rwa [List.eq_of_mem_replicate hs] at hc

/-- A line of a body: an element behind the indentation, with a comma. -/
def IsLine (indent : String) (el : ElementText) (line : String) : Prop :=
  ∃ w, Spells w el ∧ line.toList = indent.toList ++ (w ++ [','])

theorem isLine_keyed (indent : String) (pairs : List (String × String)) :
    List.Forall₂ (IsLine indent) (pairs.map fun p => .keyed p.1 p.2) (keyedLines indent pairs) := by
  rw [keyedLines, List.forall₂_map_left_iff, List.forall₂_map_right_iff, List.forall₂_same]
  rintro ⟨key, value⟩ -
  refine ⟨_, ⟨(padding (widest (pairs.map (·.1))) key).toList ++ [' '], fun c hc => ?_, rfl⟩, by simp⟩
  rcases List.mem_append.mp hc with hc | hc
  · simpa using mem_repeatText hc
  · exact List.mem_singleton.mp hc

/-- Aligned or not, the elements have a line each. -/
theorem isLine_elements (indent : String) : ∀ (els : List ElementText) (pending : List (String × String)),
    List.Forall₂ (IsLine indent) (pending.reverse.map (fun p => .keyed p.1 p.2) ++ els)
      (elementLines indent pending els)
  | [], pending => by
    rw [elementLines, List.append_nil]
    exact isLine_keyed indent _
  | .single value :: els, pending => by
    rw [elementLines]
    refine List.rel_append (isLine_keyed indent _) (.cons ⟨_, rfl, by simp⟩ ?_)
    exact isLine_elements indent els []
  | .keyed key value :: els, pending => by
    rw [elementLines]
    split
    · refine List.rel_append (isLine_keyed indent _) (.cons ⟨_, ⟨[' '], by simp, rfl⟩, by simp⟩ ?_)
      exact isLine_elements indent els []
    · simpa using isLine_elements indent els ((key, value) :: pending)

section
variable {depth : Nat}

theorem prints_positional {range : ByteRange} {v : ElementValue}
    (h : Prints (Redraws DrawsValue ElementValue.shape v) (valueText depth unit v).toList)
    (hw : Spells w (elementText depth unit (.positional range v))) :
    Prints (Redraws DrawsElement Element.shape (.positional range v)) w := by
  subst hw
  refine h.mono fun us hus breaks hshows => ?_
  obtain ⟨x, hx, hshape⟩ := hus breaks hshows
  exact ⟨_, .positional hx, by rw [Element.shape, Element.shape, hshape]⟩

theorem prints_keyed {range : ByteRange} {k v : ElementValue}
    (hk : Prints (Redraws DrawsValue ElementValue.shape k) (valueText depth unit k).toList)
    (hv : Prints (Redraws DrawsValue ElementValue.shape v) (valueText depth unit v).toList)
    (hw : Spells w (elementText depth unit (.keyed range k v))) :
    Prints (Redraws DrawsElement Element.shape (.keyed range k v)) w := by
  obtain ⟨pad, hpad, rfl⟩ := hw
  rw [String.toList_append, List.append_assoc, show ":".toList = [':'] from rfl, List.singleton_append]
  have hblank : ∀ c ∈ pad, isBlank c = true := fun c hc => by rw [hpad c hc]; rfl
  have hvalue := cuts_behind hblank hv.cuts hv.visible_append
  obtain ⟨c, cs, hcs, hc⟩ := hk.visible
  refine ⟨⟨c, _, by rw [hcs, List.cons_append], hc⟩, ?_⟩
  refine (hk.cuts.append (cuts_lead (c := ':') rfl hvalue) fun rest _ => follows_cons (by decide) _).mono
    (fun _ h => h) ?_
  rintro us ⟨ks, _, rfl, hks, o, vs, rfl, hvs⟩ breaks hshows
  obtain ⟨x, hx, hxshape⟩ := hks breaks (hshows.inside (List.prefix_append ..).isInfix)
  obtain ⟨y, hy, hyshape⟩ :=
    hvs breaks (hshows.inside ((List.suffix_cons _ vs).trans (List.suffix_append ks _)).isInfix)
  rw [significant_append, significant_cons rfl]
  exact ⟨_, .keyed hx rfl hy, by rw [Element.shape, Element.shape, hxshape, hyshape]⟩

end

abbrev PrintsEach (es : List Element) (ws : List (List Char)) : Prop :=
  List.Forall₂ (fun e w => Prints (Redraws DrawsElement Element.shape e) w) es ws

theorem cuts_comma {e : Element} {es : List Element} {w' : List Char}
    (h : Prints (Redraws DrawsElement Element.shape e) w) (hs : Cuts follow (Redraws DrawsElements shapesOf es) w') :
    Cuts follow (Redraws DrawsElements shapesOf (e :: es)) (w ++ ',' :: w') := by
  refine (h.cuts.append (cuts_lead (c := ',') rfl hs) fun rest _ => follows_cons (by decide) _).mono
    (fun _ h => h) ?_
  rintro us ⟨as, _, rfl, has, o, vs, rfl, hvs⟩ breaks hshows
  obtain ⟨x, hx, hxshape⟩ := has breaks (hshows.inside (List.prefix_append ..).isInfix)
  obtain ⟨y, hy, hyshape⟩ :=
    hvs breaks (hshows.inside ((List.suffix_cons _ vs).trans (List.suffix_append as _)).isInfix)
  rw [significant_append, significant_cons rfl]
  exact ⟨_, .comma hx rfl hy, by rw [shapesOf, shapesOf, hxshape, hyshape]⟩

theorem prints_inline : ∀ {e : Element} {es : List Element} {ws : List (List Char)},
    PrintsEach (e :: es) ws → Prints (Redraws DrawsElements shapesOf (e :: es)) ([',', ' '].intercalate ws)
  | e, [], _, .cons h .nil => by
    rw [List.intercalate_singleton]
    refine h.mono fun us hus breaks hshows => ?_
    obtain ⟨x, hx, hshape⟩ := hus breaks hshows
    exact ⟨_, .last hx, by simp only [shapesOf, hshape]⟩
  | e, f :: es, _, .cons h (.cons h' hs) => by
    have hrest := prints_inline (.cons h' hs)
    obtain ⟨c, cs, hcs, hc⟩ := h.visible
    have hblank : ∀ c ∈ [' '], isBlank c = true := by simp [isBlank]
    rw [List.intercalate_cons_cons, List.append_assoc]
    exact ⟨⟨c, _, by rw [hcs, List.cons_append], hc⟩,
      cuts_comma h (cuts_behind hblank hrest.cuts hrest.visible_append)⟩

theorem cuts_lines {indent : List Char} (hindent : ∀ c ∈ indent, isBlank c = true) {es : List Element}
    {ws : List (List Char)} (h : PrintsEach es ws) :
    Cuts (fun _ => True) (Redraws DrawsElements shapesOf es)
      (ws.flatMap fun w => '\n' :: (indent ++ (w ++ [',']))) := by
  induction h with
  | nil =>
    refine cuts_nil.mono (fun _ h => h) ?_
    rintro us rfl breaks -
    exact ⟨[], .none, rfl⟩
  | cons h _ ih =>
    have hpad : ∀ c ∈ '\n' :: indent, isBlank c = true := by simpa [isBlank] using hindent
    have := cuts_behind hpad (cuts_comma h ih) fun rest => by
      rw [List.append_assoc]
      exact h.visible_append _
    simpa using this

/-! ## Bodies -/

theorem lines_eq : ∀ {lines : List (List Char)}, lines ≠ [] →
    '\n' :: ['\n'].intercalate lines = lines.flatMap ('\n' :: ·)
  | [line], _ => by rw [List.intercalate_singleton, List.flatMap_singleton]
  | line :: line' :: lines, _ => by
    rw [List.intercalate_cons_cons, List.flatMap_cons, ← lines_eq (List.cons_ne_nil line' lines)]
    simp

theorem not_mem_intercalate {c : Char} {sep : List Char} (hsep : c ∉ sep) : ∀ {ws : List (List Char)},
    (∀ w ∈ ws, c ∉ w) →
    c ∉ sep.intercalate ws
  | [], _ => by simp
  | [w], h => by simpa using h
  | w :: w' :: ws, h => by
    rw [List.intercalate_cons_cons, List.mem_append, List.mem_append]
    have hrest := not_mem_intercalate hsep fun v hv => h v (List.mem_cons_of_mem w hv)
    simp [h w, hsep, hrest]

theorem toList_inlineBody (depth : Nat) (unit : String) (els : List ElementText) :
    (bodyText false depth unit els).toList =
    '\x7b' :: ([',', ' '].intercalate (els.map (·.oneLine.toList)) ++ ['\x7d']) := by
  cases els <;> simp [bodyText, Function.comp_def]

theorem prints_emptyBody {range : ByteRange} {multiline : Bool} :
    Prints (Redraws DrawsBody LitBody.shape ⟨range, multiline, []⟩) "\x7b\x7d".toList := by
  have hnil : Cuts (fun _ => True) (Redraws DrawsElements shapesOf []) [] := by
    refine cuts_nil.mono (fun _ h => h) ?_
    rintro us rfl breaks -
    exact ⟨[], .none, rfl⟩
  exact prints_braces hnil (fun _ => trivial) fun h => absurd rfl h

section
variable {f : Element → ElementText} {es : List Element}
  (hes : ∀ e ∈ es, ∀ w, Spells w (f e) → Prints (Redraws DrawsElement Element.shape e) w)
include hes

theorem exists_words {indent : String} {lines : List String} (h : List.Forall₂ (IsLine indent) (es.map f) lines) :
    ∃ ws, PrintsEach es ws ∧ lines.map String.toList = ws.map fun w => indent.toList ++ (w ++ [',']) := by
  rw [List.forall₂_map_left_iff] at h
  induction h with
  | nil => exact ⟨[], .nil, rfl⟩
  | cons h _ ih =>
    obtain ⟨w, hw, hline⟩ := h
    obtain ⟨ws, hws, hlines⟩ := ih fun e he => hes e (List.mem_cons_of_mem _ he)
    exact ⟨w :: ws, .cons (hes _ List.mem_cons_self w hw) hws, by rw [List.map_cons, hline, hlines, List.map_cons]⟩

theorem printsEach_oneLine : PrintsEach es (es.map fun e => (f e).oneLine.toList) := by
  rw [PrintsEach, List.forall₂_map_right_iff, List.forall₂_same]
  exact fun e he => hes e he _ (spells_oneLine _)

theorem prints_inlineBody {range : ByteRange} {depth : Nat} (hflat : ∀ e ∈ es, '\n' ∉ (f e).oneLine.toList) :
    Prints (Redraws DrawsBody LitBody.shape ⟨range, false, es⟩) (bodyText false depth unit (es.map f)).toList := by
  cases es with
  | nil => exact prints_emptyBody
  | cons e es =>
    have hwords := (prints_inline (printsEach_oneLine hes)).cuts
    rw [toList_inlineBody, List.map_map]
    refine prints_braces hwords (fun rest => follows_cons (by decide) rest) fun _ => ?_
    symm
    rw [← Bool.not_eq_true, List.contains_iff_mem]
    exact not_mem_intercalate (by decide) (by simpa using hflat)

theorem prints_spreadBody (hunit : ∀ c ∈ unit.toList, isBlank c = true) {range : ByteRange} {depth : Nat} :
    Prints (Redraws DrawsBody LitBody.shape ⟨range, true, es⟩) (bodyText true depth unit (es.map f)).toList := by
  cases es with
  | nil => exact prints_emptyBody
  | cons e es =>
    obtain ⟨ws, hws, hlines⟩ := exists_words hes (isLine_elements (repeatText (depth + 1) unit) ((e :: es).map f) [])
    have hindent {n : Nat} : ∀ c ∈ (repeatText n unit).toList, isBlank c = true :=
      fun c hc => hunit c (mem_repeatText hc)
    have hne : (elementLines (repeatText (depth + 1) unit) [] ((e :: es).map f)).map String.toList ≠ [] := by
      rw [hlines]
      cases hws
      simp
    have hpad : ∀ c ∈ '\n' :: (repeatText depth unit).toList, isBlank c = true := by simpa [isBlank] using hindent
    have htext : (bodyText true depth unit ((e :: es).map f)).toList = '\x7b' ::
        ((ws.flatMap fun w => '\n' :: ((repeatText (depth + 1) unit).toList ++ (w ++ [',']))) ++
          '\n' :: (repeatText depth unit).toList ++ ['\x7d']) := by
      rw [← List.flatMap_map (fun w => (repeatText (depth + 1) unit).toList ++ (w ++ [','])) ('\n' :: ·), ← hlines,
        ← lines_eq hne]
      simp [bodyText]
    rw [htext]
    refine prints_braces (cuts_before (cuts_lines hindent hws) hpad fun _ => trivial) (fun _ c hc => ?_) fun _ => ?_
    · obtain rfl : '\x7d' = c := by simpa using hc
      rfl
    · simp

end

/-! ## Line breaks inside bodies -/

theorem exprText_ofType {t : TypeExpr} (h : IsLitType ts t) (hstand : Standing ts) (depth : Nat) :
    exprText depth unit (.ofType ts t) = typeText ts := by
  cases h with
  | name hid => simp [Expr.ofType, exprText, typeText, hid]
  | selector hq hdot hid =>
    rename_i q dot id
    have hs := hstand dot (by simp) (by simp [hdot])
    rw [hdot] at hs
    have htext : dot.text = "." := String.toList_injective hs.eq_dot
    simp [Expr.ofType, exprText, typeText, selectorText, tokenText, hq, hdot, hid, htext, String.append_assoc]
  | slice => simp only [Expr.ofType, exprText]
  | map => simp only [Expr.ofType, exprText]

structure Calm (breaks : Token → Token → Bool) (ts : List Token) : Prop where
  tokens : ∀ t ∈ ts, t.hasBreak = false
  between : ∀ t ∈ ts, ∀ u ∈ ts, breaks t u = false

theorem Calm.mono {us : List Token} (h : Calm breaks ts) (hus : us ⊆ ts) : Calm breaks us where
  tokens t ht := h.tokens t (hus ht)
  between t ht u hu := h.between t (hus ht) u (hus hu)

theorem not_mem_of_hasBreak {t : Token} (h : t.hasBreak = false) : '\n' ∉ t.text.toList := by
      simpa [Token.hasBreak] using h

theorem Calm.typeText (h : Calm breaks ts) : '\n' ∉ (typeText ts).toList := by
  rw [toList_typeText, List.mem_flatMap]
  rintro ⟨t, ht, hc⟩
  have := not_mem_of_hasBreak (h.tokens t ht)
  split at hc <;> simp_all

section
variable (depth : Nat) (unit : String)

mutual

theorem calm_expr : ∀ {ts : List Token} {e : Expr},
    DrawsExpr breaks ts e → Standing ts → Calm breaks ts → '\n' ∉ (exprText depth unit e).toList
  | _, _, .signed _ he, hstand, hcalm => by
    have hop := not_mem_of_hasBreak (hcalm.tokens _ List.mem_cons_self)
    have := calm_expr he (hstand.mono (by simp)) (hcalm.mono (by simp))
    simp [exprText, hop, this]
  | _, _, .literal (t := t) _, _, hcalm => not_mem_of_hasBreak (hcalm.tokens t (by simp))
  | _, _, .paren _ he _, hstand, hcalm => by
    have := calm_expr he (hstand.mono fun _ h => by simp [h]) (hcalm.mono fun _ h => by simp [h])
    simp [exprText, this]
  | _, _, .bare ht, hstand, hcalm => by
    rw [exprText_ofType ht hstand]
    exact hcalm.typeText
  | _, _, .composite _ hb, hstand, hcalm => by
    have htype := (hcalm.mono (List.subset_append_left ..)).typeText
    have := calm_body hb (hstand.mono fun _ h => by simp [h]) (hcalm.mono fun _ h => by simp [h])
    simp [exprText, htype, this]

theorem calm_body : ∀ {ts : List Token} {b : LitBody},
    DrawsBody breaks ts b → Standing ts → Calm breaks ts → '\n' ∉ (litBodyText depth unit b).toList
  | _, _, @DrawsBody.braces _ l ts es r _ hes _, hstand, hcalm => by
    have hin := calm_elements hes (hstand.mono fun _ h => by simp [h]) (hcalm.mono fun _ h => by simp [h])
    rw [litBodyText, hcalm.between l (by simp) r (by simp), toList_inlineBody, if_neg Bool.false_ne_true,
      elementTexts_eq]
    have hline : '\n' ∉ [',', ' '].intercalate (es.map fun e => (elementText depth unit e).oneLine.toList) :=
      not_mem_intercalate (by decide) (by simpa using hin)
    simpa [Function.comp_def] using hline

theorem calm_elements : ∀ {ts : List Token} {es : List Element}, DrawsElements breaks ts es → Standing ts →
    Calm breaks ts → ∀ e ∈ es, '\n' ∉ (elementText depth unit e).oneLine.toList
  | _, _, .none, _, _ => by simp
  | _, _, .last he, hstand, hcalm => by
    simpa using calm_element he hstand hcalm
  | _, _, .comma he _ hes, hstand, hcalm => by
    have hfirst := calm_element he (hstand.mono fun _ h => by simp [h]) (hcalm.mono fun _ h => by simp [h])
    have hrest := calm_elements hes (hstand.mono fun _ h => by simp [h]) (hcalm.mono fun _ h => by simp [h])
    exact List.forall_mem_cons.mpr ⟨hfirst, hrest⟩

theorem calm_element : ∀ {ts : List Token} {e : Element},
    DrawsElement breaks ts e → Standing ts → Calm breaks ts → '\n' ∉ (elementText depth unit e).oneLine.toList
  | _, _, .positional hv, hstand, hcalm => calm_value hv hstand hcalm
  | _, _, .keyed hk _ hv, hstand, hcalm => by
    have hkey := calm_value hk (hstand.mono fun _ h => by simp [h]) (hcalm.mono fun _ h => by simp [h])
    have hvalue := calm_value hv (hstand.mono fun _ h => by simp [h]) (hcalm.mono fun _ h => by simp [h])
    simp [elementText, ElementText.oneLine, hkey, hvalue]

theorem calm_value : ∀ {ts : List Token} {v : ElementValue},
    DrawsValue breaks ts v → Standing ts → Calm breaks ts → '\n' ∉ (valueText depth unit v).toList
  | _, _, .expr he, hstand, hcalm => by
    rw [valueText]
    exact calm_expr he hstand hcalm
  | _, _, .body hb, hstand, hcalm => by
    rw [valueText]
    exact calm_body hb hstand hcalm

end

end

/-! ## Whole expressions -/

theorem exists_bodyText (multiline : Bool) (depth : Nat) (unit : String) (els : List ElementText) :
    ∃ w, (bodyText multiline depth unit els).toList = '\x7b' :: w := by
  cases multiline with
  | false => exact ⟨_, toList_inlineBody depth unit els⟩
  | true =>
    cases els with
    | nil => exact ⟨['\x7d'], by simp [bodyText]⟩
    | cons el els =>
      rw [bodyText, List.isEmpty_cons, if_neg Bool.false_ne_true, if_pos rfl]
      simp

theorem exists_litBodyText (depth : Nat) (unit : String) (b : LitBody) :
    ∃ w, (litBodyText depth unit b).toList = '\x7b' :: w := by
  cases b with
  | mk range multiline es =>
    rw [litBodyText]
    exact exists_bodyText multiline depth unit _

def Nested (breaks : Token → Token → Bool) (ts : List Token) : Prop :=
  ∀ l mid r, l :: (mid ++ [r]) <:+: ts → breaks l r = false → Calm breaks mid

theorem Nested.inside {us : List Token} (h : Nested breaks ts) (hus : us <:+: ts) : Nested breaks us :=
  fun l mid r hin => h l mid r (hin.trans hus)

structure Printable (breaks : Token → Token → Bool) (ts : List Token) : Prop where
  standing : Standing ts
  nested : Nested breaks ts

theorem Printable.inside {us : List Token} (h : Printable breaks ts) (hus : us <:+: ts) : Printable breaks us :=
  ⟨h.standing.mono hus.subset, h.nested.inside hus⟩

mutual

theorem prints_expr (hunit : ∀ c ∈ unit.toList, isBlank c = true) : ∀ {ts : List Token} {e : Expr},
    DrawsExpr breaks ts e → Printable breaks ts → ∀ depth,
    Prints (Redraws DrawsExpr Expr.shape e) (exprText depth unit e).toList
  | _, _, .signed hop he, h, depth => by
    have := prints_signed hop h.standing (prints_expr hunit he (h.inside (List.suffix_cons ..).isInfix) depth)
    simpa [exprText] using this
  | _, _, .literal ht, h, _ => prints_literal ht h.standing
  | _, _, .paren _ he _, h, depth => by
    have := prints_paren (prints_expr hunit he (h.inside ⟨[_], [_], rfl⟩) depth)
    simpa [exprText] using this
  | _, _, .bare ht, h, depth => by
    rw [exprText_ofType ht h.standing]
    exact prints_bare (prints_litType ht h.standing)
  | _, _, .composite ht hb, h, depth => by
    have htype := prints_litType ht (h.inside (List.prefix_append ..).isInfix).standing
    have hbody := prints_body hunit hb (h.inside (List.suffix_append ..).isInfix) depth
    obtain ⟨w, hw⟩ := exists_litBodyText depth unit _
    rw [hw] at hbody
    rw [exprText, String.toList_append, hw]
    exact prints_composite htype hbody

theorem prints_body (hunit : ∀ c ∈ unit.toList, isBlank c = true) : ∀ {ts : List Token} {b : LitBody},
    DrawsBody breaks ts b → Printable breaks ts → ∀ depth,
    Prints (Redraws DrawsBody LitBody.shape b) (litBodyText depth unit b).toList
  | _, _, @DrawsBody.braces _ l ts es r hl hes hr, h, depth => by
    have hin : Printable breaks ts := h.inside ⟨[_], [_], rfl⟩
    rw [litBodyText, elementTexts_eq]
    cases hflag : breaks l r with
    | true => exact prints_spreadBody (prints_elements hunit hes hin (depth + 1)) hunit
    | false =>
      have hcalm := h.nested l ts r List.infix_rfl hflag
      exact prints_inlineBody (prints_elements hunit hes hin depth) (calm_elements depth unit hes hin.standing hcalm)

theorem prints_elements (hunit : ∀ c ∈ unit.toList, isBlank c = true) : ∀ {ts : List Token} {es : List Element},
    DrawsElements breaks ts es → Printable breaks ts →
    ∀ depth, ∀ e ∈ es, ∀ w, Spells w (elementText depth unit e) → Prints (Redraws DrawsElement Element.shape e) w
  | _, _, .none, _, _ => by simp
  | _, _, .last he, h, depth => by simpa using prints_element hunit he h depth
  | _, _, .comma he _ hes, h, depth => by
    have hfirst := prints_element hunit he (h.inside (List.prefix_append ..).isInfix) depth
    have hrest := prints_elements hunit hes (h.inside ((List.suffix_cons ..).trans (List.suffix_append ..)).isInfix)
      depth
    exact List.forall_mem_cons.mpr ⟨hfirst, hrest⟩

theorem prints_element (hunit : ∀ c ∈ unit.toList, isBlank c = true) : ∀ {ts : List Token} {e : Element},
    DrawsElement breaks ts e → Printable breaks ts → ∀ depth w,
    Spells w (elementText depth unit e) → Prints (Redraws DrawsElement Element.shape e) w
  | _, _, .positional hv, h, depth, _, hw => prints_positional (prints_value hunit hv h depth) hw
  | _, _, .keyed hk _ hv, h, depth, _, hw =>
    prints_keyed (prints_value hunit hk (h.inside (List.prefix_append ..).isInfix) depth)
      (prints_value hunit hv (h.inside ((List.suffix_cons ..).trans (List.suffix_append ..)).isInfix) depth) hw

theorem prints_value (hunit : ∀ c ∈ unit.toList, isBlank c = true) : ∀ {ts : List Token} {v : ElementValue},
    DrawsValue breaks ts v → Printable breaks ts → ∀ depth,
    Prints (Redraws DrawsValue ElementValue.shape v) (valueText depth unit v).toList
  | _, _, .expr he, h, depth => by
    rw [valueText]
    refine (prints_expr hunit he h depth).mono fun us hus breaks hshows => ?_
    obtain ⟨x, hx, hshape⟩ := hus breaks hshows
    exact ⟨_, .expr hx, by rw [ElementValue.shape, ElementValue.shape, hshape]⟩
  | _, _, .body hb, h, depth => by
    rw [valueText]
    refine (prints_body hunit hb h depth).mono fun us hus breaks hshows => ?_
    obtain ⟨x, hx, hshape⟩ := hus breaks hshows
    exact ⟨_, .body hx, by rw [ElementValue.shape, ElementValue.shape, hshape]⟩

end

/-! ## Texts -/

theorem printable_significant (text : String) :
    Printable (breaksIn (tokenize text)) (significant (tokenize text)) where
  standing t ht herror := by
    obtain ⟨hmem, htrivia⟩ := List.mem_filter.mp ht
    exact stands_of_mem hmem (by simpa using htrivia) herror
  nested l mid r hin hcalm := by
    have hmid : ∀ t ∈ mid, t ∈ l :: (mid ++ [r]) := fun t ht => List.mem_cons_of_mem _ (List.mem_append_left _ ht)
    have hinside := Sorted.inside ((sorted_tokenize text).sublist (hin.sublist.trans List.filter_sublist))
    rw [breaksIn, List.any_eq_false] at hcalm
    refine ⟨fun t ht => ?_, fun t ht u hu => ?_⟩
    · have hmem := (List.mem_filter.mp (hin.subset (hmid t ht))).1
      simpa [hinside t (hmid t ht)] using hcalm t hmem
    · rw [breaksIn, List.any_eq_false]
      intro v hv hbreak
      refine hcalm v hv ?_
      obtain ⟨hl, -⟩ := hinside t (hmid t ht)
      obtain ⟨-, hr⟩ := hinside u (hmid u hu)
      simp only [Bool.and_eq_true, decide_eq_true_eq] at hbreak ⊢
      exact ⟨⟨hl.trans hbreak.1.1, hbreak.1.2.trans hr⟩, hbreak.2⟩

/-- The expression of a text is derived with the line breaks that the text has. -/
theorem exists_drawn {text : String} (hplain : Plain (tokenize text)) (hok : (parseExpr text).ok = true) :
    DrawsExpr (breaksIn (tokenize text)) (significant (tokenize text)) ((parseExpr text).expr.traced id) := by
  obtain ⟨e, he⟩ := exists_isExpr hplain hok
  obtain ⟨x, hx, -⟩ := exists_drawsExpr (breaksIn (tokenize text)) he
  rwa [(parseExpr_drawn (shows_breaksIn (sorted_tokenize text)) hx).2]

/-- What is printed of a parsed expression, cut into tokens. -/
theorem prints_parsed (text : String) (hplain : Plain (tokenize text)) (hok : (parseExpr text).ok = true)
    (depth : Nat)
    (hunit : ∀ c ∈ unit.toList, isBlank c = true) :
    Prints (Redraws DrawsExpr Expr.shape ((parseExpr text).expr.traced id))
      (exprText depth unit (parseExpr text).expr).toList := by
  have hprints := prints_expr hunit (exists_drawn hplain hok) (printable_significant text) depth
  rwa [← exprText_shape, Expr.shape_traced, exprText_shape] at hprints

/-- A text that is cut into the tokens of an expression is read as one of that shape. -/
theorem parseExpr_of_cuts {text : String} {e : Expr} (h : Cuts follow (Redraws DrawsExpr Expr.shape e) text.toList)
    (hf : follow []) : (parseExpr text).ok = true ∧ (parseExpr text).expr.shape = e.shape := by
  have hshows := shows_breaksIn (sorted_tokenize text)
  obtain ⟨x, hx, hshape⟩ := h.tokenize hf (breaksIn (tokenize text)) hshows
  obtain ⟨hok, hread⟩ := parseExpr_drawn hshows hx
  exact ⟨hok, by rw [← Expr.shape_traced, hread, hshape]⟩

/-- An expression that parses without a complaint and whose types are made of names, selectors, slices, maps,
pointers and channels is printed, at every depth and with blanks as the unit of indentation, as a text that parses
without a complaint. What is read from it has the same shape, and is printed as the same text again. -/
theorem printed_parses_back (text : String) (hplain : Plain (tokenize text)) (hok : (parseExpr text).ok = true)
    (depth : Nat) (unit : String) (hunit : ∀ c ∈ unit.toList, isBlank c = true) :
    let printed := exprText depth unit (parseExpr text).expr
    (parseExpr printed).ok = true ∧ (parseExpr printed).expr.shape = (parseExpr text).expr.shape ∧
      exprText depth unit (parseExpr printed).expr = printed := by
  intro printed
  have hprints := prints_parsed text hplain hok depth hunit
  obtain ⟨hok', hshape⟩ := parseExpr_of_cuts hprints.cuts (by intro c hc; cases hc)
  rw [Expr.shape_traced] at hshape
  refine ⟨hok', hshape, ?_⟩
  rw [← exprText_shape, hshape, exprText_shape]

theorem printed_parses_back_sample :
    let printed := exprText 0 "\t" (parseExpr "[]T\x7b\n+1 , a: \x7b\x7d\x7d").expr
    printed = "[]T\x7b\n\t+1,\n\ta: \x7b\x7d,\n\x7d" ∧ (parseExpr printed).ok = true ∧
      (parseExpr printed).expr.shape = (parseExpr "[]T\x7b\n+1 , a: \x7b\x7d\x7d").expr.shape ∧
        exprText 0 "\t" (parseExpr printed).expr = printed :=
  ⟨by decide +kernel, printed_parses_back "[]T\x7b\n+1 , a: \x7b\x7d\x7d" (by unfold Plain; decide +kernel)
    (by decide +kernel) 0 "\t" (by simp [isBlank])⟩

end IdlWorkbench.Format
