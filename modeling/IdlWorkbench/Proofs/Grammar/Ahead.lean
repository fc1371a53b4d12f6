import IdlWorkbench.Proofs.Grammar.Lossless

/-!
# What a parser sees and what it complains about

The rules of the grammar look at the significant tokens still to come, `ahead`, and never at the blanks
and comments between them. A complaint that was made is never taken back, so a run without complaints has
none in any of its parts.
-/

namespace IdlWorkbench.Grammar

open Token

variable {s t u : State} {p q : Parser}

theorem dropWhile_isTrivia (ts : List Token) :
    (ts.dropWhile Token.isTrivia = [] ∧ significant ts = []) ∨
      ∃ t rest, ts.dropWhile Token.isTrivia = t :: rest ∧ t.isTrivia = false ∧
        significant ts = t :: significant rest := by
  induction ts with
  | nil => simp [significant]
  | cons t ts ih =>
    by_cases h : t.isTrivia = true
    · rcases ih with ih | ⟨u, rest, hd, hu, hs⟩
      · exact Or.inl (by simpa [significant, h] using ih)
      · exact Or.inr ⟨u, rest, by simpa [h] using hd, hu, by simpa [significant, h] using hs⟩
    · simp only [Bool.not_eq_true] at h
      exact Or.inr ⟨t, ts, by simp [h], h, by simp [significant, h]⟩

namespace State

def ahead (s : State) : List Token := significant s.rest

theorem peek_eq (s : State) : s.peek = s.ahead.head? := by
  rw [peek, ahead, significant, List.head?_filter]

theorem peekSecond_eq (s : State) : s.peekSecond = s.ahead[1]? := rfl

theorem atEnd_iff : s.atEnd = true ↔ s.ahead = [] := by
  rw [atEnd, peek_eq]
  cases s.ahead <;> simp

theorem sees_iff {k : TokenKind} : s.sees k = true ↔ ∃ t ts, s.ahead = t :: ts ∧ t.kind = k := by
  rw [sees, peek_eq]
  cases s.ahead <;> simp

theorem sees_cons {k : TokenKind} {t : Token} {ts : List Token} (h : s.ahead = t :: ts) :
    s.sees k = (t.kind == k) := by
  simp [sees, peek_eq, h]

theorem sees_nil {k : TokenKind} (h : s.ahead = []) : s.sees k = false := by simp [sees, peek_eq, h]

theorem secondIs_eq (ks : List TokenKind) (s : State) :
    s.secondIs ks = s.ahead.tail.head?.any (ks.contains ·.kind) := by
  rw [secondIs, peekSecond_eq]
  cases s.ahead <;> simp [List.head?_eq_getElem?]

theorem ahead_skipTrivia (s : State) : s.skipTrivia.ahead = s.ahead := by
  rw [ahead, skipTrivia_rest, ahead]
  rcases dropWhile_isTrivia s.rest with ⟨hd, hs⟩ | ⟨t, rest, hd, ht, hs⟩
  · rw [hd, hs]
    rfl
  · rw [hd, hs]
    simp [significant, ht]

theorem rest_bump (s : State) : s.bump.rest = (s.rest.dropWhile Token.isTrivia).drop 1 := by
  rw [bump, advance_rest, skipTrivia_rest]

theorem ahead_bump (s : State) : s.bump.ahead = s.ahead.tail := by
  rw [ahead, rest_bump, ahead]
  rcases dropWhile_isTrivia s.rest with ⟨hd, hs⟩ | ⟨t, rest, hd, -, hs⟩
  · rw [hd, hs]
    rfl
  · rw [hd, hs]
    rfl

theorem length_ahead_le (s : State) : s.ahead.length ≤ s.rest.length := List.length_filter_le _ _

/-! ## Complaints -/

theorem advance_errors : ∀ (n : Nat) (s : State), (s.advance n).errors = s.errors
  | 0, _ => rfl
  | n + 1, s => by
    rw [advance]
    split
    · rfl
    · rw [advance_errors n]

theorem skipTrivia_errors (s : State) : s.skipTrivia.errors = s.errors := advance_errors _ s

theorem bump_errors (s : State) : s.bump.errors = s.errors := by
  rw [bump, advance_errors, skipTrivia_errors]

def Retains (s t : State) : Prop := s.errors <:+ t.errors

namespace Retains

theorem refl (s : State) : Retains s s := List.suffix_rfl

theorem trans (h : Retains s t) (h' : Retains t u) : Retains s u := List.IsSuffix.trans h h'

theorem of_eq (h : t.errors = s.errors) : Retains s t := by
  unfold Retains
  simp only [h, List.suffix_rfl]

/-- Nothing was said on the way if nothing was said in the end. -/
theorem quiet (h : Retains s t) (h' : Retains t u) (hq : u.errors = s.errors) :
    t.errors = s.errors ∧ u.errors = t.errors := by
  have he : t.errors = s.errors := (h.eq_of_length_le (by have := h'.length_le; rw [hq] at this; omega)).symm
  exact ⟨he, hq.trans he.symm⟩

theorem ite {c : Prop} [Decidable c] (ht : Retains s t) (hu : Retains s u) : Retains s (if c then t else u) := by
  split
  · exact ht
  · exact hu

theorem advance (n : Nat) (h : Retains s t) : Retains s (t.advance n) := h.trans (of_eq (advance_errors n t))

theorem bump (h : Retains s t) : Retains s t.bump := h.trans (of_eq (bump_errors t))

theorem complain (c : Complaint) (h : Retains s t) : Retains s (t.complain c) := h.trans (List.suffix_cons _ _)

theorem expected (what : Expected) (h : Retains s t) : Retains s (t.expected what) := h.complain _

theorem expect (k : TokenKind) (h : Retains s t) : Retains s (t.expect k) := ite h.bump (h.expected _)

end Retains

theorem complain_errors_ne (c : Complaint) (s : State) : (s.complain c).errors ≠ s.errors := by
  simp [complain]

theorem expected_errors_ne (what : Expected) (s : State) : (s.expected what).errors ≠ s.errors :=
  complain_errors_ne _ s

end State

def Remembers (p : Parser) : Prop := ∀ s, State.Retains s (p s)

open State

theorem Remembers.after (hp : Remembers p) (h : Retains s t) : Retains s (p t) := h.trans (hp t)

namespace State.Retains

theorem node (k : NodeKind) (hp : Remembers p) (h : Retains s t) : Retains s (t.node k p) := h.trans (hp t.opened)

theorem nodeAtToken (k : NodeKind) (hp : Remembers p) (h : Retains s t) : Retains s (t.nodeAtToken k p) :=
  (h.advance _).node k hp

theorem tokenNode (k : NodeKind) (h : Retains s t) : Retains s (t.tokenNode k) :=
  h.nodeAtToken k fun u => (refl u).bump

theorem repeatWhile (go : State → Bool) (hp : Remembers p) : ∀ (n : Nat) {t : State},
    Retains s t → Retains s (t.repeatWhile go p n)
  | 0, _, h => h
  | n + 1, t, h => by
    rw [State.repeatWhile]
    split
    · exact repeatWhile go hp n (hp.after h)
    · exact h

theorem item (k : NodeKind) (hp : Remembers p) (h : Retains s t) : Retains s (t.item k p) := by
  rw [State.item]
  split
  · exact (h.advance _).node k fun u => hp.after ((refl u).node .doc fun v => (refl v).advance _)
  · exact (h.advance _).node k hp

theorem trailing (h : Retains s t) : Retains s t.trailing := by
  rw [State.trailing]
  split
  · split
    · exact (h.advance _).node .trailing fun u => (refl u).advance 1
    · exact h
  · exact h

theorem recoverLine (what : Expected) (closer : TokenKind) (h : Retains s t) :
    Retains s (t.recoverLine what closer) := by
  refine (h.expected what).nodeAtToken .error fun u => ite (refl u) (ite (refl u).bump ?_)
  rw [bumpWhile_eq]
  exact (refl u).bump.repeatWhile _ (fun v => (refl v).bump) _

theorem endLine (closer : TokenKind) (h : Retains s t) : Retains s (t.endLine closer) :=
  have hb := (ite h.bump h).trailing
  ite (hb.recoverLine _ _).trailing hb

end State.Retains

/-! ## Types -/

theorem remembers_name : Remembers name := fun s => .ite ((Retains.refl s).tokenNode _) ((Retains.refl s).expected _)

theorem remembers_typeName : Remembers typeName := fun s =>
  .ite ((Retains.refl s).nodeAtToken _ fun u => (Retains.refl u).bump.bump.expect _) ((Retains.refl s).tokenNode _)

theorem remembers_typeList (hp : Remembers p) : ∀ n, Remembers (typeList p n)
  | 0, s => Retains.refl s
  | n + 1, s => by
    have ht (b : Bool) : Retains s (p (if b then name s else s)) :=
      hp.after (.ite (remembers_name s) (Retains.refl s))
    rw [typeList]
    refine .ite ?_ (Retains.refl s)
    exact .ite ((remembers_typeList hp n).after (ht _).bump) (ht _)

theorem remembers_typesInParens (hp : Remembers p) : Remembers (typesInParens p) := fun s =>
  ((remembers_typeList hp _).after (Retains.refl s).bump).expect _

theorem remembers_signature (hp : Remembers p) : Remembers (signature p) := fun s => by
  have hparams : Retains s (s.nodeAtToken .paramList fun s =>
      if s.sees .lParen then typesInParens p s else s.expected (.token .lParen)) :=
    (Retains.refl s).nodeAtToken _ fun u => .ite (remembers_typesInParens hp u) ((Retains.refl u).expected _)
  exact .ite hparams (hparams.nodeAtToken _ fun u => .ite (remembers_typesInParens hp u) (hp u))

theorem remembers_members (hp : Remembers p) : Remembers (members p) := fun s =>
  .ite ((Retains.refl s).nodeAtToken _ fun u => ((Retains.refl u).bump.repeatWhile _ hp _).expect _)
    ((Retains.refl s).expected _)

theorem remembers_fieldNames : Remembers fieldNames := fun s =>
  (remembers_name s).repeatWhile _ (fun u => remembers_name.after (Retains.refl u).bump) _

theorem remembers_field (hp : Remembers p) : Remembers (field p) := fun s => by
  refine .ite ((Retains.refl s).item _ fun u => Retains.endLine _ ?_) ((Retains.refl s).recoverLine _ _)
  have ht (b : Bool) : Retains u (p (if b then u else fieldNames u)) :=
    hp.after (.ite (Retains.refl u) (remembers_fieldNames u))
  exact .ite ((ht _).tokenNode _) (ht _)

theorem remembers_method (hp : Remembers p) : Remembers (method p) := fun s =>
  .ite ((Retains.refl s).item _ fun u => ((remembers_signature hp).after (remembers_name u)).endLine _)
    ((Retains.refl s).recoverLine _ _)

theorem remembers_typeWith (hp : Remembers p) : Remembers (typeWith p) := fun s => by
  have h := Retains.refl s
  rw [typeWith]
  split
  · exact remembers_typeName s
  · exact h.nodeAtToken _ fun u => hp.after ((Retains.refl u).bump.expect _)
  · exact h.nodeAtToken _ fun u => hp.after ((hp.after ((Retains.refl u).bump.expect _)).expect _)
  · exact h.nodeAtToken _ fun u => hp.after (Retains.refl u).bump
  · exact h.nodeAtToken _ fun u => hp.after (Retains.refl u).bump
  · exact h.nodeAtToken _ fun u => (remembers_signature hp).after (Retains.refl u).bump
  · exact h.nodeAtToken _ fun u => (remembers_members (remembers_field hp)).after (Retains.refl u).bump
  · exact h.nodeAtToken _ fun u => (remembers_members (remembers_method hp)).after (Retains.refl u).bump
  · exact h.expected _

theorem remembers_typeWithin (n : Nat) : Remembers (typeWithin n) := by
  induction n with
  | zero => exact Retains.refl
  | succ n ih =>
    rw [typeWithin]
    exact remembers_typeWith ih

theorem remembers_type : Remembers type := fun s => remembers_typeWithin _ s

/-! ## Expressions -/

theorem remembers_elements (hp : Remembers p) : ∀ n, Remembers (elements p n)
  | 0, s => Retains.refl s
  | n + 1, s => by
    rw [elements]
    exact .ite (Retains.refl s) (.ite ((remembers_elements hp n).after (hp s).bump) (hp s))

theorem remembers_element (hp : Remembers p) : Remembers (element p) := fun s => by
  have h : Retains s (p s.skipTrivia.opened) := (Retains.refl s).advance _ |>.trans (hp s.skipTrivia.opened)
  exact .ite (hp.after h.bump) h

theorem remembers_litBodyWith (hp : Remembers p) : Remembers (litBodyWith p) := fun s =>
  (Retains.refl s).nodeAtToken _ fun u =>
    ((remembers_elements (remembers_element hp) _).after (Retains.refl u).bump).expect _

theorem remembers_composite (hp : Remembers p) : Remembers (composite p) := fun s => by
  have h : Retains s (type s.skipTrivia.opened) :=
    (Retains.refl s).advance _ |>.trans (remembers_type s.skipTrivia.opened)
  exact .ite (hp.after h) h

theorem remembers_exprWith (hp : Remembers p) (hq : Remembers q) : Remembers (exprWith p q) := fun s => by
  have h := Retains.refl s
  rw [exprWith]
  split
  · exact h.nodeAtToken _ fun u => hp.after (Retains.refl u).bump
  · exact h.nodeAtToken _ fun u => hp.after (Retains.refl u).bump
  · exact h.tokenNode _
  · exact h.tokenNode _
  · exact h.tokenNode _
  · exact h.tokenNode _
  · exact h.nodeAtToken _ fun u => (hp.after (Retains.refl u).bump).expect _
  · exact remembers_composite hq s
  · exact remembers_composite hq s
  · exact remembers_composite hq s
  · exact h.expected _
  · exact .ite (h.expected _) ((h.expected _).tokenNode _)

theorem remembers_valueWith (hp : Remembers p) (hq : Remembers q) : Remembers (valueWith p q) := fun s =>
  .ite (hq s) (hp s)

mutual

theorem remembers_exprWithin : ∀ n, Remembers (exprWithin n)
  | 0 => by
    rw [exprWithin]
    exact Retains.refl
  | n + 1 => by
    rw [exprWithin]
    exact remembers_exprWith (remembers_exprWithin n) (remembers_litBodyWithin n)

theorem remembers_litBodyWithin : ∀ n, Remembers (litBodyWithin n)
  | 0 => by
    rw [litBodyWithin]
    exact Retains.refl
  | n + 1 => by
    rw [litBodyWithin]
    exact remembers_litBodyWith (remembers_valueWith (remembers_exprWithin n) (remembers_litBodyWithin n))

end

theorem remembers_expr : Remembers expr := fun s => remembers_exprWithin _ s

end IdlWorkbench.Grammar
