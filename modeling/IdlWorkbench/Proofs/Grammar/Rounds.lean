import IdlWorkbench.Proofs.Grammar.Stepwise

/-!
# The loops of the grammar make progress

A round of a loop either goes on with a new state or leaves the loop. `Rounds` relates the states before and
after a loop whose rounds consume a token each time they go on, with no bound on their number. Each loop of the
grammar runs in this way: the bounds in the definitions are never met.
-/

namespace IdlWorkbench.Grammar

open State Token

variable {s t : State} {p : Parser}

/-! ## Rules that consume a token -/

theorem rest_ne_nil_of_ahead (h : s.ahead ≠ []) : s.rest ≠ [] := by
  intro hnil
  exact h (by rw [ahead, hnil]; rfl)

theorem atEnd_eq_false (h : s.ahead ≠ []) : s.atEnd = false := by
  rw [Bool.eq_false_iff]
  exact fun he => h (atEnd_iff.mp he)

theorem ahead_ne_nil (h : s.atEnd = false) : s.ahead ≠ [] := by
  intro hnil
  exact absurd (h.symm.trans (atEnd_iff.mpr hnil)) (by decide)

theorem ahead_ne_nil_of_sees {k : TokenKind} (h : s.sees k = true) : s.ahead ≠ [] := by
  obtain ⟨t, ts, hs, -⟩ := sees_iff.mp h
  simp [hs]

theorem seesAny_iff {ks : List TokenKind} : s.seesAny ks = true ↔ ∃ k ∈ ks, s.sees k = true := by
  rw [seesAny, peek_eq]
  cases hs : s.ahead with
  | nil => simp [sees_nil hs]
  | cons t ts => simp [sees_cons hs]

theorem ahead_ne_nil_of_seesAny {ks : List TokenKind} (h : s.seesAny ks = true) : s.ahead ≠ [] := by
  obtain ⟨k, -, hk⟩ := seesAny_iff.mp h
  exact ahead_ne_nil_of_sees hk

theorem seesAny_congr (ks : List TokenKind) (h : t.ahead = s.ahead) : t.seesAny ks = s.seesAny ks := by
  rw [seesAny, seesAny, peek_eq, peek_eq, h]

theorem sees_congr (k : TokenKind) (h : t.ahead = s.ahead) : t.sees k = s.sees k := by
  rw [sees, sees, peek_eq, peek_eq, h]

/-- A node whose rule takes a token first. -/
theorem nodeBehind_lt (k : NodeKind) (hp : Conserves p) (h : s.ahead ≠ []) :
    (s.nodeAtToken k fun s => p s.bump).rest.length < s.rest.length := by
  have hskip := (Consumes.refl s).skipTrivia.length_le
  have hbump := bump_lt (rest_ne_nil_of_ahead (s := s.skipTrivia.opened) (by rwa [ahead_opened]))
  have hbody := (hp s.skipTrivia.opened.bump).length_le
  rw [nodeAtToken_rest]
  exact Nat.lt_of_le_of_lt hbody (Nat.lt_of_lt_of_le hbump hskip)

theorem tokenNode_lt (k : NodeKind) (h : s.ahead ≠ []) : (s.tokenNode k).rest.length < s.rest.length :=
  nodeBehind_lt (p := id) k conserves_id h

theorem name_lt (h : s.sees .ident = true) : (name s).rest.length < s.rest.length := by
  rw [name, if_pos h]
  exact tokenNode_lt _ (ahead_ne_nil_of_sees h)

/-- No rule gives tokens back. -/
theorem shrinks_stepwise : Stepwise (fun _ => True) fun s t => t.rest.length ≤ s.rest.length where
  refl _ := Nat.le_refl _
  trans h h' := Nat.le_trans h' h
  advance n s _ := by
    rw [advance_rest, List.length_drop]
    exact Nat.sub_le _ _
  complain _ _ := Nat.le_refl _
  close _ h := h
  splice h := h
  recover c s u h := by
    have hskip : (s.complain c).skipTrivia.rest.length ≤ s.rest.length :=
      (Consumes.refl (s.complain c)).skipTrivia.length_le
    exact Nat.le_trans h.consumes.length_le hskip

theorem item_body_lt (k : NodeKind) (hp : ∀ u : State, u.ahead = s.ahead → (p u).rest.length < u.rest.length) :
    (s.item k p).rest.length < s.rest.length := by
  obtain ⟨outer, u, hout, hin, hu, hitem⟩ := shrinks_stepwise.exists_item trivial s
  rw [hitem]
  exact Nat.lt_of_lt_of_le (hp u hu) (Nat.le_trans hin hout)

theorem recoverLine_lt (what : Expected) (closer : TokenKind) (h : s.ahead ≠ []) :
    (s.recoverLine what closer).rest.length < s.rest.length := by
  have hskip : (s.expected what).skipTrivia.opened.rest.length ≤ s.rest.length :=
    (Consumes.refl (s.expected what)).skipTrivia.length_le
  have hahead : (s.expected what).skipTrivia.opened.ahead ≠ [] := by rwa [ahead_opened]
  have hbump := bump_lt (rest_ne_nil_of_ahead hahead)
  rw [recoverLine, nodeAtToken_rest]
  generalize (s.expected what).skipTrivia.opened = u at hskip hahead hbump
  simp only [atEnd_eq_false hahead, Bool.false_eq_true, ite_false]
  refine Nat.lt_of_le_of_lt ?_ (Nat.lt_of_lt_of_le hbump hskip)
  split
  · exact Nat.le_refl _
  · exact ((Consumes.refl u.bump).bumpWhile _ _).length_le

theorem peek_kind_of_sees {k : TokenKind} (h : s.sees k = true) : s.peek.map Token.kind = some k := by
  obtain ⟨t, ts, hs, rfl⟩ := sees_iff.mp h
  rw [peek_eq, hs]
  rfl

theorem typeWith_lt (hp : Conserves p) (h : s.seesAny typeStarts = true) :
    (typeWith p s).rest.length < s.rest.length := by
  have hs := ahead_ne_nil_of_seesAny h
  have hexpect (k : TokenKind) : Conserves fun u => p (u.expect k) := fun u => hp.after ((Consumes.refl u).expect k)
  rw [typeWith]
  split
  · rw [typeName]
    split
    · exact nodeBehind_lt (p := fun u => u.bump.expect .ident) _ (fun u => (Consumes.refl u).bump.expect _) hs
    · exact tokenNode_lt _ hs
  · exact nodeBehind_lt _ (hexpect _) hs
  · exact nodeBehind_lt (p := fun u => p ((p (u.expect .lBracket)).expect .rBracket)) _
      (fun u => (hexpect _).after (hexpect _ u)) hs
  · exact nodeBehind_lt _ hp hs
  · exact nodeBehind_lt _ hp hs
  · exact nodeBehind_lt _ (signature_conserves hp) hs
  · exact nodeBehind_lt _ (members_conserves (field_conserves hp)) hs
  · exact nodeBehind_lt _ (members_conserves (method_conserves hp)) hs
  · rename_i hident hbracket hmap hstar hchan hfunc hstruct hinterface
    -- none of the tokens that start a type comes next
    obtain ⟨k, hk, hsees⟩ := seesAny_iff.mp h
    have hpeek := peek_kind_of_sees hsees
    simp only [typeStarts, List.mem_cons, List.not_mem_nil, or_false] at hk
    rcases hk with rfl | rfl | rfl | rfl | rfl | rfl | rfl | rfl <;> contradiction

theorem type_lt (h : s.seesAny typeStarts = true) : (type s).rest.length < s.rest.length :=
  typeWith_lt (typeWithin_conserves _) h

/-- The names and the type of a field that starts as it should. -/
theorem fieldType_lt (hp : Conserves p)
    (hlt : ∀ u : State, u.seesAny typeStarts = true → (p u).rest.length < u.rest.length)
    (h : s.seesAny [.ident, .star] = true) {embedded : Bool} (he : s.sees .star = true → embedded = true) :
    (p (if embedded then s else fieldNames s)).rest.length < s.rest.length := by
  obtain ⟨k, hk, hsees⟩ := seesAny_iff.mp h
  split
  · exact hlt s (seesAny_iff.mpr ⟨k, (by decide : ∀ k ∈ [TokenKind.ident, .star], k ∈ typeStarts) k hk, hsees⟩)
  · rename_i hplain
    have hident : s.sees .ident = true := by
      simp only [List.mem_cons, List.not_mem_nil, or_false] at hk
      rcases hk with rfl | rfl
      · exact hsees
      · exact absurd (he hsees) hplain
    have hle := (Consumes.refl (name s)).repeatWhile (State.sees .comma)
      (fun u => name_conserves.after (Consumes.refl u).bump) s.rest.length |>.length_le
    exact Nat.lt_of_le_of_lt (Nat.le_trans (hp _).length_le hle) (name_lt hident)

theorem field_lt (h : s.ahead ≠ []) : (field type s).rest.length < s.rest.length := by
  rw [field]
  split
  · rename_i hstart
    refine item_body_lt _ fun u hu => ?_
    rw [← seesAny_congr _ hu] at hstart
    extract_lets embedded v w
    have hv : v.rest.length < u.rest.length :=
      fieldType_lt type_conserves (fun _ => type_lt) hstart fun hs => by simp [embedded, hs]
    have hw : Consumes v w := .ite ((Consumes.refl v).tokenNode _) (Consumes.refl v)
    exact Nat.lt_of_le_of_lt (hw.endLine _).length_le hv
  · exact recoverLine_lt _ _ h

theorem method_lt (h : s.ahead ≠ []) : (method type s).rest.length < s.rest.length := by
  rw [method]
  split
  · rename_i hname
    refine item_body_lt _ fun u hu => ?_
    rw [← sees_congr _ hu] at hname
    exact Nat.lt_of_le_of_lt ((signature_conserves type_conserves (name u)).endLine _).length_le (name_lt hname)
  · exact recoverLine_lt _ _ h

/-- A spec of a group that starts as it should takes a token in its body. -/
theorem specNode_lt (k : NodeKind) (hp : ∀ u : State, u.ahead = s.ahead → (p u).rest.length < u.rest.length) :
    (specNode k true p s).rest.length < s.rest.length :=
  item_body_lt k fun u hu => Nat.lt_of_le_of_lt ((Consumes.refl (p u)).endLine _).length_le (hp u hu)

theorem importSpec_lt (h : s.ahead ≠ []) : (importSpec true s).rest.length < s.rest.length := by
  rw [importSpec]
  split
  · rename_i hstart
    refine specNode_lt _ fun u hu => ?_
    rw [← seesAny_congr _ hu] at hstart
    have hne := ahead_ne_nil_of_seesAny hstart
    extract_lets v
    have hv : Consumes u v := .ite ((Consumes.refl u).tokenNode _) (Consumes.refl u)
    by_cases hname : u.seesAny [.ident, .dot] = true
    · have hlt : v.rest.length < u.rest.length := by
        simp only [v, hname, ite_true]
        exact tokenNode_lt _ hne
      refine Nat.lt_of_le_of_lt ?_ hlt
      exact (Consumes.ite ((Consumes.refl v).tokenNode _) ((Consumes.refl v).expected _)).length_le
    · have hpath : u.seesAny [.string, .rawString] = true := by
        rw [seesAny_iff] at hname hstart ⊢
        obtain ⟨k, hk, hsees⟩ := hstart
        simp only [List.mem_cons, List.not_mem_nil, or_false] at hk hname ⊢
        rcases hk with rfl | rfl | rfl | rfl
        · exact absurd ⟨_, Or.inl rfl, hsees⟩ hname
        · exact absurd ⟨_, Or.inr rfl, hsees⟩ hname
        · exact ⟨_, Or.inl rfl, hsees⟩
        · exact ⟨_, Or.inr rfl, hsees⟩
      simp only [v, hname, Bool.false_eq_true, ite_false, hpath, ite_true]
      exact tokenNode_lt _ hne
  · exact recoverLine_lt _ _ h

theorem typeSpec_lt (h : s.ahead ≠ []) : (typeSpec true s).rest.length < s.rest.length := by
  rw [typeSpec]
  split
  · rename_i hname
    refine specNode_lt _ fun u hu => ?_
    rw [← sees_congr _ hu] at hname
    exact Nat.lt_of_le_of_lt (type_conserves _).length_le (name_lt hname)
  · exact recoverLine_lt _ _ h

theorem constSpec_lt (h : s.ahead ≠ []) : (constSpec true s).rest.length < s.rest.length := by
  rw [constSpec]
  split
  · rename_i hname
    refine specNode_lt _ fun u hu => ?_
    rw [← sees_congr _ hu] at hname
    extract_lets v w
    have hw : Consumes v w := .ite (type_conserves v) (Consumes.refl v)
    refine Nat.lt_of_le_of_lt ?_ (name_lt hname)
    exact (Consumes.ite (expr_conserves.after hw.bump) hw).length_le
  · exact recoverLine_lt _ _ h

/-! ## Loops -/

/-- What a round of a loop does. -/
inductive Turn where
  /-- Another round follows. -/
  | again (next : State)
  | leave (last : State)

/-- A loop from one state to another. Each round that is followed by another consumes a token. -/
inductive Rounds (turn : State → Turn) : State → State → Prop
  | leave {s t : State} : turn s = .leave t → Rounds turn s t
  | again {s t u : State} : turn s = .again t → t.rest.length < s.rest.length → Rounds turn t u → Rounds turn s u

def whileTurn (go : State → Bool) (body : Parser) (s : State) : Turn :=
  if go s then .again (body s) else .leave s

def typeTurn (type : Parser) (s : State) : Turn :=
  if s.seesAny typeStarts then
    let t := type (if s.sees .ident && !s.secondIs [.dot, .comma, .rParen] then name s else s)
    if t.sees .comma then .again t.bump else .leave t
  else .leave s

def elementTurn (element : Parser) (s : State) : Turn :=
  if s.atEnd || s.sees .rBrace then .leave s
  else
    let t := element s
    if t.sees .comma then .again t.bump else .leave t

theorem rounds_while {go : State → Bool} (hp : ∀ u, go u = true → (p u).rest.length < u.rest.length) :
    ∀ (n : Nat) (s : State), s.rest.length ≤ n → Rounds (whileTurn go p) s (s.repeatWhile go p n)
  | 0, s, hn => by
    refine .leave ?_
    rw [whileTurn, if_neg]
    · rfl
    · intro hgo
      have := hp s hgo
      omega
  | n + 1, s, hn => by
    rw [State.repeatWhile]
    split
    · rename_i hgo
      have hlt := hp s hgo
      exact .again (by rw [whileTurn, if_pos hgo]) hlt (rounds_while hp n (p s) (by omega))
    · rename_i hgo
      exact .leave (by rw [whileTurn, if_neg hgo])

theorem bump_lt_of_sees {k : TokenKind} (h : t.sees k = true) : t.bump.rest.length < t.rest.length :=
  bump_lt (rest_ne_nil_of_ahead (ahead_ne_nil_of_sees h))

theorem rounds_typeList (hp : Conserves p) :
    ∀ (n : Nat) (s : State), s.rest.length ≤ n → Rounds (typeTurn p) s (typeList p n s)
  | 0, s, hn => by
    have hend : s.ahead = [] := by
      have hrest : s.rest = [] := List.length_eq_zero_iff.mp (Nat.le_zero.mp hn)
      rw [ahead, hrest]
      rfl
    refine .leave ?_
    rw [typeTurn, if_neg]
    · rfl
    · exact fun hs => ahead_ne_nil_of_seesAny hs hend
  | n + 1, s, hn => by
    rw [typeList]
    split
    · rename_i hstart
      extract_lets named t
      have hle : t.rest.length ≤ s.rest.length :=
        (hp.after (.ite (name_conserves s) (Consumes.refl s))).length_le
      split
      · rename_i hcomma
        have hlt := bump_lt_of_sees hcomma
        refine .again ?_ (Nat.lt_of_lt_of_le hlt hle) (rounds_typeList hp n t.bump (by omega))
        rw [typeTurn, if_pos hstart]
        exact if_pos hcomma
      · rename_i hcomma
        refine .leave ?_
        rw [typeTurn, if_pos hstart]
        exact if_neg hcomma
    · rename_i hstart
      exact .leave (by rw [typeTurn, if_neg hstart])

theorem rounds_elements (hp : Conserves p) :
    ∀ (n : Nat) (s : State), s.rest.length ≤ n → Rounds (elementTurn p) s (elements p n s)
  | 0, s, hn => by
    have hend : s.atEnd = true := by
      have hrest : s.rest = [] := List.length_eq_zero_iff.mp (Nat.le_zero.mp hn)
      simp [atEnd_eq, hrest]
    refine .leave ?_
    rw [elementTurn, if_pos (by simp [hend])]
    rfl
  | n + 1, s, hn => by
    rw [elements]
    split
    · rename_i hstop
      exact .leave (by rw [elementTurn, if_pos hstop])
    · rename_i hgo
      extract_lets t
      have hle : t.rest.length ≤ s.rest.length := (hp s).length_le
      split
      · rename_i hcomma
        have hlt := bump_lt_of_sees hcomma
        refine .again ?_ (Nat.lt_of_lt_of_le hlt hle) (rounds_elements hp n t.bump (by omega))
        rw [elementTurn, if_neg hgo]
        exact if_pos hcomma
      · rename_i hcomma
        refine .leave ?_
        rw [elementTurn, if_neg hgo]
        exact if_neg hcomma

/-! ## The rules with loops -/

/-- Up to a token of kind `closer`, or the end. -/
def before (closer : TokenKind) (s : State) : Bool := !s.atEnd && !s.sees closer

theorem ahead_ne_nil_of_before {closer : TokenKind} (h : before closer s = true) : s.ahead ≠ [] := by
  rw [before, Bool.and_eq_true] at h
  exact ahead_ne_nil (by simpa using h.1)

theorem sourceFile_rounds (s : State) : ∃ t u : State,
    Rounds (whileTurn (State.sees .importKw) importDecl) (packageClause s) t ∧
    Rounds (whileTurn (fun s => !s.atEnd) declaration) t u ∧ sourceFile s = u.skipTrivia := by
  refine ⟨_, _, rounds_while (fun u hu => ?_) _ _ (Nat.le_refl _), rounds_while (fun u hu => ?_)
    _ _ (Nat.le_refl _), rfl⟩
  · exact decl_lt _ importSpec_conserves (atEnd_eq_false (ahead_ne_nil_of_sees hu))
  · exact declaration_lt (by simpa using hu)

theorem grouped_rounds {spec : Bool → Parser}
    (hspec : ∀ u : State, u.ahead ≠ [] → (spec true u).rest.length < u.rest.length) (h : s.sees .lParen = true) :
    ∃ t, Rounds (whileTurn (before .rParen) (spec true)) s.bump t ∧
      grouped spec s = (t.expect .rParen).endLine .error := by
  refine ⟨_, rounds_while (fun u hu => hspec u (ahead_ne_nil_of_before hu)) s.rest.length _
    (Nat.le_of_lt (bump_lt_of_sees h)), ?_⟩
  rw [grouped, if_pos h]
  rfl

theorem members_rounds (hp : ∀ u : State, u.ahead ≠ [] → (p u).rest.length < u.rest.length)
    (h : s.sees .lBrace = true) :
    ∃ t, Rounds (whileTurn (before .rBrace) p) s.skipTrivia.opened.bump t ∧
      members p s = close .fieldList s.skipTrivia (t.expect .rBrace) := by
  refine ⟨_, rounds_while (fun u hu => hp u (ahead_ne_nil_of_before hu)) s.skipTrivia.opened.rest.length _
    (Consumes.refl _).bump.length_le, ?_⟩
  rw [members, if_pos h]
  rfl

theorem fieldNames_rounds (s : State) :
    Rounds (whileTurn (State.sees .comma) fun s => name s.bump) (name s) (fieldNames s) :=
  rounds_while
    (fun u hu => Nat.lt_of_le_of_lt (name_conserves u.bump).length_le (bump_lt_of_sees hu)) _ _
    (name_conserves s).length_le

theorem typesInParens_rounds (hp : Conserves p) (s : State) :
    ∃ t, Rounds (typeTurn p) s.bump t ∧ typesInParens p s = t.expect .rParen :=
  ⟨_, rounds_typeList hp _ _ (Consumes.refl s).bump.length_le, rfl⟩

theorem litBodyWith_rounds (hp : Conserves p) (s : State) :
    ∃ t, Rounds (elementTurn (element p)) s.skipTrivia.opened.bump t ∧
      litBodyWith p s = close .litBody s.skipTrivia (t.expect .rBrace) :=
  ⟨_, rounds_elements (element_conserves hp) _ _ (Consumes.refl _).bump.length_le, rfl⟩

/-- The loop of a recovery, which starts behind the token that did not fit. -/
theorem rounds_bumpWhile {go : State → Bool} (hgo : ∀ u, go u = true → u.ahead ≠ []) (s : State) :
    Rounds (whileTurn go State.bump) s.bump (s.bump.bumpWhile go s.rest.length) := by
  rw [bumpWhile_eq]
  exact rounds_while (fun u hu => bump_lt (rest_ne_nil_of_ahead (hgo u hu))) _ _ (Consumes.refl s).bump.length_le

theorem recoverTo_rounds (c : Complaint) (stop : List TokenKind) (h : s.ahead ≠ []) :
    ∃ t, Rounds (whileTurn (fun s => !s.atEnd && !s.seesAny stop) State.bump)
      (s.complain c).skipTrivia.opened.bump t ∧
      s.recoverTo c stop = close .error (s.complain c).skipTrivia t := by
  refine ⟨_, rounds_bumpWhile (fun u hu => ?_) _, ?_⟩
  · simp only [Bool.and_eq_true, Bool.not_eq_true'] at hu
    exact ahead_ne_nil hu.1
  · have hend : (s.complain c).skipTrivia.opened.atEnd = false := atEnd_eq_false (by rwa [ahead_opened])
    rw [recoverTo, nodeAtToken, State.node, hend]
    rfl

theorem recoverLine_rounds (what : Expected) (closer : TokenKind) (h : s.ahead ≠ []) :
    s.sees closer = false →
    ∃ t, Rounds (whileTurn (fun s => !s.newlineBefore && !s.sees closer) State.bump)
        (s.expected what).skipTrivia.opened.bump t ∧
      s.recoverLine what closer = close .error (s.expected what).skipTrivia t := by
  intro hcloser
  refine ⟨_, rounds_bumpWhile (fun u hu => ?_) _, ?_⟩
  · simp only [Bool.and_eq_true, Bool.not_eq_true', newlineBefore, Bool.or_eq_false_iff] at hu
    exact ahead_ne_nil hu.1.1
  · have hahead : (s.expected what).skipTrivia.opened.ahead = s.ahead := ahead_opened _
    have hend : (s.expected what).skipTrivia.opened.atEnd = false := atEnd_eq_false (by rwa [hahead])
    have hsees : (s.expected what).skipTrivia.opened.sees closer = false := (sees_congr closer hahead).trans hcloser
    rw [recoverLine, nodeAtToken, State.node, hend, hsees]
    rfl

end IdlWorkbench.Grammar
