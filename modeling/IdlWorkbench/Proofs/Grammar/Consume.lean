import IdlWorkbench.Grammar.File
import IdlWorkbench.Proofs.Token.Cover

/-!
# Parsers consume what they pass

`Consumes s t` says that a parser that went from `s` to `t` turned a first part of the tokens of `s` into
the leaves of new children, in order, and left the others. The new children tile the bytes between the two
places. Every rule of the grammar relates its states in this way, whatever it meets.
-/

namespace IdlWorkbench

namespace Tree

mutual

/-- The children of every node stand side by side and fill its range. -/
def Tiled : Tree → Prop
  | leaf _ => True
  | node _ range children => TiledFrom range.start children range.stop

def TiledFrom (start : Nat) : List Tree → (stop : Nat) → Prop
  | [], stop => start = stop
  | t :: ts, stop => t.range.start = start ∧ t.Tiled ∧ TiledFrom t.range.stop ts stop

end

theorem tiledFrom_append {ts us : List Tree} {a c : Nat} :
    TiledFrom a (ts ++ us) c ↔ ∃ b, TiledFrom a ts b ∧ TiledFrom b us c := by
  induction ts generalizing a with
  | nil => simp [TiledFrom]
  | cons t ts ih => simp [TiledFrom, ih, and_assoc]

theorem TiledFrom.append {ts us : List Tree} {a b c : Nat} (h : TiledFrom a ts b) (h' : TiledFrom b us c) :
    TiledFrom a (ts ++ us) c := tiledFrom_append.mpr ⟨b, h, h'⟩

theorem exists_of_isNode {k : NodeKind} {c : Tree} (h : c.isNode k = true) : ∃ r cs, c = node k r cs := by
  cases c with
  | leaf t => cases h
  | node kind r cs =>
    obtain rfl : kind = k := by simpa [isNode, kind?] using h
    exact ⟨r, cs, rfl⟩

theorem leavesOf_append : ∀ ts us : List Tree, leavesOf (ts ++ us) = leavesOf ts ++ leavesOf us
  | [], us => by simp [leavesOf]
  | t :: ts, us => by rw [List.cons_append, leavesOf, leavesOf, leavesOf_append ts us, List.append_assoc]

theorem mem_leavesOf {tok : Token} {ts : List Tree} : tok ∈ leavesOf ts ↔ ∃ t ∈ ts, tok ∈ t.leaves := by
  induction ts with
  | nil => simp [leavesOf]
  | cons t ts ih => simp [leavesOf, ih]

end Tree

namespace Grammar

open IdlWorkbench.Tree Token

namespace State

/-- The tokens left start at the place reached and follow each other. -/
def Aligned (s : State) : Prop := Chained s.offset s.rest

structure Consumes (s t : State) : Prop where
  /-- New children, whose leaves are the tokens passed. -/
  grown : ∃ ts : List Tree, t.done = ts.reverse ++ s.done ∧ s.rest = leavesOf ts ++ t.rest ∧
    (s.Aligned → TiledFrom s.offset ts t.offset ∧ t.Aligned)

namespace Consumes

variable {s t u : State}

theorem refl (s : State) : Consumes s s := ⟨[], by simp, by simp [leavesOf], fun h => ⟨by rw [TiledFrom], h⟩⟩

theorem trans (h : Consumes s t) (h' : Consumes t u) : Consumes s u := by
  obtain ⟨ts, hd, hr, ha⟩ := h
  obtain ⟨us, hd', hr', ha'⟩ := h'
  refine ⟨ts ++ us, by simp [hd, hd'], by rw [leavesOf_append, hr, hr', List.append_assoc], fun h => ?_⟩
  obtain ⟨hts, ht⟩ := ha h
  obtain ⟨hus, hu⟩ := ha' ht
  exact ⟨hts.append hus, hu⟩

theorem suffix (h : Consumes s t) : t.rest <:+ s.rest := by
  obtain ⟨ts, -, hr, -⟩ := h
  exact ⟨leavesOf ts, hr.symm⟩

theorem length_le (h : Consumes s t) : t.rest.length ≤ s.rest.length := h.suffix.length_le

/-- Nothing but the last token and the complaints changed. -/
theorem of_same (hr : t.rest = s.rest) (ho : t.offset = s.offset) (hd : t.done = s.done) : Consumes s t :=
  ⟨[], by simp [hd], by simp [leavesOf, hr], fun h => ⟨by rw [TiledFrom, ho], by rwa [Aligned, hr, ho]⟩⟩

theorem ite {c : Prop} [Decidable c] (ht : Consumes s t) (hu : Consumes s u) : Consumes s (if c then t else u) := by
  split
  · exact ht
  · exact hu

end Consumes

theorem advance_consumes : ∀ (n : Nat) (s : State), Consumes s (s.advance n)
  | 0, s => Consumes.refl s
  | n + 1, s => by
    rw [advance]
    split
    · exact Consumes.refl s
    · rename_i t rest hr
      refine Consumes.trans ⟨[.leaf t], by simp, ?_, fun h => ?_⟩ (advance_consumes n _)
      · simp [leavesOf, leaves, hr]
      · rw [Aligned, hr] at h
        exact ⟨by simp [TiledFrom, Tiled, Tree.range, Token.range, h.1], h.2⟩

theorem advance_rest : ∀ (n : Nat) (s : State), (s.advance n).rest = s.rest.drop n
  | 0, _ => rfl
  | n + 1, s => by
    rw [advance]
    split
    · rename_i h; simp [h]
    · rename_i t rest h
      rw [advance_rest n, h, List.drop_succ_cons]

theorem advance_done : ∀ (n : Nat) (s : State),
    (s.advance n).done = ((s.rest.take n).map Tree.leaf).reverse ++ s.done
  | 0, _ => by simp [advance]
  | n + 1, s => by
    rw [advance]
    split
    · simp [*]
    · rename_i t rest hr
      simp [advance_done n, hr]

theorem opened_done (s : State) : s.opened.done = [] := rfl

variable {s t : State}

/-! ## Steps that end a run -/

namespace Consumes

theorem advance (n : Nat) (h : Consumes s t) : Consumes s (t.advance n) := h.trans (advance_consumes n t)

theorem skipTrivia (h : Consumes s t) : Consumes s t.skipTrivia := h.advance _

theorem bump (h : Consumes s t) : Consumes s t.bump := h.skipTrivia.advance 1

theorem complain (c : Complaint) (h : Consumes s t) : Consumes s (t.complain c) :=
  h.trans (of_same rfl rfl rfl)

theorem expected (what : Expected) (h : Consumes s t) : Consumes s (t.expected what) := h.complain _

theorem expect (k : TokenKind) (h : Consumes s t) : Consumes s (t.expect k) := ite h.bump (h.expected _)

/-- The children of `u` go into one node. -/
theorem close (k : NodeKind) {u : State} (h : Consumes s t) (hb : Consumes t.opened u) :
    Consumes s (State.close k t u) := by
  obtain ⟨us, hd, hr, ha⟩ := hb
  rw [opened_done, List.append_nil] at hd
  refine h.trans ⟨[.node k ⟨t.offset, u.offset⟩ us], ?_, ?_, fun h => ?_⟩
  · simp [State.close, hd]
  · simpa [leavesOf, leaves, State.close, opened] using hr
  · obtain ⟨hu, hal⟩ := ha h
    exact ⟨by simpa [TiledFrom, Tiled, Tree.range, State.close, opened] using hu, hal⟩

/-- The children of `u` stay what they are. -/
theorem splice {u : State} (h : Consumes s t) (hb : Consumes t.opened u) : Consumes s (State.splice t u) := by
  obtain ⟨us, hd, hr, ha⟩ := hb
  rw [opened_done, List.append_nil] at hd
  exact h.trans ⟨us, by simp [State.splice, hd], by simpa [State.splice, opened] using hr, fun h => ha h⟩

end Consumes

end State

def Conserves (p : Parser) : Prop := ∀ s, State.Consumes s (p s)

open State

variable {s t : State} {p q : Parser}

theorem Conserves.after (hp : Conserves p) (h : Consumes s t) : Consumes s (p t) := h.trans (hp t)

theorem conserves_id : Conserves id := Consumes.refl

namespace State.Consumes

theorem node (k : NodeKind) (hp : Conserves p) (h : Consumes s t) : Consumes s (t.node k p) :=
  h.close k (hp _)

theorem nodeAtToken (k : NodeKind) (hp : Conserves p) (h : Consumes s t) : Consumes s (t.nodeAtToken k p) :=
  h.skipTrivia.node k hp

theorem tokenNode (k : NodeKind) (h : Consumes s t) : Consumes s (t.tokenNode k) :=
  h.nodeAtToken k fun _ => (refl _).bump

theorem repeatWhile (go : State → Bool) (hp : Conserves p) : ∀ (n : Nat) {t : State},
    Consumes s t → Consumes s (t.repeatWhile go p n)
  | 0, _, h => h
  | n + 1, t, h => by
    rw [State.repeatWhile]
    split
    · exact repeatWhile go hp n (hp.after h)
    · exact h

end State.Consumes

theorem bumpWhile_eq (go : State → Bool) : ∀ (n : Nat) (s : State), s.bumpWhile go n = s.repeatWhile go State.bump n
  | 0, _ => rfl
  | n + 1, s => by
    rw [State.bumpWhile, State.repeatWhile]
    split
    · exact bumpWhile_eq go n _
    · rfl

namespace State.Consumes

theorem bumpWhile (go : State → Bool) (n : Nat) (h : Consumes s t) : Consumes s (t.bumpWhile go n) := by
  rw [bumpWhile_eq]
  exact h.repeatWhile go (fun _ => (refl _).bump) n

theorem item (k : NodeKind) (hp : Conserves p) (h : Consumes s t) : Consumes s (t.item k p) := by
  rw [State.item]
  split
  · exact (h.advance _).node k fun u => hp.after ((refl u).node .doc fun v => (refl v).advance _)
  · exact (h.advance _).node k hp

theorem trailing (h : Consumes s t) : Consumes s t.trailing := by
  rw [State.trailing]
  split
  · split
    · exact (h.advance _).node .trailing fun u => (refl u).advance 1
    · exact h
  · exact h

theorem recoverTo (c : Complaint) (stop : List TokenKind) (h : Consumes s t) : Consumes s (t.recoverTo c stop) :=
  (h.complain c).nodeAtToken .error fun u => ite (refl u) ((refl u).bump.bumpWhile _ _)

theorem recoverLine (what : Expected) (closer : TokenKind) (h : Consumes s t) :
    Consumes s (t.recoverLine what closer) :=
  (h.expected what).nodeAtToken .error fun u =>
    ite (refl u) (ite (refl u).bump ((refl u).bump.bumpWhile _ _))

theorem endLine (closer : TokenKind) (h : Consumes s t) : Consumes s (t.endLine closer) :=
  have hb := (ite h.bump h).trailing
  ite (hb.recoverLine _ _).trailing hb

end State.Consumes

/-! ## Types -/

theorem name_conserves : Conserves name := fun s =>
  .ite ((Consumes.refl s).tokenNode _) ((Consumes.refl s).expected _)

theorem typeName_conserves : Conserves typeName := fun s =>
  .ite ((Consumes.refl s).nodeAtToken _ fun u => (Consumes.refl u).bump.bump.expect _)
    ((Consumes.refl s).tokenNode _)

theorem typeList_conserves (hp : Conserves p) : ∀ n, Conserves (typeList p n)
  | 0, s => Consumes.refl s
  | n + 1, s => by
    have ht (b : Bool) : Consumes s (p (if b then name s else s)) :=
      hp.after (.ite (name_conserves s) (Consumes.refl s))
    rw [typeList]
    refine .ite ?_ (Consumes.refl s)
    exact .ite ((typeList_conserves hp n).after (ht _).bump) (ht _)

theorem typesInParens_conserves (hp : Conserves p) : Conserves (typesInParens p) := fun s =>
  ((typeList_conserves hp _).after (Consumes.refl s).bump).expect _

theorem signature_conserves (hp : Conserves p) : Conserves (signature p) := fun s => by
  have hparams : Consumes s (s.nodeAtToken .paramList fun s =>
      if s.sees .lParen then typesInParens p s else s.expected (.token .lParen)) :=
    (Consumes.refl s).nodeAtToken _ fun u => .ite (typesInParens_conserves hp u) ((Consumes.refl u).expected _)
  exact .ite hparams (hparams.nodeAtToken _ fun u => .ite (typesInParens_conserves hp u) (hp u))

theorem members_conserves (hp : Conserves p) : Conserves (members p) := fun s =>
  .ite ((Consumes.refl s).nodeAtToken _ fun u => ((Consumes.refl u).bump.repeatWhile _ hp _).expect _)
    ((Consumes.refl s).expected _)

theorem fieldNames_conserves : Conserves fieldNames := fun s =>
  (name_conserves s).repeatWhile _ (fun u => name_conserves.after (Consumes.refl u).bump) _

theorem field_conserves (hp : Conserves p) : Conserves (field p) := fun s => by
  refine .ite ((Consumes.refl s).item _ fun u => Consumes.endLine _ ?_) ((Consumes.refl s).recoverLine _ _)
  have ht (b : Bool) : Consumes u (p (if b then u else fieldNames u)) :=
    hp.after (.ite (Consumes.refl u) (fieldNames_conserves u))
  exact .ite ((ht _).tokenNode _) (ht _)

theorem method_conserves (hp : Conserves p) : Conserves (method p) := fun s =>
  .ite ((Consumes.refl s).item _ fun u => ((signature_conserves hp).after (name_conserves u)).endLine _)
    ((Consumes.refl s).recoverLine _ _)

theorem typeWith_conserves (hp : Conserves p) : Conserves (typeWith p) := fun s => by
  have h := Consumes.refl s
  rw [typeWith]
  split
  · exact typeName_conserves s
  · exact h.nodeAtToken _ fun u => hp.after ((Consumes.refl u).bump.expect _)
  · exact h.nodeAtToken _ fun u => hp.after ((hp.after ((Consumes.refl u).bump.expect _)).expect _)
  · exact h.nodeAtToken _ fun u => hp.after (Consumes.refl u).bump
  · exact h.nodeAtToken _ fun u => hp.after (Consumes.refl u).bump
  · exact h.nodeAtToken _ fun u => (signature_conserves hp).after (Consumes.refl u).bump
  · exact h.nodeAtToken _ fun u => (members_conserves (field_conserves hp)).after (Consumes.refl u).bump
  · exact h.nodeAtToken _ fun u => (members_conserves (method_conserves hp)).after (Consumes.refl u).bump
  · exact h.expected _

theorem typeWithin_conserves : ∀ n, Conserves (typeWithin n)
  | 0 => conserves_id
  | n + 1 => by rw [typeWithin]; exact typeWith_conserves (typeWithin_conserves n)

theorem type_conserves : Conserves type := fun s => typeWithin_conserves _ s

/-! ## Expressions -/

theorem elements_conserves (hp : Conserves p) : ∀ n, Conserves (elements p n)
  | 0, s => Consumes.refl s
  | n + 1, s => by
    rw [elements]
    exact .ite (Consumes.refl s) (.ite ((elements_conserves hp n).after (hp s).bump) (hp s))

theorem element_conserves (hp : Conserves p) : Conserves (element p) := fun s =>
  have h := (Consumes.refl s).skipTrivia
  .ite (h.close _ (hp.after (hp _).bump)) (h.close _ (hp _))

theorem litBodyWith_conserves (hp : Conserves p) : Conserves (litBodyWith p) := fun s =>
  (Consumes.refl s).nodeAtToken _ fun u =>
    ((elements_conserves (element_conserves hp) _).after (Consumes.refl u).bump).expect _

theorem composite_conserves (hp : Conserves p) : Conserves (composite p) := fun s =>
  have h := (Consumes.refl s).skipTrivia
  .ite (h.close _ (hp.after (type_conserves _))) (h.splice (type_conserves _))

theorem exprWith_conserves (hp : Conserves p) (hq : Conserves q) : Conserves (exprWith p q) := fun s => by
  have h := Consumes.refl s
  rw [exprWith]
  split
  · exact h.nodeAtToken _ fun u => hp.after (Consumes.refl u).bump
  · exact h.nodeAtToken _ fun u => hp.after (Consumes.refl u).bump
  · exact h.tokenNode _
  · exact h.tokenNode _
  · exact h.tokenNode _
  · exact h.tokenNode _
  · exact h.nodeAtToken _ fun u => (hp.after (Consumes.refl u).bump).expect _
  · exact composite_conserves hq s
  · exact composite_conserves hq s
  · exact composite_conserves hq s
  · exact h.expected _
  · exact .ite (h.expected _) ((h.expected _).tokenNode _)

theorem valueWith_conserves (hp : Conserves p) (hq : Conserves q) : Conserves (valueWith p q) := fun s =>
  .ite (hq s) (hp s)

mutual

theorem exprWithin_conserves : ∀ n, Conserves (exprWithin n)
  | 0 => by rw [exprWithin]; exact conserves_id
  | n + 1 => by
    rw [exprWithin]
    exact exprWith_conserves (exprWithin_conserves n) (litBodyWithin_conserves n)

theorem litBodyWithin_conserves : ∀ n, Conserves (litBodyWithin n)
  | 0 => by rw [litBodyWithin]; exact conserves_id
  | n + 1 => by
    rw [litBodyWithin]
    exact litBodyWith_conserves (valueWith_conserves (exprWithin_conserves n) (litBodyWithin_conserves n))

end

theorem expr_conserves : Conserves expr := fun s => exprWithin_conserves _ s

/-! ## Declarations -/

theorem grouped_conserves {spec : Bool → Parser} (hs : ∀ b, Conserves (spec b)) : Conserves (grouped spec) :=
  fun s => Consumes.endLine _
    (.ite (((Consumes.refl s).bump.repeatWhile _ (hs true) _).expect _) (hs false s))

theorem specNode_conserves (k : NodeKind) (group : Bool) (hp : Conserves p) : Conserves (specNode k group p) :=
  fun s => .ite ((Consumes.refl s).item _ fun u => (hp u).endLine _) ((Consumes.refl s).nodeAtToken _ hp)

theorem importSpec_conserves (group : Bool) : Conserves (importSpec group) := fun s => by
  refine .ite (specNode_conserves _ _ (fun u => ?_) s) ((Consumes.refl s).recoverLine _ _)
  have hn : Consumes u (if u.seesAny [.ident, .dot] then u.tokenNode .name else u) :=
    .ite ((Consumes.refl u).tokenNode _) (Consumes.refl u)
  exact .ite (hn.tokenNode _) (hn.expected _)

theorem typeSpec_conserves (group : Bool) : Conserves (typeSpec group) := fun s =>
  .ite (specNode_conserves _ _ (fun u => type_conserves.after (name_conserves u)) s)
    ((Consumes.refl s).recoverLine _ _)

theorem constSpec_conserves (group : Bool) : Conserves (constSpec group) := fun s => by
  refine .ite (specNode_conserves _ _ (fun u => ?_) s) ((Consumes.refl s).recoverLine _ _)
  have ht (b : Bool) : Consumes u (if b then type (name u) else name u) :=
    .ite (type_conserves.after (name_conserves u)) (name_conserves u)
  exact .ite (expr_conserves.after (ht _).bump) (ht _)

/-- Keyword and specs of a declaration, with its doc. -/
theorem decl_conserves (k : NodeKind) {spec : Bool → Parser} (hs : ∀ b, Conserves (spec b)) :
    Conserves fun s => s.item k fun s => grouped spec s.bump := fun s =>
  (Consumes.refl s).item _ fun u => (grouped_conserves hs).after (Consumes.refl u).bump

theorem importDecl_conserves : Conserves importDecl := decl_conserves _ importSpec_conserves

theorem packageClause_conserves : Conserves packageClause := fun s =>
  .ite ((Consumes.refl s).item _ fun u => (name_conserves.after (Consumes.refl u).bump).endLine _)
    ((Consumes.refl s).expected _)

theorem declaration_conserves : Conserves declaration := fun s => by
  rw [declaration]
  split
  · exact decl_conserves _ typeSpec_conserves s
  · exact decl_conserves _ constSpec_conserves s
  · exact importDecl_conserves.after ((Consumes.refl s).complain _)
  · exact (Consumes.refl s).recoverTo _ _

theorem sourceFile_conserves : Conserves sourceFile := fun s =>
  (((packageClause_conserves s).repeatWhile _ importDecl_conserves _).repeatWhile _
    declaration_conserves _).skipTrivia

theorem exprAlone_conserves : Conserves exprAlone := fun s =>
  Consumes.skipTrivia (.ite (expr_conserves s) ((expr_conserves s).recoverTo _ _))

end Grammar

end IdlWorkbench
