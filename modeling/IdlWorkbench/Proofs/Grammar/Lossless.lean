import IdlWorkbench.Proofs.Grammar.Consume
import Mathlib.Data.List.TakeWhile
import Mathlib.Tactic.Conv

/-!
# Parsing loses nothing

The loops of the grammar get as many rounds as tokens are left. Each round of a loop over a whole text
consumes a token, so the text has ended when the rounds are used up, and what `parse` and `parseExpr` build
has all tokens of the text as its leaves.
-/

namespace IdlWorkbench

namespace Grammar

open State IdlWorkbench.Tree Token

variable {s : State} {p : Parser}

/-! ## Every round consumes a token -/

theorem atEnd_eq (s : State) : s.atEnd = s.rest.all Token.isTrivia := by
  rw [Bool.eq_iff_iff]
  simp [atEnd, peek]

theorem skipTrivia_rest (s : State) : s.skipTrivia.rest = s.rest.dropWhile Token.isTrivia := by
  have h : s.trivia ++ s.rest.dropWhile Token.isTrivia = s.rest := List.takeWhile_append_dropWhile
  rw [skipTrivia, advance_rest]
  conv_lhs => rw [← h]
  exact List.drop_left

theorem skipTrivia_atEnd (s : State) : s.skipTrivia.atEnd = s.atEnd := by
  rw [atEnd_eq, atEnd_eq, skipTrivia_rest]
  have h := List.any_dropWhile (l := s.rest) (p := Token.isTrivia)
  rw [List.any_eq_not_all_not] at h
  simpa using h

theorem skipTrivia_rest_of_atEnd (h : s.atEnd = true) : s.skipTrivia.rest = [] := by
  rw [atEnd_eq, List.all_eq_true] at h
  rw [skipTrivia_rest]
  exact List.dropWhile_eq_nil_iff.mpr h

theorem rest_ne_nil (h : s.atEnd = false) : s.rest ≠ [] := by
  intro hnil
  simp [atEnd_eq, hnil] at h

theorem trivia_lt (h : s.atEnd = false) : s.trivia.length < s.rest.length := by
  have hne := List.length_pos_iff.mpr (rest_ne_nil ((skipTrivia_atEnd s).trans h))
  rw [skipTrivia, advance_rest, List.length_drop] at hne
  omega

theorem bump_lt (h : s.rest ≠ []) : s.bump.rest.length < s.rest.length := by
  have hpos := List.length_pos_iff.mpr h
  have hle := (advance_consumes s.trivia.length s).length_le
  rw [bump, advance_rest, List.length_drop]
  change s.skipTrivia.rest.length ≤ _ at hle
  omega

theorem docLines_le : ∀ ts : List Token, 2 * docLines ts ≤ ts.length
  | [] => by simp [docLines]
  | [_] => by simp [docLines]
  | blank :: comment :: earlier => by
    have := docLines_le earlier
    rw [docLines]
    split <;> simp only [List.length_cons] <;> omega

/-- A blank stands behind the first comment of a doc. -/
theorem docStart?_lt {i : Nat} (h : s.docStart? = some i) : i + 1 < s.trivia.length := by
  have hle := docLines_le s.trivia.reverse
  rw [List.length_reverse] at hle
  have hm := List.mem_of_find?_eq_some h
  obtain ⟨j, hj, rfl⟩ := List.mem_map.mp hm
  rw [List.mem_range] at hj
  omega

def Progresses (p : Parser) : Prop := ∀ s : State, s.rest ≠ [] → (p s).rest.length < s.rest.length

theorem item_lt (k : NodeKind) (hp : Progresses p) (h : s.atEnd = false) :
    (s.item k p).rest.length < s.rest.length := by
  have ht := trivia_lt h
  rw [item]
  split
  · rename_i start hstart
    have hs := docStart?_lt hstart
    -- the doc ends before the last blank above the item, so the item's own tokens are still to come
    have hrest : (((s.advance start).opened).node .doc (State.advance (s.trivia.length - start - 1))).rest =
        s.rest.drop (s.trivia.length - 1) := by
      have : start + (s.trivia.length - start - 1) = s.trivia.length - 1 := by omega
      simp [State.node, State.close, opened, advance_rest, List.drop_drop, this]
    have hne : s.rest.drop (s.trivia.length - 1) ≠ [] := by
      intro hnil
      have := List.drop_eq_nil_iff.mp hnil
      omega
    have := hp _ (hrest ▸ hne)
    rw [hrest, List.length_drop] at this
    simp only [State.node, State.close] at this ⊢
    omega
  · have hrest : ((s.advance s.trivia.length).opened).rest = s.rest.drop s.trivia.length := advance_rest _ s
    have hne : s.rest.drop s.trivia.length ≠ [] := by
      intro hnil
      have := List.drop_eq_nil_iff.mp hnil
      omega
    have := hp _ (hrest ▸ hne)
    rw [hrest, List.length_drop] at this
    simp only [State.node, State.close]
    omega

theorem decl_lt (k : NodeKind) {spec : Bool → Parser} (hs : ∀ b, Conserves (spec b)) (h : s.atEnd = false) :
    (s.item k fun s => grouped spec s.bump).rest.length < s.rest.length := by
  refine item_lt k (fun u hu => ?_) h
  exact Nat.lt_of_le_of_lt (grouped_conserves hs u.bump).length_le (bump_lt hu)

/-! ## The whole text is consumed -/

/-- A loop whose rounds each consume a token has enough rounds. -/
theorem repeatWhile_stops {go : State → Bool} (hp : ∀ s, go s = true → (p s).rest.length < s.rest.length) :
    ∀ (n : Nat) (s : State), s.rest.length ≤ n → go (s.repeatWhile go p n) = false
  | 0, s, hn => by
    rw [repeatWhile]
    rcases hgo : go s with _ | _
    · rfl
    · have := hp s hgo
      omega
  | n + 1, s, hn => by
    rw [repeatWhile]
    split
    · rename_i hgo
      have := hp s hgo
      exact repeatWhile_stops hp n (p s) (by omega)
    · rename_i hgo
      simpa using hgo

theorem nodeAtToken_rest (k : NodeKind) (p : Parser) (s : State) :
    (s.nodeAtToken k p).rest = (p s.skipTrivia.opened).rest := rfl

theorem recoverTo_lt (c : Complaint) (stop : List TokenKind) (h : s.atEnd = false) :
    (s.recoverTo c stop).rest.length < s.rest.length := by
  have hend : (s.complain c).skipTrivia.opened.atEnd = false := (skipTrivia_atEnd (s.complain c)).trans h
  have hle := (Consumes.refl (s.complain c)).skipTrivia.length_le
  rw [recoverTo, nodeAtToken_rest]
  simp only [hend, Bool.false_eq_true, ite_false]
  have hb := ((Consumes.refl (s.complain c).skipTrivia.opened.bump).bumpWhile
    (fun s => !s.atEnd && !s.seesAny stop) (s.complain c).skipTrivia.opened.rest.length).length_le
  have := bump_lt (rest_ne_nil hend)
  exact Nat.lt_of_le_of_lt hb (Nat.lt_of_lt_of_le this hle)

/-- Without a token to stop at, recovery runs to the end. -/
theorem recoverTo_nil (c : Complaint) (s : State) : (s.recoverTo c []).atEnd = true := by
  rw [atEnd_eq, recoverTo, nodeAtToken_rest, ← atEnd_eq]
  generalize (s.complain c).skipTrivia.opened = u
  split
  · assumption
  · rename_i hne
    have hlt := bump_lt (rest_ne_nil (by simpa using hne))
    have hgo : ∀ v : State, (!v.atEnd && !v.seesAny []) = true → v.bump.rest.length < v.rest.length := by
      intro v hv
      simp only [Bool.and_eq_true, Bool.not_eq_true'] at hv
      exact bump_lt (rest_ne_nil hv.1)
    have := repeatWhile_stops hgo u.rest.length u.bump (by omega)
    rw [bumpWhile_eq]
    generalize u.bump.repeatWhile _ _ _ = v at this ⊢
    have hnone : v.seesAny [] = false := by simp [seesAny]
    simpa [hnone] using this

theorem declaration_lt (h : s.atEnd = false) : (declaration s).rest.length < s.rest.length := by
  rw [declaration]
  split
  · exact decl_lt _ typeSpec_conserves h
  · exact decl_lt _ constSpec_conserves h
  · exact decl_lt (s := s.complain .lateImport) _ importSpec_conserves h
  · exact recoverTo_lt _ _ h

theorem sourceFile_rest (s : State) : (sourceFile s).rest = [] := by
  refine skipTrivia_rest_of_atEnd ?_
  have hgo : ∀ u : State, (!u.atEnd) = true → (declaration u).rest.length < u.rest.length := fun u hu =>
    declaration_lt (by simpa using hu)
  simpa using repeatWhile_stops hgo _ _ (Nat.le_refl _)

theorem exprAlone_rest (s : State) : (exprAlone s).rest = [] := by
  refine skipTrivia_rest_of_atEnd ?_
  split
  · assumption
  · exact recoverTo_nil _ _

/-! ## Roots -/

mutual

theorem stop_of_tiled : ∀ {t : Tree}, t.Tiled →
    t.range.stop = t.range.start + (String.join (t.leaves.map Token.text)).utf8ByteSize
  | .leaf t, _ => by simp [Tree.range, Token.range, Token.stop, leaves]
  | .node k r ts, h => by
    rw [Tiled] at h
    rw [leaves]
    exact stop_of_tiledFrom h

theorem stop_of_tiledFrom : ∀ {ts : List Tree} {start stop : Nat},
    TiledFrom start ts stop → stop = start + (String.join ((leavesOf ts).map Token.text)).utf8ByteSize
  | [], start, stop, h => by
    rw [TiledFrom] at h
    simp [leavesOf, h]
  | t :: ts, start, stop, h => by
    rw [TiledFrom] at h
    obtain ⟨hstart, ht, hts⟩ := h
    rw [stop_of_tiledFrom hts, stop_of_tiled ht, hstart, leavesOf]
    simp [String.utf8ByteSize_append, Nat.add_assoc]

end

/-- A tree of a whole text: its leaves are the tokens of the text, and every node has the bytes of the
leaves below it as its range. -/
structure Covers (k : NodeKind) (text : String) (tree : Tree) : Prop where
  kind : tree.kind? = some k
  leaves : tree.leaves = tokenize text
  tiled : tree.Tiled
  range : tree.range = ⟨0, text.utf8ByteSize⟩

theorem run_covers (k : NodeKind) (hp : Conserves p) (hrest : ∀ s, (p s).rest = []) (text : String) :
    Covers k text (run k p text).tree := by
  obtain ⟨ts, hd, hr, ha⟩ := hp (.ofTokens (tokenize text))
  obtain ⟨htiled, -⟩ := ha (scan_chained text.toList 0 0)
  rw [hrest, List.append_nil] at hr
  have hdone : (p (.ofTokens (tokenize text))).done.reverse = ts := by
    rw [hd]
    simp [ofTokens]
  have hstop := stop_of_tiledFrom htiled
  rw [← hr] at hstop
  refine ⟨rfl, ?_, ?_, ?_⟩
  · rw [run, Tree.leaves, hdone]
    exact hr.symm
  · rw [run, Tiled, hdone]
    exact htiled
  · rw [run, Tree.range, hstop]
    simp [ofTokens, join_tokenize]

theorem parse_covers (text : String) : Covers .sourceFile text (parse text).tree :=
  run_covers _ sourceFile_conserves sourceFile_rest text

theorem parseExpr_covers (text : String) : Covers .exprRoot text (parseExpr text).tree :=
  run_covers _ exprAlone_conserves exprAlone_rest text

/-- Tokens lose nothing of a text, and neither do the trees of `parse` and `parseExpr`. -/
theorem parse_lossless (text : String) :
    (∀ t ∈ tokenize text, t.text ≠ "") ∧
    String.join ((tokenize text).map Token.text) = text ∧
    (∀ before t after, tokenize text = before ++ t :: after →
      t.offset = (String.join (before.map Token.text)).utf8ByteSize) ∧
    Covers .sourceFile text (parse text).tree ∧
    Covers .exprRoot text (parseExpr text).tree :=
  ⟨ne_empty_of_mem_tokenize, join_tokenize text, fun _ _ _ => tokenize_offset, parse_covers text,
    parseExpr_covers text⟩

end Grammar

end IdlWorkbench
