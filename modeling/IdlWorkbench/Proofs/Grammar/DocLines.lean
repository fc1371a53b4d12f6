import IdlWorkbench.Proofs.Grammar.Stepwise

/-!
# Which comments are the doc of an item

A parser state stands at a position of the token list. The doc of the item that comes next is the longest group
of doc lines right above it whose first comment stands on a line of its own: `docStart?` is the least position
from which the tokens are doc lines (`docStart?_isLeast`), though it is found by a scan backwards over pairs of
trivia tokens and a correction forwards. `item` puts exactly that group into the `doc` node.
-/

namespace IdlWorkbench.Grammar

open Token

/-- Doc lines: each is a comment and a blank with one line break. -/
def DocLines : List Token → Prop
  | [] => True
  | [_] => False
  | comment :: blank :: below =>
    (comment.isComment = true ∧ blank.kind = .whitespace ∧ blank.newlines = 1) ∧ DocLines below

theorem DocLines.even : ∀ {ts : List Token}, DocLines ts → ts.length % 2 = 0
  | [], _ => rfl
  | _ :: _ :: below, h => by
    have := DocLines.even h.2
    simp only [List.length_cons]
    omega

/-- A doc line below others. -/
theorem docLines_concat (comment blank : Token) : ∀ above : List Token, DocLines (above ++ [comment, blank]) ↔
    (comment.isComment = true ∧ blank.kind = .whitespace ∧ blank.newlines = 1) ∧ DocLines above
  | [] => Iff.rfl
  | [t] => by simp [DocLines]
  | _ :: _ :: above => by
    simp only [List.cons_append, DocLines, docLines_concat comment blank above]
    exact and_left_comm

namespace State

/-- Reading backwards, `docLines` counts as many doc lines as there are. -/
theorem le_docLines_iff : ∀ (j : Nat) (above : List Token),
    j ≤ docLines above ↔ 2 * j ≤ above.length ∧ DocLines (above.take (2 * j)).reverse
  | 0, _ => by simp [DocLines]
  | _ + 1, [] => by simp [docLines]
  | _ + 1, [_] => by simp [docLines]; omega
  | j + 1, blank :: comment :: above => by
    have hlines : ((blank :: comment :: above).take (2 * (j + 1))).reverse =
        (above.take (2 * j)).reverse ++ [comment, blank] := by
      simp [Nat.mul_add]
    have hlength : 2 * (j + 1) ≤ (blank :: comment :: above).length ↔ 2 * j ≤ above.length := by
      simp only [List.length_cons]
      omega
    rw [hlines, docLines_concat, hlength, docLines]
    have ih := le_docLines_iff j above
    split
    · rename_i hline
      rw [Nat.add_le_add_iff_right, ih]
      exact ⟨fun h => ⟨h.1, ⟨hline.2.2, hline.1, hline.2.1⟩, h.2⟩, fun h => ⟨h.1, h.2.2⟩⟩
    · rename_i hline
      exact ⟨fun h => absurd h (by omega), fun h => absurd ⟨h.2.1.2.1, h.2.1.2.2, h.2.1.1⟩ hline⟩

/-- The places in the trivia from which doc lines reach down to the next token. -/
theorem docLines_drop_iff {ts : List Token} {r : Nat} : r < ts.length ∧ DocLines (ts.drop r) ↔
    ∃ j < docLines ts.reverse, r = ts.length - 2 * docLines ts.reverse + 2 * j := by
  have hle := docLines_le ts.reverse
  rw [List.length_reverse] at hle
  constructor
  · rintro ⟨hr, hlines⟩
    have heven := hlines.even
    rw [List.length_drop] at heven
    obtain ⟨j, hj⟩ : ∃ j, ts.length - r = 2 * j := ⟨(ts.length - r) / 2, by omega⟩
    have hcount : j ≤ docLines ts.reverse := by
      rw [le_docLines_iff, List.length_reverse, List.take_reverse, List.reverse_reverse]
      have hfrom : ts.length - 2 * j = r := by omega
      exact ⟨by omega, by rwa [hfrom]⟩
    exact ⟨docLines ts.reverse - j, by omega, by omega⟩
  · rintro ⟨j, hj, rfl⟩
    have hlines := ((le_docLines_iff (docLines ts.reverse - j) ts.reverse).mp (Nat.sub_le _ _)).2
    rw [List.take_reverse, List.reverse_reverse] at hlines
    have hfrom : ts.length - 2 * (docLines ts.reverse - j) = ts.length - 2 * docLines ts.reverse + 2 * j := by omega
    rw [hfrom] at hlines
    exact ⟨by omega, hlines⟩

/-- Doc lines reach from a place in the trivia down to the next token, and the first begins a line. -/
def DocAt (s : State) (r : Nat) : Prop :=
  (r < s.trivia.length ∧ DocLines (s.trivia.drop r)) ∧ s.beginsLine r = true

/-- The candidates are tried from the first one on, so the one found is the least. -/
theorem docStart?_eq_some_iff {s : State} {r : Nat} :
    s.docStart? = some r ↔ s.DocAt r ∧ ∀ r', s.DocAt r' → r ≤ r' := by
  rw [docStart?, List.find?_map, Option.map_eq_some_iff]
  simp only [List.find?_range_eq_some, List.mem_range, Function.comp_apply, DocAt, docLines_drop_iff]
  constructor
  · rintro ⟨j, ⟨hbegins, hj, hbefore⟩, rfl⟩
    refine ⟨⟨⟨j, hj, rfl⟩, hbegins⟩, ?_⟩
    rintro r' ⟨⟨j', hj', rfl⟩, hbegins'⟩
    have hle : ¬j' < j := fun hlt => by simpa [hbegins'] using hbefore j' hlt
    omega
  · rintro ⟨⟨⟨j, hj, rfl⟩, hbegins⟩, hleast⟩
    refine ⟨j, ⟨hbegins, hj, fun j' hlt => ?_⟩, rfl⟩
    rcases hb : s.beginsLine (s.trivia.length - 2 * docLines s.trivia.reverse + 2 * j') with _ | _
    · rfl
    · have := hleast _ ⟨⟨j', by omega, rfl⟩, hb⟩
      omega

theorem docStart?_eq_none_iff {s : State} : s.docStart? = none ↔ ∀ r, ¬s.DocAt r := by
  rw [docStart?, List.find?_map, Option.map_eq_none_iff, List.find?_range_eq_none]
  simp only [DocAt, docLines_drop_iff]
  constructor
  · rintro h r ⟨⟨j, hj, rfl⟩, hbegins⟩
    simpa [hbegins] using h j hj
  · intro h j hj
    simpa using fun hbegins => h _ ⟨⟨j, hj, rfl⟩, hbegins⟩

structure Stands (s : State) (tokens : List Token) (pos : Nat) : Prop where
  rest : s.rest = tokens.drop pos
  before : s.before = (tokens.take pos).getLast?

end State

/-- The token at `next` is the first significant one from `pos` on. -/
structure IsNext (tokens : List Token) (pos next : Nat) : Prop where
  le : pos ≤ next
  trivia : ∀ t ∈ tokens.extract pos next, t.isTrivia = true
  significant : ∃ t, tokens[next]? = some t ∧ t.isTrivia = false

theorem IsNext.lt {tokens : List Token} {pos next : Nat} (h : IsNext tokens pos next) : next < tokens.length := by
  obtain ⟨t, ht, -⟩ := h.significant
  exact (List.getElem?_eq_some_iff.mp ht).1

/-- The tokens from `i` to `next` are doc lines. The first comment begins the text, or a token with a line break
stands before it. -/
structure DocFrom (tokens : List Token) (next i : Nat) : Prop where
  lt : i < next
  lines : DocLines (tokens.extract i next)
  alone : i = 0 ∨ ∃ t, tokens[i - 1]? = some t ∧ t.hasNewline = true

/-- The doc of the item at `next` starts at `i`: no group of doc lines from `pos` on is longer. -/
structure DocStart (tokens : List Token) (pos next i : Nat) : Prop where
  le : pos ≤ i
  doc : DocFrom tokens next i
  least : ∀ j, pos ≤ j → DocFrom tokens next j → i ≤ j

namespace State

theorem stands_ofTokens (tokens : List Token) : (ofTokens tokens).Stands tokens 0 := ⟨rfl, rfl⟩

namespace Stands

variable {s : State} {tokens : List Token} {pos next : Nat}

theorem advance {n : Nat} : ∀ {s : State} {pos : Nat},
    s.Stands tokens pos → pos + n ≤ tokens.length → (s.advance n).Stands tokens (pos + n) := by
  induction n with
  | zero => exact fun h _ => h
  | succ n ih =>
    intro s pos h hle
    have hcons : s.rest = tokens[pos] :: tokens.drop (pos + 1) := by rw [h.rest, List.drop_eq_getElem_cons]
    rw [State.advance, hcons, Nat.add_comm n, ← Nat.add_assoc]
    refine ih ⟨rfl, ?_⟩ (by omega)
    simp [List.getLast?_take, List.getElem?_eq_getElem (show pos < tokens.length by omega)]

theorem opened (h : s.Stands tokens pos) : s.opened.Stands tokens pos := ⟨h.rest, h.before⟩

theorem close (k : NodeKind) (outer : State) (h : s.Stands tokens pos) : (State.close k outer s).Stands tokens pos :=
  ⟨h.rest, h.before⟩

end Stands

section
variable {s : State} {tokens : List Token} {pos next : Nat} (hs : s.Stands tokens pos) (hn : IsNext tokens pos next)
include hs hn

theorem Stands.trivia_eq : s.trivia = tokens.extract pos next := by
  obtain ⟨t, ht, hsig⟩ := hn.significant
  obtain ⟨hlt, rfl⟩ := List.getElem?_eq_some_iff.mp ht
  have hsplit : tokens.drop pos = tokens.extract pos next ++ tokens[next] :: tokens.drop (next + 1) := by
    rw [← List.drop_eq_getElem_cons, List.extract_eq_take_drop]
    conv_lhs => rw [← List.take_append_drop (next - pos) (tokens.drop pos), List.drop_drop,
      Nat.add_sub_cancel' hn.le]
  rw [trivia, hs.rest, hsplit, List.takeWhile_append_of_pos hn.trivia, List.takeWhile_cons_of_neg (by simp [hsig]),
    List.append_nil]

theorem Stands.trivia_length : s.trivia.length = next - pos := by
  have := hn.lt
  rw [hs.trivia_eq hn, List.extract_eq_take_drop, List.length_take, List.length_drop]
  omega

/-- The token before a place in the trivia is a token passed already if the place is the first one. -/
theorem Stands.beginsLine_iff {r : Nat} (hr : r < s.trivia.length) : s.beginsLine r = true ↔
    pos + r = 0 ∨ ∃ t, tokens[pos + r - 1]? = some t ∧ t.hasNewline = true := by
  have hlt := hn.lt
  rw [hs.trivia_length hn] at hr
  cases r with
  | zero =>
    rw [beginsLine, hs.before, List.getLast?_take, Nat.add_zero]
    by_cases hpos : pos = 0
    · simp [hpos]
    · simp [hpos, List.getElem?_eq_getElem (show pos - 1 < tokens.length by omega)]
  | succ r =>
    have hprev : pos + (r + 1) - 1 = pos + r := by omega
    rw [beginsLine, hs.rest, List.getElem?_drop, hprev, Option.any_eq_true]
    simp

theorem Stands.docAt_iff {r : Nat} : s.DocAt r ↔ DocFrom tokens next (pos + r) := by
  have hlines : s.trivia.drop r = tokens.extract (pos + r) next := by
    rw [hs.trivia_eq hn, List.extract_eq_take_drop, List.extract_eq_take_drop, List.drop_take, List.drop_drop]
    congr 1
    omega
  have hle := hn.le
  rw [DocAt, hlines, hs.trivia_length hn]
  constructor
  · rintro ⟨⟨hr, hl⟩, hb⟩
    exact ⟨by omega, hl, (hs.beginsLine_iff hn (by rw [hs.trivia_length hn]; omega)).mp hb⟩
  · rintro ⟨hr, hl, ha⟩
    exact ⟨⟨by omega, hl⟩, (hs.beginsLine_iff hn (by rw [hs.trivia_length hn]; omega)).mpr ha⟩

theorem Stands.docStart_iff {i : Nat} :
    s.docStart?.map (pos + ·) = some i ↔ DocStart tokens pos next i := by
  rw [Option.map_eq_some_iff]
  simp only [docStart?_eq_some_iff, hs.docAt_iff hn]
  constructor
  · rintro ⟨r, ⟨hdoc, hleast⟩, rfl⟩
    refine ⟨Nat.le_add_right _ _, hdoc, fun j hj hdoc' => ?_⟩
    obtain ⟨r', rfl⟩ := Nat.exists_eq_add_of_le hj
    exact Nat.add_le_add_left (hleast r' hdoc') pos
  · rintro ⟨hle, hdoc, hleast⟩
    obtain ⟨r, rfl⟩ := Nat.exists_eq_add_of_le hle
    exact ⟨r, ⟨hdoc, fun r' hdoc' => Nat.le_of_add_le_add_left (hleast _ (Nat.le_add_right _ _) hdoc')⟩, rfl⟩

/-- No token is passed but the trivia above the item. -/
theorem Stands.advance_trivia {r : Nat} (hr : r ≤ s.trivia.length) : (s.advance r).Stands tokens (pos + r) ∧
    (s.advance r).done = ((tokens.extract pos (pos + r)).map Tree.leaf).reverse ++ s.done := by
  have hlt := hn.lt
  have hle := hn.le
  rw [hs.trivia_length hn] at hr
  refine ⟨hs.advance (by omega), ?_⟩
  rw [advance_done, hs.rest, List.extract_eq_take_drop, Nat.add_sub_cancel_left]

/-- The doc of an item is the longest group of doc lines right above it, if there is one. The item starts with a
`doc` node of exactly those tokens, without the blank below the last of them, and what stands above the group
stays outside; an item without a doc starts at its first significant token. -/
theorem doc_of_item :
    (∀ i, s.docStart?.map (pos + ·) = some i ↔ DocStart tokens pos next i) ∧
    (s.docStart? = none ↔ ∀ i, pos ≤ i → ¬DocFrom tokens next i) ∧
    (∀ i, DocStart tokens pos next i → ∃ outer inner : State,
      (∀ k p, s.item k p = close k outer (p inner)) ∧
      outer.Stands tokens i ∧ outer.done = ((tokens.extract pos i).map Tree.leaf).reverse ++ s.done ∧
      inner.Stands tokens (next - 1) ∧
      inner.done = [.node .doc ⟨outer.offset, inner.offset⟩ ((tokens.extract i (next - 1)).map Tree.leaf)]) ∧
    ((∀ i, pos ≤ i → ¬DocFrom tokens next i) → ∃ outer : State,
      (∀ k p, s.item k p = close k outer (p outer.opened)) ∧
      outer.Stands tokens next ∧ outer.done = ((tokens.extract pos next).map Tree.leaf).reverse ++ s.done) := by
  have hle := hn.le
  have hcount := hs.trivia_length hn
  have hnone : s.docStart? = none ↔ ∀ i, pos ≤ i → ¬DocFrom tokens next i := by
    simp only [docStart?_eq_none_iff, hs.docAt_iff hn]
    exact ⟨fun h i hi => Nat.add_sub_cancel' hi ▸ h (i - pos), fun h r => h _ (Nat.le_add_right _ _)⟩
  refine ⟨fun i => hs.docStart_iff hn, hnone, fun i hi => ?_, fun hno => ?_⟩
  · obtain ⟨r, hr, rfl⟩ := Option.map_eq_some_iff.mp ((hs.docStart_iff hn).mpr hi)
    have hrn := hi.doc.lt
    obtain ⟨houter, hdone⟩ := hs.advance_trivia hn (r := r) (by omega)
    have hinner : ((s.advance r).opened.opened.advance (s.trivia.length - r - 1)).Stands tokens (next - 1) := by
      have := houter.opened.opened.advance (n := s.trivia.length - r - 1) (by have := hn.lt; omega)
      rwa [show pos + r + (s.trivia.length - r - 1) = next - 1 by omega] at this
    refine ⟨s.advance r, (s.advance r).opened.node .doc (State.advance (s.trivia.length - r - 1)),
      fun k p => by rw [State.item, hr]; rfl, houter, hdone, hinner.close _ _, ?_⟩
    have hlines : s.trivia.length - r - 1 = next - 1 - (pos + r) := by omega
    simp [State.node, State.close, State.opened, advance_done, houter.rest, hlines]
  · obtain ⟨houter, hdone⟩ := hs.advance_trivia hn (Nat.le_refl _)
    rw [show pos + s.trivia.length = next by omega] at houter hdone
    exact ⟨_, fun k p => by rw [State.item, hnone.mpr hno]; rfl, houter, hdone⟩

end

/-- Of two comments above a declaration, one behind a brace and one on the line below, the second is its doc. -/
theorem doc_of_item_sample :
    DocStart [⟨.rBrace, "\x7d", 0⟩, ⟨.whitespace, " ", 1⟩, ⟨.lineComment, "// a", 2⟩, ⟨.whitespace, "\n", 6⟩,
      ⟨.lineComment, "// b", 7⟩, ⟨.whitespace, "\n", 11⟩, ⟨.typeKw, "type", 12⟩] 1 6 4 :=
  ((doc_of_item ((stands_ofTokens _).advance (n := 1) (by decide))
    ⟨by decide, by decide, ⟨_, rfl, rfl⟩⟩).1 4).mp (by decide)

end State

end IdlWorkbench.Grammar
