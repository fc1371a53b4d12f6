import IdlWorkbench.Proofs.Grammar.Stepwise

/-!
# Complaints account for all that does not fit

`Accounts s t` says what a parser that went from `s` to `t` complained about: each complaint stands at a
significant token that was still to come, or at the end of the text, and if there was none then no error node
and no error token went into the tree. All rules account for what they pass, so a tree without complaints is a
tree of a text in the language's tokens.
-/

namespace IdlWorkbench

namespace Tree

theorem mem_nodesOf {u : Tree} {ts : List Tree} : u ∈ nodesOf ts ↔ ∃ t ∈ ts, u ∈ t.nodes := by
  induction ts with
  | nil => simp [nodesOf]
  | cons t ts ih => simp [nodesOf, ih]

structure Clean (t : Tree) : Prop where
  nodes : t.has .error = false
  leaves : ∀ tok ∈ t.leaves, tok.kind ≠ .error

theorem clean_leaf {tok : Token} (h : tok.kind ≠ .error) : (leaf tok).Clean := by
  refine ⟨rfl, fun t ht => ?_⟩
  rw [leaves, List.mem_singleton] at ht
  rwa [ht]

theorem clean_node {k : NodeKind} {ts : List Tree} (r : ByteRange) (hk : k ≠ .error) (h : ∀ t ∈ ts, t.Clean) :
    (node k r ts).Clean := by
  constructor
  · rw [has, Tree.nodes, List.any_eq_false]
    intro u hu
    rcases List.mem_cons.mp hu with rfl | hu
    · simpa [isNode, kind?] using hk
    · obtain ⟨t, ht, hut⟩ := mem_nodesOf.mp hu
      exact List.any_eq_false.mp (h t ht).nodes u hut
  · intro tok htok
    rw [Tree.leaves] at htok
    obtain ⟨t, ht, hmem⟩ := mem_leavesOf.mp htok
    exact (h t ht).leaves tok hmem

end Tree

namespace Grammar

open Token

namespace State

/-- A place that a complaint can name: a significant token still to come, or the end of the text. -/
def Places (s : State) (r : ByteRange) : Prop :=
  (∃ t ∈ s.rest, t.isTrivia = false ∧ r = t.range) ∨ r = .point s.textEnd

structure Accounts (s t : State) : Prop where
  rest : t.rest <:+ s.rest
  stop : t.textEnd = s.textEnd
  errors : ∃ es, t.errors = es ++ s.errors ∧ ∀ e ∈ es, s.Places e.range
  clean : t.errors = s.errors → (∀ u ∈ s.done, u.Clean) → ∀ u ∈ t.done, u.Clean

theorem advance_textEnd : ∀ (n : Nat) (s : State), (s.advance n).textEnd = s.textEnd
  | 0, _ => rfl
  | n + 1, s => by
    rw [advance]
    split
    · rfl
    · rename_i t rest hr
      rw [advance_textEnd n, textEnd, textEnd, hr]
      cases rest with
      | nil => rfl
      | cons a rest => simp [List.getLast?_cons]

theorem bump_rest_suffix (s : State) : s.bump.rest <:+ s.rest := (Consumes.refl s).bump.suffix

theorem bump_textEnd (s : State) : s.bump.textEnd = s.textEnd :=
  (advance_textEnd 1 s.skipTrivia).trans (advance_textEnd _ s)

theorem Skips.passed {s t : State} (h : Skips s t) :
    t.rest <:+ s.rest ∧ t.textEnd = s.textEnd ∧ t.errors = s.errors := by
  induction h with
  | refl => exact ⟨List.suffix_rfl, rfl, rfl⟩
  | bump _ ih =>
    exact ⟨(bump_rest_suffix _).trans ih.1, (bump_textEnd _).trans ih.2.1, (bump_errors _).trans ih.2.2⟩

theorem places_complain (s : State) : s.Places ((s.peek.map Token.range).getD (.point s.textEnd)) := by
  cases hp : s.peek with
  | none => exact Or.inr rfl
  | some t =>
    have hsig := List.find?_some hp
    exact Or.inl ⟨t, List.mem_of_find?_eq_some hp, by simpa using hsig, rfl⟩

namespace Accounts

variable {s t u : State}

theorem places (h : Accounts s t) {r : ByteRange} (hr : t.Places r) : s.Places r := by
  rcases hr with ⟨tok, htok, hsig, rfl⟩ | rfl
  · exact Or.inl ⟨tok, h.rest.subset htok, hsig, rfl⟩
  · exact Or.inr (by rw [h.stop])

theorem refl (s : State) : Accounts s s := ⟨List.suffix_rfl, rfl, ⟨[], rfl, by simp⟩, fun _ h => h⟩

theorem retains (h : Accounts s t) : Retains s t := by
  obtain ⟨es, he, -⟩ := h.errors
  exact ⟨es, he.symm⟩

theorem trans (h : Accounts s t) (h' : Accounts t u) : Accounts s u where
  rest := h'.rest.trans h.rest
  stop := h'.stop.trans h.stop
  errors := by
    obtain ⟨es, he, hplace⟩ := h.errors
    obtain ⟨es', he', hplace'⟩ := h'.errors
    refine ⟨es' ++ es, by rw [he', he, List.append_assoc], fun e hmem => ?_⟩
    rcases List.mem_append.mp hmem with hmem | hmem
    · exact h.places (hplace' e hmem)
    · exact hplace e hmem
  clean := by
    intro hq hs
    obtain ⟨hst, htu⟩ := h.retains.quiet h'.retains hq
    exact h'.clean htu (h.clean hst hs)

theorem advance (n : Nat) (s : State) (h : ∀ t ∈ s.rest.take n, t.kind ≠ .error) : Accounts s (s.advance n) where
  rest := (advance_consumes n s).suffix
  stop := advance_textEnd n s
  errors := ⟨[], advance_errors n s, by simp⟩
  clean := by
    intro _ hs u hu
    rw [advance_done, List.mem_append, List.mem_reverse, List.mem_map] at hu
    rcases hu with ⟨t, ht, rfl⟩ | hu
    · exact Tree.clean_leaf (h t ht)
    · exact hs u hu

theorem complain (c : Complaint) (s : State) : Accounts s (s.complain c) where
  rest := List.suffix_rfl
  stop := rfl
  errors := by
    refine ⟨[⟨c, _⟩], rfl, fun e he => ?_⟩
    rw [List.mem_singleton.mp he]
    exact places_complain s
  clean := fun hq => absurd hq (complain_errors_ne c s)

theorem close {k : NodeKind} (hk : k ≠ .error) (h : Accounts s.opened u) : Accounts s (State.close k s u) where
  rest := h.rest
  stop := h.stop
  errors := h.errors
  clean := by
    intro hq hs t ht
    rcases List.mem_cons.mp ht with rfl | ht
    · have hinner := h.clean hq (by simp [opened])
      exact Tree.clean_node _ hk fun v hv => hinner v (List.mem_reverse.mp hv)
    · exact hs t ht

theorem splice (h : Accounts s.opened u) : Accounts s (State.splice s u) where
  rest := h.rest
  stop := h.stop
  errors := h.errors
  clean := by
    intro hq hs t ht
    rcases List.mem_append.mp ht with ht | ht
    · exact h.clean hq (by simp [opened]) t ht
    · exact hs t ht

/-- What stands in an error node need not fit, because something was said about it. -/
theorem recover (c : Complaint) (h : Skips (s.complain c).skipTrivia.opened u) :
    Accounts s (State.close .error (s.complain c).skipTrivia u) := by
  obtain ⟨hrest, hstop, herrors⟩ := h.passed
  have hskip : Accounts s (s.complain c).skipTrivia :=
    (complain c s).trans (advance _ _ fun t ht =>
      kind_ne_error_of_isTrivia (isTrivia_of_mem_take (Nat.le_refl _) ht))
  refine ⟨hrest.trans hskip.rest, hstop.trans hskip.stop, ?_, fun hq => ?_⟩
  · obtain ⟨es, he, hplace⟩ := hskip.errors
    exact ⟨es, herrors.trans he, hplace⟩
  · have hsaid : (s.complain c).skipTrivia.errors = s.errors := herrors.symm.trans hq
    rw [skipTrivia_errors] at hsaid
    exact absurd hsaid (complain_errors_ne c s)

end Accounts

theorem accounts_stepwise : Stepwise (· ≠ .error) Accounts where
  refl := Accounts.refl
  trans := Accounts.trans
  advance := Accounts.advance
  complain := Accounts.complain
  close := Accounts.close
  splice := Accounts.splice
  recover c _ _ := Accounts.recover c

end State

open State

structure Truthful (text : String) (p : Parse) : Prop where
  /-- Without complaints, nothing in the tree is an error. -/
  clean : p.errors = [] → p.tree.Clean
  /-- A stretch of text that is no token is complained about, if only by what it led to. -/
  lexical : (∃ t ∈ tokenize text, t.kind = .error) → p.errors ≠ []
  /-- A complaint is about a significant token, or about the end of the text. -/
  placed : ∀ e ∈ p.errors, (∃ t ∈ tokenize text, t.isTrivia = false ∧ e.range = t.range) ∨
    e.range = .point text.utf8ByteSize

theorem run_truthful {k : NodeKind} {p : Parser} (hk : k ≠ .error) (hp : ∀ s, Accounts s (p s)) {text : String}
    (hc : Covers k text (run k p text).tree) (hrest : ∀ s, (p s).rest = []) : Truthful text (run k p text) := by
  have h := hp (.ofTokens (tokenize text))
  have hclean : (run k p text).errors = [] → (run k p text).tree.Clean := by
    intro hnil
    have hdone := h.clean (List.reverse_eq_nil_iff.mp hnil) (by simp [ofTokens])
    exact Tree.clean_node _ hk fun u hu => hdone u (List.mem_reverse.mp hu)
  have hstop : (State.ofTokens (tokenize text)).textEnd = text.utf8ByteSize := by
    have hoffset : (p (.ofTokens (tokenize text))).offset = text.utf8ByteSize := congrArg ByteRange.stop hc.range
    rw [← h.stop, textEnd, hrest, ← hoffset]
    rfl
  refine ⟨hclean, ?_, fun e he => ?_⟩
  · rintro ⟨t, ht, hkind⟩ hnil
    exact (hclean hnil).leaves t (hc.leaves ▸ ht) hkind
  · obtain ⟨es, hes, hplace⟩ := h.errors
    have hmem : e ∈ es := by
      have : e ∈ (p (.ofTokens (tokenize text))).errors := List.mem_reverse.mp he
      rw [hes] at this
      simpa [ofTokens] using this
    rcases hplace e hmem with htok | hend
    · exact Or.inl htok
    · exact Or.inr (hend.trans (by rw [hstop]))

/-- A parse without complaints has a tree without errors, and complaints stand at tokens or at the end. -/
theorem parse_truthful (text : String) : Truthful text (parse text) ∧ Truthful text (parseExpr text) := by
  exact ⟨run_truthful (by decide) (accounts_stepwise.sourceFile fun _ hk => hk) (parse_covers text) sourceFile_rest,
    run_truthful (by decide) (accounts_stepwise.exprAlone fun _ hk => hk) (parseExpr_covers text) exprAlone_rest⟩

end Grammar

end IdlWorkbench
