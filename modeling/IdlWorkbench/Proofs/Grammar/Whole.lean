import IdlWorkbench.Proofs.Grammar.Formed

/-!
# The trees of texts without complaints

Where nothing was complained of, nothing is missing: a slice type has the type of its elements, a signature its
parameters, a constant its name. `Complete` says this of a node and its children, and all nodes of a tree that was
parsed without a complaint are complete. What stands between the braces of a literal is left aside here, and so are
comments, names, tags, imports and the package clause, in which no types can stand.
-/

namespace IdlWorkbench

def NodeKind.isType : NodeKind → Bool
  | .nameRef | .selector | .sliceType | .mapType | .pointerType | .chanType | .funcType | .structType
  | .interfaceType => true
  | _ => false

def NodeKind.isExpr : NodeKind → Bool
  | .literal | .nameRef | .selector | .parenExpr | .unaryExpr | .compositeLit | .sliceType | .mapType => true
  | _ => false

/-- The kinds of the nodes that are not looked into. -/
def NodeKind.isClosed : NodeKind → Bool
  | .doc | .trailing | .name | .fieldTag | .packageClause | .importDecl | .litBody => true
  | _ => false

namespace Tree

def isType (t : Tree) : Bool := t.kind?.any NodeKind.isType

def isExpr (t : Tree) : Bool := t.kind?.any NodeKind.isExpr

def parts (cs : List Tree) : List Tree := cs.filter fun c => c.kind?.any (!·.isClosed)

def Led (cs : List Tree) : Prop := ∃ tok ts, cs = .leaf tok :: ts ∧ tok.isTrivia = false

def Sole (p : Tree → Prop) (cs : List Tree) : Prop := ∃ c, parts cs = [c] ∧ p c

def Optional (p : Tree → Prop) (cs : List Tree) : Prop := parts cs = [] ∨ Sole p cs

def Only (p : Tree → Prop) (cs : List Tree) : Prop := ∀ c ∈ parts cs, p c

def Signs (cs : List Tree) : Prop :=
  Sole (isNode .paramList ·) cs ∨ ∃ ps rs, parts cs = [ps, rs] ∧ ps.isNode .paramList ∧ rs.isNode .resultList

def Lists (member : NodeKind) (cs : List Tree) : Prop :=
  Sole (fun l => l.isNode .fieldList ∧ Only (isNode member ·) l.children) cs

def Groups (spec : NodeKind) (cs : List Tree) : Prop :=
  Only (isNode spec ·) cs ∧ (cs.any opens → parts (cs.takeWhile (!opens ·)) = [])

/-- The children of a node of which nothing is missing. -/
def Complete : NodeKind → List Tree → Prop
  | .nameRef, cs | .literal, cs => ∃ tok, cs = [.leaf tok] ∧ tok.isTrivia = false
  | .selector, cs => Led cs ∧ ∃ qualifier name, selectorParts cs = (some qualifier, some name)
  | .sliceType, cs | .pointerType, cs | .chanType, cs => Led cs ∧ Sole (·.isType) cs
  | .mapType, cs => Led cs ∧ ∃ k v, parts cs = [k, v] ∧ k.isType ∧ v.isType
  | .funcType, cs => Led cs ∧ Signs cs
  | .paramList, cs | .resultList, cs => Only (·.isType) cs
  | .structType, cs => Led cs ∧ Lists .field cs
  | .interfaceType, cs => Led cs ∧ Lists .method cs
  | .field, cs => Sole (·.isType) cs
  | .method, cs => namesAmong cs ≠ [] ∧ Signs cs
  | .parenExpr, cs | .unaryExpr, cs => Led cs ∧ Sole (·.isExpr) cs
  | .compositeLit, cs => Sole (·.isType) cs ∧ ∃ b ∈ cs, b.isNode .litBody
  | .typeSpec, cs => namesAmong cs ≠ [] ∧ Sole (·.isType) cs
  | .constSpec, cs => namesAmong cs ≠ [] ∧ Optional (·.isType) (cs.takeWhile (!isEqSign ·)) ∧
      Optional (·.isExpr) (cs.dropWhile (!isEqSign ·))
  | .typeDecl, cs => Groups .typeSpec cs
  | .constDecl, cs => Groups .constSpec cs
  | .sourceFile, cs => Only (fun c => c.isNode .typeDecl || c.isNode .constDecl) cs
  | _, _ => True

mutual

/-- All nodes that are looked into are complete. -/
def Whole : Tree → Prop
  | leaf _ => True
  | node kind _ children => kind.isClosed = true ∨ Complete kind children ∧ WholeAll children

def WholeAll : List Tree → Prop
  | [] => True
  | t :: ts => t.Whole ∧ WholeAll ts

end

theorem wholeAll_iff {cs : List Tree} : WholeAll cs ↔ ∀ c ∈ cs, c.Whole := by
  induction cs with
  | nil => simp [WholeAll]
  | cons c cs ih => simp [WholeAll, ih]

section
variable {cs ds : List Tree} {c : Tree} {p q : Tree → Prop} {k : NodeKind} {r : ByteRange} {tok : Token}

/-! ## Parts -/

@[simp] theorem parts_nil : parts [] = [] := rfl

@[simp] theorem parts_append : parts (cs ++ ds) = parts cs ++ parts ds := List.filter_append ..

@[simp] theorem parts_leaf_cons : parts (.leaf tok :: cs) = parts cs := by simp [parts, kind?]

theorem parts_sublist (h : cs.Sublist ds) (hnil : parts ds = []) : parts cs = [] :=
  List.eq_nil_of_sublist_nil (hnil ▸ h.filter _)

theorem parts_node_closed (h : k.isClosed = true) : parts [.node k r cs] = [] := by simp [parts, kind?, h]

theorem parts_node_open (h : k.isClosed = false) : parts [.node k r cs] = [.node k r cs] := by simp [parts, kind?, h]

theorem parts_singleton_type (h : c.isType = true) : parts [c] = [c] := by
  cases c with
  | leaf tok => cases h
  | node k r ds =>
    refine parts_node_open ?_
    cases k <;> first
      | rfl
      | cases h

theorem parts_singleton_expr (h : c.isExpr = true) : parts [c] = [c] := by
  cases c with
  | leaf tok => cases h
  | node k r ds =>
    refine parts_node_open ?_
    cases k <;> first
      | rfl
      | cases h

theorem parts_singleton_node (hk : k.isClosed = false) (h : c.isNode k = true) : parts [c] = [c] := by
  cases c with
  | leaf tok => cases h
  | node k' r ds =>
    obtain rfl : k' = k := by simpa [isNode, kind?] using h
    exact parts_node_open hk

theorem only_nil (h : parts cs = []) : Only p cs := by
  rw [Only, h]
  exact nofun

theorem Only.append (h : Only p cs) (h' : Only p ds) : Only p (cs ++ ds) := by
  rw [Only, parts_append]
  exact List.forall_mem_append.mpr ⟨h, h'⟩

theorem Sole.only (h : Sole p cs) : Only p cs := by
  obtain ⟨c, hc, hp⟩ := h
  rw [Only, hc]
  simpa using hp

theorem Sole.before (h : Sole p ds) (hnil : parts cs = []) : Sole p (cs ++ ds) := by
  obtain ⟨c, hc, hp⟩ := h
  exact ⟨c, by rw [parts_append, hnil, hc]; rfl, hp⟩

theorem Sole.after (h : Sole p cs) (hnil : parts ds = []) : Sole p (cs ++ ds) := by
  obtain ⟨c, hc, hp⟩ := h
  exact ⟨c, by rw [parts_append, hnil, hc]; rfl, hp⟩

theorem Optional.after (h : Optional p cs) (hnil : parts ds = []) : Optional p (cs ++ ds) :=
  h.imp (fun h => by rw [parts_append, h, hnil]; rfl) fun h => h.after hnil

theorem Signs.before (h : Signs ds) (hnil : parts cs = []) : Signs (cs ++ ds) :=
  h.imp (fun h => h.before hnil) fun ⟨ps, rs, hparts, hkinds⟩ =>
    ⟨ps, rs, by rw [parts_append, hnil, hparts]; rfl, hkinds⟩

theorem Signs.after (h : Signs cs) (hnil : parts ds = []) : Signs (cs ++ ds) :=
  h.imp (fun h => h.after hnil) fun ⟨ps, rs, hparts, hkinds⟩ =>
    ⟨ps, rs, by rw [parts_append, hnil, hparts]; rfl, hkinds⟩

theorem namesAmong_append : namesAmong (cs ++ ds) = namesAmong cs ++ namesAmong ds := by
  simp [namesAmong, List.filter_append, List.filterMap_append]

theorem named_after (h : namesAmong cs ≠ []) : namesAmong (cs ++ ds) ≠ [] := by
  rw [namesAmong_append]
  exact List.append_ne_nil_of_left_ne_nil h _

theorem named_before (h : namesAmong ds ≠ []) : namesAmong (cs ++ ds) ≠ [] := by
  rw [namesAmong_append]
  exact List.append_ne_nil_of_right_ne_nil _ h

/-! ## Blanks -/

def Blank (cs : List Tree) : Prop := ∀ c ∈ cs, ∃ tok : Token, c = .leaf tok ∧ tok.isTrivia = true

/-- There are no parts, and no significant tokens beside the nodes. -/
structure Hollow (cs : List Tree) : Prop where
  parts : parts cs = []
  calm : ∀ tok : Token, .leaf tok ∈ cs → tok.isTrivia = true

def Single (p : Tree → Prop) (cs : List Tree) : Prop := ∃ as c, cs = as ++ [c] ∧ Blank as ∧ p c

theorem Blank.hollow (h : Blank cs) : Hollow cs where
  parts := by
    refine List.filter_eq_nil_iff.mpr fun c hc => ?_
    obtain ⟨tok, rfl, -⟩ := h c hc
    simp [kind?]
  calm tok htok := by
    obtain ⟨u, heq, hu⟩ := h _ htok
    cases heq
    exact hu

theorem hollow_nil : Hollow [] := ⟨rfl, nofun⟩

theorem Hollow.append (h : Hollow cs) (h' : Hollow ds) : Hollow (cs ++ ds) where
  parts := by rw [parts_append, h.parts, h'.parts, List.append_nil]
  calm tok htok := (List.mem_append.mp htok).elim (h.calm tok) (h'.calm tok)

theorem hollow_node (h : k.isClosed = true) : Hollow [.node k r cs] where
  parts := parts_node_closed h
  calm tok htok := by cases List.mem_singleton.mp htok

theorem Single.sole (h : Single p cs) (hp : ∀ c, p c → parts [c] = [c]) : Sole p cs := by
  obtain ⟨as, c, rfl, has, hc⟩ := h
  exact ⟨c, by rw [parts_append, has.hollow.parts, hp c hc]; rfl, hc⟩

theorem Single.calm (h : Single p cs) (hp : ∀ tok, ¬ p (.leaf tok)) : ∀ tok : Token,
    .leaf tok ∈ cs → tok.isTrivia = true := by
  obtain ⟨as, c, rfl, has, hc⟩ := h
  intro tok htok
  rcases List.mem_append.mp htok with htok | htok
  · exact has.hollow.calm tok htok
  · exact absurd (List.mem_singleton.mp htok ▸ hc) (hp tok)

theorem Blank.not_opens (h : Blank cs) : ∀ c ∈ cs, c.opens = false := by
  intro c hc
  obtain ⟨tok, rfl, htok⟩ := h c hc
  exact (Grammar.shut_trivia htok).2

theorem Groups.before (h : Groups k ds) (hnil : parts cs = []) (hcs : ∀ c ∈ cs, c.opens = false) :
    Groups k (cs ++ ds) := by
  refine ⟨(only_nil hnil).append h.1, fun hany => ?_⟩
  have hbefore : ∀ c ∈ cs, (!opens c) = true := fun c hc => by simp [hcs c hc]
  rw [List.takeWhile_append_of_pos hbefore, parts_append, hnil, List.nil_append]
  refine h.2 ?_
  obtain ⟨c, hc, hopen⟩ := List.any_eq_true.mp hany
  refine List.any_eq_true.mpr ⟨c, (List.mem_append.mp hc).resolve_left fun hc => ?_, hopen⟩
  rw [hcs c hc] at hopen
  cases hopen

theorem Single.mono (h : Single p cs) (hpq : ∀ c, p c → q c) : Single q cs := by
  obtain ⟨as, c, rfl, has, hc⟩ := h
  exact ⟨as, c, rfl, has, hpq c hc⟩

end

end Tree

namespace Grammar

open State IdlWorkbench.Tree

variable {s t u : State} {p q : Parser} {P Q : List Tree → Prop}

theorem sees_of_peek {k : TokenKind} (h : s.peek.map Token.kind = some k) : s.sees k = true := by
  obtain ⟨tok, toks, hahead, hk⟩ := ahead_of_peek h
  exact sees_iff.mpr ⟨tok, toks, hahead, hk⟩

/-! ## Growing without a complaint -/

/-- Unless something was complained of on the way, the new children are whole trees that satisfy `P`. -/
def Grows (P : List Tree → Prop) (s t : State) : Prop :=
  Retains s t ∧ (t.errors = s.errors → ∃ cs, t.done = cs.reverse ++ s.done ∧ (∀ c ∈ cs, c.Whole) ∧ P cs)

theorem grows_refl (h : P []) (s : State) : Grows P s s := ⟨.refl s, fun _ => ⟨[], rfl, nofun, h⟩⟩

theorem Grows.mono (h : Grows P s t) (hpq : ∀ cs, P cs → Q cs) : Grows Q s t :=
  ⟨h.1, fun hq => (h.2 hq).imp fun cs ⟨hdone, hwhole, hp⟩ => ⟨hdone, hwhole, hpq cs hp⟩⟩

theorem Grows.trans {P' : List Tree → Prop} (h : Grows P s t) (h' : Grows P' t u)
    (hpq : ∀ cs ds, P cs → P' ds → Q (cs ++ ds)) : Grows Q s u := by
  refine ⟨h.1.trans h'.1, fun hq => ?_⟩
  obtain ⟨hq, hq'⟩ := h.1.quiet h'.1 hq
  obtain ⟨cs, hdone, hwhole, hp⟩ := h.2 hq
  obtain ⟨ds, hdone', hwhole', hp'⟩ := h'.2 hq'
  exact ⟨cs ++ ds, by rw [hdone', hdone, List.reverse_append, List.append_assoc],
    List.forall_mem_append.mpr ⟨hwhole, hwhole'⟩, hpq cs ds hp hp'⟩

/-- Whatever comes behind a complaint. -/
theorem grows_complain (c : Complaint) (h : Retains (s.complain c) t) : Grows P s t := by
  have hc : Retains s (s.complain c) := (Retains.refl s).complain c
  exact ⟨hc.trans h, fun hq => absurd (hc.quiet h hq).1 (complain_errors_ne c s)⟩

theorem grows_recoverLine (what : Expected) (closer : TokenKind) (s : State) :
    Grows P s (s.recoverLine what closer) := by
  refine grows_complain _ ((Retains.refl (s.expected what)).nodeAtToken .error fun u => .ite (.refl u) ?_)
  refine .ite (Retains.refl u).bump ?_
  rw [bumpWhile_eq]
  exact (Retains.refl u).bump.repeatWhile _ (fun v => (Retains.refl v).bump) _

theorem grows_expected (what : Expected) (s : State) : Grows P s (s.expected what) := grows_complain _ (.refl _)

theorem Grows.and_makes {R : Tree → Prop} (h : Grows P s t) (hm : Makes R s t) :
    Grows (fun cs => P cs ∧ ∀ c ∈ cs, R c) s t := by
  refine ⟨h.1, fun hq => ?_⟩
  obtain ⟨cs, hdone, hwhole, hp⟩ := h.2 hq
  obtain ⟨new, hnew, hr⟩ := hm
  obtain rfl : cs.reverse = new := List.append_cancel_right (hdone.symm.trans hnew)
  exact ⟨cs, hdone, hwhole, hp, fun c hc => hr c (List.mem_reverse.mpr hc)⟩

theorem grows_advance {R : Token → Prop} : ∀ (n : Nat) (s : State),
    (∀ tok ∈ s.rest.take n, R tok) → Grows (fun cs => ∀ c ∈ cs, ∃ tok, c = .leaf tok ∧ R tok) s (s.advance n) := by
  intro n s hr
  refine ⟨(Retains.refl s).advance n, fun _ => ?_⟩
  obtain ⟨new, hnew, hmade⟩ := Makes.advance (P := fun c => ∃ tok, c = Tree.leaf tok ∧ R tok) n s
    fun tok htok => ⟨tok, rfl, hr tok htok⟩
  refine ⟨new.reverse, by
    rw [hnew, List.reverse_reverse], fun c hc => ?_, fun c hc => hmade c (List.mem_reverse.mp hc)⟩
  obtain ⟨tok, rfl, -⟩ := hmade c (List.mem_reverse.mp hc)
  trivial

theorem grows_trivia {n : Nat} (hn : ∀ tok ∈ s.rest.take n, tok.isTrivia = true) : Grows Blank s (s.advance n) :=
  grows_advance n s hn

theorem grows_skipTrivia (s : State) : Grows Blank s s.skipTrivia :=
  grows_trivia fun _ => isTrivia_of_mem_take (Nat.le_refl _)

/-- The next significant token, behind blanks. -/
theorem grows_bump {k : TokenKind} (h : s.sees k = true) :
    Grows (fun cs => ∃ as tok, cs = as ++ [.leaf tok] ∧ Blank as ∧ tok.kind = k) s s.bump := by
  refine ⟨(Retains.refl s).bump, fun _ => ?_⟩
  obtain ⟨as, hdone, hwhole, hblank⟩ := (grows_skipTrivia s).2 (skipTrivia_errors s)
  obtain ⟨tok, hk, hbump⟩ := done_bump h
  refine ⟨as ++ [.leaf tok], by
    rw [hbump, hdone]; simp, List.forall_mem_append.mpr ⟨hwhole, ?_⟩, as, tok, rfl, hblank, hk⟩
  exact List.forall_mem_singleton.mpr trivial

/-- At the start of a node its token comes first. -/
theorem grows_first {k : TokenKind} (h : s.sees k = true) :
    Grows (fun cs => ∃ tok, cs = [.leaf tok] ∧ tok.kind = k) s.skipTrivia.opened s.skipTrivia.opened.bump := by
  have hsees : s.skipTrivia.opened.sees k = true := (sees_congr k (ahead_opened s)).trans h
  obtain ⟨tok, hk, hdone⟩ := done_bump hsees
  rw [skipTrivia_opened] at hdone
  exact ⟨(Retains.refl _).bump, fun _ => ⟨[.leaf tok], hdone, List.forall_mem_singleton.mpr trivial, tok, rfl, hk⟩⟩

theorem parts_bump {cs : List Tree} {k : TokenKind} (h : ∃ as tok, cs = as ++ [.leaf tok] ∧ Blank as ∧
      Token.kind tok = k) :
    parts cs = [] := by
  obtain ⟨as, tok, rfl, has, -⟩ := h
  rw [parts_append, has.hollow.parts]
  rfl

theorem grows_expect (k : TokenKind) (s : State) :
    Grows (fun cs => ∃ as tok, cs = as ++ [.leaf tok] ∧ Blank as ∧ tok.kind = k) s (s.expect k) :=
  Stepwise.ite grows_bump fun _ => grows_expected _ s

theorem grows_repeatWhile {R : Tree → Prop} (hp : ∀ u, Grows (Only R) u (p u)) (go : State → Bool) :
    ∀ (n : Nat) (s : State), Grows (Only R) s (s.repeatWhile go p n)
  | 0, s => grows_refl (only_nil rfl) s
  | n + 1, s => by
    rw [State.repeatWhile]
    exact Stepwise.ite (fun _ => (hp s).trans (grows_repeatWhile hp go n _) fun _ _ => Only.append)
      fun _ => grows_refl (only_nil rfl) s

/-- The new children become those of a node. -/
theorem Grows.close {k : NodeKind} (h : Grows P s.opened u)
    (hfit : ∀ cs, P cs → k.isClosed = true ∨ Complete k cs) :
    Grows (fun cs => ∃ r ds, cs = [.node k r ds] ∧ P ds) s (State.close k s u) := by
  refine ⟨h.1, fun hq => ?_⟩
  obtain ⟨cs, hdone, hwhole, hp⟩ := h.2 hq
  rw [opened_done, List.append_nil] at hdone
  refine ⟨[.node k ⟨s.offset, u.offset⟩ cs], ?_, List.forall_mem_singleton.mpr ?_, _, cs, rfl, hp⟩
  · simp [State.close, hdone]
  · exact (hfit cs hp).imp_right fun hcomplete => ⟨hcomplete, wholeAll_iff.mpr hwhole⟩

theorem Grows.splice (h : Grows P s.opened u) : Grows P s (State.splice s u) := by
  refine ⟨h.1, fun hq => ?_⟩
  obtain ⟨cs, hdone, hwhole, hp⟩ := h.2 hq
  rw [opened_done, List.append_nil] at hdone
  exact ⟨cs, by rw [State.splice, hdone], hwhole, hp⟩

theorem Grows.nodeAtToken {k : NodeKind} {R : Tree → Prop} (h : Grows P s.skipTrivia.opened (p s.skipTrivia.opened))
    (hfit : ∀ cs, P cs → (k.isClosed = true ∨ Complete k cs) ∧ ∀ r, R (.node k r cs)) :
    Grows (Single R) s (s.nodeAtToken k p) := by
  refine (grows_skipTrivia s).trans (h.close fun cs hcs => (hfit cs hcs).1) ?_
  rintro as _ has ⟨r, ds, rfl, hds⟩
  exact ⟨as, _, rfl, has, (hfit ds hds).2 r⟩

/-- A token in a node of its own. -/
theorem grows_tokenNode {k : NodeKind} {kind : TokenKind} {R : Tree → Prop} (h : s.sees kind = true)
    (hfit : ∀ tok : Token, tok.kind = kind → (k.isClosed = true ∨ Complete k [.leaf tok]) ∧
      ∀ r, R (.node k r [.leaf tok])) :
    Grows (Single R) s (s.tokenNode k) := by
  refine Grows.nodeAtToken (grows_first h) ?_
  rintro _ ⟨tok, rfl, hk⟩
  exact hfit tok hk

/-- Steps that leave nothing to look into. -/
theorem grows_stepwise : Stepwise (·.isClosed = true) (Grows fun cs => parts cs = []) where
  refl := grows_refl rfl
  trans h h' := h.trans h' fun cs ds hcs hds => by rw [parts_append, hcs, hds, List.append_nil]
  advance n s _ := by
    refine (grows_advance (R := fun _ => True) n s fun _ _ => trivial).mono fun cs hcs =>
      List.filter_eq_nil_iff.mpr fun c hc => ?_
    obtain ⟨tok, rfl, -⟩ := hcs c hc
    simp [kind?]
  complain c s := grows_complain c (.refl _)
  close hk h := (h.close fun _ _ => Or.inl hk).mono fun cs ⟨r, ds, hcs, _⟩ => by rw [hcs, parts_node_closed hk]
  splice := Grows.splice
  recover c _ _ h := grows_complain c (((Retains.refl _).advance _).trans h.retains)

theorem grows_endLine (closer : TokenKind) (s : State) : Grows (fun cs => parts cs = []) s (s.endLine closer) :=
  grows_stepwise.endLine rfl closer s

/-- An item has its doc first, if there is one. -/
theorem grows_item {k : NodeKind} (h : ∀ u : State, u.ahead = s.ahead → Grows P u (p u))
    (hfit : ∀ as cs, Hollow as → P cs → Complete k (as ++ cs)) : Grows (Single (isNode k ·)) s (s.item k p) := by
  have hself (r : ByteRange) (ds : List Tree) : Tree.isNode k (.node k r ds) = true := by simp [isNode, kind?]
  have hclose (outer inner : State) (hout : Grows Blank s outer) (hin : Grows Hollow outer.opened inner)
      (hahead : inner.ahead = s.ahead) : Grows (Single (isNode k ·)) s (State.close k outer (p inner)) := by
    refine hout.trans (Grows.close
      (hin.trans (h inner hahead) (Q := fun cs => ∃ as ds, cs = as ++ ds ∧ Hollow as ∧ P ds)
      fun as ds has hds => ⟨as, ds, rfl, has, hds⟩) ?_) ?_
    · rintro _ ⟨as, ds, rfl, has, hds⟩
      exact Or.inr (hfit as ds has hds)
    · rintro as _ has ⟨r, ds, rfl, -⟩
      exact ⟨as, _, rfl, has, hself r ds⟩
  rw [State.item]
  split
  · rename_i start hstart
    have hlt := docStart?_lt hstart
    have habove : ∀ tok ∈ s.rest.take start, tok.isTrivia = true :=
      fun tok htok => isTrivia_of_mem_take (by omega) htok
    have hlines : ∀ tok ∈ (s.advance start).opened.opened.rest.take (s.trivia.length - start - 1),
        tok.isTrivia = true := by
      intro tok htok
      change tok ∈ (s.advance start).rest.take _ at htok
      rw [advance_rest, List.take_drop] at htok
      exact isTrivia_of_mem_take (by omega) (List.mem_of_mem_drop htok)
    refine hclose _ ((s.advance start).opened.node .doc _) (grows_trivia habove) ?_ ?_
    · refine (Grows.close (grows_trivia hlines) fun _ _ => Or.inl rfl).mono ?_
      rintro _ ⟨r, ds, rfl, -⟩
      exact hollow_node rfl
    · exact (ahead_advance (s := (s.advance start).opened.opened) hlines).trans (ahead_advance habove)
  · exact hclose _ _ (grows_skipTrivia s) (grows_refl hollow_nil _) (ahead_opened s)

/-! ## Types -/

theorem not_trivia {tok : Token} {k : TokenKind} (h : tok.kind = k) (hk : k.isTrivia = false) :
    tok.isTrivia = false := by
  rw [Token.isTrivia, h, hk]

/-- A name is a token in a node. -/
theorem grows_name (s : State) : Grows (fun cs => Hollow cs ∧ namesAmong cs ≠ []) s (name s) := by
  refine Stepwise.ite (fun h => ?_) fun _ => grows_expected _ s
  refine (grows_tokenNode (R := fun c => ∃ r tok, c = .node .name r [.leaf tok] ∧ tok.kind = .ident) h
    fun tok hk => ⟨Or.inl rfl, fun r => ⟨r, tok, rfl, hk⟩⟩).mono ?_
  rintro _ ⟨as, _, rfl, has, r, tok, rfl, hk⟩
  refine ⟨has.hollow.append (hollow_node rfl), ?_⟩
  refine named_before ?_
  simp [namesAmong, isNode, kind?, significant?, tokens, token?, children, not_trivia hk rfl]

theorem grows_names (s : State) : Grows (fun cs => parts cs = []) s (name s) :=
  (grows_name s).mono fun _ h => h.1.parts

theorem idents_of_blank {as : List Tree} (h : Blank as) : (tokens as).filter (·.kind = .ident) = [] := by
  refine List.filter_eq_nil_iff.mpr fun tok htok => ?_
  obtain ⟨c, hc, htok⟩ := List.mem_filterMap.mp htok
  obtain ⟨tok', rfl, htrivia⟩ := h c hc
  obtain rfl : tok' = tok := Option.some_inj.mp htok
  intro hk
  rw [not_trivia (of_decide_eq_true hk) rfl] at htrivia
  cases htrivia

theorem grows_typeName (h : s.sees .ident = true) : Grows (Single fun c => c.isType ∧ c.isExpr) s (typeName s) := by
  refine Stepwise.ite (fun hdot => ?_) fun _ => ?_
  · have hsecond : s.skipTrivia.opened.bump.sees .dot = true := by
      have hany : s.skipTrivia.opened.bump.seesAny [.dot] = true := by
        rw [seesAny, peek_eq, ahead_bump, ahead_opened, ← secondIs_eq]
        exact hdot
      obtain ⟨k, hk, hsees⟩ := seesAny_iff.mp hany
      exact List.mem_singleton.mp hk ▸ hsees
    have hdotted := ((grows_first h).trans (grows_bump hsecond) (Q := fun cs => ∃ q as dot,
      cs = .leaf q :: as ++ [.leaf dot] ∧ q.kind = .ident ∧ Blank as ∧ dot.kind = .dot) (by
        rintro _ _ ⟨q, rfl, hq⟩ ⟨as, dot, rfl, has, hdot⟩
        exact ⟨q, as, dot, by simp, hq, has, hdot⟩)).trans (grows_expect .ident _) (Q := fun cs => ∃ q as dot bs id,
      cs = .leaf q :: as ++ [.leaf dot] ++ (bs ++ [.leaf id]) ∧ q.kind = .ident ∧ Blank as ∧ dot.kind = .dot ∧
        Blank bs ∧ id.kind = .ident) (by
        rintro _ _ ⟨q, as, dot, rfl, hq, has, hdot⟩ ⟨bs, id, rfl, hbs, hid⟩
        exact ⟨q, as, dot, bs, id, rfl, hq, has, hdot, hbs, hid⟩)
    refine Grows.nodeAtToken hdotted ?_
    rintro _ ⟨q, as, dot, bs, id, rfl, hq, has, hdot, hbs, hid⟩
    have hparts : selectorParts (.leaf q :: as ++ [.leaf dot] ++ (bs ++ [.leaf id])) = (some q, some id) := by
      simp [selectorParts, List.cons_append, tokens, List.filterMap_append, token?, hq, hdot, hid,
        show List.filter (fun t => decide (t.kind = .ident)) (as.filterMap token?) = [] from idents_of_blank has,
        show List.filter (fun t => decide (t.kind = .ident)) (bs.filterMap token?) = [] from idents_of_blank hbs]
    exact ⟨Or.inr ⟨⟨q, as ++ [.leaf dot] ++ (bs ++ [.leaf id]), by simp, not_trivia hq rfl⟩, q, id, hparts⟩,
      fun _ => ⟨rfl, rfl⟩⟩
  · exact grows_tokenNode h fun tok hk => ⟨Or.inr ⟨tok, rfl, not_trivia hk rfl⟩, fun _ => ⟨rfl, rfl⟩⟩

theorem grows_fieldNames (s : State) : Grows (fun cs => parts cs = []) s (fieldNames s) :=
  grows_stepwise.trans (grows_names s)
    (grows_stepwise.repeatWhile (fun u hu => grows_stepwise.trans (grows_stepwise.bump (.of_sees hu (by decide)))
      (grows_names _)) _ _)

section
variable (hp : ∀ u, Grows (Single (·.isType)) u (p u))
include hp

theorem grows_oneType (s : State) : Grows (Sole (·.isType)) s (p s) :=
  (hp s).mono fun _ h => h.sole fun _ => parts_singleton_type

theorem grows_typeList : ∀ (n : Nat) (s : State), Grows (Only (·.isType)) s (typeList p n s)
  | 0, s => grows_refl (only_nil rfl) s
  | n + 1, s => by
    have hround (b : Bool) : Grows (Only (·.isType)) s (p (if b then name s else s)) := by
      have hnamed : Grows (fun cs => parts cs = []) s (if b then name s else s) :=
        Stepwise.ite (fun _ => grows_names s) fun _ => grows_stepwise.refl s
      exact hnamed.trans (grows_oneType hp _) fun _ _ hcs hds => (only_nil hcs).append hds.only
    rw [typeList]
    refine Stepwise.ite (fun _ => ?_) fun _ => grows_refl (only_nil rfl) s
    refine Stepwise.ite (fun hcomma => ?_) fun _ => hround _
    have hcomma := (hround _).trans (grows_bump hcomma) fun _ _ hcs hds => hcs.append (only_nil (parts_bump hds))
    exact hcomma.trans (grows_typeList n _) fun _ _ => Only.append

theorem grows_typesInParens (h : s.sees .lParen = true) : Grows (Only (·.isType)) s (typesInParens p s) := by
  have hlist := (grows_bump h).trans (grows_typeList hp s.rest.length _) fun _ _ hcs hds =>
    (only_nil (parts_bump hcs)).append hds
  exact hlist.trans (grows_expect .rParen _) fun _ _ hcs hds => hcs.append (only_nil (parts_bump hds))

theorem grows_signature (s : State) : Grows Signs s (signature p s) := by
  have hparams : Grows (Single (isNode .paramList ·)) s (s.nodeAtToken .paramList fun s =>
      if s.sees .lParen then typesInParens p s else s.expected (.token .lParen)) :=
    Grows.nodeAtToken (Stepwise.ite (fun h => grows_typesInParens hp h) fun _ => grows_expected _ _)
      fun _ h => ⟨Or.inr h, fun _ => rfl⟩
  have hresults (u : State) : Grows (Single (isNode .resultList ·)) u (u.nodeAtToken .resultList fun s =>
      if s.sees .lParen then typesInParens p s else p s) :=
    Grows.nodeAtToken (Stepwise.ite (fun h => grows_typesInParens hp h) fun _ =>
      (grows_oneType hp _).mono fun _ h => h.only)
      fun _ h => ⟨Or.inr h, fun _ => rfl⟩
  have hone {k : NodeKind} (hk : k.isClosed = false) {cs : List Tree} (h : Single (isNode k ·) cs) :
    Sole (isNode k ·) cs :=
    h.sole fun _ => parts_singleton_node hk
  refine Stepwise.ite (fun _ => hparams.mono fun _ h => Or.inl (hone rfl h)) fun _ => ?_
  refine hparams.trans (hresults _) fun cs ds hcs hds => Or.inr ?_
  obtain ⟨ps, hps, hpsk⟩ := hone rfl hcs
  obtain ⟨rs, hrs, hrsk⟩ := hone rfl hds
  exact ⟨ps, rs, by rw [parts_append, hps, hrs]; rfl, hpsk, hrsk⟩

omit hp in
theorem grows_members {member : NodeKind} (hq : ∀ u, Grows (Only (isNode member ·)) u (q u)) (s : State) :
    Grows (Lists member) s (members q s) := by
  refine Stepwise.ite (fun h => ?_) fun _ => grows_expected _ s
  have hinside :=
    ((grows_first h).trans (grows_repeatWhile hq (fun s => !s.atEnd && !s.sees .rBrace)
      s.skipTrivia.opened.rest.length _)
    (Q := Only (isNode member ·)) (by
      rintro _ ds ⟨tok, rfl, -⟩ hds
      exact (only_nil rfl).append hds)).trans (grows_expect .rBrace _) (Q := Only (isNode member ·))
        fun _ _ hcs hds => hcs.append (only_nil (parts_bump hds))
  have hnode : Grows (Single fun l => l.isNode .fieldList ∧ Only (isNode member ·) l.children) s
      (s.nodeAtToken .fieldList fun s =>
        (s.bump.repeatWhile (fun s => !s.atEnd && !s.sees .rBrace) q s.rest.length).expect .rBrace) :=
    Grows.nodeAtToken hinside fun _ h => ⟨Or.inr trivial, fun _ => ⟨rfl, h⟩⟩
  exact hnode.mono fun _ h => h.sole fun _ hl => parts_singleton_node rfl hl.1

theorem grows_field (s : State) : Grows (Only (isNode .field ·)) s (field p s) := by
  refine Stepwise.ite (fun _ => ?_) fun _ => grows_recoverLine _ _ s
  refine (grows_item (k := .field) (P := Sole (·.isType)) (fun u _ => ?_) fun as cs has hcs =>
    hcs.before has.parts).mono
    fun _ h => (h.sole fun _ => parts_singleton_node rfl).only
  extract_lets embedded v w
  have hnames : Grows (fun cs => parts cs = []) u (if embedded then u else fieldNames u) :=
    Stepwise.ite (fun _ => grows_stepwise.refl u) fun _ => grows_fieldNames u
  have hv : Grows (Sole (·.isType)) u v := hnames.trans (grows_oneType hp _) fun _ _ hcs hds => hds.before hcs
  have hw : Grows (fun cs => parts cs = []) v w := by
    refine Stepwise.ite (fun htag => ?_) fun _ => grows_stepwise.refl v
    exact grows_stepwise.tokenNode rfl (.of_seesAny (Bool.and_eq_true_iff.mp htag).2 (by decide))
  exact hv.trans (grows_stepwise.trans hw (grows_endLine .rBrace w)) fun _ _ => Sole.after

theorem grows_method (s : State) : Grows (Only (isNode .method ·)) s (method p s) := by
  refine Stepwise.ite (fun _ => ?_) fun _ => grows_recoverLine _ _ s
  refine (grows_item (k := .method) (P := fun cs => namesAmong cs ≠ [] ∧ Signs cs) (fun u _ => ?_)
    fun as cs has hcs => ⟨named_before hcs.1, hcs.2.before has.parts⟩).mono
      fun _ h => (h.sole fun _ => parts_singleton_node rfl).only
  have hsigned := (grows_name u).trans (grows_signature hp _) (Q := fun cs => namesAmong cs ≠ [] ∧ Signs cs)
    fun cs ds hcs hds => ⟨named_after hcs.2, hds.before hcs.1.parts⟩
  exact hsigned.trans (grows_endLine .rBrace _) fun cs ds hcs hds => ⟨named_after hcs.1, hcs.2.after hds⟩

omit hp in
/-- A node that starts with its token. -/
theorem grows_led {k : NodeKind} {kind : TokenKind} {R : Tree → Prop} (h : s.sees kind = true)
    (hkind : kind.isTrivia = false)
    (hbody : Grows P s.skipTrivia.opened.bump (p s.skipTrivia.opened.bump))
    (hfit : ∀ tok cs, P cs → Led (.leaf tok :: cs) → Complete k (.leaf tok :: cs))
    (hk : ∀ r cs, R (.node k r cs)) : Grows (Single R) s (s.nodeAtToken k fun s => p s.bump) := by
  have hinside := (grows_first h).trans hbody (Q := fun cs => ∃ tok ds, cs = .leaf tok :: ds ∧
    tok.kind = kind ∧ P ds) (by
    rintro _ ds ⟨tok, rfl, htok⟩ hds
    exact ⟨tok, ds, rfl, htok, hds⟩)
  refine Grows.nodeAtToken hinside ?_
  rintro _ ⟨tok, ds, rfl, htok, hds⟩
  exact ⟨Or.inr (hfit tok ds hds ⟨tok, ds, rfl, not_trivia htok hkind⟩), fun r => hk r _⟩

def litStarts : List TokenKind := [.ident, .lBracket, .mapKw]

theorem grows_typeWith (s : State) :
    Grows (Single fun c => c.isType ∧ (s.seesAny litStarts → c.isExpr)) s (typeWith p s) := by
  have hafter (k : TokenKind) (u : State) : Grows (Sole (·.isType)) u (p (u.expect k)) :=
    (grows_expect k u).trans (grows_oneType hp _) fun _ _ hcs hds => hds.before (parts_bump hcs)
  have hnot {k : TokenKind} {c : Tree} (h : s.peek.map Token.kind = some k) (hk : k ∉ litStarts) :
      s.seesAny litStarts → c.isExpr := by
    intro hany
    obtain ⟨tok, toks, hahead, htok⟩ := ahead_of_peek h
    rw [seesAny, peek_eq, hahead] at hany
    exact absurd (htok ▸ List.contains_iff_mem.mp hany) hk
  rw [typeWith]
  split
  · rename_i h
    exact (grows_typeName (sees_of_peek h)).mono fun _ hc => hc.mono fun _ hk => ⟨hk.1, fun _ => hk.2⟩
  · rename_i h
    exact grows_led (k := .sliceType) (p := fun s => p (s.expect .rBracket)) (sees_of_peek h)
      rfl (hafter .rBracket _)
      (fun _ _ hcs hled => ⟨hled, hcs⟩) fun _ _ => ⟨rfl, fun _ => rfl⟩
  · rename_i h
    have htwo := (hafter .lBracket s.skipTrivia.opened.bump).trans (hafter .rBracket _)
      (Q := fun cs => ∃ k v, parts cs = [k, v] ∧ k.isType ∧ v.isType) (by
        rintro cs ds ⟨k, hk, hkt⟩ ⟨v, hv, hvt⟩
        exact ⟨k, v, by rw [parts_append, hk, hv]; rfl, hkt, hvt⟩)
    exact grows_led (k := .mapType) (p := fun s => p ((p (s.expect .lBracket)).expect .rBracket)) (sees_of_peek h)
      rfl htwo
      (fun _ _ hcs hled => ⟨hled, hcs⟩) fun _ _ => ⟨rfl, fun _ => rfl⟩
  · rename_i h
    exact grows_led (k := .pointerType) (sees_of_peek h) rfl (grows_oneType hp _) (fun _ _ hcs hled => ⟨hled, hcs⟩)
      fun _ _ => ⟨rfl, hnot h (by decide)⟩
  · rename_i h
    exact grows_led (k := .chanType) (sees_of_peek h) rfl (grows_oneType hp _) (fun _ _ hcs hled => ⟨hled, hcs⟩)
      fun _ _ => ⟨rfl, hnot h (by decide)⟩
  · rename_i h
    exact grows_led (k := .funcType) (sees_of_peek h) rfl (grows_signature hp _)
      (fun tok _ hcs hled => ⟨hled, hcs.before (show parts [.leaf tok] = [] from rfl)⟩) fun _ _ =>
      ⟨rfl, hnot h (by decide)⟩
  · rename_i h
    exact grows_led (k := .structType) (sees_of_peek h) rfl (grows_members (grows_field hp) _)
      (fun _ _ hcs hled => ⟨hled, hcs⟩) fun _ _ => ⟨rfl, hnot h (by decide)⟩
  · rename_i h
    exact grows_led (k := .interfaceType) (sees_of_peek h) rfl (grows_members (grows_method hp) _)
      (fun _ _ hcs hled => ⟨hled, hcs⟩) fun _ _ => ⟨rfl, hnot h (by decide)⟩
  · exact grows_expected _ s

end

/-- By induction on the tokens left: the types inside a type have fewer of them. -/
theorem grows_type (s : State) : Grows (Single fun c => c.isType ∧ (s.seesAny litStarts → c.isExpr)) s (type s) := by
  induction hn : s.rest.length using Nat.strong_induction_on generalizing s with
  | _ n ih =>
    let below (u : State) : State := if u.rest.length < n then type u else u.expected .type
    have hagree : typeWith type s = typeWith below s :=
      typeWith_congr type_conserves fun t ht => (if_pos (hn ▸ ht)).symm
    rw [type_eq, hagree]
    refine grows_typeWith (fun u => Stepwise.ite (fun hu => ?_) fun _ => grows_expected _ u) s
    exact (ih _ hu u rfl).mono fun _ hc => hc.mono fun _ hk => hk.1

theorem grows_anyType (s : State) : Grows (Single (·.isType)) s (type s) :=
  (grows_type s).mono fun _ hc => hc.mono fun _ hk => hk.1

/-! ## Expressions -/

theorem remembers_litBody : Remembers litBody := fun s => remembers_litBodyWithin _ s

/-- The braces of a literal are not looked into. -/
theorem grows_litBody (s : State) :
    Grows (fun cs => parts cs = [] ∧ ∃ b ∈ cs, b.isNode .litBody) s (litBody s) := by
  refine ⟨remembers_litBody s, fun _ => ?_⟩
  obtain ⟨as, hdone, hwhole, hblank⟩ := (grows_skipTrivia s).2 (skipTrivia_errors s)
  rw [litBody_eq, litBodyWith, nodeAtToken, State.node, State.close]
  refine ⟨as ++ [.node .litBody _ _], by simp only [hdone, List.reverse_append]; rfl, ?_, ?_, _,
    List.mem_append_right _ List.mem_cons_self, rfl⟩
  · exact List.forall_mem_append.mpr ⟨hwhole, List.forall_mem_singleton.mpr (Or.inl rfl)⟩
  · rw [parts_append, hblank.hollow.parts, parts_node_closed rfl]
    rfl

theorem grows_composite (h : s.seesAny litStarts = true) : Grows (Single (·.isExpr)) s (composite litBody s) := by
  have hseen : s.skipTrivia.opened.seesAny litStarts = true := (seesAny_congr _ (ahead_opened s)).trans h
  have htype := (grows_type s.skipTrivia.opened).mono fun _ hc => hc.mono fun _ hk => And.intro hk.1 (hk.2 hseen)
  rw [composite]
  refine Stepwise.ite (fun _ => ?_) fun _ => ?_
  · have hinside := htype.trans (grows_litBody _) (Q := fun cs => Sole (·.isType) cs ∧
      ∃ b ∈ cs, b.isNode .litBody) (by
      rintro cs ds hcs ⟨hds, b, hb, hbody⟩
      exact ⟨((hcs.mono fun _ hk => hk.1).sole fun _ => parts_singleton_type).after hds, b,
        List.mem_append_right _ hb, hbody⟩)
    refine (grows_skipTrivia s).trans (Grows.close hinside fun _ h => Or.inr h) ?_
    rintro as _ has ⟨r, ds, rfl, -⟩
    exact ⟨as, _, rfl, has, rfl⟩
  · refine (grows_skipTrivia s).trans htype.splice ?_
    rintro as _ has ⟨bs, c, rfl, hbs, hc⟩
    exact ⟨as ++ bs, c, (List.append_assoc ..).symm, List.forall_mem_append.mpr ⟨has, hbs⟩, hc.2⟩

theorem grows_exprWith (hp : ∀ u, Grows (Single (·.isExpr)) u (p u)) (s : State) :
    Grows (Single (·.isExpr)) s (exprWith p litBody s) := by
  have hone (u : State) : Grows (Sole (·.isExpr)) u (p u) :=
    (hp u).mono fun _ h => h.sole fun _ => parts_singleton_expr
  have hsigned {k : TokenKind} (h : s.peek.map Token.kind = some k) (hk : k.isTrivia = false) :
      Grows (Single (·.isExpr)) s (s.nodeAtToken .unaryExpr fun s => p s.bump) :=
    grows_led (sees_of_peek h) hk (hone _) (fun _ _ hcs hled => ⟨hled, hcs⟩) fun _ _ => rfl
  have hliteral {k : TokenKind} (h : s.peek.map Token.kind = some k) (hk : k.isTrivia = false) :
      Grows (Single (·.isExpr)) s (s.tokenNode .literal) :=
    grows_tokenNode (sees_of_peek h) fun tok htok => ⟨Or.inr ⟨tok, rfl, not_trivia htok hk⟩, fun _ => rfl⟩
  have hcomposite {k : TokenKind} (h : s.peek.map Token.kind = some k) (hk : k ∈ litStarts) :
      Grows (Single (·.isExpr)) s (composite litBody s) := grows_composite (seesAny_iff.mpr ⟨k, hk, sees_of_peek h⟩)
  rw [exprWith]
  split
  · exact hsigned ‹_› rfl
  · exact hsigned ‹_› rfl
  · exact hliteral ‹_› rfl
  · exact hliteral ‹_› rfl
  · exact hliteral ‹_› rfl
  · exact hliteral ‹_› rfl
  · rename_i h
    have hinside := (hone s.skipTrivia.opened.bump).trans (grows_expect .rParen _) (Q := Sole (·.isExpr))
      fun _ _ hcs hds => hcs.after (parts_bump hds)
    exact grows_led (p := fun s => (p s).expect .rParen) (sees_of_peek h)
      rfl hinside (fun _ _ hcs hled => ⟨hled, hcs⟩) fun _ _ => rfl
  · exact hcomposite ‹_› (by decide)
  · exact hcomposite ‹_› (by decide)
  · exact hcomposite ‹_› (by decide)
  · exact grows_expected _ s
  · exact grows_complain _ (.ite (.refl _) ((Retains.refl _).tokenNode _))

/-- By induction on the tokens left, as for types. -/
theorem grows_expr (s : State) : Grows (Single (·.isExpr)) s (expr s) := by
  induction hn : s.rest.length using Nat.strong_induction_on generalizing s with
  | _ n ih =>
    let below (u : State) : State := if u.rest.length < n then expr u else u.expected .expression
    have hagree : exprWith expr litBody s = exprWith below litBody s :=
      exprWith_congr (fun t ht => (if_pos (hn ▸ ht)).symm) fun _ _ => rfl
    rw [expr_eq, hagree]
    exact grows_exprWith (fun u => Stepwise.ite (fun hu => ih _ hu u rfl) fun _ => grows_expected _ u) s

/-! ## Specs -/

theorem grows_typeSpecBody (s : State) :
    Grows (fun cs => namesAmong cs ≠ [] ∧ Sole (·.isType) cs) s (type (name s)) :=
  (grows_name s).trans (grows_anyType _) fun _ _ hcs hds =>
    ⟨named_after hcs.2, (hds.sole fun _ => parts_singleton_type).before hcs.1.parts⟩

/-- A name, perhaps with a type, and behind it perhaps the sign `=` with a value. -/
def Defines (cs : List Tree) : Prop :=
  ∃ as bs, cs = as ++ bs ∧ namesAmong as ≠ [] ∧ (∀ tok : Token, .leaf tok ∈ as → tok.isTrivia = true) ∧
    Optional (·.isType) as ∧ (bs = [] ∨ ∃ tok ds, bs = .leaf tok :: ds ∧ tok.kind = .eq ∧ Sole (·.isExpr) ds)

theorem grows_constSpecBody (s : State) : Grows Defines s (
    let s := name s
    let s := if !s.newlineBefore && !s.seesAny [.eq, .semicolon, .rParen] then type s else s
    if s.sees .eq then expr s.bump else s) := by
  extract_lets u v
  have hv : Grows (fun cs => namesAmong cs ≠ [] ∧ (∀ tok : Token, .leaf tok ∈ cs → tok.isTrivia = true) ∧
      Optional (·.isType) cs) s v := by
    refine Stepwise.ite (fun _ => ?_) fun _ => (grows_name s).mono fun _ h => ⟨h.2, h.1.calm, Or.inl h.1.parts⟩
    refine (grows_name s).trans (grows_anyType u) fun cs ds hcs hds =>
      ⟨named_after hcs.2, fun tok htok => ?_, Or.inr ?_⟩
    · exact (List.mem_append.mp htok).elim (hcs.1.calm tok) (hds.calm (fun _ h => nomatch h) tok)
    · exact (hds.sole fun _ => parts_singleton_type).before hcs.1.parts
  refine Stepwise.ite (fun heq => ?_) fun _ => hv.mono fun cs h =>
    ⟨cs, [], (List.append_nil cs).symm, h.1, h.2.1, h.2.2, Or.inl rfl⟩
  have hvalue := (grows_bump heq).trans (grows_expr _) (Q := fun cs => ∃ as tok ds, cs = as ++ .leaf tok :: ds ∧
    Blank as ∧
      tok.kind = .eq ∧ Sole (·.isExpr) ds) (by
    rintro _ ds ⟨as, tok, rfl, has, htok⟩ hds
    exact ⟨as, tok, ds, by simp, has, htok, hds.sole fun _ => parts_singleton_expr⟩)
  refine hv.trans hvalue ?_
  rintro cs _ ⟨hname, hcalm, htype⟩ ⟨as, tok, ds, rfl, has, htok, hds⟩
  refine ⟨cs ++ as, _, (List.append_assoc ..).symm, named_after hname, fun t ht => ?_, htype.after has.hollow.parts,
    Or.inr ⟨tok, ds, rfl, htok, hds⟩⟩
  exact (List.mem_append.mp ht).elim (hcalm t) (has.hollow.calm t)

/-- Before the sign `=` there is at most a type, and behind it at most a value. -/
theorem Defines.complete {as cs ds : List Tree} (has : Hollow as) (h : Defines cs) (hds : parts ds = []) :
    Complete .constSpec (as ++ cs ++ ds) := by
  obtain ⟨bs, es, rfl, hname, hcalm, htype, hvalue⟩ := h
  have hbefore : ∀ c ∈ as ++ bs, (!isEqSign c) = true := by
    intro c hc
    cases c with
    | leaf tok =>
      have htrivia := (List.mem_append.mp hc).elim (has.calm tok) (hcalm tok)
      suffices tok.kind ≠ .eq by simpa [isEqSign, token?] using this
      intro hk
      rw [not_trivia hk rfl] at htrivia
      cases htrivia
    | node k r cs => rfl
  have hassoc : as ++ (bs ++ es) ++ ds = (as ++ bs) ++ (es ++ ds) := by simp
  rw [hassoc]
  refine ⟨named_after (named_before hname), ?_, ?_⟩
  · rw [List.takeWhile_append_of_pos hbefore]
    have hnil : parts ((es ++ ds).takeWhile (!isEqSign ·)) = [] := by
      rcases hvalue with rfl | ⟨tok, es, rfl, htok, -⟩
      · exact parts_sublist (List.takeWhile_sublist _) hds
      · simp [isEqSign, token?, htok]
    refine Optional.after ?_ hnil
    exact htype.imp (fun h => by rw [parts_append, has.parts, h]; rfl) fun h => h.before has.parts
  · rw [List.dropWhile_append_of_pos hbefore]
    rcases hvalue with rfl | ⟨tok, es, rfl, htok, hvalue⟩
    · exact Or.inl (parts_sublist (List.dropWhile_sublist _) hds)
    · have hself : (Tree.leaf tok :: es ++ ds).dropWhile (!isEqSign ·) = .leaf tok :: es ++ ds := by
        simp [isEqSign, token?, htok]
      rw [hself]
      exact Or.inr ((hvalue.before (show parts [.leaf tok] = [] from rfl)).after hds)

/-- A spec, with its doc and the end of its line where it stands in a group. -/
theorem grows_specNode {k : NodeKind} (group : Bool) (hp : ∀ u, Grows P u (p u))
    (hfit : ∀ as cs ds, Hollow as → P cs → parts ds = [] → Complete k (as ++ cs ++ ds)) (s : State) :
    Grows (Single (isNode k ·)) s (specNode k group p s) := by
  refine Stepwise.ite (fun _ => ?_) fun _ => ?_
  · refine grows_item (P := fun cs => ∃ as bs, cs = as ++ bs ∧ P as ∧ parts bs = []) (fun u _ => ?_) ?_
    · exact (hp u).trans (grows_endLine .rParen _) fun cs ds hcs hds => ⟨cs, ds, rfl, hcs, hds⟩
    · rintro as _ has ⟨cs, ds, rfl, hcs, hds⟩
      rw [← List.append_assoc]
      exact hfit as cs ds has hcs hds
  · refine Grows.nodeAtToken (hp _) fun cs hcs => ⟨Or.inr ?_, fun r => by simp [isNode, kind?]⟩
    simpa using hfit [] cs [] hollow_nil hcs rfl

theorem grows_typeSpec (group : Bool) (s : State) : Grows (Single (isNode .typeSpec ·)) s (typeSpec group s) :=
  Stepwise.ite
    (fun _ => grows_specNode (k := .typeSpec) group grows_typeSpecBody
      (fun _ _ _ has hcs hds => ⟨named_after (named_before hcs.1), (hcs.2.before has.parts).after hds⟩) s)
    fun _ => grows_recoverLine _ _ s

theorem grows_constSpec (group : Bool) (s : State) : Grows (Single (isNode .constSpec ·)) s (constSpec group s) :=
  Stepwise.ite (fun _ => grows_specNode (k := .constSpec) group grows_constSpecBody
    (fun _ _ _ has hcs hds => hcs.complete has hds) s)
    fun _ => grows_recoverLine _ _ s

/-! ## Declarations -/

section
variable {k : NodeKind} {spec : Bool → Parser} (hk : k.isClosed = false)
  (hspec : ∀ group u, Grows (Single (isNode k ·)) u (spec group u))
include hk hspec

theorem grows_grouped (s : State) : Grows (Groups k) s (grouped spec s) := by
  have hspecs (group : Bool) (u : State) : Grows (Only (isNode k ·)) u (spec group u) :=
    (hspec group u).mono fun _ h => (h.sole fun _ => parts_singleton_node hk).only
  have hend (u : State) : Grows (fun cs => parts cs = [] ∧ ∀ c ∈ cs, c.opens = false) u (u.endLine .error) :=
    ((grows_endLine .error u).and_makes (endLine_shut .error u)).mono fun _ h => ⟨h.1, fun c hc => (h.2 c hc).2⟩
  rw [grouped]
  split
  · rename_i hopen
    have hinside :=
      ((grows_repeatWhile (hspecs true) (fun s => !s.atEnd && !s.sees .rParen) s.rest.length s.bump).trans
        (grows_expect .rParen _)
      fun _ _ hcs hds => hcs.append (only_nil (parts_bump hds))).trans (hend _) (Q := Only (isNode k ·))
        fun _ _ hcs hds => hcs.append (only_nil hds.1)
    refine (grows_bump hopen).trans hinside ?_
    rintro _ ds ⟨as, tok, rfl, has, htok⟩ hds
    rw [List.append_assoc]
    refine Groups.before ⟨(only_nil rfl).append hds, fun _ => ?_⟩ has.hollow.parts has.not_opens
    simp [opens, token?, htok]
  · refine (hspec false s).trans (hend _) fun cs ds hcs hds => ?_
    refine ⟨(hcs.sole fun _ => parts_singleton_node hk).only.append (only_nil hds.1), fun hany => ?_⟩
    obtain ⟨c, hc, hopen⟩ := List.any_eq_true.mp hany
    obtain ⟨as, d, rfl, has, hd⟩ := hcs
    have hshut : c.opens = false := by
      rcases List.mem_append.mp hc with hc | hc
      · rcases List.mem_append.mp hc with hc | hc
        · exact has.not_opens c hc
        · obtain rfl := List.mem_singleton.mp hc
          cases c with
          | leaf tok => cases hd
          | node _ _ _ => rfl
      · exact hds.2 c hc
    rw [hshut] at hopen
    cases hopen

theorem grows_decl (kind : NodeKind) {kw : TokenKind} (hkw : kw ≠ .lParen)
    (hfit : ∀ cs, Groups k cs → Complete kind cs)
    {s : State} (hs : s.sees kw = true) :
    Grows (Single (isNode kind ·)) s (s.item kind fun s => grouped spec s.bump) := by
  refine grows_item (P := Groups k) (fun u hu => ?_) fun as cs has hcs =>
    hfit _ (hcs.before has.parts fun c hc => ?_)
  · refine (grows_bump ((sees_congr kw hu).trans hs)).trans (grows_grouped hk hspec _) ?_
    rintro _ ds ⟨as, tok, rfl, has, htok⟩ hds
    refine hds.before (parts_bump ⟨as, tok, rfl, has, htok⟩) fun c hc => ?_
    rcases List.mem_append.mp hc with hc | hc
    · exact has.not_opens c hc
    · rw [List.mem_singleton.mp hc]
      exact (shut_leaf (htok ▸ hkw)).2
  · cases c with
    | leaf tok => exact (shut_trivia (has.calm tok hc)).2
    | node _ _ _ => rfl

end

/-! ## Source files -/

theorem grows_packageClause (s : State) : Grows (fun cs => parts cs = []) s (packageClause s) := by
  refine Stepwise.ite (fun hs => ?_) fun _ => grows_expected _ s
  refine grows_stepwise.item rfl rfl fun u hu => ?_
  refine grows_stepwise.trans (grows_stepwise.bump ?_) (grows_stepwise.trans (grows_names _) (grows_endLine _ _))
  exact (Fit.of_sees hs (by decide)).congr hu

/-- Imports are not looked into. -/
theorem grows_importDecl (hs : s.sees .importKw = true) : Grows (fun cs => parts cs = []) s (importDecl s) := by
  obtain ⟨outer, inner, hout, hin, hahead, heq⟩ := grows_stepwise.exists_item rfl s
  have hfit : inner.Fit := (Fit.of_sees hs (by decide)).congr hahead
  have hbody : Retains inner (grouped importSpec inner.bump) :=
    (accounts_stepwise.trans (accounts_stepwise.bump hfit) (accounts_stepwise.grouped (ok_of_phrase fun _ h => h)
      (accounts_stepwise.importSpec (ok_of_phrase fun _ h => h) (by decide)) _)).retains
  rw [importDecl, heq]
  have hnode : Grows (fun cs => parts cs = [])
    outer (State.close .importDecl outer (grouped importSpec inner.bump)) :=
    ⟨hin.1.trans hbody, fun _ =>
      ⟨[.node .importDecl _ _], rfl, List.forall_mem_singleton.mpr (Or.inl rfl), parts_node_closed rfl⟩⟩
  exact hout.trans hnode fun cs ds hcs hds => by rw [parts_append, hcs, hds, List.append_nil]

theorem grows_declaration (s : State) :
    Grows (Only fun c => c.isNode .typeDecl || c.isNode .constDecl) s (declaration s) := by
  rw [declaration]
  split
  · rename_i h
    refine (grows_decl rfl grows_typeSpec .typeDecl (by decide) (fun _ h => h) (sees_of_peek h)).mono fun _ hc => ?_
    exact fun c hcs => by simp [(hc.sole fun _ => parts_singleton_node rfl).only c hcs]
  · rename_i h
    refine (grows_decl rfl grows_constSpec .constDecl (by decide) (fun _ h => h) (sees_of_peek h)).mono fun _ hc =>
      ?_
    exact fun c hcs => by simp [(hc.sole fun _ => parts_singleton_node rfl).only c hcs]
  · rename_i h
    have hs : (s.complain .lateImport).sees .importKw = true := sees_of_peek h
    exact grows_complain .lateImport (grows_importDecl hs).1
  · refine grows_complain (.expected .declaration s.peek) ((Retains.refl _).nodeAtToken .error fun u =>
      .ite (.refl u) ?_)
    rw [bumpWhile_eq]
    exact (Retains.refl u).bump.repeatWhile _ (fun v => (Retains.refl v).bump) _

theorem grows_sourceFile (s : State) :
    Grows (Only fun c => c.isNode .typeDecl || c.isNode .constDecl) s (sourceFile s) := by
  have himports := grows_stepwise.trans (grows_packageClause s)
    (grows_stepwise.repeatWhile (fun u hu => grows_importDecl hu) (packageClause s).rest.length _)
  exact (himports.trans (grows_repeatWhile grows_declaration _ _ _)
    (Q := Only fun c => c.isNode .typeDecl || c.isNode .constDecl)
    fun _ _ hcs hds => (only_nil hcs).append hds).trans (grows_skipTrivia _) fun _ _ hcs hds =>
      hcs.append (only_nil hds.hollow.parts)

theorem errors_run (kind : NodeKind) (p : Parser) (text : String) :
    (run kind p text).errors = (p (.ofTokens (Token.tokenize text))).errors.reverse := rfl

end Grammar

/-- Nothing is missing in the tree of a text that is parsed without a complaint. -/
theorem parse_whole {text : String} (h : (parse text).ok = true) : (parse text).tree.Whole := by
  obtain ⟨_, hroot⟩ := tree_parse text
  have hquiet : (Grammar.sourceFile (.ofTokens (Token.tokenize text))).errors = [] := by
    rw [Parse.ok, List.isEmpty_iff, parse, Grammar.errors_run, List.reverse_eq_nil_iff] at h
    exact h
  obtain ⟨cs, hdone, hwhole, honly⟩ := (Grammar.grows_sourceFile (.ofTokens (Token.tokenize text))).2 hquiet
  have hchildren : (parse text).tree.children = cs := by
    rw [parse, Grammar.children_run, hdone]
    simp [Grammar.State.ofTokens]
  rw [hroot, hchildren]
  exact Or.inr ⟨honly, Tree.wholeAll_iff.mpr hwhole⟩

end IdlWorkbench
