import IdlWorkbench.Proofs.Grammar.Whole

/-!
# Where identifiers stand in texts without complaints

Between two types of a list stands a comma, between two members a line break, and behind the key of a map a bracket.
So an identifier never stands directly behind a type or a declaration, apart from one place: a result type without
parentheses may follow the parameters at once. `Spaced` states this for all nodes from the root of a file down to
its types, and it holds of the tree of every text that is parsed without a complaint.
-/

namespace IdlWorkbench

/-- The kinds of the nodes from the root of a file down to its types. -/
def NodeKind.isOutline : NodeKind → Bool
  | .sourceFile | .importDecl | .typeDecl | .typeSpec | .constDecl | .sliceType | .mapType | .pointerType | .chanType
  | .funcType | .paramList | .resultList | .structType | .interfaceType | .fieldList | .field | .method => true
  | _ => false

/-- The kinds of the nodes that an identifier does not follow at once. -/
def NodeKind.isFirm : NodeKind → Bool
  | .importSpec | .nameRef | .selector => true
  | k => k.isOutline

namespace Token

def Unnamed (ts : List Token) : Prop := ∀ t ∈ ts.head?, t.kind ≠ .ident

theorem Unnamed.append {ts us : List Token} (h : Unnamed ts) (h' : Unnamed us) : Unnamed (ts ++ us) := by
  cases ts with
  | nil => exact h'
  | cons t ts => exact h

theorem Unnamed.of_append {ts us : List Token} (h : Unnamed (ts ++ us)) : Unnamed ts := by
  cases ts with
  | nil => exact nofun
  | cons t ts => exact h

end Token

namespace Tree

open Token

def isFirm (t : Tree) : Bool := t.kind?.any NodeKind.isFirm

def Loose (t : Tree) : Prop := t.isFirm = false

/-- No identifier follows one of the firm nodes at once. -/
def Parted : List Tree → Prop
  | [] => True
  | c :: cs => (c.Loose ∨ Unnamed (leavesOf cs)) ∧ Parted cs

/-- Nothing is firm but parameters, and results behind them. -/
def Signed (cs : List Tree) : Prop :=
  ∃ ps, ps.isNode .paramList ∧ (cs.filter isFirm = [ps] ∨ ∃ rs, rs.isNode .resultList ∧ cs.filter isFirm = [ps, rs])

/-- How the children of a node follow each other, and where its identifiers are. -/
def Arranged : NodeKind → List Tree → Prop
  | .name, cs => ∃ tok, cs = [.leaf tok] ∧ tok.kind = .ident
  | .nameRef, cs | .selector, cs => ∃ tok ts, cs = .leaf tok :: ts ∧ tok.kind = .ident
  | .funcType, cs | .method, cs => Signed cs
  | k, cs => k.isOutline = true → Parted cs

mutual

def Spaced : Tree → Prop
  | leaf _ => True
  | node kind _ children => Arranged kind children ∧ (kind.isOutline = true → SpacedAll children)

def SpacedAll : List Tree → Prop
  | [] => True
  | t :: ts => t.Spaced ∧ SpacedAll ts

end

theorem spacedAll_iff {cs : List Tree} : SpacedAll cs ↔ ∀ c ∈ cs, c.Spaced := by
  induction cs with
  | nil => simp [SpacedAll]
  | cons c cs ih => simp [SpacedAll, ih]

variable {cs ds : List Tree} {k : NodeKind} {r : ByteRange}

/-! ## Children that follow each other -/

theorem loose_leaf (tok : Token) : (leaf tok).Loose := rfl

theorem loose_node (hk : k.isFirm = false) : (node k r cs).Loose := hk

/-- Nothing is asked of what is neither firm nor a name. -/
theorem arranged_of_loose (hk : k.isFirm = false) (hname : k ≠ .name) (cs : List Tree) : Arranged k cs := by
  cases k <;> first
    | exact absurd hk (by decide)
    | exact absurd rfl hname
    | exact fun h => absurd h (by decide)

theorem Parted.of_loose : ∀ {cs : List Tree}, (∀ c ∈ cs, c.Loose) → Parted cs
  | [], _ => trivial
  | c :: _, h => ⟨Or.inl (h c List.mem_cons_self), of_loose fun d hd => h d (List.mem_cons_of_mem _ hd)⟩

theorem Parted.behind_loose (h : Parted ds) : ∀ {cs : List Tree}, (∀ c ∈ cs, c.Loose) → Parted (cs ++ ds)
  | [], _ => h
  | c :: _, hcs => ⟨Or.inl (hcs c List.mem_cons_self), h.behind_loose fun d hd => hcs d (List.mem_cons_of_mem _ hd)⟩

theorem Parted.append : ∀ {cs : List Tree}, Parted cs → Parted ds → Unnamed (leavesOf ds) → Parted (cs ++ ds)
  | [], _, h, _ => h
  | c :: cs, h, hds, hun => by
    refine ⟨h.1.imp_right fun hcs => ?_, h.2.append hds hun⟩
    rw [List.append_eq, leavesOf_append]
    exact hcs.append hun

theorem filter_isFirm_of_loose (h : ∀ c ∈ cs, c.Loose) : cs.filter isFirm = [] :=
  List.filter_eq_nil_iff.mpr fun c hc => Bool.eq_false_iff.mp (h c hc)

theorem Signed.behind_loose (h : Signed ds) (hcs : ∀ c ∈ cs, c.Loose) : Signed (cs ++ ds) := by
  rw [Signed, List.filter_append, filter_isFirm_of_loose hcs]
  exact h

theorem Signed.before_loose (h : Signed cs) (hds : ∀ d ∈ ds, d.Loose) : Signed (cs ++ ds) := by
  rw [Signed, List.filter_append, filter_isFirm_of_loose hds, List.append_nil]
  exact h

def Last (k : NodeKind) (cs : List Tree) : Prop := ∃ as r ds, cs = as ++ [.node k r ds] ∧ ∀ a ∈ as, a.Loose

theorem Last.parted (h : Last k cs) : Parted cs := by
  obtain ⟨as, r, ds, rfl, has⟩ := h
  have hlast : Parted [.node k r ds] := ⟨Or.inr nofun, trivial⟩
  exact hlast.behind_loose has

theorem Last.loose (hk : k.isFirm = false) (h : Last k cs) : ∀ c ∈ cs, c.Loose := by
  obtain ⟨as, r, ds, rfl, has⟩ := h
  exact List.forall_mem_append.mpr ⟨has, List.forall_mem_singleton.mpr hk⟩

end Tree

namespace Grammar

open State IdlWorkbench.Tree Token

variable {s t u : State} {p q : Parser} {P Q : List Tree → Prop} {k : NodeKind}

/-! ## What comes next -/

theorem kind_ne_ident_of_isTrivia {t : Token} (h : t.isTrivia = true) : t.kind ≠ .ident := by
  intro hk
  simp [Token.isTrivia, hk, TokenKind.isTrivia, TokenKind.isComment] at h

theorem unnamed_of_trivia (h : ∀ t ∈ s.rest.head?, t.isTrivia = true) : Unnamed s.rest :=
  fun t ht => kind_ne_ident_of_isTrivia (h t ht)

theorem unnamed_of_peek (h : ∀ t ∈ s.peek, t.kind ≠ .ident) : Unnamed s.rest := by
  intro t ht
  rw [peek] at h
  cases hs : s.rest with
  | nil => simp [hs] at ht
  | cons u us =>
    obtain rfl : u = t := by simpa [hs] using ht
    by_cases htrivia : u.isTrivia = true
    · exact kind_ne_ident_of_isTrivia htrivia
    · exact h u (by simp [hs, htrivia])

theorem unnamed_of_sees {k : TokenKind} (hk : k ≠ .ident) (h : s.sees k = true) : Unnamed s.rest := by
  obtain ⟨t, ts, hs, rfl⟩ := sees_iff.mp h
  refine unnamed_of_peek fun u hu => ?_
  rw [peek_eq, hs] at hu
  obtain rfl : t = u := by simpa using hu
  exact hk

theorem unnamed_of_seesAny {ks : List TokenKind} (hks : .ident ∉ ks) (h : s.seesAny ks = true) : Unnamed s.rest := by
  obtain ⟨k, hk, hs⟩ := seesAny_iff.mp h
  exact unnamed_of_sees (fun he => hks (he ▸ hk)) hs

theorem unnamed_of_newlineBefore (h : s.newlineBefore = true) : Unnamed s.rest := by
  rcases Bool.or_eq_true_iff.mp h with hend | hnl
  · refine unnamed_of_peek fun t ht => ?_
    rw [atEnd, Option.isNone_iff_eq_none] at hend
    simp [hend] at ht
  · refine unnamed_of_trivia fun t ht => ?_
    obtain ⟨u, hu, -⟩ := List.any_eq_true.mp hnl
    rw [trivia] at hu
    cases hs : s.rest with
    | nil => simp [hs] at ht
    | cons v vs =>
      obtain rfl : v = t := by simpa [hs] using ht
      by_contra hv
      simp [hs, hv] at hu

theorem unnamed_of_expect {k : TokenKind} (hk : k ≠ .ident)
    (h : (s.expect k).errors = s.errors) : Unnamed s.rest := by
  obtain ⟨t, hs, ht⟩ := expect_quiet h
  exact unnamed_of_sees hk (sees_iff.mpr ⟨t, _, hs, ht⟩)

/-- Without a complaint a line ends before a line break or the closing token. -/
theorem endLine_quiet {closer : TokenKind} (h : (s.endLine closer).errors = s.errors) :
    ∃ v : State, v = (if !s.newlineBefore && s.sees .semicolon then s.bump else s).trailing ∧ s.endLine closer = v ∧
      (v.newlineBefore = true ∨ v.sees closer = true) := by
  have hsv : Retains s (if !s.newlineBefore && s.sees .semicolon then s.bump else s).trailing :=
    (Retains.ite (Retains.refl s).bump (Retains.refl s)).trailing
  refine ⟨_, rfl, ?_⟩
  rw [State.endLine] at h ⊢
  generalize (if !s.newlineBefore && s.sees .semicolon then s.bump else s).trailing = v at hsv h ⊢
  by_cases hrec : (!v.newlineBefore && !v.sees closer) = true
  · simp only [if_pos hrec] at h
    have hgrows := grows_recoverLine (P := fun _ => False) (.token .semicolon) closer v
    have htrail := (Retains.refl (v.recoverLine (.token .semicolon) closer)).trailing
    obtain ⟨-, hquiet⟩ := hsv.quiet (hgrows.1.trans htrail) h
    obtain ⟨cs, -, -, hfalse⟩ := hgrows.2 (hgrows.1.quiet htrail hquiet).1
    exact hfalse.elim
  · refine ⟨if_neg hrec, ?_⟩
    simp only [Bool.and_eq_true, Bool.not_eq_true', not_and, Bool.not_eq_false] at hrec
    rcases hnl : v.newlineBefore with _ | _
    · exact Or.inr (hrec hnl)
    · exact Or.inl rfl

theorem unnamed_before_trailing (h : Unnamed s.trailing.rest) : Unnamed s.rest := by
  rcases trailing_cases s with heq | ⟨gap, hgap, hcomment, -⟩
  · rwa [heq] at h
  · refine unnamed_of_trivia fun t ht => ?_
    cases hs : s.rest with
    | nil => simp [hs] at ht
    | cons u us =>
      obtain rfl : u = t := by simpa [hs] using ht
      cases gap with
      | zero => exact hcomment u (by simp [State.advance, hs])
      | succ gap => exact hgap u (by simp [hs])

/-- No identifier stands on either side of the end of a line. -/
theorem unnamed_of_endLine {closer : TokenKind} (hc : closer ≠ .ident) (h : (s.endLine closer).errors = s.errors) :
    Unnamed s.rest ∧ Unnamed (s.endLine closer).rest := by
  obtain ⟨v, hv, heq, hend⟩ := endLine_quiet h
  have hunnamed : Unnamed v.rest := hend.elim unnamed_of_newlineBefore (unnamed_of_sees hc)
  refine ⟨?_, heq ▸ hunnamed⟩
  by_cases hsemi : (!s.newlineBefore && s.sees .semicolon) = true
  · exact unnamed_of_sees (by decide) (Bool.and_eq_true_iff.mp hsemi).2
  · rw [if_neg hsemi] at hv
    exact unnamed_before_trailing (hv ▸ hunnamed)

/-! ## Laying out children -/

/-- Unless something was complained of on the way, the new children are spaced and satisfy `P`. -/
structure Lays (P : List Tree → Prop) (s t : State) : Prop where
  retains : Retains s t
  consumes : Consumes s t
  quiet : t.errors = s.errors → ∃ cs, t.done = cs.reverse ++ s.done ∧ (∀ c ∈ cs, c.Spaced) ∧ P cs

theorem lays_refl (h : P []) (s : State) : Lays P s s := ⟨.refl s, .refl s, fun _ => ⟨[], rfl, nofun, h⟩⟩

theorem Lays.mono (h : Lays P s t) (hpq : ∀ cs, P cs → Q cs) : Lays Q s t :=
  ⟨h.retains, h.consumes, fun hq => (h.quiet hq).imp fun cs ⟨hdone, hspaced, hp⟩ => ⟨hdone, hspaced, hpq cs hp⟩⟩

theorem Lays.trans {P' : List Tree → Prop} (h : Lays P s t) (h' : Lays P' t u)
    (hpq : ∀ cs ds, P cs → P' ds → Q (cs ++ ds)) : Lays Q s u := by
  refine ⟨h.retains.trans h'.retains, h.consumes.trans h'.consumes, fun hq => ?_⟩
  obtain ⟨hq, hq'⟩ := h.retains.quiet h'.retains hq
  obtain ⟨cs, hdone, hspaced, hp⟩ := h.quiet hq
  obtain ⟨ds, hdone', hspaced', hp'⟩ := h'.quiet hq'
  refine ⟨cs ++ ds, ?_, List.forall_mem_append.mpr ⟨hspaced, hspaced'⟩, hpq cs ds hp hp'⟩
  rw [hdone', hdone, List.reverse_append, List.append_assoc]

/-- The children of a run that starts before no identifier start with none. -/
theorem Lays.unnamed (h : Lays P s t) (hs : Unnamed s.rest) : Lays (fun cs => P cs ∧ Unnamed (leavesOf cs)) s t := by
  refine ⟨h.retains, h.consumes, fun hq => ?_⟩
  obtain ⟨cs, hdone, hspaced, hp⟩ := h.quiet hq
  obtain ⟨ds, hdone', hrest, -⟩ := h.consumes.grown
  obtain rfl : cs = ds := List.reverse_inj.mp (List.append_cancel_right (hdone.symm.trans hdone'))
  exact ⟨cs, hdone, hspaced, hp, (hrest ▸ hs).of_append⟩

theorem lays_complain (c : Complaint) (hr : Retains (s.complain c) t) (hc : Consumes s t) : Lays P s t := by
  have hs : Retains s (s.complain c) := (Retains.refl s).complain c
  exact ⟨hs.trans hr, hc, fun hq => absurd (hs.quiet hr hq).1 (complain_errors_ne c s)⟩

theorem lays_expected (what : Expected) (s : State) : Lays P s (s.expected what) :=
  lays_complain _ (.refl _) ((Consumes.refl s).expected what)

theorem lays_recoverLine (what : Expected) (closer : TokenKind) (s : State) :
    Lays P s (s.recoverLine what closer) := by
  have h := grows_recoverLine (P := fun _ => False) what closer s
  exact ⟨h.1, (Consumes.refl s).recoverLine what closer, fun hq => (h.2 hq).elim fun _ hcs => hcs.2.2.elim⟩

/-- The new children become those of a node. -/
theorem Lays.close (h : Lays P s.opened u) (hfit : ∀ cs, P cs → Arranged k cs) :
    Lays (fun cs => ∃ r ds, cs = [.node k r ds]) s (State.close k s u) := by
  refine ⟨h.retains, (Consumes.refl s).close k h.consumes, fun hq => ?_⟩
  obtain ⟨cs, hdone, hspaced, hp⟩ := h.quiet hq
  rw [opened_done, List.append_nil] at hdone
  refine ⟨[.node k ⟨s.offset, u.offset⟩ cs], by
    simp [State.close, hdone], List.forall_mem_singleton.mpr ?_, _, cs, rfl⟩
  exact ⟨hfit cs hp, fun _ => spacedAll_iff.mpr hspaced⟩

/-- What stands inside a node does not matter if it is not part of the outline. -/
theorem lays_inner (hk : k.isOutline = false) (hfit : ∀ cs, Arranged k cs) (hr : Retains s.opened u)
    (hc : Consumes s.opened u) :
    Lays (fun cs => ∃ r ds, cs = [.node k r ds]) s (State.close k s u) := by
  refine ⟨hr, (Consumes.refl s).close k hc, fun _ => ⟨_, rfl, List.forall_mem_singleton.mpr ?_, _, _, rfl⟩⟩
  exact ⟨hfit _, fun h => absurd h (by simp [hk])⟩

def LaysLoose : State → State → Prop := Lays fun cs => ∀ c ∈ cs, c.Loose

theorem LaysLoose.trans (h : LaysLoose s t) (h' : LaysLoose t u) : LaysLoose s u :=
  Lays.trans h h' fun _ _ hcs hds => List.forall_mem_append.mpr ⟨hcs, hds⟩

/-- Steps that leave nothing firm. -/
theorem loose_stepwise : Stepwise (fun k => k.isFirm = false ∧ k ≠ .name) LaysLoose where
  refl := lays_refl nofun
  trans := LaysLoose.trans
  advance n s _ := by
    refine ⟨(Retains.refl s).advance n, advance_consumes n s, fun _ =>
      ⟨(s.rest.take n).map Tree.leaf, advance_done n s, ?_, ?_⟩⟩
    · exact List.forall_mem_map.mpr fun _ _ => trivial
    · exact List.forall_mem_map.mpr fun tok _ => loose_leaf tok
  complain c s := lays_complain c (.refl _) ((Consumes.refl s).complain c)
  close hk h := (Lays.close h fun cs _ => arranged_of_loose hk.1 hk.2 cs).mono fun _ ⟨r, ds, hcs⟩ =>
    hcs ▸ List.forall_mem_singleton.mpr (loose_node hk.1)
  splice {s _} h := by
    refine ⟨h.retains, (Consumes.refl s).splice h.consumes, fun hq => ?_⟩
    obtain ⟨cs, hdone, hspaced, hloose⟩ := h.quiet hq
    rw [opened_done, List.append_nil] at hdone
    exact ⟨cs, by rw [State.splice, hdone], hspaced, hloose⟩
  recover c {s _} h :=
    lays_complain c (((Retains.refl (s.complain c)).advance _).trans h.retains)
      (((Consumes.refl s).complain c).skipTrivia.close .error h.consumes)

/-- Behind loose children the rest decides. -/
theorem LaysLoose.before (h : LaysLoose s t) (h' : Lays Parted t u) : Lays Parted s u :=
  Lays.trans h h' fun _ _ hcs hds => hds.behind_loose hcs

/-- Children that are parted stay so if no identifier comes behind them. -/
theorem Lays.parted (h : Lays Parted s t) (h' : Lays Parted t u) (ht : t.errors = s.errors → u.errors = t.errors →
      Unnamed t.rest) :
    Lays Parted s u := by
  refine ⟨h.retains.trans h'.retains, h.consumes.trans h'.consumes, fun hq => ?_⟩
  obtain ⟨hqs, hqt⟩ := h.retains.quiet h'.retains hq
  exact (h.trans (h'.unnamed (ht hqs hqt)) fun _ _ hcs hds => hcs.append hds.1 hds.2).quiet hq

theorem LaysLoose.parted (h : LaysLoose s t) : Lays Parted s t := Lays.mono h fun _ => Parted.of_loose

theorem Lays.last (hout : LaysLoose s t)
    (h : Lays (fun cs => ∃ r ds, cs = [.node k r ds]) t u) : Lays (Last k) s u := by
  refine Lays.trans hout h ?_
  rintro cs _ hcs ⟨r, ds, rfl⟩
  exact ⟨cs, r, ds, rfl, hcs⟩

theorem lays_expect {k : TokenKind} (hk : k ≠ .error) (s : State) : LaysLoose s (s.expect k) :=
  loose_stepwise.expect hk s

theorem lays_bump {k : TokenKind} (hk : k ≠ .error) (h : s.sees k = true) : LaysLoose s s.bump :=
  loose_stepwise.bump (.of_sees h hk)

/-- A token that comes first in a node. -/
theorem lays_first {k : TokenKind} (h : s.sees k = true) :
    Lays (fun cs => ∃ tok, cs = [.leaf tok] ∧ tok.kind = k) s.skipTrivia.opened s.skipTrivia.opened.bump := by
  refine ⟨(Retains.refl _).bump, (Consumes.refl _).bump, fun _ => ?_⟩
  obtain ⟨tok, htok, hdone⟩ := done_bump ((sees_congr k (ahead_opened s)).trans h)
  rw [skipTrivia_opened] at hdone
  exact ⟨[.leaf tok], hdone, List.forall_mem_singleton.mpr trivial, tok, rfl, htok⟩

theorem Lays.nodeAtToken (h : Lays P s.skipTrivia.opened (p s.skipTrivia.opened))
    (hfit : ∀ cs, P cs → Arranged k cs) :
    Lays (Last k) s (s.nodeAtToken k p) := (Lays.close h hfit).last (loose_stepwise.skipTrivia s)

theorem lays_tokenNode {kind : TokenKind} (h : s.sees kind = true)
    (hfit : ∀ tok : Token, tok.kind = kind → Arranged k [.leaf tok]) : Lays (Last k) s (s.tokenNode k) := by
  refine (lays_first h).nodeAtToken ?_
  rintro _ ⟨tok, rfl, hk⟩
  exact hfit tok hk

/-- A node that starts with its token. -/
theorem lays_led {kind : TokenKind} (hkind : kind ≠ .error) (h : s.sees kind = true) (hp : ∀ u, Lays P u (p u))
    (hfit : ∀ as cs, (∀ a ∈ as, a.Loose) → P cs → Arranged k (as ++ cs)) :
    Lays (Last k) s (s.nodeAtToken k fun s => p s.bump) := by
  have hsees : s.skipTrivia.opened.sees kind = true := (sees_congr kind (ahead_opened s)).trans h
  refine (Lays.trans (lays_bump hkind hsees) (hp _) (Q := fun cs => ∃ as ds, cs = as ++ ds ∧
    (∀ a ∈ as, a.Loose) ∧ P ds)
    fun as ds has hds => ⟨as, ds, rfl, has, hds⟩).nodeAtToken ?_
  rintro _ ⟨as, ds, rfl, has, hds⟩
  exact hfit as ds has hds

structure Closes (P : List Tree → Prop) (s t : State) : Prop extends Lays P s t where
  shut : t.errors = s.errors → Unnamed t.rest

theorem Closes.mono (h : Closes P s t) (hpq : ∀ cs, P cs → Q cs) : Closes Q s t := ⟨h.toLays.mono hpq, h.shut⟩

theorem closes_complain (c : Complaint) (hr : Retains (s.complain c) t) (hc : Consumes s t) : Closes P s t :=
  ⟨lays_complain c hr hc, fun hq => ((lays_complain (P := fun _ => False) c hr hc).quiet hq).elim fun _ hcs =>
    hcs.2.2.elim⟩

theorem closes_recoverLine (what : Expected) (closer : TokenKind) (s : State) :
    Closes P s (s.recoverLine what closer) :=
  ⟨lays_recoverLine what closer s, fun hq =>
    ((lays_recoverLine (P := fun _ => False) what closer s).quiet hq).elim fun _ hcs => hcs.2.2.elim⟩

/-- The end of a line adds nothing firm. -/
theorem Lays.endLine {closer : TokenKind} (hc : closer ≠ .ident) (h : Lays P s t)
    (hpq : ∀ cs ds, P cs → (∀ d ∈ ds, d.Loose) → Unnamed (leavesOf ds) → Q (cs ++ ds)) :
    Closes Q s (t.endLine closer) := by
  have hend : LaysLoose t (t.endLine closer) := loose_stepwise.endLine ⟨rfl, by decide⟩ _ _
  refine ⟨⟨h.retains.trans hend.retains, h.consumes.trans hend.consumes, fun hq => ?_⟩, fun hq => ?_⟩
  · obtain ⟨-, hqt⟩ := h.retains.quiet hend.retains hq
    exact (h.trans (hend.unnamed (unnamed_of_endLine hc hqt).1) fun cs ds hcs hds =>
      hpq cs ds hcs hds.1 hds.2).quiet hq
  · exact (unnamed_of_endLine hc (h.retains.quiet hend.retains hq).2).2

theorem Lays.endLine_parted {closer : TokenKind} (hc : closer ≠ .ident) (h : Lays Parted s t) :
    Closes Parted s (t.endLine closer) := h.endLine hc fun _ _ hcs hds => hcs.append (.of_loose hds)

/-- An item and its doc. -/
theorem closes_item (hp : ∀ u : State, u.ahead = s.ahead → Closes P u (p u))
    (hfit : ∀ as cs, (∀ a ∈ as, a.Loose) → P cs → Arranged k (as ++ cs)) : Closes (Last k) s (s.item k p) := by
  obtain ⟨outer, inner, hout, hin, hahead, heq⟩ := loose_stepwise.exists_item ⟨rfl, by decide⟩ s
  have hbody := hp inner hahead
  rw [heq]
  refine ⟨(Lays.close (Lays.trans hin hbody.toLays (Q := fun cs => ∃ as ds, cs = as ++ ds ∧
    (∀ a ∈ as, a.Loose) ∧ P ds)
    fun as ds has hds => ⟨as, ds, rfl, has, hds⟩) ?_).last hout, fun hq => ?_⟩
  · rintro _ ⟨as, ds, rfl, has, hds⟩
    exact hfit as ds has hds
  · have hinner : Retains s inner := hout.retains.trans hin.retains
    exact hbody.shut (hinner.quiet hbody.retains hq).2

theorem Closes.behind (h : LaysLoose s t) (h' : Closes Parted t u) : Closes Parted s u :=
  ⟨h.before h'.toLays, fun hq => h'.shut (h.retains.quiet h'.retains hq).2⟩

theorem Closes.trans (h : Closes Parted s t) (h' : Closes Parted t u) : Closes Parted s u :=
  ⟨h.toLays.parted h'.toLays fun hq _ => h.shut hq, fun hq => h'.shut (h.retains.quiet h'.retains hq).2⟩

section
variable {g : State → Bool} (hp : ∀ u, g u = true → Closes Parted u (p u))
include hp

theorem Closes.repeatWhile : ∀ (n : Nat) {t : State}, Closes Parted s t → Closes Parted s (t.repeatWhile g p n)
  | 0, _, h => h
  | n + 1, t, h => by
    rw [State.repeatWhile]
    split
    · exact repeatWhile n (h.trans (hp t ‹_›))
    · exact h

/-- The first round may start before an identifier. -/
theorem lays_repeatWhile (n : Nat) (s : State) : Lays Parted s (s.repeatWhile g p n) := by
  cases n with
  | zero => exact lays_refl trivial s
  | succ n =>
    rw [State.repeatWhile]
    exact Stepwise.ite (fun hgo => (Closes.repeatWhile hp n (hp s hgo)).toLays) fun _ => lays_refl trivial s

end

/-! ## Types -/

theorem lays_name (s : State) : LaysLoose s (name s) :=
  Stepwise.ite (fun h => (lays_tokenNode (k := .name) h fun tok hk => ⟨tok, rfl, hk⟩).mono fun _ => Last.loose rfl)
    fun _ => lays_expected _ s

theorem lays_fieldNames (s : State) : LaysLoose s (fieldNames s) :=
  (lays_name s).trans (loose_stepwise.repeatWhile (fun _ hu => (lays_bump (by decide) hu).trans (lays_name _)) _ _)

theorem lays_typeName (h : s.sees .ident = true) : Lays Parted s (typeName s) := by
  refine Stepwise.ite (fun hdot => ?_) fun _ => ?_
  · have hsecond : s.skipTrivia.opened.bump.seesAny [.dot] = true := by
      rw [seesAny, peek_eq, ahead_bump, ahead_opened, ← secondIs_eq]
      exact hdot
    have hrest : LaysLoose s.skipTrivia.opened.bump (s.skipTrivia.opened.bump.bump.expect .ident) :=
      (loose_stepwise.bump (.of_seesAny hsecond (by decide))).trans (lays_expect (by decide) _)
    have hselector : Lays (Arranged .selector) s.skipTrivia.opened
      (s.skipTrivia.opened.bump.bump.expect .ident) := by
      refine Lays.trans (lays_first h) hrest ?_
      rintro _ ds ⟨tok, rfl, hk⟩ -
      exact ⟨tok, ds, rfl, hk⟩
    exact (Lays.nodeAtToken (p := fun s => s.bump.bump.expect .ident) hselector fun _ hcs => hcs).mono fun _ =>
      Last.parted
  · exact (lays_tokenNode (k := .nameRef) h fun tok hk => ⟨tok, [], rfl, hk⟩).mono fun _ => Last.parted

section
variable (hp : ∀ u, Lays Parted u (p u))
include hp

theorem lays_typeList : ∀ (n : Nat) (s : State), Lays Parted s (typeList p n s)
  | 0, s => lays_refl trivial s
  | n + 1, s => by
    have hround (b : Bool) : Lays Parted s (p (if b then name s else s)) := by
      have hnamed : LaysLoose s (if b then name s else s) :=
        Stepwise.ite (fun _ => lays_name s) fun _ => loose_stepwise.refl s
      exact hnamed.before (hp _)
    rw [typeList]
    refine Stepwise.ite (fun _ => ?_) fun _ => lays_refl trivial s
    refine Stepwise.ite (fun hcomma => ?_) fun _ => hround _
    exact (hround _).parted ((lays_bump (by decide) hcomma).before (lays_typeList n _))
      fun _ _ => unnamed_of_sees (by decide) hcomma

theorem lays_typesInParens (h : s.sees .lParen = true) : Lays Parted s (typesInParens p s) :=
  (lays_bump (by decide) h).before ((lays_typeList hp _ _).parted (lays_expect (by decide) _).parted
    fun _ hq => unnamed_of_expect (by decide) hq)

theorem lays_signature (s : State) : Lays Signed s (signature p s) := by
  have hparams : Lays (Last .paramList) s (s.nodeAtToken .paramList fun s =>
      if s.sees .lParen then typesInParens p s else s.expected (.token .lParen)) :=
    Lays.nodeAtToken (k := .paramList) (Stepwise.ite (fun h => lays_typesInParens hp h) fun _ => lays_expected _ _)
      fun _ hcs _ => hcs
  have hresults (u : State) : Lays (Last .resultList) u (u.nodeAtToken .resultList fun s =>
      if s.sees .lParen then typesInParens p s else p s) :=
    Lays.nodeAtToken (k := .resultList) (Stepwise.ite (fun h => lays_typesInParens hp h) fun _ => hp _)
      fun _ hcs _ => hcs
  refine Stepwise.ite (fun _ => hparams.mono ?_) fun _ => hparams.trans (hresults _) ?_
  · rintro _ ⟨as, r, ds, rfl, has⟩
    refine ⟨.node .paramList r ds, rfl, Or.inl ?_⟩
    rw [List.filter_append, filter_isFirm_of_loose has]
    rfl
  · rintro _ _ ⟨as, r, ds, rfl, has⟩ ⟨bs, r', ds', rfl, hbs⟩
    refine ⟨.node .paramList r ds, rfl, Or.inr ⟨.node .resultList r' ds', rfl, ?_⟩⟩
    rw [List.filter_append, List.filter_append, List.filter_append, filter_isFirm_of_loose has,
      filter_isFirm_of_loose hbs]
    rfl

omit hp in
theorem lays_members (hq : ∀ u, Closes Parted u (q u)) (s : State) : Lays Parted s (members q s) := by
  refine Stepwise.ite (fun h => ?_) fun _ => lays_expected _ s
  have hsees : s.skipTrivia.opened.sees .lBrace = true := (sees_congr .lBrace (ahead_opened s)).trans h
  have hrounds := lays_repeatWhile (g := fun s => !s.atEnd && !s.sees .rBrace) (fun u _ => hq u)
    s.skipTrivia.opened.rest.length s.skipTrivia.opened.bump
  exact (Lays.nodeAtToken (k := .fieldList) ((lays_bump (by decide) hsees).before
    (hrounds.parted (lays_expect (by decide) _).parted fun _ hq => unnamed_of_expect (by decide) hq))
      fun _ hcs _ => hcs).mono fun _ => Last.parted

theorem closes_field (s : State) : Closes Parted s (field p s) := by
  refine Stepwise.ite (fun _ => ?_) fun _ => closes_recoverLine _ _ s
  refine (closes_item (k := .field) (P := Parted) (fun u _ => ?_) fun as cs has hcs _ => hcs.behind_loose has).mono
    fun _ => Last.parted
  extract_lets embedded v w
  have hnames : LaysLoose u (if embedded then u else fieldNames u) :=
    Stepwise.ite (fun _ => loose_stepwise.refl u) fun _ => lays_fieldNames u
  have hv : Lays Parted u v := hnames.before (hp _)
  have hw : Lays Parted u w := by
    refine Stepwise.ite (fun htag => ?_) fun _ => hv
    have hstring := (Bool.and_eq_true_iff.mp htag).2
    exact hv.parted (loose_stepwise.tokenNode ⟨rfl, by decide⟩ (.of_seesAny hstring (by decide))).parted
      fun _ _ => unnamed_of_seesAny (by decide) hstring
  exact hw.endLine_parted (by decide)

theorem closes_method (s : State) : Closes Parted s (method p s) := by
  refine Stepwise.ite (fun _ => ?_) fun _ => closes_recoverLine _ _ s
  refine (closes_item (k := .method) (P := Signed) (fun u _ => ?_) fun as cs has hcs => hcs.behind_loose has).mono
    fun _ => Last.parted
  have hsigned : Lays Signed u (signature p (name u)) := Lays.trans (lays_name u) (lays_signature hp _)
    fun _ _ hcs hds => hds.behind_loose hcs
  exact hsigned.endLine (by decide) fun _ _ hcs hds _ => hcs.before_loose hds

theorem lays_typeWith (s : State) : Lays Parted s (typeWith p s) := by
  have hafter {k : TokenKind} (hk : k ≠ .error) (u : State) : Lays Parted u (p (u.expect k)) :=
    (lays_expect hk u).before (hp _)
  have hled {k : NodeKind} {kind : TokenKind} {q : Parser} (hq : ∀ u, Lays Parted u (q u))
      (hfit : ∀ cs, Parted cs → Arranged k cs) (hkind : kind ≠ .error) (h : s.peek.map Token.kind = some kind) :
      Lays Parted s (s.nodeAtToken k fun s => q s.bump) :=
    (lays_led hkind (sees_of_peek h) hq fun as cs has hcs => hfit _ (hcs.behind_loose has)).mono fun _ => Last.parted
  rw [typeWith]
  split
  · rename_i h
    exact lays_typeName (sees_of_peek h)
  · rename_i h
    exact hled (k := .sliceType) (hafter (by decide)) (fun _ hcs _ => hcs) (by decide) h
  · rename_i h
    have hboth (u : State) : Lays Parted u (p ((p (u.expect .lBracket)).expect .rBracket)) := by
      refine (hafter (by decide) u).parted (hafter (by decide) _) fun _ hq => ?_
      exact unnamed_of_expect (by decide) (((Retains.refl _).expect .rBracket).quiet (hp _).retains hq).1
    exact hled (k := .mapType) hboth (fun _ hcs _ => hcs) (by decide) h
  · rename_i h
    exact hled (k := .pointerType) hp (fun _ hcs _ => hcs) (by decide) h
  · rename_i h
    exact hled (k := .chanType) hp (fun _ hcs _ => hcs) (by decide) h
  · rename_i h
    exact (lays_led (k := .funcType) (by decide) (sees_of_peek h) (lays_signature hp) fun as cs has hcs =>
      hcs.behind_loose has).mono
      fun _ => Last.parted
  · rename_i h
    exact hled (k := .structType) (lays_members (closes_field hp)) (fun _ hcs _ => hcs) (by decide) h
  · rename_i h
    exact hled (k := .interfaceType) (lays_members (closes_method hp)) (fun _ hcs _ => hcs) (by decide) h
  · exact lays_expected _ s

end

/-- By induction on the tokens left: the types inside a type have fewer of them. -/
theorem lays_type (s : State) : Lays Parted s (type s) := by
  induction hn : s.rest.length using Nat.strong_induction_on generalizing s with
  | _ n ih =>
    let below (u : State) : State := if u.rest.length < n then type u else u.expected .type
    have hagree : typeWith type s = typeWith below s :=
      typeWith_congr type_conserves fun t ht => (if_pos (hn ▸ ht)).symm
    rw [type_eq, hagree]
    exact lays_typeWith (fun u => Stepwise.ite (fun hu => ih _ hu u rfl) fun _ => lays_expected _ u) s

/-! ## Declarations -/

def LaysSpec (spec : Bool → Parser) : Prop :=
  ∀ (group : Bool) (s : State), Lays Parted s (spec group s) ∧ (group = true → Closes Parted s (spec group s))

/-- A spec that is part of the outline. -/
theorem lays_specNode (hk : ∀ cs, Parted cs → Arranged k cs) (hp : ∀ u, Lays Parted u (p u)) :
    LaysSpec fun group => specNode k group p := by
  intro group s
  have hgroup : Closes Parted s (s.item k fun s => (p s).endLine .rParen) :=
    (closes_item (fun u _ => (hp u).endLine_parted (by decide)) fun as cs has hcs =>
      hk _ (hcs.behind_loose has)).mono
      fun _ => Last.parted
  cases group with
  | false => exact ⟨((hp _).nodeAtToken hk).mono fun _ => Last.parted, nofun⟩
  | true => exact ⟨hgroup.toLays, fun _ => hgroup⟩

/-- A spec that is not looked into. -/
theorem lays_innerSpec (hk : k.isOutline = false) (hfit : ∀ cs, Arranged k cs) (hr : Remembers p)
    (hc : Conserves p) :
    LaysSpec fun group => specNode k group p := by
  intro group s
  have hgroup : Closes Parted s (s.item k fun s => (p s).endLine .rParen) := by
    obtain ⟨outer, inner, hout, hin, -, heq⟩ := loose_stepwise.exists_item ⟨rfl, by decide⟩ s
    have hp : Retains outer.opened (p inner) := hr.after hin.retains
    rw [heq]
    refine ⟨((lays_inner hk hfit (hp.endLine _) ((hc.after hin.consumes).endLine _)).last hout).mono fun _ =>
      Last.parted,
      fun hq => ?_⟩
    have hinner : Retains s (p inner) := hr.after (hout.retains.trans hin.retains)
    exact (unnamed_of_endLine (by decide) (hinner.quiet ((Retains.refl _).endLine _) hq).2).2
  have hsole : Lays Parted s (s.nodeAtToken k p) :=
    ((lays_inner hk hfit (hr _) (hc _)).last (loose_stepwise.skipTrivia s)).mono fun _ => Last.parted
  cases group with
  | false => exact ⟨hsole, nofun⟩
  | true => exact ⟨hgroup.toLays, fun _ => hgroup⟩

theorem lays_specOr {spec : Bool → Parser} (h : LaysSpec spec) (go : State → Bool) (what : Expected)
    (closer : TokenKind) :
    LaysSpec fun group s => if go s then spec group s else s.recoverLine what closer := by
  intro group s
  dsimp only
  split
  · exact h group s
  · exact ⟨(closes_recoverLine what closer s).toLays, fun _ => closes_recoverLine what closer s⟩

theorem lays_typeSpec : LaysSpec typeSpec :=
  lays_specOr (lays_specNode (k := .typeSpec) (fun _ hcs _ => hcs) fun u => (lays_name u).before (lays_type _)) _ _ _

theorem lays_importSpec : LaysSpec importSpec := by
  refine lays_specOr (lays_innerSpec (k := .importSpec) rfl (fun _ h => absurd h (by decide)) (fun u => ?_)
    fun u => ?_) _ _ _
  · have hname : Retains u (if u.seesAny [.ident, .dot] then u.tokenNode .name else u) :=
      .ite ((Retains.refl u).tokenNode _) (.refl u)
    exact .ite (hname.tokenNode _) (hname.expected _)
  · have hname : Consumes u (if u.seesAny [.ident, .dot] then u.tokenNode .name else u) :=
      .ite ((Consumes.refl u).tokenNode _) (.refl u)
    exact .ite (hname.tokenNode _) (hname.expected _)

theorem lays_constSpec : LaysSpec constSpec := by
  refine lays_specOr (lays_innerSpec (k := .constSpec) rfl (fun _ h => absurd h (by decide)) (fun u => ?_)
    fun u => ?_) _ _ _
  · have htype (b : Bool) : Retains u (if b then type (name u) else name u) :=
      .ite (remembers_type.after (remembers_name u)) (remembers_name u)
    exact .ite (remembers_expr.after (htype _).bump) (htype _)
  · have htype (b : Bool) : Consumes u (if b then type (name u) else name u) :=
      .ite (type_conserves.after (name_conserves u)) (name_conserves u)
    exact .ite (expr_conserves.after (htype _).bump) (htype _)

section
variable {spec : Bool → Parser} (hspec : LaysSpec spec)
include hspec

theorem closes_grouped (s : State) : Closes Parted s (grouped spec s) := by
  have hspecs : Lays Parted s (if s.sees .lParen then
      (s.bump.repeatWhile (fun s => !s.atEnd && !s.sees .rParen) (spec true) s.rest.length).expect .rParen
    else spec false s) := by
    refine Stepwise.ite (fun h => ?_) fun _ => (hspec false s).1
    have hrounds := lays_repeatWhile (g := fun s => !s.atEnd && !s.sees .rParen) (fun u _ => (hspec true u).2 rfl)
      s.rest.length s.bump
    exact (lays_bump (by decide) h).before (hrounds.parted (lays_expect (by decide) _).parted
      fun _ hq => unnamed_of_expect (by decide) hq)
  exact hspecs.endLine_parted (by decide)

theorem closes_decl (hk : ∀ cs, Parted cs → Arranged k cs) {kw : TokenKind} (hkw : kw ≠ .error)
    (hs : s.sees kw = true) :
    Closes Parted s (s.item k fun s => grouped spec s.bump) := by
  refine (closes_item (P := Parted) (fun u hu => ?_) fun as cs has hcs => hk _ (hcs.behind_loose has)).mono fun _ =>
    Last.parted
  exact (closes_grouped hspec _).behind (lays_bump hkw ((sees_congr kw hu).trans hs))

end

theorem closes_importDecl (hs : s.sees .importKw = true) : Closes Parted s (importDecl s) :=
  closes_decl lays_importSpec (k := .importDecl) (fun _ hcs _ => hcs) (by decide) hs

theorem closes_declaration (s : State) : Closes Parted s (declaration s) := by
  rw [declaration]
  split
  · rename_i h
    exact closes_decl lays_typeSpec (k := .typeDecl) (fun _ hcs _ => hcs) (by decide) (sees_of_peek h)
  · rename_i h
    exact closes_decl lays_constSpec (k := .constDecl) (fun _ hcs _ => hcs) (by decide) (sees_of_peek h)
  · rename_i h
    have hs : (s.complain .lateImport).sees .importKw = true := sees_of_peek h
    exact closes_complain _ (closes_importDecl hs).retains
      (importDecl_conserves.after ((Consumes.refl s).complain _))
  · refine closes_complain _ ((Retains.refl _).nodeAtToken .error fun u => .ite (.refl u) ?_)
      ((Consumes.refl s).recoverTo _ _)
    rw [bumpWhile_eq]
    exact (Retains.refl u).bump.repeatWhile _ (fun v => (Retains.refl v).bump) _

theorem closes_packageClause (s : State) : Closes Parted s (packageClause s) := by
  refine Stepwise.ite (fun hs => ?_) fun _ => closes_complain _ (.refl _) ((Consumes.refl s).complain _)
  refine (closes_item (k := .packageClause) (P := fun _ => True) (fun u hu => ?_) fun _ _ _ _ h =>
    absurd h (by decide)).mono
    fun _ => Last.parted
  have hname : LaysLoose u (name u.bump) :=
    (lays_bump (by decide) ((sees_congr .packageKw hu).trans hs)).trans (lays_name _)
  exact Lays.endLine (by decide) hname fun _ _ _ _ _ => trivial

theorem lays_sourceFile (s : State) : Lays Parted s (sourceFile s) := by
  have himports := Closes.repeatWhile (fun u hu => closes_importDecl hu) (packageClause s).rest.length
    (closes_packageClause s)
  have hdecls := Closes.repeatWhile (g := fun s => !s.atEnd) (fun u _ => closes_declaration u)
    ((packageClause s).repeatWhile (State.sees .importKw) importDecl (packageClause s).rest.length).rest.length
      himports
  exact hdecls.toLays.parted (LaysLoose.parted (loose_stepwise.skipTrivia _)) fun hq _ => hdecls.shut hq

end Grammar

/-- The tree of a text that is parsed without a complaint is spaced. -/
theorem parse_spaced {text : String} (h : (parse text).ok = true) : (parse text).tree.Spaced := by
  obtain ⟨_, hroot⟩ := tree_parse text
  have hquiet : (Grammar.sourceFile (.ofTokens (Token.tokenize text))).errors = [] := by
    rw [Parse.ok, List.isEmpty_iff, parse, Grammar.errors_run, List.reverse_eq_nil_iff] at h
    exact h
  obtain ⟨cs, hdone, hspaced, hparted⟩ := (Grammar.lays_sourceFile (.ofTokens (Token.tokenize text))).quiet hquiet
  have hchildren : (parse text).tree.children = cs := by
    rw [parse, Grammar.children_run, hdone]
    simp [Grammar.State.ofTokens]
  rw [hroot, hchildren]
  exact ⟨fun _ => hparted, fun _ => Tree.spacedAll_iff.mpr hspaced⟩

end IdlWorkbench
