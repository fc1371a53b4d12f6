import IdlWorkbench.Editor.Definition
import IdlWorkbench.Proofs.Doc.Place
import IdlWorkbench.Proofs.Format.Sequence
import IdlWorkbench.Proofs.Grammar.Account
import IdlWorkbench.Proofs.Grammar.Drawn
import IdlWorkbench.Proofs.Grammar.Imports
import IdlWorkbench.Proofs.Grammar.Spacing
import IdlWorkbench.Proofs.Token.Stand

/-!
# References under the cursor

The search for the cursor takes the first child that it touches and never comes back, and a node is touched at both
of its ends. So a node that stops where a reference starts takes the cursor at this place. In a text without
complaints the parameters of a function do so if its result type follows at once, as in `func()T`, and nothing else
does: everywhere else the search finds the reference that the cursor is on.
-/

namespace IdlWorkbench

def Descent.goesOn : Descent → Bool
  | wrapper | through => true
  | _ => false

namespace Tree

mutual

/-- The tree itself and the nodes below it, as far down as the search for the cursor goes. -/
def reach : Tree → List Tree
  | leaf _ => []
  | t@(node kind _ children) => t :: if (Descent.ofKind kind).goesOn then reachOf children else []

def reachOf : List Tree → List Tree
  | [] => []
  | t :: ts => t.reach ++ reachOf ts

end

/-- A type, or part of one, that is given by its name. -/
def IsReference (t : Tree) : Prop := t.isNode .nameRef ∨ t.isNode .selector

/-- The node `r` starts the results of a function or a method, and the parameters stop where it starts. -/
def BehindParams (t r : Tree) : Prop :=
  ∃ d ∈ t.nodes, ∃ params ∈ d.children, ∃ results ∈ d.children, params.isNode .paramList ∧
    results.isNode .resultList ∧
    r ∈ results.nodes ∧ params.range.stop = r.range.start

variable {r t u : Tree} {k : NodeKind} {range : ByteRange} {cs ts xs : List Tree} {a b : Nat}

/-! ## What hangs in a tree -/

theorem nodes_node : (node k range cs).nodes = node k range cs :: nodesOf cs := by rw [nodes]

mutual

/-- What holds of a node holds of the trees around it if it goes over from a child to its parent. -/
theorem nodes_induction {P : Tree → Prop} (hu : P u) (hstep : ∀ k range cs, ∀ c ∈ cs, P c → P (node k range cs)) :
    ∀ {t : Tree}, u ∈ t.nodes → P t
  | leaf _, h => by simp [nodes] at h
  | node k range cs, h => by
    rw [nodes_node] at h
    rcases List.mem_cons.mp h with rfl | h
    · exact hu
    · obtain ⟨c, hc, hp⟩ := nodesOf_induction hu hstep h
      exact hstep k range cs c hc hp

theorem nodesOf_induction {P : Tree → Prop} (hu : P u) (hstep : ∀ k range cs, ∀ c ∈ cs, P c → P (node k range cs)) :
    ∀ {ts : List Tree}, u ∈ nodesOf ts → ∃ t ∈ ts, P t
  | [], h => by simp [nodesOf] at h
  | t :: ts, h => by
    rw [nodesOf] at h
    rcases List.mem_append.mp h with h | h
    · exact ⟨t, List.mem_cons_self, nodes_induction hu hstep h⟩
    · obtain ⟨c, hc, hp⟩ := nodesOf_induction hu hstep h
      exact ⟨c, List.mem_cons_of_mem _ hc, hp⟩

end

theorem mem_nodes_of_child {c : Tree} (hc : c ∈ cs) (h : u ∈ c.nodes) : u ∈ (node k range cs).nodes := by
  rw [nodes_node]
  exact List.mem_cons_of_mem _ (mem_nodesOf.mpr ⟨c, hc, h⟩)

theorem mem_nodes_trans (h : u ∈ t.nodes) (hr : r ∈ u.nodes) : r ∈ t.nodes :=
  nodes_induction (P := fun t => r ∈ t.nodes) hr (fun _ _ _ _ hc h => mem_nodes_of_child hc h) h

theorem mem_nodes_of_mem_children (h : u ∈ t.children) (hr : r ∈ u.nodes) : r ∈ t.nodes := by
  cases t with
  | leaf tok => simp [children] at h
  | node k range cs => exact mem_nodes_of_child h hr

theorem sizeOf_le_of_mem_nodes (h : u ∈ t.nodes) : sizeOf u ≤ sizeOf t := by
  refine nodes_induction (P := fun t => sizeOf u ≤ sizeOf t) (Nat.le_refl _) (fun k range cs c hc h => ?_) h
  have := List.sizeOf_lt_of_mem hc
  simp only [node.sizeOf_spec]
  omega

theorem within_of_mem (h : TiledFrom a ts b) (ht : t ∈ ts) : a ≤ t.range.start ∧ t.range.stop ≤ b := by
  obtain ⟨before, after, rfl⟩ := List.append_of_mem ht
  obtain ⟨c, hbefore, rfl, -, hafter⟩ := tiledFrom_append.mp h
  exact ⟨stop_le_of_tiledFrom hbefore, stop_le_of_tiledFrom hafter⟩

theorem within_of_mem_nodes (h : u ∈ t.nodes) (ht : t.Tiled) : t.range.start ≤ u.range.start ∧
    u.range.stop ≤ t.range.stop := by
  revert ht
  refine nodes_induction (P := fun t => t.Tiled → t.range.start ≤ u.range.start ∧ u.range.stop ≤ t.range.stop)
    (fun _ => ⟨Nat.le_refl _, Nat.le_refl _⟩) (fun k range cs c hc ih ht => ?_) h
  obtain ⟨hstart, hstop⟩ := within_of_mem ht hc
  obtain ⟨hstart', hstop'⟩ := ih (TiledFrom.tiled ht hc)
  exact ⟨hstart.trans hstart', hstop'.trans hstop⟩

theorem within_of_mem_nodesOf (h : u ∈ nodesOf ts) (ht : TiledFrom a ts b) :
    a ≤ u.range.start ∧ u.range.stop ≤ b := by
  obtain ⟨t, hmem, hu⟩ := mem_nodesOf.mp h
  obtain ⟨hstart, hstop⟩ := within_of_mem ht hmem
  obtain ⟨hstart', hstop'⟩ := within_of_mem_nodes hu (TiledFrom.tiled ht hmem)
  exact ⟨hstart.trans hstart', hstop'.trans hstop⟩

/-! ## How far the search goes -/

theorem mem_reachOf : r ∈ reachOf ts ↔ ∃ t ∈ ts, r ∈ t.reach := by
  induction ts with
  | nil => simp [reachOf]
  | cons t ts ih => simp [reachOf, ih]

theorem mem_reach_node : r ∈ (node k range cs).reach ↔ r = node k range cs ∨
    (Descent.ofKind k).goesOn = true ∧ r ∈ reachOf cs := by
  rw [reach, List.mem_cons]
  split <;> simp [*]

mutual

/-- What holds of a node goes over to the trees from which the search comes to it. -/
theorem reach_induction {P : Tree → Prop} (hr : P r)
    (hstep : ∀ k range cs, (Descent.ofKind k).goesOn = true → ∀ c ∈ cs, P c → P (node k range cs)) :
    ∀ {t : Tree}, r ∈ t.reach → P t
  | leaf _, h => by simp [reach] at h
  | node k range cs, h => by
    rcases mem_reach_node.mp h with rfl | ⟨hgo, h⟩
    · exact hr
    · obtain ⟨c, hc, hp⟩ := reachOf_induction hr hstep h
      exact hstep k range cs hgo c hc hp

theorem reachOf_induction {P : Tree → Prop} (hr : P r)
    (hstep : ∀ k range cs, (Descent.ofKind k).goesOn = true → ∀ c ∈ cs, P c → P (node k range cs)) :
    ∀ {ts : List Tree}, r ∈ reachOf ts → ∃ t ∈ ts, P t
  | [], h => by simp [reachOf] at h
  | t :: ts, h => by
    rw [reachOf] at h
    rcases List.mem_append.mp h with h | h
    · exact ⟨t, List.mem_cons_self, reach_induction hr hstep h⟩
    · obtain ⟨c, hc, hp⟩ := reachOf_induction hr hstep h
      exact ⟨c, List.mem_cons_of_mem _ hc, hp⟩

end

theorem IsReference.mem_nodes_self (hr : r.IsReference) : r ∈ r.nodes := by
  rcases hr with hr | hr <;> obtain ⟨range, cs, rfl⟩ := exists_of_isNode hr <;> simp [nodes_node]

theorem IsReference.mem_nodes (hr : r.IsReference) (h : r ∈ t.reach) : r ∈ t.nodes :=
  reach_induction (P := fun t => r ∈ t.nodes) hr.mem_nodes_self (fun _ _ _ _ _ hc h => mem_nodes_of_child hc h) h

/-! ## Results right behind parameters -/

theorem behindParams_node : (node k range cs).BehindParams r ↔
    (∃ params ∈ cs, ∃ results ∈ cs, params.isNode .paramList ∧ results.isNode .resultList ∧ r ∈ results.nodes ∧
      params.range.stop = r.range.start) ∨ ∃ c ∈ cs, c.BehindParams r := by
  simp only [BehindParams, nodes_node, List.mem_cons, exists_eq_or_imp, children, mem_nodesOf]
  refine or_congr_right ⟨?_, ?_⟩
  · rintro ⟨d, ⟨c, hc, hd⟩, hparams⟩
    exact ⟨c, hc, d, hd, hparams⟩
  · rintro ⟨c, hc, d, hd, hparams⟩
    exact ⟨d, ⟨c, hc, hd⟩, hparams⟩

theorem BehindParams.mem_nodes (h : t.BehindParams r) : r ∈ t.nodes := by
  obtain ⟨d, hd, _, -, results, hresults, -, -, hr, -⟩ := h
  exact mem_nodes_trans hd (mem_nodes_of_mem_children hresults hr)

theorem BehindParams.ne (h : t.BehindParams r) : r ≠ t := by
  obtain ⟨d, hd, _, -, results, hresults, -, -, hr, -⟩ := h
  rintro rfl
  have hlt : sizeOf results < sizeOf d := by
    cases d with
    | leaf tok => simp [children] at hresults
    | node k range cs =>
      have := List.sizeOf_lt_of_mem (show results ∈ cs from hresults)
      simp only [node.sizeOf_spec]
      omega
  exact absurd (sizeOf_le_of_mem_nodes hr) (by have := sizeOf_le_of_mem_nodes hd; omega)

/-! ## Tokens of a tiled tree -/

mutual

/-- The leaves of a tiled tree follow each other. -/
theorem chained_of_tiled : ∀ {t : Tree}, t.Tiled → Token.Chained t.range.start t.leaves
  | leaf _, _ => ⟨rfl, trivial⟩
  | node _ _ _, h => chained_of_tiledFrom h

theorem chained_of_tiledFrom : ∀ {ts : List Tree} {a b : Nat}, TiledFrom a ts b → Token.Chained a (leavesOf ts)
  | [], _, _, _ => trivial
  | t :: ts, a, b, h => by
    obtain ⟨rfl, ht, hts⟩ := h
    refine (chained_of_tiled ht).append ?_
    rw [← Grammar.stop_of_tiled ht]
    exact chained_of_tiledFrom hts

end

/-- The token that starts where a stretch of trees does is its first. -/
theorem head?_leavesOf {tok : Token} (h : TiledFrom a ts b) (hfilled : ∀ t ∈ leavesOf ts, t.text ≠ "")
    (hmem : tok ∈ leavesOf ts) (hoffset : tok.offset = a) : (leavesOf ts).head? = some tok := by
  have hchained := chained_of_tiledFrom h
  obtain ⟨hsorted, -⟩ := Token.sorted_of_chained hchained hfilled
  cases hleaves : leavesOf ts with
  | nil => simp [hleaves] at hmem
  | cons first rest =>
    rw [hleaves] at hchained hsorted hmem
    rcases List.mem_cons.mp hmem with rfl | hmem
    · rfl
    · have hlt : first.offset < tok.offset := (List.pairwise_cons.mp hsorted).1 tok hmem
      exact absurd hlt (by rw [hchained.1, hoffset]; exact Nat.lt_irrefl a)

/-! ## Siblings -/

theorem Parted.at : ∀ {xs : List Tree}, Parted (xs ++ t :: ts) → t.Loose ∨ Token.Unnamed (leavesOf ts)
  | [], h => h.1
  | _ :: _, h => Parted.at h.2

/-- A firm node before another one is the parameters before the results. -/
theorem Signed.order (h : Signed (xs ++ t :: ts)) (ht : t.isFirm = true) (hu : u ∈ ts) (hfirm : u.isFirm = true) :
    t.isNode .paramList = true ∧ u.isNode .resultList = true := by
  obtain ⟨ps, hps, hfilter⟩ := h
  rw [List.filter_append, List.filter_cons_of_pos ht] at hfilter
  have hmem : u ∈ ts.filter isFirm := List.mem_filter.mpr ⟨hu, hfirm⟩
  generalize xs.filter isFirm = before, ts.filter isFirm = behind at hfilter hmem
  obtain ⟨v, vs, rfl⟩ := List.exists_cons_of_ne_nil (List.ne_nil_of_mem hmem)
  rcases hfilter with hfilter | ⟨rs, hrs, hfilter⟩
  · exact absurd (congrArg List.length hfilter) (by simp; omega)
  · cases before with
    | nil =>
      obtain ⟨rfl, rfl, rfl⟩ : t = ps ∧ v = rs ∧ vs = [] := by simpa using hfilter
      exact ⟨hps, List.mem_singleton.mp hmem ▸ hrs⟩
    | cons w ws => exact absurd (congrArg List.length hfilter) (by simp; omega)

theorem Arranged.parted_or_signed (h : Arranged k cs) (hk : k.isOutline = true) : Parted cs ∨ Signed cs := by
  cases k <;> first
    | exact Or.inl (h hk)
    | exact Or.inr h
    | exact absurd hk (by decide)

structure Legible (t : Tree) : Prop where
  tiled : t.Tiled
  filled : ∀ tok ∈ t.leaves, tok.text ≠ ""
  chain : t.leaves.IsChain fun t u => t.kind = .ident → u.kind ≠ .ident
  spaced : t.Spaced

theorem Legible.child (h : (node k range cs).Legible) (hk : k.isOutline = true) (hu : u ∈ cs) : u.Legible := by
  have hfilled := h.filled
  have hchain := h.chain
  rw [leaves] at hfilled hchain
  refine ⟨TiledFrom.tiled h.tiled hu, fun tok htok => hfilled tok (mem_leavesOf.mpr ⟨u, hu, htok⟩), ?_, ?_⟩
  · obtain ⟨before, after, rfl⟩ := List.append_of_mem hu
    rw [leavesOf_append, leavesOf] at hchain
    exact hchain.right_of_append.left_of_append
  · exact spacedAll_iff.mp (h.spaced.2 hk) u hu

theorem isOutline_of_goesOn (h : (Descent.ofKind k).goesOn = true) : k.isOutline = true := by
  cases k <;> first
    | rfl
    | exact absurd h (by decide)

theorem isFirm_of_isReference (h : t.IsReference) : t.isFirm = true := by
  rcases h with h | h <;> obtain ⟨range, cs, rfl⟩ := exists_of_isNode h <;> rfl

theorem isFirm_of_mem_reach (hr : r.IsReference) (h : r ∈ t.reach) : t.isFirm = true := by
  cases t with
  | leaf tok => simp [reach] at h
  | node k range cs =>
    rcases mem_reach_node.mp h with rfl | ⟨hgo, -⟩
    · exact isFirm_of_isReference hr
    · cases k <;> first
        | rfl
        | exact absurd hgo (by decide)

theorem legible_of_mem_reach (h : r ∈ t.reach) (hl : t.Legible) : r.Legible ∧ ∀ tok ∈ r.leaves, tok ∈ t.leaves := by
  revert hl
  refine reach_induction (P := fun t => t.Legible → r.Legible ∧ ∀ tok ∈ r.leaves, tok ∈ t.leaves)
    (fun hl => ⟨hl, fun _ htok => htok⟩) (fun k range cs hgo c hc ih hl => ?_) h
  obtain ⟨hr, hleaves⟩ := ih (hl.child (isOutline_of_goesOn hgo) hc)
  refine ⟨hr, fun tok htok => ?_⟩
  rw [leaves]
  exact mem_leavesOf.mpr ⟨c, hc, hleaves tok htok⟩

theorem Legible.exists_name (h : t.Legible) (hk : t.isNode .name = true) :
    ∃ tok, t.leaves = [tok] ∧ tok.kind = .ident := by
  obtain ⟨range, cs, rfl⟩ := exists_of_isNode hk
  obtain ⟨tok, rfl, hident⟩ := h.spaced.1
  exact ⟨tok, by simp [leaves, leavesOf], hident⟩

/-- A reference starts with an identifier. -/
theorem Legible.exists_ident (h : r.Legible) (hk : r.IsReference) :
    ∃ tok ∈ r.leaves, tok.kind = .ident ∧ tok.offset = r.range.start := by
  rcases hk with hk | hk
  all_goals
    obtain ⟨range, cs, rfl⟩ := exists_of_isNode hk
    obtain ⟨tok, ts, rfl, hident⟩ := h.spaced.1
    exact ⟨tok, by simp [leaves, leavesOf], hident, h.tiled.1⟩

end Tree

/-! ## The search -/

namespace Target

open IdlWorkbench.Tree

variable {offset : Nat} {inWrapper : Bool} {r t : Tree} {k : NodeKind} {range : ByteRange} {cs ts xs : List Tree}
    {target : Target}

theorem among_cons_some (h : t.range.touches offset = true) (ht : ofTree offset inWrapper t = some target) :
    among offset inWrapper (t :: ts) = target := by
  rw [among, if_pos h, ht]

theorem among_cons_none (h : t.range.touches offset = true → ofTree offset inWrapper t = none) :
    among offset inWrapper (t :: ts) = among offset inWrapper ts := by
  by_cases ht : t.range.touches offset = true
  · rw [among, if_pos ht, h ht]
  · rw [among, if_neg ht]

/-- A reference is found in the first tree, or that one is passed over. -/
theorem among_cons_cases (h : among offset inWrapper (t :: ts) = target) :
    t.range.touches offset = true ∧ ofTree offset inWrapper t = some target ∨
      (t.range.touches offset = true → ofTree offset inWrapper t = none) ∧ among offset inWrapper ts = target := by
  by_cases ht : t.range.touches offset = true
  · cases hfound : ofTree offset inWrapper t with
    | none => exact Or.inr ⟨fun _ => rfl, (among_cons_none fun _ => hfound).symm.trans h⟩
    | some found => exact Or.inl ⟨ht, congrArg some ((among_cons_some ht hfound).symm.trans h)⟩
  · exact Or.inr ⟨fun h => absurd h ht, (among_cons_none fun h => absurd h ht).symm.trans h⟩

theorem ofTree_reference (h : r.IsReference) : ofTree offset inWrapper r = some (.reference r) := by
  rcases h with h | h <;> obtain ⟨range, cs, rfl⟩ := exists_of_isNode h <;> rfl

theorem ofTree_goesOn (offset : Nat) (inWrapper : Bool) (range : ByteRange) (cs : List Tree)
    (h : (Descent.ofKind k).goesOn = true) :
    ∃ inside, ofTree offset inWrapper (node k range cs) = some (among offset inside cs) := by
  rw [ofTree]
  cases hk : Descent.ofKind k with
  | wrapper => exact ⟨true, rfl⟩
  | through => exact ⟨inWrapper, rfl⟩
  | _ => rw [hk] at h; cases h

/-- The search passes over what is neither firm nor a name. -/
theorem ofTree_loose (h : t.Loose) (hname : t.isNode .name = false) : ofTree offset inWrapper t = none := by
  cases t with
  | leaf tok => rfl
  | node k range cs =>
    have hfirm : k.isFirm = false := h
    have hne : k ≠ .name := fun hk => Bool.eq_false_iff.mp hname (beq_iff_eq.mpr (congrArg some hk))
    cases k <;> first
      | rfl
      | exact absurd hfirm (by decide)
      | exact absurd rfl hne

section
variable (hk : r.IsReference) (hs : r.range.start ≤ offset)
include hk hs

/-- What stands before a reference does not keep the cursor, unless it is the parameters right before it. -/
theorem ofTree_passed (hl : (node k range (xs ++ t :: ts)).Legible) (ho : k.isOutline = true) (hr : r ∈ reachOf ts)
    (hb : offset = r.range.start → ¬(node k range (xs ++ t :: ts)).BehindParams r)
    (htouches : t.range.touches offset = true) :
    ofTree offset inWrapper t = none := by
  obtain ⟨c, hc, hrc⟩ := mem_reachOf.mp hr
  obtain ⟨_, -, -, -, htiled⟩ := tiledFrom_append.mp hl.tiled
  have hleaves : (node k range (xs ++ t :: ts)).leaves = leavesOf xs ++ (t.leaves ++ leavesOf ts) := by
    rw [leaves, leavesOf_append, leavesOf]
  -- the tree stops where the reference starts, so it is followed by the identifier that the reference starts with
  obtain ⟨hstart, -⟩ := within_of_mem_nodesOf (mem_nodesOf.mpr ⟨c, hc, hk.mem_nodes hrc⟩) htiled
  have hle : offset ≤ t.range.stop := of_decide_eq_true (Bool.and_eq_true_iff.mp htouches).2
  have hstop : t.range.stop = r.range.start := by omega
  obtain ⟨hlr, hsub⟩ := legible_of_mem_reach hrc (hl.child ho (by simp [hc]))
  obtain ⟨tok, htok, hident, hoffset⟩ := hlr.exists_ident hk
  have hhead : (leavesOf ts).head? = some tok :=
    head?_leavesOf htiled (fun u hu => hl.filled u (by simp [hleaves, hu])) (mem_leavesOf.mpr ⟨c, hc, hsub tok htok⟩)
      (hoffset.trans hstop.symm)
  have hnamed : ¬Token.Unnamed (leavesOf ts) := fun h => h tok hhead hident
  refine ofTree_loose ?_ ?_
  · rw [Loose, Bool.eq_false_iff]
    intro hfirm
    rcases hl.spaced.1.parted_or_signed ho with hparted | hsigned
    · exact hparted.at.elim (fun hloose => Bool.eq_false_iff.mp hloose hfirm) hnamed
    · obtain ⟨hparams, hresults⟩ := hsigned.order hfirm hc (isFirm_of_mem_reach hk hrc)
      refine hb (by omega) (behindParams_node.mpr (Or.inl ⟨t, by simp, c, by simp [hc], ?_⟩))
      exact ⟨hparams, hresults, hk.mem_nodes hrc, hstop⟩
  · rw [Bool.eq_false_iff]
    intro hname
    obtain ⟨name, hleaf, hident'⟩ := (hl.child ho (by simp)).exists_name hname
    have hchain := hl.chain
    rw [hleaves, hleaf, List.singleton_append] at hchain
    exact (List.isChain_cons.mp hchain.right_of_append).1 tok hhead hident' hident

variable (ht : offset < r.range.stop)
include ht

mutual

theorem ofTree_of_mem_reach : ∀ {t : Tree} {inWrapper : Bool}, r ∈ t.reach → t.Legible →
    (offset = r.range.start → ¬t.BehindParams r) → ofTree offset inWrapper t = some (.reference r)
  | leaf _, _, h, _, _ => by simp [reach] at h
  | node k range cs, inWrapper, h, hl, hb => by
    rcases mem_reach_node.mp h with rfl | ⟨hgo, h⟩
    · exact ofTree_reference hk
    · obtain ⟨inside, hinside⟩ := ofTree_goesOn offset inWrapper range cs hgo
      rw [hinside, among_of_mem_reachOf [] h hl (isOutline_of_goesOn hgo) hb]

theorem among_of_mem_reachOf : ∀ (xs : List Tree) {ts : List Tree} {k : NodeKind} {range : ByteRange}
      {inWrapper : Bool},
    r ∈ reachOf ts → (node k range (xs ++ ts)).Legible → k.isOutline = true →
    (offset = r.range.start → ¬(node k range (xs ++ ts)).BehindParams r) → among offset inWrapper ts = .reference r
  | _, [], _, _, _, h, _, _, _ => by simp [reachOf] at h
  | xs, t :: ts, k, range, inWrapper, h, hl, ho, hb => by
    rw [reachOf] at h
    rcases List.mem_append.mp h with h | h
    · have hmem : t ∈ xs ++ t :: ts := by simp
      have hlt := hl.child ho hmem
      obtain ⟨hstart, hstop⟩ := within_of_mem_nodes (hk.mem_nodes h) hlt.tiled
      refine among_cons_some ?_ (ofTree_of_mem_reach h hlt fun hoffset hbehind => hb hoffset ?_)
      · simp only [ByteRange.touches, Bool.and_eq_true, decide_eq_true_eq]
        omega
      · exact behindParams_node.mpr (Or.inr ⟨t, hmem, hbehind⟩)
    · rw [among_cons_none (ofTree_passed hk hs hl ho h hb)]
      rw [List.append_cons] at hl hb
      exact among_of_mem_reachOf _ h hl ho hb

end

end

/-! ## Where the cursor is taken away -/

/-- A node is found as a reference itself, or the reference is among its children. -/
theorem ofTree_node_cases (h : ofTree offset inWrapper (node k range cs) = some (.reference r)) :
    r = node k range cs ∨ ∃ inside, among offset inside cs = .reference r := by
  rw [ofTree] at h
  split at h
  · cases hspec : ImportSpec.ofTree? (node k range cs) <;> simp [hspec] at h
  · exact Or.inl (Target.reference.inj (Option.some_inj.mp h)).symm
  · exact Or.inr ⟨true, Option.some_inj.mp h⟩
  · exact Or.inr ⟨inWrapper, Option.some_inj.mp h⟩
  · cases h

mutual

theorem mem_nodes_of_ofTree : ∀ {t : Tree} {inWrapper : Bool},
    ofTree offset inWrapper t = some (.reference r) → r ∈ t.nodes
  | leaf _, _, h => nomatch h
  | node k range cs, inWrapper, h => by
    rw [nodes_node, List.mem_cons]
    exact (ofTree_node_cases h).imp_right fun ⟨_, hfound⟩ => mem_nodesOf_of_among hfound

theorem mem_nodesOf_of_among : ∀ {ts : List Tree} {inWrapper : Bool},
    among offset inWrapper ts = .reference r → r ∈ nodesOf ts
  | [], inWrapper, h => by
    rw [among] at h
    split at h <;> cases h
  | t :: ts, inWrapper, h => by
    rw [nodesOf, List.mem_append]
    rcases among_cons_cases h with ⟨-, h⟩ | ⟨-, h⟩
    · exact Or.inl (mem_nodes_of_ofTree h)
    · exact Or.inr (mem_nodesOf_of_among h)

end

section
variable {a b : Nat} (hne : r.range.start < r.range.stop)
include hne

/-- No two trees that stand side by side hold the same node. -/
theorem disjoint_of_tiled (ht : t.Tiled) (hts : TiledFrom t.range.stop ts b) (h : r ∈ t.nodes)
    (h' : r ∈ nodesOf ts) : False := by
  have := (within_of_mem_nodes h ht).2
  have := (within_of_mem_nodesOf h' hts).1
  omega

/-- The parameters keep a cursor that stands where they stop. -/
theorem among_params {params : Tree} (hparams : params.isNode .paramList = true)
    (hstop : params.range.stop = r.range.start) :
    ∀ {ts : List Tree} {a : Nat}, TiledFrom a ts b → params ∈ ts → among r.range.start inWrapper ts ≠ .reference r
  | t :: ts, a, hts, hmem, hfound => by
    obtain ⟨-, ht, hts⟩ := hts
    rcases List.mem_cons.mp hmem with rfl | hmem
    · obtain ⟨range, cs, rfl⟩ := exists_of_isNode hparams
      rcases among_cons_cases hfound with ⟨-, hfound⟩ | ⟨hpassed, -⟩
      · have := (within_of_mem_nodes (mem_nodes_of_ofTree hfound) ht).2
        omega
      · have := start_le_stop ht
        have htouches : (node .paramList range cs).range.touches r.range.start = true := by
          simp only [ByteRange.touches, Bool.and_eq_true, decide_eq_true_eq]
          omega
        cases hpassed htouches
    · rcases among_cons_cases hfound with ⟨-, hfound⟩ | ⟨-, hfound⟩
      · have := (within_of_mem_nodes (mem_nodes_of_ofTree hfound) ht).2
        have := (within_of_mem hts hmem).1
        have := start_le_stop (TiledFrom.tiled hts hmem)
        omega
      · exact among_params hparams hstop hts hmem hfound

mutual

theorem ofTree_behindParams : ∀ {t : Tree} {inWrapper : Bool},
    t.BehindParams r → t.Tiled → ofTree r.range.start inWrapper t ≠ some (.reference r)
  | leaf _, _, _, _, hfound => nomatch hfound
  | node k range cs, inWrapper, h, ht, hfound => by
    rcases ofTree_node_cases hfound with heq | ⟨inside, hfound⟩
    · exact h.ne heq
    · rcases behindParams_node.mp h with ⟨params, hmem, results, -, hparams, -, -, hstop⟩ | hc
      · exact among_params hne hparams hstop ht hmem hfound
      · exact among_behindParams hc ht hfound

theorem among_behindParams : ∀ {ts : List Tree} {a b : Nat} {inWrapper : Bool},
    (∃ t ∈ ts, t.BehindParams r) → TiledFrom a ts b →
    among r.range.start inWrapper ts ≠ .reference r
  | [], _, _, _, h, _, _ => by simp at h
  | t :: ts, a, b, inWrapper, h, hts, hfound => by
    obtain ⟨-, ht, hts⟩ := hts
    rcases (by simpa using h : t.BehindParams r ∨ ∃ u ∈ ts, u.BehindParams r) with h | ⟨u, hu, h⟩
    · rcases among_cons_cases hfound with ⟨-, hfound⟩ | ⟨-, hfound⟩
      · exact ofTree_behindParams h ht hfound
      · exact disjoint_of_tiled hne ht hts h.mem_nodes (mem_nodesOf_of_among hfound)
    · rcases among_cons_cases hfound with ⟨-, hfound⟩ | ⟨-, hfound⟩
      · exact disjoint_of_tiled hne ht hts (mem_nodes_of_ofTree hfound) (mem_nodesOf.mpr ⟨u, hu, h.mem_nodes⟩)
      · exact among_behindParams ⟨u, hu, h⟩ hts hfound

end

end

end Target

open IdlWorkbench.Tree

theorem legible_parse {text : String} (h : (parse text).ok = true) : (parse text).tree.Legible := by
  have hcovers := Grammar.parse_covers text
  have hspaced := parse_spaced h
  generalize (parse text).tree = tree at hcovers hspaced
  refine ⟨hcovers.tiled, ?_, ?_, hspaced⟩
  all_goals rw [hcovers.leaves]
  · exact Token.ne_empty_of_mem_tokenize
  · exact Token.isChain_tokenize text

/-- In a text without complaints the search finds the reference that the cursor is on, wherever it can be reached.
The one exception is the start of a result type right behind the parameters: there the parameters keep the cursor. -/
theorem find_reference {text : String} (h : (parse text).ok = true) {r : Tree} (hk : r.IsReference)
    (hr : r ∈ reachOf (parse text).tree.children) (offset : Nat) (hs : r.range.start ≤ offset)
    (ht : offset < r.range.stop) :
    Target.find (parse text).tree offset = .reference r ↔
      ¬(offset = r.range.start ∧ (parse text).tree.BehindParams r) := by
  have hl := legible_parse h
  obtain ⟨range, hroot⟩ := tree_parse text
  generalize (parse text).tree.children = cs at hroot hr
  rw [hroot] at hl ⊢
  refine ⟨fun hfound ⟨hoffset, hbehind⟩ => ?_, fun hb => ?_⟩
  · subst hoffset
    rcases behindParams_node.mp hbehind with ⟨params, hmem, results, -, hparams, -, -, hstop⟩ | hbehind
    · exact Target.among_params ht hparams hstop hl.tiled hmem hfound
    · exact Target.among_behindParams ht hbehind hl.tiled hfound
  · exact Target.among_of_mem_reachOf hk hs ht [] hr hl rfl fun hoffset hbehind => hb ⟨hoffset, hbehind⟩

/-- The result type of `func()To` is found from its second letter on. -/
theorem find_reference_sample : ∃ r : Tree, r.range = ⟨24, 26⟩ ∧
    (parse "package a\n\ntype F func()To\n").tree.BehindParams r ∧
    Target.find (parse "package a\n\ntype F func()To\n").tree 24 ≠ .reference r ∧
    Target.find (parse "package a\n\ntype F func()To\n").tree 25 = .reference r := by
  have hok : (parse "package a\n\ntype F func()To\n").ok = true := by decide +kernel
  have hreach : (some NodeKind.nameRef, (⟨24, 26⟩ : ByteRange)) ∈
      (reachOf (parse "package a\n\ntype F func()To\n").tree.children).map fun t => (t.kind?, t.range) := by
        decide +kernel
  have hwrapper : (Target.find (parse "package a\n\ntype F func()To\n").tree 24).ctorIdx =
    Target.wrapper.ctorIdx := by
    decide +kernel
  obtain ⟨r, hr, heq⟩ := List.mem_map.mp hreach
  obtain ⟨hkind, hrange⟩ := Prod.mk.inj heq
  have hk : r.IsReference := Or.inl (beq_iff_eq.mpr hkind)
  have hfirst := find_reference hok hk hr 24 (by simp [hrange]) (by simp [hrange])
  have hsecond := find_reference hok hk hr 25 (by simp [hrange]) (by simp [hrange])
  have hlost : Target.find (parse "package a\n\ntype F func()To\n").tree 24 ≠ .reference r := fun hfound =>
    absurd (hwrapper.symm.trans (congrArg Target.ctorIdx hfound)) (by simp [Target.ctorIdx])
  refine ⟨r, hrange, ?_, hlost, hsecond.mpr fun h => absurd h.1 (by simp [hrange])⟩
  by_contra hbehind
  exact hlost (hfirst.mpr fun h => hbehind h.2)

end IdlWorkbench
