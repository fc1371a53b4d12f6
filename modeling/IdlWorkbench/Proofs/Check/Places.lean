import IdlWorkbench.Proofs.Check.Order
import IdlWorkbench.Proofs.Check.Spots
import IdlWorkbench.Proofs.Doc.Place
import IdlWorkbench.Proofs.Grammar.Titled

/-!
# The places of a file

In a file of which nothing is missing, what is declared and the places in its tree correspond: each type and value of
a declaration stands at a place, and no two places start at the same byte, so that a place can be told by its range.
-/

namespace IdlWorkbench

open IdlWorkbench.Tree

namespace Tree

section
variable {cs : List Tree} {c t : Tree} {typed : Bool} {k : NodeKind} {r : ByteRange}

theorem mem_placesAll {p : Tree × Bool} : p ∈ placesAll typed cs ↔ ∃ c ∈ cs, p ∈ c.places typed := by
  rw [placesAll_flatMap]
  exact List.mem_flatMap

/-- How the places of a node are laid out. Where the node itself is one of them, a token of it comes first. -/
inductive Laid (k : NodeKind) (r : ByteRange) (cs : List Tree) : List (Tree × Bool) → Prop where
  | closed (h : k.isClosed = true) : Laid k r cs []
  | alone (typed : Bool) (h : k.isClosed = false) (hled : Complete k cs → Led cs) :
    Laid k r cs [(node k r cs, typed)]
  | behind (typed : Bool) (h : k.isClosed = false) (hled : Complete k cs → Led cs) :
    Laid k r cs (placesAll typed cs ++ [(node k r cs, typed)])
  | around (h : k.isClosed = false) : Laid k r cs (placesAround cs)
  | inside (h : k.isClosed = false) : Laid k r cs (placesAll true cs)

theorem laid_places (typed : Bool) (k : NodeKind) (r : ByteRange) (cs : List Tree) :
    Laid k r cs ((node k r cs).places typed) := by
  have hled : (∃ tok, cs = [.leaf tok] ∧ tok.isTrivia = false) → Led cs :=
    fun ⟨tok, hcs, htok⟩ => ⟨tok, [], hcs, htok⟩
  cases k with
  | nameRef | literal => exact .alone _ rfl hled
  | selector => exact .alone _ rfl And.left
  | sliceType | mapType | pointerType | chanType | funcType | structType | interfaceType | parenExpr | unaryExpr =>
    exact .behind _ rfl And.left
  | constSpec => exact .around rfl
  | doc | trailing | name | fieldTag | packageClause | importDecl | litBody => exact .closed rfl
  | _ => exact .inside rfl

mutual

/-- What every part of a tree inherits, all its places have. -/
theorem forall_places {P : Tree → Prop} (hP : ∀ k r cs, k.isClosed = false → P (node k r cs) → ∀ c ∈ cs, P c) :
    ∀ (typed : Bool) (t : Tree), P t → ∀ p ∈ t.places typed, P p.1
  | _, leaf _, _ => fun _ hp => nomatch hp
  | typed, node k r cs, h => by
    have hself (typed : Bool) : ∀ p ∈ [(node k r cs, typed)], P p.1 := List.forall_mem_singleton.mpr h
    have hlaid := laid_places typed k r cs
    generalize (node k r cs).places typed = ps at hlaid ⊢
    cases hlaid with
    | closed => exact fun _ hp => nomatch hp
    | alone typed => exact hself typed
    | behind typed hk =>
      exact List.forall_mem_append.mpr ⟨forall_placesAll hP typed cs (hP k r cs hk h), hself typed⟩
    | around hk => exact forall_placesAround hP cs (hP k r cs hk h)
    | inside hk => exact forall_placesAll hP true cs (hP k r cs hk h)

theorem forall_placesAll {P : Tree → Prop} (hP : ∀ k r cs, k.isClosed = false → P (node k r cs) → ∀ c ∈ cs, P c) :
    ∀ (typed : Bool) (cs : List Tree), (∀ c ∈ cs, P c) → ∀ p ∈ placesAll typed cs, P p.1
  | _, [], _ => fun _ hp => nomatch hp
  | typed, c :: cs, h => List.forall_mem_append.mpr ⟨forall_places hP typed c (h c List.mem_cons_self),
      forall_placesAll hP typed cs fun d hd => h d (List.mem_cons_of_mem _ hd)⟩

theorem forall_placesAround {P : Tree → Prop} (hP : ∀ k r cs, k.isClosed = false → P (node k r cs) → ∀ c ∈ cs, P c) :
    ∀ cs : List Tree, (∀ c ∈ cs, P c) → ∀ p ∈ placesAround cs, P p.1
  | [], _ => fun _ hp => nomatch hp
  | c :: cs, h => by
    have hrest : ∀ d ∈ cs, P d := fun d hd => h d (List.mem_cons_of_mem _ hd)
    rw [placesAround]
    split
    · exact forall_placesAll hP false cs hrest
    · exact List.forall_mem_append.mpr
        ⟨forall_places hP true c (h c List.mem_cons_self), forall_placesAround hP cs hrest⟩

end

/-! ## Where places start -/

def startsAt (ps : List (Tree × Bool)) : List Nat := ps.map fun p => p.1.range.start

theorem startsAt_append (ps qs : List (Tree × Bool)) : startsAt (ps ++ qs) = startsAt ps ++ startsAt qs :=
  List.map_append

theorem spread_self {a b : Nat} (h : a < b) : Spread a b [a] :=
  ⟨List.nodup_singleton a, fun n hn => by rw [List.mem_singleton.mp hn]; exact ⟨Nat.le_refl a, h⟩⟩

mutual

/-- The places in a tree start at different bytes of it. -/
theorem spread_places : ∀ (typed : Bool) (t : Tree), t.Tiled → t.Solid → t.Whole →
    Spread t.range.start t.range.stop (startsAt (t.places typed))
  | _, leaf _, _, _, _ => .nil _ _
  | typed, node k r cs, ht, hs, hw => by
    rw [Tiled] at ht
    have hcs : ∀ c ∈ cs, c.Solid := fun c hc => hs.child hc
    have hlaid := laid_places typed k r cs
    generalize (node k r cs).places typed = ps at hlaid ⊢
    cases hlaid with
    | closed => exact .nil _ _
    | alone typed hk hled =>
      obtain ⟨tok, ts, rfl, -⟩ := hled (hw.resolve_left (by simp [hk])).1
      exact spread_self (start_lt_stop (t := node k r _) (by rw [Tiled]; exact ht) hs (by simp [leaves, leavesOf]))
    | behind typed hk hled =>
      obtain ⟨hcomplete, hall⟩ := hw.resolve_left (by simp [hk])
      obtain ⟨tok, ts, rfl, -⟩ := hled hcomplete
      rw [TiledFrom] at ht
      obtain ⟨hstart, -, hts⟩ := ht
      have hkeyword : (leaf tok).range.start < (leaf tok).range.stop :=
        start_lt_stop trivial (hcs _ List.mem_cons_self) (by simp [leaves])
      have hrest := spread_placesAll typed ts hts (fun d hd => hcs d (List.mem_cons_of_mem _ hd)) hall.2
      have hself : Spread r.start (leaf tok).range.stop [r.start] := spread_self (hstart ▸ hkeyword)
      rw [startsAt_append]
      exact (hself.append hrest (Nat.le_refl _) (hstart ▸ hkeyword.le) (stop_le_of_tiledFrom hts)).perm
        List.perm_append_comm
    | around hk => exact spread_placesAround cs ht hcs (hw.resolve_left (by simp [hk])).2
    | inside hk => exact spread_placesAll true cs ht hcs (hw.resolve_left (by simp [hk])).2

theorem spread_placesAll : ∀ (typed : Bool) (cs : List Tree) {start stop : Nat},
    TiledFrom start cs stop → (∀ c ∈ cs, c.Solid) → WholeAll cs → Spread start stop (startsAt (placesAll typed cs))
  | _, [], _, _, _, _, _ => .nil _ _
  | typed, c :: cs, start, stop, ht, hs, hw => by
    rw [TiledFrom] at ht
    obtain ⟨rfl, htc, hts⟩ := ht
    have hc := spread_places typed c htc (hs c List.mem_cons_self) hw.1
    have hrest := spread_placesAll typed cs hts (fun d hd => hs d (List.mem_cons_of_mem _ hd)) hw.2
    rw [placesAll, startsAt_append]
    exact hc.append hrest (Nat.le_refl _) (start_le_stop htc) (stop_le_of_tiledFrom hts)

theorem spread_placesAround : ∀ (cs : List Tree) {start stop : Nat},
    TiledFrom start cs stop → (∀ c ∈ cs, c.Solid) → WholeAll cs → Spread start stop (startsAt (placesAround cs))
  | [], _, _, _, _, _ => .nil _ _
  | c :: cs, start, stop, ht, hs, hw => by
    rw [TiledFrom] at ht
    obtain ⟨rfl, htc, hts⟩ := ht
    have hrest : ∀ d ∈ cs, d.Solid := fun d hd => hs d (List.mem_cons_of_mem _ hd)
    rw [placesAround]
    split
    · exact (spread_placesAll false cs hts hrest hw.2).mono (start_le_stop htc)
    · rw [startsAt_append]
      exact (spread_places true c htc (hs c List.mem_cons_self) hw.1).append (spread_placesAround cs hts hrest hw.2)
        (Nat.le_refl _) (start_le_stop htc) (stop_le_of_tiledFrom hts)

end

/-- Two places of a tree that start at the same byte are one. -/
theorem eq_of_start_eq {typed : Bool} {p q : Tree × Bool} (ht : t.Tiled) (hs : t.Solid) (hw : t.Whole)
    (hp : p ∈ t.places typed) (hq : q ∈ t.places typed) (h : p.1.range.start = q.1.range.start) : p = q :=
  List.inj_on_of_nodup_map (spread_places typed t ht hs hw).nodup hp hq h

/-! ## What stands at a place -/

theorem range_of_alone {tok : Token} (h : (node k r [.leaf tok]).Tiled) : tok.range = r := by
  simp only [Tiled, TiledFrom] at h
  obtain ⟨hstart, -, hstop⟩ := h
  exact congrArg₂ ByteRange.mk hstart hstop

theorem range_of_type {e : TypeExpr} (hw : t.Whole) (ht : t.Tiled)
    (h : TypeExpr.ofTree? t = some e) : e.range = t.range := by
  cases t with
  | leaf tok => cases h
  | node k r cs =>
    cases k with
    | nameRef =>
      obtain ⟨tok, rfl, -⟩ := (hw.resolve_left (by decide)).1
      obtain ⟨tok', htok, rfl⟩ := Option.map_eq_some_iff.mp h
      obtain rfl : tok' = tok := List.mem_singleton.mp (List.mem_of_find?_eq_some htok)
      exact range_of_alone ht
    | _ => cases h <;> rfl

theorem range_of_value {e : Expr} (hw : t.Whole) (ht : t.Tiled)
    (h : Expr.ofTree? t = some e) : e.range = t.range := by
  cases t with
  | leaf tok => cases h
  | node k r cs =>
    cases k with
    | nameRef | literal =>
      obtain ⟨tok, rfl, -⟩ := (hw.resolve_left (by decide)).1
      obtain ⟨tok', htok, rfl⟩ := Option.map_eq_some_iff.mp h
      obtain rfl : tok' = tok := List.mem_singleton.mp (List.mem_of_find?_eq_some htok)
      exact range_of_alone ht
    | unaryExpr | compositeLit =>
      obtain ⟨_, -, rfl⟩ := Option.map_eq_some_iff.mp h
      rfl
    | sliceType | mapType =>
      rw [Expr.ofTree?] at h
      obtain ⟨_, htype, rfl⟩ := Option.map_eq_some_iff.mp h
      exact range_of_type hw ht htype
    | _ => cases h <;> rfl

theorem range_of_spot {p : Tree × Bool} {x : Spot} (hw : p.1.Whole) (ht : p.1.Tiled) (h : spot? p = some x) :
    x.range = p.1.range := by
  obtain ⟨t, typed⟩ := p
  cases typed with
  | true =>
    obtain ⟨e, he, rfl⟩ := Option.map_eq_some_iff.mp h
    exact range_of_type hw ht he
  | false =>
    obtain ⟨e, he, rfl⟩ := Option.map_eq_some_iff.mp h
    exact range_of_value hw ht he

theorem place_inherits {p : Tree × Bool} (hw : t.Whole) (ht : t.Tiled) (hp : p ∈ t.places typed) :
    p.1.Whole ∧ p.1.Tiled := by
  have hsub (k : NodeKind) (r : ByteRange) (cs : List Tree) (hk : k.isClosed = false)
      (hnode : (node k r cs).Whole ∧ (node k r cs).Tiled) (c : Tree) (hc : c ∈ cs) : c.Whole ∧ c.Tiled := by
    obtain ⟨hwhole, htiled⟩ := hnode
    rw [Tiled] at htiled
    exact ⟨wholeAll_iff.mp (hwhole.resolve_left (by simp [hk])).2 c hc, TiledFrom.tiled htiled hc⟩
  exact forall_places (P := fun t => t.Whole ∧ t.Tiled) hsub typed t ⟨hw, ht⟩ p hp

theorem range_of_place {p : Tree × Bool} {x : Spot} (hw : t.Whole) (ht : t.Tiled) (hp : p ∈ t.places typed)
    (hx : spot? p = some x) : x.range = p.1.range :=
  have hself := place_inherits hw ht hp
  range_of_spot hself.1 hself.2 hx

/-! ## Specs -/

def declaredName? (spec : Tree) : Option Token := (namesAmong spec.children).head?

def isNamed (spec : Tree) : Bool := spec.declaredName?.any (·.text ≠ "_")

def hasValue (spec : Tree) : Bool := (ConstSpec.ofTree? spec).any (!·.value.isMissing)

/-- Whether one of these specs repeats the type and the value of the constant before them, under a name that is not
the blank one. Specs after the next value repeat that one. -/
def repeated : List Tree → Bool
  | [] => false
  | c :: later =>
    match ConstSpec.ofTree? c with
    | none => repeated later
    | some spec => spec.value.isMissing && (spec.type.isMissing && spec.name.text ≠ "_" || repeated later)

/-- Those of the specs that a name is declared with, which is their own or that of a constant that repeats them. -/
def namedAmong : List Tree → List Tree
  | [] => []
  | c :: later => if c.isNamed || c.hasValue && repeated later then c :: namedAmong later else namedAmong later

def namedSpecs (root : Tree) : List Tree :=
  (root.children.filter fun d => d.isNode .typeDecl || d.isNode .constDecl).flatMap fun d =>
    namedAmong (d.children.filter fun c => c.isNode .typeSpec || c.isNode .constSpec)

theorem mem_of_mem_namedAmong : ∀ {cs : List Tree}, c ∈ namedAmong cs → c ∈ cs ∧
    (c.isNamed = true ∨ c.hasValue = true)
  | [], h => nomatch h
  | first :: later, h => by
    rw [namedAmong] at h
    split at h
    · rename_i hfirst
      rcases List.mem_cons.mp h with rfl | h
      · rw [Bool.or_eq_true, Bool.and_eq_true] at hfirst
        exact ⟨List.mem_cons_self, hfirst.imp_right And.left⟩
      · exact (mem_of_mem_namedAmong h).imp_left (List.mem_cons_of_mem _)
    · exact (mem_of_mem_namedAmong h).imp_left (List.mem_cons_of_mem _)

/-- The name of a spec is the one that it is read with. -/
theorem declaredName?_of_constSpec {spec : ConstSpec} (h : ConstSpec.ofTree? c = some spec) :
    c.declaredName? = some spec.name := by
  unfold ConstSpec.ofTree? at h
  split at h
  · obtain ⟨name, hname, rfl⟩ := Option.map_eq_some_iff.mp h
    exact hname
  · cases h

theorem declaredName?_of_typeSpec {spec : TypeSpec} (h : TypeSpec.ofTree? c = some spec) :
    c.declaredName? = some spec.name := by
  unfold TypeSpec.ofTree? at h
  split at h
  · obtain ⟨name, hname, rfl⟩ := Option.map_eq_some_iff.mp h
    exact hname
  · cases h

theorem tells_typeSpec {spec : TypeSpec} (h : c.Whole) (hs : TypeSpec.ofTree? c = some spec) :
    Tells (c.places true) spec.type.spots := by
  unfold TypeSpec.ofTree? at hs
  split at hs
  · obtain ⟨id, -, rfl⟩ := Option.map_eq_some_iff.mp hs
    obtain ⟨⟨-, hsole⟩, hall⟩ := h.resolve_left (by decide)
    obtain ⟨e, he, htells⟩ := tells_sole (fun d hd => told d (wholeAll_iff.mp hall d (mem_of_mem_parts hd))) hsole
    rw [typeAmong, he, List.headD_cons]
    exact htells
  · cases hs

theorem tells_constSpec {spec : ConstSpec} (h : c.Whole) (hs : ConstSpec.ofTree? c = some spec) :
    Tells (c.places true) (spec.type.spots ++ spec.value.spots) := by
  unfold ConstSpec.ofTree? at hs
  split at hs
  · rename_i r cs
    obtain ⟨id, -, rfl⟩ := Option.map_eq_some_iff.mp hs
    obtain ⟨⟨-, htype, hvalue⟩, hall⟩ := h.resolve_left (by decide)
    have hwhole {d : Tree} (hd : d ∈ cs) : d.Whole := wholeAll_iff.mp hall d hd
    rw [show (node .constSpec r cs).places true = placesAround cs from rfl, placesAround_eq]
    refine Tells.append ?_ ?_
    · rcases htype with hnone | hsole
      · rw [placesAll_nil hnone, typeAmong, typesAmong_parts, hnone]
        exact tells_nil
      · obtain ⟨e, he, htells⟩ := tells_sole (fun d hd =>
          told d (hwhole ((List.takeWhile_sublist _).subset (mem_of_mem_parts hd)))) hsole
        rw [typeAmong, he, List.headD_cons]
        exact htells
    · rcases hvalue with hnone | hsole
      · rw [placesAll_nil hnone, exprAmong, exprsAmong_parts, hnone]
        exact tells_nil
      · obtain ⟨e, he, htells⟩ := valued_sole (fun d hd =>
          valued d (hwhole ((List.dropWhile_sublist _).subset (mem_of_mem_parts hd)))) hsole
        rw [exprAmong, he, List.headD_cons]
        exact htells
  · cases hs

end

end Tree

namespace Check

def Declared.spots : Declared → List Spot
  | .type _ spec => spec.type.spots
  | .const _ _ t v _ => t.spots ++ v.spots

theorem constSpec_of_typeSpec {c : Tree} {spec : TypeSpec} (h : TypeSpec.ofTree? c = some spec) :
    ConstSpec.ofTree? c = none := by
  unfold TypeSpec.ofTree? at h
  split at h
  · rfl
  · cases h

/-- The type and value that a constant of a group has, given the last ones written. -/
def ownOr (previous : TypeExpr × Expr) (spec : ConstSpec) : TypeExpr × Expr :=
  if spec.value.isMissing && spec.type.isMissing then previous else (spec.type, spec.value)

theorem constsOf_cons (file iota : Nat) (previous : TypeExpr × Expr) (spec : ConstSpec) (specs : List ConstSpec) :
    constsOf file iota previous (spec :: specs) =
      (spec.name, .const file spec.name (ownOr previous spec).1 (ownOr previous spec).2 iota) ::
        constsOf file (iota + 1) (if spec.value.isMissing then previous else (spec.type, spec.value)) specs := rfl

/-- A constant has the type and value of a spec of its group, or none. -/
theorem spots_of_mem_constsOf {file : Nat} {e : Token × Declared} : ∀ {specs : List ConstSpec} {iota : Nat}
    {previous : TypeExpr × Expr}, e ∈ constsOf file iota previous specs →
    e.2.spots = previous.1.spots ++ previous.2.spots ∨ ∃ spec ∈ specs, e.2.spots = spec.type.spots ++
      spec.value.spots
  | [], _, _, h => nomatch h
  | spec :: specs, iota, previous, h => by
    rw [constsOf_cons] at h
    rcases List.mem_cons.mp h with rfl | h
    · dsimp only [Declared.spots, ownOr]
      split
      · exact Or.inl rfl
      · exact Or.inr ⟨spec, List.mem_cons_self, rfl⟩
    · rcases spots_of_mem_constsOf h with h | ⟨other, hother, h⟩
      · split at h
        · exact Or.inl h
        · exact Or.inr ⟨spec, List.mem_cons_self, h⟩
      · exact Or.inr ⟨other, List.mem_cons_of_mem _ hother, h⟩

theorem spots_nil_of_missing {spec : ConstSpec} (h : (spec.value.isMissing && spec.type.isMissing) = true) :
    spec.type.spots ++ spec.value.spots = [] := by
  obtain ⟨hvalue, htype⟩ := Bool.and_eq_true_iff.mp h
  have hv : spec.value = .missing := by
    cases hv : spec.value <;> rw [hv] at hvalue <;> first
      | rfl
      | cases hvalue
  have ht : spec.type = .missing := by
    cases ht : spec.type <;> rw [ht] at htype <;> first
      | rfl
      | cases htype
  rw [hv, ht]
  rfl

/-- A constant that is repeated under a name has its type and value declared with that name. -/
theorem exists_of_repeated {file : Nat} : ∀ {cs : List Tree} {iota : Nat} {previous : TypeExpr × Expr},
    repeated cs = true → ∃ token d, token.text ≠ "_" ∧
      (token, d) ∈ constsOf file iota previous (cs.filterMap ConstSpec.ofTree?) ∧
      d.spots = previous.1.spots ++ previous.2.spots
  | [], _, _, h => nomatch h
  | c :: cs, iota, previous, h => by
    rw [repeated] at h
    cases hread : ConstSpec.ofTree? c with
    | none =>
      rw [hread] at h
      rw [List.filterMap_cons_none hread]
      exact exists_of_repeated h
    | some spec =>
      rw [hread] at h
      rw [List.filterMap_cons_some hread, constsOf_cons]
      obtain ⟨hvalue, h⟩ := Bool.and_eq_true_iff.mp h
      rcases Bool.or_eq_true_iff.mp h with h | h
      · obtain ⟨htype, hname⟩ := Bool.and_eq_true_iff.mp h
        have hown : ownOr previous spec = previous := if_pos (by rw [hvalue, htype]; rfl)
        exact ⟨spec.name, _, of_decide_eq_true hname, List.mem_cons_self, by rw [hown]; rfl⟩
      · rw [if_pos hvalue]
        obtain ⟨token, d, hname, hd, hspots⟩ := exists_of_repeated h
        exact ⟨token, d, hname, List.mem_cons_of_mem _ hd, hspots⟩

/-- What is written in a spec, the declaration of a name is made of. -/
theorem exists_of_mem_namedAmong {file : Nat} {c : Tree} {spec : ConstSpec}
    (hread : ConstSpec.ofTree? c = some spec) :
    ∀ {cs : List Tree} {iota : Nat} {previous : TypeExpr × Expr}, c ∈ namedAmong cs →
      ∃ token d, token.text ≠ "_" ∧ (token, d) ∈ constsOf file iota previous (cs.filterMap ConstSpec.ofTree?) ∧
        ∀ x ∈ spec.type.spots ++ spec.value.spots, x ∈ d.spots
  | [], _, _, h => nomatch h
  | first :: later, iota, previous, h => by
    have hrest (h : c ∈ namedAmong later) : ∃ token d, token.text ≠ "_" ∧
        (token, d) ∈ constsOf file iota previous ((first :: later).filterMap ConstSpec.ofTree?) ∧
        ∀ x ∈ spec.type.spots ++ spec.value.spots, x ∈ d.spots := by
      cases hfirst : ConstSpec.ofTree? first with
      | none =>
        rw [List.filterMap_cons_none hfirst]
        exact exists_of_mem_namedAmong hread h
      | some other =>
        rw [List.filterMap_cons_some hfirst, constsOf_cons]
        obtain ⟨token, d, hname, hd, hspots⟩ := exists_of_mem_namedAmong hread h
        exact ⟨token, d, hname, List.mem_cons_of_mem _ hd, hspots⟩
    rw [namedAmong] at h
    split at h
    · rename_i hfirst
      rcases List.mem_cons.mp h with rfl | h
      · rw [List.filterMap_cons_some hread, constsOf_cons]
        rcases Bool.or_eq_true_iff.mp hfirst with hnamed | hrepeated
        · rw [isNamed, declaredName?_of_constSpec hread] at hnamed
          refine ⟨spec.name, _, of_decide_eq_true hnamed, List.mem_cons_self, fun x hx => ?_⟩
          dsimp only [Declared.spots, ownOr]
          split
          · rename_i hmissing
            rw [spots_nil_of_missing hmissing] at hx
            cases hx
          · exact hx
        · obtain ⟨hvalue, hrepeated⟩ := Bool.and_eq_true_iff.mp hrepeated
          rw [hasValue, hread] at hvalue
          have hvalue : ¬ spec.value.isMissing = true := by simpa using hvalue
          rw [if_neg hvalue]
          obtain ⟨token, d, hname, hd, hspots⟩ := exists_of_repeated hrepeated
          exact ⟨token, d, hname, List.mem_cons_of_mem _ hd, fun x hx => hspots ▸ hx⟩
      · exact hrest h
    · exact hrest h

/-! ## The declarations of a file -/

structure Clear (s : Source) : Prop where
  root : s.tree.isNode .sourceFile = true
  whole : s.tree.Whole
  tiled : s.tree.Tiled
  solid : s.tree.Solid

theorem clear_of_covers {s : Source} (hc : Grammar.Covers .sourceFile s.text s.tree) (hf : s.tree.Formed)
    (hw : s.tree.Whole) :
    Clear s where
  root := by rw [isNode, hc.kind]; rfl
  whole := hw
  tiled := hc.tiled
  solid := ⟨hf, fun tok htok => Token.ne_empty_of_mem_tokenize tok (hc.leaves ▸ htok)⟩

theorem clear_ofText {text : String} (h : (parse text).ok = true) : Clear (.ofText text) :=
  clear_of_covers (Grammar.parse_covers text) (Grammar.parse_formed text) (parse_whole h)

theorem exists_of_mem_constDecls {t : Tree} {d : Decl ConstSpec} (h : d ∈ (SourceFile.ofTree t).constDecls) :
    ∃ r cs, .node .constDecl r cs ∈ t.children ∧ d = .ofChildren ConstSpec.ofTree? r cs := by
  obtain ⟨top, htop, hdecl⟩ := List.mem_filterMap.mp h
  obtain ⟨c, hc, htop⟩ := exists_of_mem_entries htop
  unfold TopLevel.ofTree? at htop
  split at htop <;> cases htop <;> cases hdecl
  exact ⟨_, _, hc, rfl⟩

section
variable {s : Source} {i : Nat} {k : NodeKind} {r : ByteRange} {cs : List Tree} {c : Tree} {p : Tree × Bool}

theorem whole_decl (h : Clear s) (hd : node k r cs ∈ s.tree.children) :
    (node k r cs).Whole := by
  obtain ⟨hroot, hw, -, -⟩ := h
  generalize s.tree = t at hroot hw hd
  cases t with
  | leaf tok => cases hroot
  | node kind range children =>
    obtain rfl : kind = .sourceFile := by simpa [isNode, kind?] using hroot
    exact wholeAll_iff.mp (hw.resolve_left (by decide)).2 _ hd

/-- The declarations of a file are looked into. -/
theorem places_of_decl (h : Clear s) (hd : node k r cs ∈ s.tree.children)
    (hk : k = .typeDecl ∨ k = .constDecl) (hc : c ∈ cs) : c.Whole ∧ ∀ p ∈ c.places true, p ∈ s.tree.places true := by
  have hopen : k.isClosed = false := by rcases hk with rfl | rfl <;> rfl
  refine ⟨wholeAll_iff.mp ((whole_decl h hd).resolve_left (by simp [hopen])).2 c hc, fun p hp => ?_⟩
  have hin : p ∈ (node k r cs).places true := by
    have hin : p ∈ placesAll true cs := mem_placesAll.mpr ⟨c, hc, hp⟩
    rcases hk with rfl | rfl <;> exact hin
  have hroot := h.root
  generalize s.tree = t at hroot hd ⊢
  cases t with
  | leaf tok => cases hroot
  | node kind range children =>
    obtain rfl : kind = .sourceFile := by simpa [isNode, kind?] using hroot
    exact mem_placesAll.mpr ⟨_, hd, hin⟩

/-- Whatever a declaration of a whole file is made of has a place. -/
theorem exists_place (h : Clear s) {e : Token × Declared}
    (he : e ∈ declsOf i s) {x : Spot} (hx : x ∈ e.2.spots) : ∃ p ∈ s.tree.places true, spot? p = some x := by
  rcases List.mem_append.mp he with he | he
  · obtain ⟨spec, hspec, rfl⟩ := List.mem_map.mp he
    obtain ⟨r, cs, c, hd, hc, hread⟩ := exists_of_mem_typeSpecs hspec
    obtain ⟨hwhole, hplaces⟩ := places_of_decl h hd (Or.inl rfl) hc
    obtain ⟨p, hp, hspot⟩ := (tells_typeSpec hwhole hread).exists_place hx
    exact ⟨p, hplaces p hp, hspot⟩
  · obtain ⟨d, hdecl, he⟩ := List.mem_flatMap.mp he
    obtain ⟨r, cs, hd, rfl⟩ := exists_of_mem_constDecls hdecl
    rcases spots_of_mem_constsOf he with hnone | ⟨spec, hspec, hspots⟩
    · rw [hnone] at hx
      cases hx
    · obtain ⟨c, hc, hread⟩ := exists_of_mem_specs hspec
      obtain ⟨hwhole, hplaces⟩ := places_of_decl h hd (Or.inr rfl) hc
      obtain ⟨p, hp, hspot⟩ := (tells_constSpec hwhole hread).exists_place (hspots ▸ hx)
      exact ⟨p, hplaces p hp, hspot⟩

/-- Specs stand behind the parenthesis of their group. -/
theorem Groups.inside (h : Groups k cs) (hk : k.isClosed = false) (hc : c ∈ cs) (hck : c.isNode k = true) :
    c ∈ if cs.any Tree.opens then cs.dropWhile (!Tree.opens ·) else cs := by
  split
  · rename_i hany
    rw [← List.takeWhile_append_dropWhile (p := (!Tree.opens ·)) (l := cs)] at hc
    refine (List.mem_append.mp hc).resolve_left fun hbefore => ?_
    have hpart : c ∈ parts (cs.takeWhile (!Tree.opens ·)) := by
      refine List.mem_filter.mpr ⟨hbefore, ?_⟩
      cases c with
      | leaf tok => cases hck
      | node k' r ds =>
        obtain rfl : k' = k := by simpa [isNode, kind?] using hck
        simp [kind?, hk]
    rw [h.2 hany] at hpart
    cases hpart
  · exact hc

theorem mem_typeSpecs (hd : node .typeDecl r cs ∈ s.tree.children) (hg : Groups .typeSpec cs) (hc : c ∈ cs)
    (hck : c.isNode .typeSpec = true) {spec : TypeSpec} (hread : TypeSpec.ofTree? c = some spec) :
    spec ∈ s.file.typeSpecs := by
  have hdecl : Decl.ofChildren TypeSpec.ofTree? r cs ∈ s.file.typeDecls :=
    List.mem_filterMap.mpr ⟨_, IdlWorkbench.mem_entries hd rfl, rfl⟩
  cases c with
  | leaf tok => cases hck
  | node k r' ds =>
    exact List.mem_flatMap.mpr ⟨_, hdecl, IdlWorkbench.mem_entries (Groups.inside hg rfl hc hck) hread⟩

theorem filterMap_constSpecs (ts : List Tree) :
    (ts.filter fun c => c.isNode .typeSpec || c.isNode .constSpec).filterMap ConstSpec.ofTree? =
      ts.filterMap ConstSpec.ofTree? := by
  rw [List.filterMap_filter]
  refine List.filterMap_congr fun c _ => ?_
  split
  · rfl
  · rename_i hkind
    cases c with
    | leaf tok => rfl
    | node k r ds => cases k <;> first
      | rfl
      | exact absurd rfl hkind

/-- The specs of a constant declaration are read off its children in order. -/
theorem specs_constDecl (hg : Groups .constSpec cs) :
    (Decl.ofChildren ConstSpec.ofTree? r cs).specs =
      (cs.filter fun c => c.isNode .typeSpec || c.isNode .constSpec).filterMap ConstSpec.ofTree? := by
  rw [filterMap_constSpecs]
  have hspecs : (Decl.ofChildren ConstSpec.ofTree? r cs).specs =
      (if cs.any Tree.opens then cs.dropWhile (!Tree.opens ·) else cs).filterMap ConstSpec.ofTree? :=
    entries_items fun _ => rfl
  rw [hspecs]
  split
  · rename_i hany
    have hbefore : (cs.takeWhile (!Tree.opens ·)).filterMap ConstSpec.ofTree? = [] := by
      refine List.filterMap_eq_nil_iff.mpr fun c hc => ?_
      cases c with
      | leaf tok => rfl
      | node k r' ds => cases k <;> first
        | rfl
        | exact absurd (hg.2 hany) (List.ne_nil_of_mem (List.mem_filter.mpr ⟨hc, rfl⟩))
    conv_rhs => rw [← List.takeWhile_append_dropWhile (p := (!Tree.opens ·)) (l := cs), List.filterMap_append,
      hbefore]
    rfl
  · rfl

theorem exists_typeSpec (hw : c.Whole) (hck : c.isNode .typeSpec = true) :
    ∃ spec, TypeSpec.ofTree? c = some spec := by
  cases c with
  | leaf tok => cases hck
  | node k r cs =>
    obtain rfl : k = .typeSpec := by simpa [isNode, kind?] using hck
    obtain ⟨token, names, hnames⟩ := List.exists_cons_of_ne_nil (hw.resolve_left (by decide)).1.1
    exact ⟨_, by rw [TypeSpec.ofTree?, hnames, List.head?_cons, Option.map_some]⟩

theorem exists_constSpec (hw : c.Whole) (hck : c.isNode .constSpec = true) :
    ∃ spec, ConstSpec.ofTree? c = some spec := by
  cases c with
  | leaf tok => cases hck
  | node k r cs =>
    obtain rfl : k = .constSpec := by simpa [isNode, kind?] using hck
    obtain ⟨token, names, hnames⟩ := List.exists_cons_of_ne_nil (hw.resolve_left (by decide)).1.1
    exact ⟨_, by rw [ConstSpec.ofTree?, hnames, List.head?_cons, Option.map_some]⟩

/-- What stands at the places of a spec that a name is declared with, the declaration of that name is made of. -/
theorem exists_declared (h : Clear s) (hc : c ∈ s.tree.namedSpecs) :
    ∃ token d, token.text ≠ "_" ∧ (token, d) ∈ declsOf i s ∧
      ∀ p ∈ c.places true, p ∈ s.tree.places true ∧ ∃ x ∈ d.spots, spot? p = some x := by
  obtain ⟨decl, hdecl, hamong⟩ := List.mem_flatMap.mp hc
  obtain ⟨hdecl, hkind⟩ := List.mem_filter.mp hdecl
  obtain ⟨hc, hnamed⟩ := mem_of_mem_namedAmong hamong
  obtain ⟨hc, hck⟩ := List.mem_filter.mp hc
  cases decl with
  | leaf tok => cases hkind
  | node k r cs =>
    have hk : k = .typeDecl ∨ k = .constDecl := by simpa [isNode, kind?] using hkind
    obtain ⟨hwhole, hplaces⟩ := places_of_decl h hdecl hk hc
    have hdwhole := whole_decl h hdecl
    have hpart : c ∈ parts cs := by
      refine List.mem_filter.mpr ⟨hc, ?_⟩
      cases c with
      | leaf tok => cases hck
      | node k' r' ds =>
        have hk' : k' = .typeSpec ∨ k' = .constSpec := by simpa [isNode, kind?] using hck
        rcases hk' with rfl | rfl <;> rfl
    rcases hk with rfl | rfl
    · have hgroups : Groups .typeSpec cs := (hdwhole.resolve_left (by decide)).1
      obtain ⟨spec, hread⟩ := exists_typeSpec hwhole (hgroups.1 c hpart)
      have hname : spec.name.text ≠ "_" := by
        have hvalue : c.hasValue = false := by rw [hasValue, constSpec_of_typeSpec hread]; rfl
        simpa [isNamed, declaredName?_of_typeSpec hread, hvalue] using hnamed
      refine ⟨spec.name, .type i spec, hname, List.mem_append_left _ (List.mem_map.mpr ⟨spec, ?_, rfl⟩), ?_⟩
      · exact mem_typeSpecs hdecl hgroups hc (hgroups.1 c hpart) hread
      · exact fun p hp => ⟨hplaces p hp, (tells_typeSpec hwhole hread).exists_spot hp⟩
    · have hgroups : Groups .constSpec cs := (hdwhole.resolve_left (by decide)).1
      obtain ⟨spec, hread⟩ := exists_constSpec hwhole (hgroups.1 c hpart)
      have hdecl : Decl.ofChildren ConstSpec.ofTree? r cs ∈ s.file.constDecls :=
        List.mem_filterMap.mpr ⟨_, IdlWorkbench.mem_entries hdecl rfl, rfl⟩
      have hfound := @exists_of_mem_namedAmong i c spec hread _ 0 (.missing, .missing) hamong
      obtain ⟨token, d, hname, hd, hspots⟩ := hfound
      rw [Tree.children, ← specs_constDecl hgroups] at hd
      refine ⟨token, d, hname, List.mem_append_right _ (List.mem_flatMap.mpr ⟨_, hdecl, hd⟩), fun p hp => ?_⟩
      obtain ⟨x, hx, hspot⟩ := (tells_constSpec hwhole hread).exists_spot hp
      exact ⟨hplaces p hp, x, hspots x hx, hspot⟩

/-- The types and values in the declarations of a file can be told by their ranges. -/
theorem eq_of_range_eq (h : Clear s)
    {e e' : Token × Declared} (he : e ∈ declsOf i s) (he' : e' ∈ declsOf i s) {x y : Spot} (hx : x ∈ e.2.spots)
    (hy : y ∈ e'.2.spots) (hr : x.range = y.range) : x = y := by
  obtain ⟨p, hp, hpx⟩ := exists_place h he hx
  obtain ⟨q, hq, hqy⟩ := exists_place h he' hy
  have hstart : p.1.range.start = q.1.range.start := by
    rw [← range_of_place h.whole h.tiled hp hpx, ← range_of_place h.whole h.tiled hq hqy, hr]
  obtain rfl := eq_of_start_eq h.tiled h.solid h.whole hp hq hstart
  exact Option.some.inj (hpx.symm.trans hqy)

end

end Check

end IdlWorkbench
