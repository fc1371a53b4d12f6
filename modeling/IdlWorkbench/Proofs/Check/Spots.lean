import IdlWorkbench.Proofs.Check.Denote
import IdlWorkbench.Proofs.Format.Sequence
import IdlWorkbench.Proofs.Grammar.Whole

/-!
# Where types and values stand

Some nodes of a tree stand where a type is asked for, others where a value is. `places` lists them in the order in
which a check records them, and `spots` lists the types and values that a declaration is made of in the same order.
Where nothing is missing the one list reads as the other, and no two places of a file start at the same byte, so a
table that goes by ranges has room for all of them.
-/

namespace IdlWorkbench

open IdlWorkbench.Tree

/-- A type, or a value, that a check may record. -/
inductive Spot where
  | type (e : TypeExpr)
  | value (e : Expr)

def Spot.range : Spot → ByteRange
  | .type e => e.range
  | .value e => e.range

def TypeExpr.spots (e : TypeExpr) : List Spot := e.subs.map .type

/-- The values that an expression is made of, and the types in it. What stands between the braces of a literal is
left out. -/
def Expr.spots : Expr → List Spot
  | .missing => []
  | .literal token => [.value (.literal token)]
  | .name id => [.value (.name id)]
  | .selector range qualifier id => [.value (.selector range qualifier id)]
  | .paren range e => e.spots ++ [.value (.paren range e)]
  | .unary range op operand => operand.spots ++ [.value (.unary range op operand)]
  | .composite _ t _ _ => t.spots
  | .type t _ => t.spots

namespace Tree

mutual

/-- The types and values in a tree, those inside others before them, and whether each of them stands where a type is
asked for. The sign `=` of a constant stands between its type and its value, signs and parentheses hold values, and
types are asked for everywhere else. In comments, names, tags, the package clause and imports there are no types, and
what stands between the braces of a literal is left out. -/
def places (typed : Bool) : Tree → List (Tree × Bool)
  | leaf _ => []
  | t@(node kind _ children) =>
    match kind with
    | .doc | .trailing | .name | .fieldTag | .packageClause | .importDecl | .litBody => []
    | .nameRef | .selector => [(t, typed)]
    | .sliceType | .mapType | .pointerType | .chanType | .funcType | .structType | .interfaceType =>
      placesAll true children ++ [(t, true)]
    | .literal => [(t, false)]
    | .parenExpr | .unaryExpr => placesAll false children ++ [(t, false)]
    | .constSpec => placesAround children
    | _ => placesAll true children

def placesAll (typed : Bool) : List Tree → List (Tree × Bool)
  | [] => []
  | t :: ts => t.places typed ++ placesAll typed ts

def placesAround : List Tree → List (Tree × Bool)
  | [] => []
  | t :: ts => if isEqSign t then placesAll false ts else t.places true ++ placesAround ts

end

def spot? : Tree × Bool → Option Spot
  | (t, true) => (TypeExpr.ofTree? t).map .type
  | (t, false) => (Expr.ofTree? t).map .value

/-- These places read as these types and values. -/
def Tells (ps : List (Tree × Bool)) (spots : List Spot) : Prop := ps.map spot? = spots.map some

section
variable {ps qs : List (Tree × Bool)} {xs ys : List Spot} {cs ds : List Tree} {c t : Tree} {typed : Bool}
    {k : NodeKind}
  {r : ByteRange}

theorem tells_nil : Tells [] [] := rfl

theorem Tells.append (h : Tells ps xs) (h' : Tells qs ys) : Tells (ps ++ qs) (xs ++ ys) := by
  rw [Tells, List.map_append, List.map_append, h, h']

theorem tells_singleton {p : Tree × Bool} {x : Spot} (h : spot? p = some x) : Tells [p] [x] := by
  rw [Tells, List.map_singleton, h]
  rfl

/-- Each of the spots has its place. -/
theorem Tells.exists_place (h : Tells ps xs) {x : Spot} (hx : x ∈ xs) : ∃ p ∈ ps, spot? p = some x := by
  have hmem : some x ∈ ps.map spot? := h ▸ List.mem_map_of_mem hx
  exact List.mem_map.mp hmem

theorem Tells.exists_spot (h : Tells ps xs) {p : Tree × Bool} (hp : p ∈ ps) : ∃ x ∈ xs, spot? p = some x := by
  have hmem : spot? p ∈ xs.map some := h ▸ List.mem_map_of_mem hp
  obtain ⟨x, hx, heq⟩ := List.mem_map.mp hmem
  exact ⟨x, hx, heq.symm⟩

/-! ## Places in lists -/

theorem places_closed (h : k.isClosed = true) : (node k r cs).places typed = [] := by
  cases k <;> first
    | rfl
    | cases h

theorem parts_cons_closed (h : k.isClosed = true) : parts (.node k r cs :: ds) = parts ds := by
      simp [parts, kind?, h]

theorem parts_cons_open (h : k.isClosed = false) : parts (.node k r cs :: ds) = .node k r cs :: parts ds := by
  simp [parts, kind?, h]

/-- What is found by passing over tokens and closed nodes is found in the parts. -/
theorem eq_parts {β : Type} {f : List Tree → β} (hleaf : ∀ tok cs, f (.leaf tok :: cs) = f cs)
    (hclosed : ∀ k r ds cs, k.isClosed = true → f (.node k r ds :: cs) = f cs)
    (hopen : ∀ c cs, f cs = f (parts cs) → f (c :: cs) = f (c :: parts cs)) (cs : List Tree) :
    f cs = f (parts cs) := by
  induction cs with
  | nil => rfl
  | cons c cs ih =>
    cases c with
    | leaf tok => rw [parts_leaf_cons, hleaf, ih]
    | node k r ds =>
      cases hk : k.isClosed with
      | true => rw [parts_cons_closed hk, hclosed k r ds cs hk, ih]
      | false => rw [parts_cons_open hk, hopen _ cs ih]

theorem placesAll_parts (typed : Bool) (cs : List Tree) : placesAll typed cs = placesAll typed (parts cs) :=
  eq_parts (fun _ _ => rfl) (fun _ _ _ _ hk => by rw [placesAll, places_closed hk, List.nil_append])
    (fun _ _ ih => by rw [placesAll, placesAll, ih]) cs

theorem placesAll_flatMap (typed : Bool) (cs : List Tree) : placesAll typed cs = cs.flatMap (places typed) := by
  induction cs with
  | nil => rfl
  | cons c cs ih => rw [placesAll, ih, List.flatMap_cons]

/-- Places are found in parts only. -/
theorem placesAll_eq (typed : Bool) (cs : List Tree) : placesAll typed cs = (parts cs).flatMap (places typed) := by
  rw [placesAll_parts, placesAll_flatMap]

theorem placesAll_nil (h : parts cs = []) : placesAll typed cs = [] := by
  rw [placesAll_eq, h]
  rfl

theorem placesAround_eq (cs : List Tree) :
    placesAround cs = placesAll true (cs.takeWhile (!isEqSign ·)) ++
      placesAll false (cs.dropWhile (!isEqSign ·)) := by
  induction cs with
  | nil => rfl
  | cons c cs ih =>
    rw [placesAround]
    cases hc : isEqSign c with
    | true =>
      have hleaf : c.places false = [] := by
        cases c with
        | leaf tok => rfl
        | node k r ds => cases hc
      simp [hc, placesAll, hleaf]
    | false => simp [hc, placesAll, ih]

/-! ## Reading types -/

theorem typesAmong_eq (cs : List Tree) : typesAmong cs = cs.filterMap TypeExpr.ofTree? := by
  induction cs with
  | nil => rfl
  | cons c cs ih =>
    rw [typesAmong, List.filterMap_cons, ih]
    cases TypeExpr.ofTree? c <;> rfl

theorem ofTree?_closed (h : k.isClosed = true) : TypeExpr.ofTree? (.node k r cs) = none := by
  cases k <;> first
    | rfl
    | cases h

theorem typesAmong_parts (cs : List Tree) : typesAmong cs = (parts cs).filterMap TypeExpr.ofTree? := by
  rw [← typesAmong_eq]
  refine eq_parts (fun _ _ => by rw [typesAmong, TypeExpr.ofTree?]) (fun k r ds cs hk => ?_) (fun c cs ih => ?_) cs
  · rw [typesAmong, ofTree?_closed hk]
  · rw [typesAmong, typesAmong, ih]

/-- A type in the tree reads as a type, and its places as what that is made of. -/
def Told (t : Tree) : Prop := t.isType → ∃ e, TypeExpr.ofTree? t = some e ∧ Tells (t.places true) e.spots

theorem mem_of_mem_parts (h : c ∈ parts cs) : c ∈ cs := (List.mem_filter.mp h).1

def ToldBelow (t : Tree) : Prop := ∀ u : Tree, sizeOf u < sizeOf t → u.Whole → u.Told

theorem ToldBelow.part (h : ToldBelow (.node k r cs)) (hw : (Tree.node k r cs).Whole) (hk : k.isClosed = false)
    (hc : c ∈ parts cs) :
    c.Whole ∧ ToldBelow c ∧ c.Told := by
  have hlt : sizeOf c < sizeOf (Tree.node k r cs) := by
    have hlt := List.sizeOf_lt_of_mem (mem_of_mem_parts hc)
    simp only [node.sizeOf_spec]
    omega
  have hwhole : c.Whole := wholeAll_iff.mp (hw.resolve_left (by simp [hk])).2 c (mem_of_mem_parts hc)
  exact ⟨hwhole, fun u hu => h u (hu.trans hlt), h c hlt hwhole⟩

theorem tells_types {l : List Tree} (ht : ∀ c ∈ l, c.Told) (h : ∀ c ∈ l, c.isType) :
    (l.filterMap TypeExpr.ofTree?).length = l.length ∧
      Tells (l.flatMap (places true)) ((l.filterMap TypeExpr.ofTree?).flatMap TypeExpr.spots) := by
  induction l with
  | nil => exact ⟨rfl, tells_nil⟩
  | cons c l ih =>
    obtain ⟨e, he, htells⟩ := ht c List.mem_cons_self (h c List.mem_cons_self)
    obtain ⟨hlen, hrest⟩ := ih (fun d hd => ht d (List.mem_cons_of_mem _ hd)) fun d hd =>
      h d (List.mem_cons_of_mem _ hd)
    rw [List.filterMap_cons, he]
    exact ⟨by simp [hlen], htells.append hrest⟩

theorem tells_typesAmong (ht : ∀ c ∈ parts cs, c.Told) (h : Only (·.isType) cs) :
    (typesAmong cs).length = (parts cs).length ∧
      Tells (placesAll true cs) ((typesAmong cs).flatMap TypeExpr.spots) := by
  rw [typesAmong_parts, placesAll_eq]
  exact tells_types ht h

theorem tells_sole (ht : ∀ c ∈ parts cs, c.Told) (h : Sole (·.isType) cs) :
    ∃ e, typesAmong cs = [e] ∧ Tells (placesAll true cs) e.spots := by
  obtain ⟨hlen, htells⟩ := tells_typesAmong ht h.only
  obtain ⟨c, hc, -⟩ := h
  obtain ⟨e, he⟩ := List.length_eq_one_iff.mp (hlen.trans (by rw [hc]; rfl))
  rw [he, List.flatMap_singleton] at htells
  exact ⟨e, he, htells⟩

theorem paramSubs_paramsAmong : ∀ (name : Option Token) (cs : List Tree),
    paramSubs (paramsAmong name cs) = (typesAmong cs).flatMap TypeExpr.subs
  | _, [] => rfl
  | name, c :: cs => by
    rw [paramsAmong, typesAmong]
    split
    · rename_i hname
      have hnone : TypeExpr.ofTree? c = none := by
        cases c with
        | leaf tok => rfl
        | node k r ds =>
          obtain rfl : k = .name := by simpa [isNode, kind?] using hname
          rfl
      rw [hnone]
      exact paramSubs_paramsAmong _ cs
    · split
      · rw [paramSubs, paramSubs_paramsAmong none cs]
        rfl
      · exact paramSubs_paramsAmong name cs

theorem tells_params (ht : ∀ c ∈ parts cs, c.Told) (h : Only (·.isType) cs) (name : Option Token) :
    Tells (placesAll true cs) ((paramSubs (paramsAmong name cs)).map .type) := by
  rw [paramSubs_paramsAmong, List.map_flatMap]
  exact (tells_typesAmong ht h).2

theorem paramsIn_parts {k : NodeKind} (hk : k.isClosed = false) (cs : List Tree) :
    paramsIn k cs = paramsIn k (parts cs) := by
  refine eq_parts (fun _ _ => by rw [paramsIn]) (fun k' r ds cs hk' => ?_) (fun c cs ih => ?_) cs
  · rw [paramsIn, if_neg]
    rintro rfl
    rw [hk] at hk'
    cases hk'
  · cases c <;> simp only [paramsIn, ih]

theorem fieldsIn_parts (cs : List Tree) : fieldsIn cs = fieldsIn (parts cs) := by
  refine eq_parts (fun _ _ => by rw [fieldsIn]) (fun k r ds cs hk => ?_) (fun c cs ih => ?_) cs
  · rw [fieldsIn, if_neg]
    rintro rfl
    cases hk
  · cases c <;> simp only [fieldsIn, ih]

theorem methodsIn_parts (cs : List Tree) : methodsIn cs = methodsIn (parts cs) := by
  refine eq_parts (fun _ _ => by rw [methodsIn]) (fun k r ds cs hk => ?_) (fun c cs ih => ?_) cs
  · rw [methodsIn, if_neg]
    rintro rfl
    cases hk
  · cases c <;> simp only [methodsIn, ih]

/-- The signature that the children make. -/
theorem tells_signature (ht : ∀ l ∈ parts cs, l.Whole ∧ l.ToldBelow) (h : Signs cs) (form : ResultForm) :
    Tells (placesAll true cs)
      ((Signature.subs ⟨paramsIn .paramList cs, form, paramsIn .resultList cs⟩).map .type) := by
  have hlist {k : NodeKind} (hk : k = .paramList ∨ k = .resultList) {l : Tree} (hl : l ∈ parts cs)
    (hlk : l.isNode k = true) :
      ∃ r ds, l = .node k r ds ∧ l.places true = placesAll true ds ∧
        Tells (placesAll true ds) ((paramSubs (paramsAmong none ds)).map .type) := by
    cases l with
    | leaf tok => cases hlk
    | node k' r ds =>
      obtain rfl : k' = k := by simpa [isNode, kind?] using hlk
      obtain ⟨hwhole, hbelow⟩ := ht _ hl
      have htold {c : Tree} (hc : c ∈ parts ds) : c.Told :=
        (hbelow.part hwhole (by rcases hk with rfl | rfl <;> rfl) hc).2.2
      have honly : Only (·.isType) ds := by rcases hk with rfl | rfl <;> exact (hwhole.resolve_left (by decide)).1
      refine ⟨r, ds, rfl, ?_, tells_params (fun c hc => htold hc) honly none⟩
      rcases hk with rfl | rfl <;> rfl
  rw [Signature.subs, List.map_append, placesAll_eq, paramsIn_parts rfl, paramsIn_parts (k := .resultList) rfl]
  rcases h with ⟨ps, hps, hpsk⟩ | ⟨ps, rs, hparts, hpsk, hrsk⟩
  · obtain ⟨r, ds, rfl, hplaces, htells⟩ := hlist (Or.inl rfl) (by rw [hps]; exact List.mem_singleton_self _) hpsk
    rw [hps]
    simpa [paramsIn, paramSubs, hplaces] using htells
  · obtain ⟨r, ds, rfl, hplaces, htells⟩ := hlist (Or.inl rfl) (by rw [hparts]; exact List.mem_cons_self) hpsk
    obtain ⟨r', ds', rfl, hplaces', htells'⟩ := hlist (Or.inr rfl) (by rw [hparts]; simp) hrsk
    rw [hparts]
    simpa [paramsIn, hplaces, hplaces'] using htells.append htells'

theorem fieldSubs_ofToken (tok : Token) (items : List (Item Field)) :
    fieldSubs ((Item.ofToken? tok).toList ++ items) = fieldSubs items := by
  unfold Item.ofToken?
  split
  · rfl
  · split <;> rfl

theorem methodSubs_ofToken (tok : Token) (items : List (Item Method)) :
    methodSubs ((Item.ofToken? tok).toList ++ items) = methodSubs items := by
  unfold Item.ofToken?
  split
  · rfl
  · split <;> rfl

/-- The fields of a struct, one after the other. -/
theorem tells_fields (ht : ∀ d ∈ parts cs, d.Whole ∧ d.ToldBelow) (h : Only (isNode .field ·) cs) :
    Tells (placesAll true cs) ((fieldSubs (fieldItems cs)).map .type) := by
  induction cs with
  | nil => exact tells_nil
  | cons c cs ih =>
    cases c with
    | leaf tok =>
      rw [Only, parts_leaf_cons] at h
      rw [fieldItems, fieldSubs_ofToken]
      exact ih (by simpa using ht) h
    | node k r ds =>
      cases hk : k.isClosed with
      | true =>
        rw [Only, parts_cons_closed hk] at h
        rw [parts_cons_closed hk] at ht
        have hne : k ≠ .field := by
          rintro rfl
          cases hk
        rw [placesAll, places_closed hk, List.nil_append, fieldItems, if_neg hne]
        exact ih ht h
      | false =>
        rw [Only, parts_cons_open hk] at h
        rw [parts_cons_open hk] at ht
        obtain rfl : k = .field := by simpa [isNode, kind?] using h _ List.mem_cons_self
        obtain ⟨hwhole, hbelow⟩ := ht _ List.mem_cons_self
        obtain ⟨e, he, htells⟩ := tells_sole (fun c hc => (hbelow.part hwhole rfl hc).2.2)
          (hwhole.resolve_left (by decide)).1
        rw [placesAll, fieldItems, if_pos rfl, fieldSubs, List.map_append, he]
        exact htells.append (ih (fun d hd => ht d (List.mem_cons_of_mem _ hd)) fun d hd =>
          h d (List.mem_cons_of_mem _ hd))

theorem tells_methods (ht : ∀ d ∈ parts cs, d.Whole ∧ d.ToldBelow) (h : Only (isNode .method ·) cs) :
    Tells (placesAll true cs) ((methodSubs (methodItems cs)).map .type) := by
  induction cs with
  | nil => exact tells_nil
  | cons c cs ih =>
    cases c with
    | leaf tok =>
      rw [Only, parts_leaf_cons] at h
      rw [methodItems, methodSubs_ofToken]
      exact ih (by simpa using ht) h
    | node k r ds =>
      cases hk : k.isClosed with
      | true =>
        rw [Only, parts_cons_closed hk] at h
        rw [parts_cons_closed hk] at ht
        have hne : k ≠ .method := by
          rintro rfl
          cases hk
        rw [placesAll, places_closed hk, List.nil_append, methodItems, if_neg hne]
        exact ih ht h
      | false =>
        rw [Only, parts_cons_open hk] at h
        rw [parts_cons_open hk] at ht
        obtain rfl : k = .method := by simpa [isNode, kind?] using h _ List.mem_cons_self
        obtain ⟨hwhole, hbelow⟩ := ht _ List.mem_cons_self
        obtain ⟨hnamed, hsigns⟩ := (hwhole.resolve_left (by decide)).1
        obtain ⟨name, names, hnames⟩ := List.exists_cons_of_ne_nil hnamed
        rw [placesAll, methodItems, if_pos rfl, hnames, List.head?_cons, methodSubs, List.map_append]
        have hlists {l : Tree} (hl : l ∈ parts ds) : l.Whole ∧ l.ToldBelow :=
          ⟨(hbelow.part hwhole rfl hl).1, (hbelow.part hwhole rfl hl).2.1⟩
        exact (tells_signature (fun l hl => hlists hl) hsigns _).append
          (ih (fun d hd => ht d (List.mem_cons_of_mem _ hd)) fun d hd => h d (List.mem_cons_of_mem _ hd))

/-- The sole list of members. -/
theorem Lists.elim {member : NodeKind} (h : Lists member cs) :
    ∃ r ds, parts cs = [.node .fieldList r ds] ∧ Only (isNode member ·) ds ∧
    placesAll true cs = placesAll true ds := by
  obtain ⟨l, hl, hlist, honly⟩ := h
  cases l with
  | leaf tok => cases hlist
  | node k r ds =>
    obtain rfl : k = .fieldList := by simpa [isNode, kind?] using hlist
    exact ⟨r, ds, hl, honly, by rw [placesAll_eq, hl, List.flatMap_singleton]; rfl⟩

/-- The place of a type comes behind those in it. -/
theorem tells_behind {e : TypeExpr} {subs : List TypeExpr} (h : Tells ps (subs.map .type))
    (ht : TypeExpr.ofTree? t = some e)
    (he : e.subs = subs ++ [e]) : ∃ e', TypeExpr.ofTree? t = some e' ∧ Tells (ps ++ [(t, true)]) e'.spots := by
  refine ⟨e, ht, ?_⟩
  rw [TypeExpr.spots, he, List.map_append]
  exact h.append (tells_singleton (by rw [spot?, ht]; rfl))

theorem tells_alone {e : TypeExpr} (ht : TypeExpr.ofTree? t = some e) (he : e.subs = [e]) :
    ∃ e', TypeExpr.ofTree? t = some e' ∧ Tells [(t, true)] e'.spots :=
  @tells_behind [] _ _ [] tells_nil ht he

/-- All types of a whole tree can be told. -/
theorem told_of_below (h : t.Whole) (hb : ToldBelow t) : t.Told := by
  intro ht
  cases t with
  | leaf tok => cases ht
  | node k r cs =>
    cases k with
    | nameRef =>
      obtain ⟨tok, rfl, htok⟩ := (h.resolve_left (by decide)).1
      have hsome : TypeExpr.ofTree? (.node .nameRef r [.leaf tok]) = some (.name tok) := by
        simp [TypeExpr.ofTree?, significant?, tokens, token?, htok]
      exact tells_alone hsome rfl
    | selector =>
      obtain ⟨-, qualifier, name, hparts⟩ := (h.resolve_left (by decide)).1
      have hsome : TypeExpr.ofTree? (.node .selector r cs) = some (.selector r (some qualifier) (some name)) := by
        simp [TypeExpr.ofTree?, hparts]
      exact tells_alone hsome rfl
    | sliceType =>
      obtain ⟨e, he, htells⟩ := tells_sole (fun c hc => (hb.part h rfl hc).2.2) (h.resolve_left (by decide)).1.2
      exact tells_behind htells (by rw [TypeExpr.ofTree?, he, List.headD_cons]) rfl
    | pointerType =>
      obtain ⟨e, he, htells⟩ := tells_sole (fun c hc => (hb.part h rfl hc).2.2) (h.resolve_left (by decide)).1.2
      exact tells_behind htells (by rw [TypeExpr.ofTree?, he, List.headD_cons]) rfl
    | chanType =>
      obtain ⟨e, he, htells⟩ := tells_sole (fun c hc => (hb.part h rfl hc).2.2) (h.resolve_left (by decide)).1.2
      exact tells_behind htells (by rw [TypeExpr.ofTree?, he, List.headD_cons]) rfl
    | mapType =>
      obtain ⟨-, kt, vt, hparts, hkt, hvt⟩ := (h.resolve_left (by decide)).1
      have honly : Only (·.isType) cs := by
        rw [Only, hparts]
        simp [hkt, hvt]
      obtain ⟨hlen, htells⟩ := tells_typesAmong (fun c hc => (hb.part h rfl hc).2.2) honly
      obtain ⟨key, value, hkv⟩ := List.length_eq_two.mp (hlen.trans (by rw [hparts]; rfl))
      rw [hkv] at htells
      refine @tells_behind _ _ _ (key.subs ++ value.subs) ?_
        (show TypeExpr.ofTree? (.node .mapType r cs) = some (.map r key value) by
          simp [TypeExpr.ofTree?, hkv]) rfl
      simpa [TypeExpr.spots] using htells
    | funcType =>
      have htells := tells_signature (fun l hl => ?_) (h.resolve_left (by decide)).1.2 (resultFormAmong cs)
      · exact tells_behind htells (by rw [TypeExpr.ofTree?]) rfl
      · exact ⟨(hb.part h rfl hl).1, (hb.part h rfl hl).2.1⟩
    | structType =>
      obtain ⟨r', ds, hparts, honly, hplaces⟩ := (h.resolve_left (by decide)).1.2.elim
      obtain ⟨hwhole, hbelow, -⟩ := hb.part h rfl (hparts ▸ List.mem_singleton_self _)
      have htells := tells_fields (fun d hd => ?_) honly
      · refine tells_behind (hplaces ▸ htells) (e := .struct r (bracesAmong cs) (fieldItems ds)) ?_ rfl
        rw [TypeExpr.ofTree?, fieldsIn_parts, hparts, fieldsIn, if_pos rfl]
      · exact ⟨(hbelow.part hwhole rfl hd).1, (hbelow.part hwhole rfl hd).2.1⟩
    | interfaceType =>
      obtain ⟨r', ds, hparts, honly, hplaces⟩ := (h.resolve_left (by decide)).1.2.elim
      obtain ⟨hwhole, hbelow, -⟩ := hb.part h rfl (hparts ▸ List.mem_singleton_self _)
      have htells := tells_methods (fun d hd => ?_) honly
      · refine tells_behind (hplaces ▸ htells) (e := .interface r (bracesAmong cs) (methodItems ds)) ?_ rfl
        rw [TypeExpr.ofTree?, methodsIn_parts, hparts, methodsIn, if_pos rfl]
      · exact ⟨(hbelow.part hwhole rfl hd).1, (hbelow.part hwhole rfl hd).2.1⟩
    | _ => cases ht

/-- All types of a whole tree can be told. -/
theorem told (t : Tree) (h : t.Whole) : t.Told := by
  induction hn : sizeOf t using Nat.strong_induction_on generalizing t with
  | _ n ih =>
    subst hn
    exact told_of_below h fun u hu hwhole => ih _ hu u hwhole rfl

/-! ## Reading values -/

theorem exprsAmong_eq (cs : List Tree) : exprsAmong cs = cs.filterMap Expr.ofTree? := by
  induction cs with
  | nil => rfl
  | cons c cs ih =>
    rw [exprsAmong, List.filterMap_cons, ih]
    cases Expr.ofTree? c <;> rfl

theorem exprsAmong_parts (cs : List Tree) : exprsAmong cs = (parts cs).filterMap Expr.ofTree? := by
  rw [← exprsAmong_eq]
  refine eq_parts (fun _ _ => by rw [exprsAmong, Expr.ofTree?]) (fun k r ds cs hk => ?_) (fun c cs ih => ?_) cs
  · have hnone : Expr.ofTree? (.node k r ds) = none := by
      cases k <;> first
        | rfl
        | cases hk
    rw [exprsAmong, hnone]
  · rw [exprsAmong, exprsAmong, ih]

/-- An expression in the tree reads as one, and its places as what that is made of. -/
def Valued (t : Tree) : Prop := t.isExpr → ∃ e, Expr.ofTree? t = some e ∧ Tells (t.places false) e.spots

theorem valued_sole (ht : ∀ c ∈ parts cs, c.Valued) (h : Sole (·.isExpr) cs) :
    ∃ e, exprsAmong cs = [e] ∧ Tells (placesAll false cs) e.spots := by
  obtain ⟨c, hc, hexpr⟩ := h
  obtain ⟨e, he, htells⟩ := ht c (hc ▸ List.mem_singleton_self c) hexpr
  refine ⟨e, ?_, ?_⟩
  · rw [exprsAmong_parts, hc, List.filterMap_cons, he]
    rfl
  · rw [placesAll_eq, hc, List.flatMap_singleton]
    exact htells

/-- The place of a value comes behind those in it. -/
theorem valued_behind {e e' : Expr} (h : Tells ps e.spots) (ht : Expr.ofTree? t = some e')
    (he : e'.spots = e.spots ++ [.value e']) : ∃ e, Expr.ofTree? t = some e ∧
    Tells (ps ++ [(t, false)]) e.spots := by
  refine ⟨e', ht, ?_⟩
  rw [he]
  exact h.append (tells_singleton (by rw [spot?, ht]; rfl))

theorem valued_alone {e : Expr} (ht : Expr.ofTree? t = some e) (he : e.spots = [.value e]) :
    ∃ e, Expr.ofTree? t = some e ∧ Tells [(t, false)] e.spots :=
  ⟨e, ht, he ▸ tells_singleton (by rw [spot?, ht]; rfl)⟩

theorem bodyAmong_of_mem {b : Tree} (hb : b.isNode .litBody = true) : ∀ {cs : List Tree},
    b ∈ cs → ∃ body, bodyAmong? cs = some body
  | c :: cs, h => by
    rw [bodyAmong?]
    split
    · exact ⟨_, rfl⟩
    · rename_i hnone
      refine bodyAmong_of_mem hb ((List.mem_cons.mp h).resolve_left ?_)
      rintro rfl
      cases b with
      | leaf tok => cases hb
      | node k r ds =>
        obtain rfl : k = .litBody := by simpa [isNode, kind?] using hb
        simp [LitBody.ofTree?] at hnone

/-- All values of a whole tree can be told. -/
theorem valued (t : Tree) (h : t.Whole) : t.Valued := by
  induction hn : sizeOf t using Nat.strong_induction_on generalizing t with
  | _ n ih =>
    subst hn
    intro ht
    cases t with
    | leaf tok => cases ht
    | node k r cs =>
      have hsub (hk : k.isClosed = false) {c : Tree} (hc : c ∈ parts cs) : c.Valued := by
        have hlt := List.sizeOf_lt_of_mem (mem_of_mem_parts hc)
        refine ih (sizeOf c) ?_ c (wholeAll_iff.mp (h.resolve_left (by simp [hk])).2 c (mem_of_mem_parts hc)) rfl
        simp only [node.sizeOf_spec]
        omega
      cases k with
      | literal =>
        obtain ⟨tok, rfl, htok⟩ := (h.resolve_left (by decide)).1
        have hsome : Expr.ofTree? (.node .literal r [.leaf tok]) = some (.literal tok) := by
          simp [Expr.ofTree?, significant?, tokens, token?, htok]
        exact valued_alone hsome rfl
      | nameRef =>
        obtain ⟨tok, rfl, htok⟩ := (h.resolve_left (by decide)).1
        have hsome : Expr.ofTree? (.node .nameRef r [.leaf tok]) = some (.name tok) := by
          simp [Expr.ofTree?, significant?, tokens, token?, htok]
        exact valued_alone hsome rfl
      | selector =>
        obtain ⟨-, qualifier, id, hparts⟩ := (h.resolve_left (by decide)).1
        have hsome : Expr.ofTree? (.node .selector r cs) = some (.selector r (some qualifier) (some id)) := by
          simp [Expr.ofTree?, hparts]
        exact valued_alone hsome rfl
      | parenExpr =>
        obtain ⟨e, he, htells⟩ := valued_sole (fun c hc => hsub rfl hc) (h.resolve_left (by decide)).1.2
        have hsome : Expr.ofTree? (.node .parenExpr r cs) = some (.paren r e) := by simp [Expr.ofTree?, he]
        exact valued_behind htells hsome rfl
      | unaryExpr =>
        obtain ⟨⟨tok, ts, rfl, htok⟩, hsole⟩ := (h.resolve_left (by decide)).1
        obtain ⟨e, he, htells⟩ := valued_sole (fun c hc => hsub rfl hc) hsole
        have hsome : Expr.ofTree? (.node .unaryExpr r (.leaf tok :: ts)) = some (.unary r tok e) := by
          simp [Expr.ofTree?, significant?, tokens, token?, htok, he]
        exact valued_behind htells hsome rfl
      | compositeLit =>
        obtain ⟨hsole, b, hb, hbody⟩ := (h.resolve_left (by decide)).1
        obtain ⟨body, hsome⟩ := bodyAmong_of_mem hbody hb
        obtain ⟨e, he, htells⟩ := tells_sole
          (fun c hc => told c (wholeAll_iff.mp (h.resolve_left (by decide)).2 c (mem_of_mem_parts hc))) hsole
        exact ⟨.composite r e (typeTokensAmong cs) body, by simp [Expr.ofTree?, hsome, typeAmong, he], htells⟩
      | sliceType | mapType =>
        obtain ⟨e, he, htells⟩ := told _ h rfl
        exact ⟨.type e (significantLeaves _), by
          rw [Expr.ofTree?, he]; rfl, by simpa [places, Expr.spots] using htells⟩
      | _ => cases ht

end

end Tree

end IdlWorkbench
