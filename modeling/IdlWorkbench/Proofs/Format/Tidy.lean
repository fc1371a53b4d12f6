import IdlWorkbench.Doc.Tag
import IdlWorkbench.Proofs.Format.Chunks
import IdlWorkbench.Proofs.Grammar.Formed

/-!
# What printing relies on

Results without parentheses are printed as one type, a form without results prints none, and the row of a constant
that stands alone is printed without its doc. Nothing is lost by this: what is read off the tree of a text never has
anything there. At the same time every doc that is read off a tree is the doc of one of its nodes.
-/

namespace IdlWorkbench

open IdlWorkbench.Tree
open Format (Allows)

mutual

/-- All signatures in the type have as many results as their form allows, and all docs are among `docs`. -/
def TypeExpr.Tidy (docs : List Doc) : TypeExpr → Prop
  | .slice _ elem => elem.Tidy docs
  | .map _ key value => key.Tidy docs ∧ value.Tidy docs
  | .pointer _ elem => elem.Tidy docs
  | .chan _ elem => elem.Tidy docs
  | .func _ signature => signature.Tidy docs
  | .struct _ _ fields => TidyFields docs fields
  | .interface _ _ methods => TidyMethods docs methods
  | .missing | .name _ | .selector .. => True

def Signature.Tidy (docs : List Doc) : Signature → Prop
  | ⟨params, form, results⟩ => TidyParams docs params ∧ TidyParams docs results ∧ Allows form results.length

def TidyParams (docs : List Doc) : List Param → Prop
  | [] => True
  | ⟨_, type⟩ :: rest => type.Tidy docs ∧ TidyParams docs rest

def TidyFields (docs : List Doc) : List (Item Field) → Prop
  | [] => True
  | .gap _ :: rest => TidyFields docs rest
  | .comment _ :: rest => TidyFields docs rest
  | .entry ⟨_, doc, _, type, _, _⟩ :: rest => (∀ d ∈ doc, d ∈ docs) ∧ type.Tidy docs ∧ TidyFields docs rest

def TidyMethods (docs : List Doc) : List (Item Method) → Prop
  | [] => True
  | .gap _ :: rest => TidyMethods docs rest
  | .comment _ :: rest => TidyMethods docs rest
  | .entry ⟨_, doc, _, signature, _⟩ :: rest => (∀ d ∈ doc, d ∈ docs) ∧ signature.Tidy docs ∧ TidyMethods docs rest

end

structure Decl.Tidy {α : Type} (docs : List Doc) (P : α → Prop) (d : Decl α) : Prop where
  doc : ∀ doc ∈ d.doc, doc ∈ docs
  specs : ∀ spec ∈ d.specs, P spec

def ImportSpec.Tidy (docs : List Doc) (spec : ImportSpec) : Prop := ∀ d ∈ spec.doc, d ∈ docs

def TypeSpec.Tidy (docs : List Doc) (spec : TypeSpec) : Prop := (∀ d ∈ spec.doc, d ∈ docs) ∧ spec.type.Tidy docs

def ConstSpec.Tidy (docs : List Doc) (spec : ConstSpec) : Prop := (∀ d ∈ spec.doc, d ∈ docs) ∧ spec.type.Tidy docs

def TopLevel.Tidy (docs : List Doc) : TopLevel → Prop
  | .package clause => ∀ d ∈ clause.doc, d ∈ docs
  | .imports d => d.Tidy docs (ImportSpec.Tidy docs)
  | .types d => d.Tidy docs (TypeSpec.Tidy docs)
  | .consts d => d.Tidy docs fun spec => spec.Tidy docs ∧ (d.grouped = false → spec.doc = none)

/-! ## Results -/

theorem length_paramsAmong_le : ∀ (name : Option Token) (cs : List Tree), (paramsAmong name cs).length ≤ cs.length
  | _, [] => Nat.le_refl 0
  | name, c :: cs => by
    have hrest (name : Option Token) := length_paramsAmong_le name cs
    rw [paramsAmong]
    split
    · exact Nat.le_succ_of_le (hrest _)
    · split
      · exact Nat.succ_le_succ (hrest _)
      · exact Nat.le_succ_of_le (hrest _)

/-- The parameters are those of the first list. -/
theorem paramsIn_eq (k : NodeKind) : ∀ cs : List Tree,
    paramsIn k cs = ((child? k cs).map fun c => paramsAmong none c.children).getD []
  | [] => rfl
  | .leaf t :: cs => by
    rw [paramsIn, paramsIn_eq k cs]
    rfl
  | .node kind r ds :: cs => by
    rw [paramsIn, paramsIn_eq k cs]
    by_cases hk : kind = k
    · simp [child?, isNode, kind?, hk, children]
    · simp [child?, isNode, kind?, hk]

theorem any_opens (cs : List Tree) : (tokens cs).any (·.kind = .lParen) = cs.any opens := by
  induction cs with
  | nil => rfl
  | cons c cs ih =>
    cases c with
    | leaf t =>
      rw [tokens, List.filterMap_cons, token?, List.any_cons, List.any_cons, ← ih, opens, token?, Option.any,
        tokens]
    | node k r ds => simpa [tokens, token?, opens] using ih

theorem allows_results {cs : List Tree} (hf : ∀ c ∈ cs, c.Formed) :
    Allows (resultFormAmong cs) (paramsIn .resultList cs).length := by
  rw [resultFormAmong, paramsIn_eq]
  cases h : child? .resultList cs with
  | none => rfl
  | some c =>
    obtain ⟨r, ds, rfl⟩ : ∃ r ds, c = .node .resultList r ds := by
      have hkind := List.find?_some h
      cases c with
      | leaf t => cases hkind
      | node kind r ds =>
        obtain rfl : kind = .resultList := by simpa [isNode, kind?] using hkind
        exact ⟨r, ds, rfl⟩
    have hfit : ds.any opens = true ∨ ds.length ≤ 1 := (hf _ (List.mem_of_find?_eq_some h)).fits
    simp only [children, any_opens, Option.map_some, Option.getD_some]
    split
    · trivial
    · rename_i hopen
      exact (length_paramsAmong_le none ds).trans (hfit.resolve_left hopen)

/-! ## Types -/

structure Tree.Sourced (docs : List Doc) (t : Tree) : Prop where
  formed : t.Formed
  doc : ∀ n ∈ t.nodes, ∀ d, Doc.ofTree? n = some d → d ∈ docs

section
variable {docs : List Doc} {cs : List Tree}

theorem Tree.Sourced.child {k : NodeKind} {r : ByteRange} (h : (node k r cs).Sourced docs) :
    ∀ c ∈ cs, c.Sourced docs := fun c hc =>
  ⟨h.formed.child hc, fun n hn => h.doc n (by
    rw [nodes]
    exact List.mem_cons_of_mem _ (mem_nodesOf.mpr ⟨c, hc, hn⟩))⟩

theorem doc_mem (h : ∀ c ∈ cs, c.Sourced docs) : ∀ d ∈ Doc.among? cs, d ∈ docs := by
  intro d hd
  obtain ⟨c, hc, hd⟩ := List.exists_of_findSome?_eq_some hd
  cases c with
  | leaf t => cases hd
  | node k r ds => exact (h _ hc).doc _ (by simp [nodes]) d hd

theorem tidy_headD {types : List TypeExpr} (h : ∀ t ∈ types, t.Tidy docs) : (types.headD .missing).Tidy docs := by
  cases types with
  | nil =>
    rw [List.headD_nil, TypeExpr.Tidy]
    trivial
  | cons t ts => exact h t List.mem_cons_self

end

section
variable {docs : List Doc}

mutual

theorem tidy_type : ∀ {c : Tree} {type : TypeExpr},
    c.Sourced docs → TypeExpr.ofTree? c = some type → type.Tidy docs
  | .leaf _, _, _, h => by cases h
  | .node kind r cs, type, hc, h => by
    have hcs : ∀ c ∈ cs, c.Sourced docs := hc.child
    have htypes := tidy_types hcs
    cases kind with
    | nameRef =>
      obtain ⟨id, -, rfl⟩ := Option.map_eq_some_iff.mp h
      rw [TypeExpr.Tidy]
      trivial
    | selector =>
      cases h
      rw [TypeExpr.Tidy]
      trivial
    | sliceType | pointerType | chanType =>
      cases h
      rw [TypeExpr.Tidy]
      exact tidy_headD htypes
    | mapType =>
      cases h
      rw [TypeExpr.Tidy]
      exact ⟨tidy_headD htypes, tidy_headD fun t ht => htypes t (List.mem_of_mem_tail ht)⟩
    | funcType =>
      cases h
      rw [TypeExpr.Tidy, Signature.Tidy]
      exact ⟨tidy_paramsIn _ hcs, tidy_paramsIn _ hcs, allows_results fun c hc => (hcs c hc).formed⟩
    | structType =>
      cases h
      rw [TypeExpr.Tidy]
      exact tidy_fieldsIn hcs
    | interfaceType =>
      cases h
      rw [TypeExpr.Tidy]
      exact tidy_methodsIn hcs
    | _ => cases h

theorem tidy_types : ∀ {cs : List Tree}, (∀ c ∈ cs, c.Sourced docs) → ∀ t ∈ typesAmong cs, t.Tidy docs
  | [], _ => by
    rw [typesAmong]
    nofun
  | c :: cs, hcs => by
    have hrest := tidy_types fun d hd => hcs d (List.mem_cons_of_mem _ hd)
    rw [typesAmong]
    split
    · rename_i type h
      exact List.forall_mem_cons.mpr ⟨tidy_type (hcs c List.mem_cons_self) h, hrest⟩
    · exact hrest

theorem tidy_paramsIn (k : NodeKind) : ∀ {cs : List Tree},
    (∀ c ∈ cs, c.Sourced docs) → TidyParams docs (paramsIn k cs)
  | [], _ => by
    rw [paramsIn, TidyParams]
    trivial
  | .leaf _ :: cs, hcs => by
    rw [paramsIn]
    exact tidy_paramsIn k fun d hd => hcs d (List.mem_cons_of_mem _ hd)
  | .node _ _ ds :: cs, hcs => by
    rw [paramsIn]
    split
    · exact tidy_paramsAmong none (hcs _ List.mem_cons_self).child
    · exact tidy_paramsIn k fun d hd => hcs d (List.mem_cons_of_mem _ hd)

theorem tidy_paramsAmong : ∀ {cs : List Tree} (name : Option Token),
    (∀ c ∈ cs, c.Sourced docs) → TidyParams docs (paramsAmong name cs)
  | [], _, _ => by
    rw [paramsAmong, TidyParams]
    trivial
  | c :: cs, name, hcs => by
    have hrest (name : Option Token) := tidy_paramsAmong name fun d hd => hcs d (List.mem_cons_of_mem _ hd)
    rw [paramsAmong]
    split
    · exact hrest _
    · split
      · rename_i type h
        rw [TidyParams]
        exact ⟨tidy_type (hcs c List.mem_cons_self) h, hrest none⟩
      · exact hrest _

theorem tidy_fieldsIn : ∀ {cs : List Tree}, (∀ c ∈ cs, c.Sourced docs) → TidyFields docs (fieldsIn cs)
  | [], _ => by
    rw [fieldsIn, TidyFields]
    trivial
  | .leaf _ :: cs, hcs => by
    rw [fieldsIn]
    exact tidy_fieldsIn fun d hd => hcs d (List.mem_cons_of_mem _ hd)
  | .node _ _ ds :: cs, hcs => by
    rw [fieldsIn]
    split
    · exact tidy_fieldItems (hcs _ List.mem_cons_self).child
    · exact tidy_fieldsIn fun d hd => hcs d (List.mem_cons_of_mem _ hd)

theorem tidy_fieldItems : ∀ {cs : List Tree}, (∀ c ∈ cs, c.Sourced docs) → TidyFields docs (fieldItems cs)
  | [], _ => by
    rw [fieldItems, TidyFields]
    trivial
  | .leaf t :: cs, hcs => by
    have hrest := tidy_fieldItems fun d hd => hcs d (List.mem_cons_of_mem _ hd)
    rw [fieldItems, Item.ofToken?]
    split
    · simpa [TidyFields] using hrest
    · split <;> simpa [TidyFields] using hrest
  | .node _ _ ds :: cs, hcs => by
    have hrest := tidy_fieldItems fun d hd => hcs d (List.mem_cons_of_mem _ hd)
    have hds : ∀ c ∈ ds, c.Sourced docs := (hcs _ List.mem_cons_self).child
    rw [fieldItems]
    split
    · rw [TidyFields]
      exact ⟨doc_mem hds, tidy_headD (tidy_types hds), hrest⟩
    · exact hrest

theorem tidy_methodsIn : ∀ {cs : List Tree}, (∀ c ∈ cs, c.Sourced docs) → TidyMethods docs (methodsIn cs)
  | [], _ => by
    rw [methodsIn, TidyMethods]
    trivial
  | .leaf _ :: cs, hcs => by
    rw [methodsIn]
    exact tidy_methodsIn fun d hd => hcs d (List.mem_cons_of_mem _ hd)
  | .node _ _ ds :: cs, hcs => by
    rw [methodsIn]
    split
    · exact tidy_methodItems (hcs _ List.mem_cons_self).child
    · exact tidy_methodsIn fun d hd => hcs d (List.mem_cons_of_mem _ hd)

theorem tidy_methodItems : ∀ {cs : List Tree}, (∀ c ∈ cs, c.Sourced docs) → TidyMethods docs (methodItems cs)
  | [], _ => by
    rw [methodItems, TidyMethods]
    trivial
  | .leaf t :: cs, hcs => by
    have hrest := tidy_methodItems fun d hd => hcs d (List.mem_cons_of_mem _ hd)
    rw [methodItems, Item.ofToken?]
    split
    · simpa [TidyMethods] using hrest
    · split <;> simpa [TidyMethods] using hrest
  | .node _ _ ds :: cs, hcs => by
    have hrest := tidy_methodItems fun d hd => hcs d (List.mem_cons_of_mem _ hd)
    have hds : ∀ c ∈ ds, c.Sourced docs := (hcs _ List.mem_cons_self).child
    rw [methodItems]
    split
    · rw [TidyMethods, Signature.Tidy]
      exact ⟨doc_mem hds, ⟨tidy_paramsIn _ hds, tidy_paramsIn _ hds, allows_results fun c hc => (hds c hc).formed⟩,
        hrest⟩
    · exact hrest

end

/-! ## Declarations -/

theorem tidy_decl {α : Type} {spec? : Tree → Option α} {P : α → Prop} {r : ByteRange} {cs : List Tree}
    (hcs : ∀ c ∈ cs, c.Sourced docs) (hspec : ∀ c ∈ cs, ∀ a, spec? c = some a → P a) :
    (Decl.ofChildren spec? r cs).Tidy docs P where
  doc := doc_mem hcs
  specs spec hmem := by
    obtain ⟨c, hc, hread⟩ := exists_of_mem_specs hmem
    exact hspec c hc spec hread

theorem tidy_importSpec {c : Tree} {spec : ImportSpec} (hc : c.Sourced docs) (h : ImportSpec.ofTree? c = some spec) :
    spec.Tidy docs := by
  cases c with
  | leaf t => cases h
  | node kind r ds =>
    cases kind <;> cases h
    exact doc_mem hc.child

theorem tidy_typeSpec {c : Tree} {spec : TypeSpec} (hc : c.Sourced docs) (h : TypeSpec.ofTree? c = some spec) :
    spec.Tidy docs := by
  cases c with
  | leaf t => cases h
  | node kind r ds =>
    cases kind with
    | typeSpec =>
      obtain ⟨name, -, rfl⟩ := Option.map_eq_some_iff.mp h
      have hds : ∀ c ∈ ds, c.Sourced docs := hc.child
      exact ⟨doc_mem hds, tidy_headD (tidy_types hds)⟩
    | _ => cases h

/-- A constant without a doc node has no doc. -/
theorem tidy_constSpec {c : Tree} {spec : ConstSpec} (hc : c.Sourced docs) (h : ConstSpec.ofTree? c = some spec) :
    spec.Tidy docs ∧ (c.Undocumented → spec.doc = none) := by
  cases c with
  | leaf t => cases h
  | node kind r ds =>
    cases kind with
    | constSpec =>
      obtain ⟨name, -, rfl⟩ := Option.map_eq_some_iff.mp h
      have hds : ∀ c ∈ ds, c.Sourced docs := hc.child
      have htype : ∀ c ∈ ds.takeWhile (!isEqSign ·), c.Sourced docs :=
        fun d hd => hds d ((List.takeWhile_sublist _).subset hd)
      refine ⟨⟨doc_mem hds, tidy_headD (tidy_types htype)⟩, fun hbare => ?_⟩
      refine List.findSome?_eq_none_iff.mpr fun d hd => ?_
      have hkind := hbare _ _ rfl d hd
      cases d with
      | leaf t => rfl
      | node k r es => cases k <;> first | rfl | cases hkind
    | _ => cases h

theorem tidy_topLevel {c : Tree} {d : TopLevel} (hc : c.Sourced docs) (h : TopLevel.ofTree? c = some d) :
    d.Tidy docs := by
  cases c with
  | leaf t => cases h
  | node kind r cs =>
    have hcs : ∀ c ∈ cs, c.Sourced docs := hc.child
    cases kind with
    | packageClause =>
      cases h
      exact doc_mem hcs
    | importDecl =>
      cases h
      exact tidy_decl hcs fun c hmem a => tidy_importSpec (hcs c hmem)
    | typeDecl =>
      cases h
      exact tidy_decl hcs fun c hmem a => tidy_typeSpec (hcs c hmem)
    | constDecl =>
      cases h
      have hfit : cs.any opens = true ∨ ∀ c ∈ cs, c.Undocumented := hc.formed.fits
      refine tidy_decl hcs fun c hmem a ha => ?_
      obtain ⟨hspec, hdoc⟩ := tidy_constSpec (hcs c hmem) ha
      refine ⟨hspec, fun hungrouped => hdoc (hfit.resolve_left (fun hopen => ?_) c hmem)⟩
      exact absurd (hopen.symm.trans hungrouped) (by decide)
    | _ => cases h

/-- Of the nodes of a file only the outermost is no branch. -/
theorem branch_of_mem_nodesOf {n : Tree} : ∀ (parent : Tree) {cs : List Tree},
    n ∈ nodesOf cs → ∃ p, (p, n) ∈ branchesOf parent cs
  | _, [], h => by simp [nodesOf] at h
  | parent, .leaf t :: cs, h => by
    rw [nodesOf, nodes, List.nil_append] at h
    rw [branchesOf]
    exact branch_of_mem_nodesOf parent h
  | parent, .node k r ds :: cs, h => by
    rw [nodesOf, nodes, List.cons_append, List.mem_cons, List.mem_append] at h
    simp only [branchesOf, List.cons_append, List.mem_cons, List.mem_append]
    rcases h with rfl | h | h
    · exact ⟨parent, .inl rfl⟩
    · obtain ⟨p, hp⟩ := branch_of_mem_nodesOf (.node k r ds) h
      exact ⟨p, .inr (.inl hp)⟩
    · obtain ⟨p, hp⟩ := branch_of_mem_nodesOf parent h
      exact ⟨p, .inr (.inr hp)⟩

theorem tidy_file {t : Tree} (hf : t.Formed) :
    ∀ d ∈ entries (SourceFile.ofTree t).items, d.Tidy (t.docs.map Prod.snd) := by
  intro d hd
  obtain ⟨c, hc, hread⟩ := exists_of_mem_entries hd
  cases t with
  | leaf t => cases hc
  | node k r cs =>
    refine tidy_topLevel ⟨hf.child hc, fun n hn doc hdoc => ?_⟩ hread
    obtain ⟨p, hp⟩ := branch_of_mem_nodesOf (.node k r cs) (mem_nodesOf.mpr ⟨c, hc, hn⟩)
    refine List.mem_map.mpr ⟨(p.range, doc), List.mem_filterMap.mpr ⟨(p, n), ?_, by simp [hdoc]⟩, rfl⟩
    rw [branches]
    exact hp

end

end IdlWorkbench
