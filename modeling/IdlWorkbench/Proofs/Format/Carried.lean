import IdlWorkbench.Format.File
import IdlWorkbench.Proofs.Grammar.Formed
import Mathlib.Data.List.Flatten
import Mathlib.Data.List.Perm.Subperm

/-!
# The comments of a syntax tree

The comments that a type, a spec or a declaration holds, as far as printing comes to them. The readers pick them
from children of different kinds, so they are comments of the concrete tree, and none is picked twice.
-/

namespace IdlWorkbench

/-! ## Types -/

def docComments (doc : Option Doc) : List Token := (doc.map Doc.comments).getD []

mutual

def TypeExpr.comments : TypeExpr → List Token
  | .slice _ elem => elem.comments
  | .map _ key value => key.comments ++ value.comments
  | .pointer _ elem => elem.comments
  | .chan _ elem => elem.comments
  | .func _ signature => signature.comments
  | .struct _ braces fields => if braces = .absent then [] else fieldComments fields
  | .interface _ braces methods => if braces = .absent then [] else methodComments methods
  | .missing | .name _ | .selector .. => []

def Signature.comments : Signature → List Token
  | ⟨params, _, results⟩ => paramComments params ++ paramComments results

def paramComments : List Param → List Token
  | [] => []
  | ⟨_, type⟩ :: rest => type.comments ++ paramComments rest

def fieldComments : List (Item Field) → List Token
  | [] => []
  | .gap _ :: rest => fieldComments rest
  | .comment t :: rest => t :: fieldComments rest
  | .entry ⟨_, doc, _, type, _, trailing⟩ :: rest =>
    docComments doc ++ (type.comments ++ trailing.toList) ++ fieldComments rest

def methodComments : List (Item Method) → List Token
  | [] => []
  | .gap _ :: rest => methodComments rest
  | .comment t :: rest => t :: methodComments rest
  | .entry ⟨_, doc, _, signature, trailing⟩ :: rest =>
    docComments doc ++ (signature.comments ++ trailing.toList) ++ methodComments rest

end

/-! ## Declarations -/

def itemComments {α : Type} (ofEntry : α → List Token) : List (Item α) → List Token
  | [] => []
  | .gap _ :: rest => itemComments ofEntry rest
  | .comment t :: rest => t :: itemComments ofEntry rest
  | .entry a :: rest => ofEntry a ++ itemComments ofEntry rest

namespace Decl

variable {α : Type}

/-- The comments of a declaration. Those of a spec that stands alone are told by `single`. -/
def comments (row single : α → List Token) (d : Decl α) : List Token :=
  docComments d.doc ++
    if d.grouped then itemComments row d.items ++ d.trailing.toList else (d.specs.head?.map single).getD []

end Decl

def ImportSpec.comments (spec : ImportSpec) : List Token := docComments spec.doc ++ spec.trailing.toList

def TypeSpec.comments (spec : TypeSpec) : List Token :=
  docComments spec.doc ++ (spec.type.comments ++ spec.trailing.toList)

def ConstSpec.comments (spec : ConstSpec) : List Token :=
  docComments spec.doc ++ (spec.type.comments ++ spec.trailing.toList)

def TopLevel.comments : TopLevel → List Token
  | .package clause => docComments clause.doc ++ clause.trailing.toList
  | .imports d => d.comments ImportSpec.comments fun spec => (spec.trailing <|> d.trailing).toList
  | .types d => d.comments TypeSpec.comments fun spec => spec.type.comments ++ (spec.trailing <|> d.trailing).toList
  | .consts d => d.comments ConstSpec.comments fun spec => spec.comments ++ d.trailing.toList

/-! ## Comments of concrete trees -/

namespace Tree

open Format (comments)

theorem comments_leaf (t : Token) : comments (leaf t) = if t.isComment then [t] else [] := by
  simp [comments, leaves, List.filter_cons]

theorem comments_node (k : NodeKind) (r : ByteRange) (cs : List Tree) :
    comments (node k r cs) = cs.flatMap comments := by
  have h : ∀ cs : List Tree, (leavesOf cs).filter Token.isComment = cs.flatMap comments := fun cs => by
    induction cs with
    | nil => rfl
    | cons c cs ih => rw [leavesOf, List.filter_append, ih, List.flatMap_cons, comments]
  rw [← h, comments, leaves]

def commentsIn (p : Tree → Bool) (cs : List Tree) : List Token := cs.flatMap fun c => if p c then comments c else []

section
variable {p q : Tree → Bool}

theorem commentsIn_cons (p : Tree → Bool) (c : Tree) (cs : List Tree) :
    commentsIn p (c :: cs) = (if p c then comments c else []) ++ commentsIn p cs := List.flatMap_cons

theorem commentsIn_sublist (p : Tree → Bool) (cs : List Tree) : (commentsIn p cs).Sublist (cs.flatMap comments) :=
  .flatMap_right cs fun c _ => by split <;> simp

/-- Children of different kinds have their comments apart. -/
theorem commentsIn_append (h : ∀ c, p c = true → q c = false) (cs : List Tree) :
    (commentsIn p cs ++ commentsIn q cs).Perm (commentsIn (fun c => p c || q c) cs) := by
  refine (List.flatMap_append_perm cs _ _).trans (.of_eq (List.flatMap_congr fun c _ => ?_))
  cases hp : p c with
  | true => simp [hp, h c hp]
  | false => simp [hp]

theorem comments_sublist {c : Tree} {cs : List Tree} (hc : c ∈ cs) (hp : p c = true) :
    (comments c).Sublist (commentsIn p cs) := by
  obtain ⟨before, after, rfl⟩ := List.append_of_mem hc
  rw [commentsIn, List.flatMap_append, List.flatMap_cons, if_pos hp]
  exact (List.sublist_append_left _ _).trans (List.sublist_append_right _ _)

theorem tokens_sublist : ∀ cs : List Tree, (tokens cs).Sublist (leavesOf cs)
  | [] => .refl _
  | .leaf t :: cs => by
    rw [leavesOf, leaves, tokens, List.filterMap_cons]
    exact (tokens_sublist cs).cons_cons t
  | .node _ _ ds :: cs => by
    rw [leavesOf, tokens, List.filterMap_cons]
    exact (tokens_sublist cs).trans (List.sublist_append_right _ _)

end

end Tree

open IdlWorkbench.Tree

/-! ## What the readers pick -/

section
variable {cs : List Tree}

theorem sublist_doc (cs : List Tree) : (docComments (Doc.among? cs)).Sublist (commentsIn (isNode .doc) cs) := by
  cases h : Doc.among? cs with
  | none => exact List.nil_sublist _
  | some d =>
    obtain ⟨c, hc, hd⟩ := List.exists_of_findSome?_eq_some h
    cases c with
    | leaf t => cases hd
    | node kind r ds =>
      cases kind <;> cases hd
      refine List.Sublist.trans ?_ (comments_sublist hc rfl)
      exact (tokens_sublist ds).filter _

/-- A trailing comment is the only token of its node. -/
theorem sublist_trailing (h : ∀ c ∈ cs, c.Formed) :
    (trailingAmong? cs).toList.Sublist (commentsIn (isNode .trailing) cs) := by
  rw [trailingAmong?]
  cases hc : child? .trailing cs with
  | none => exact List.nil_sublist _
  | some c =>
    have hmem := List.mem_of_find?_eq_some hc
    have hkind := List.find?_some hc
    obtain ⟨r, ds, rfl⟩ := exists_of_isNode hkind
    obtain ⟨tok, rfl, hcomment⟩ := (h _ hmem).fits
    have htok : Format.comments (.node .trailing r [.leaf tok]) = [tok] := by
      rw [comments_node, List.flatMap_singleton, comments_leaf, if_pos hcomment]
    have hsub := comments_sublist hmem hkind
    rw [htok] at hsub
    exact hsub

def Tree.readsAsType (c : Tree) : Bool := (TypeExpr.ofTree? c).isSome

theorem not_readsAsType {k : NodeKind} (hk : ∀ r ds, TypeExpr.ofTree? (.node k r ds) = none) (c : Tree)
    (h : c.isNode k = true) : c.readsAsType = false := by
  obtain ⟨r, ds, rfl⟩ := exists_of_isNode h
  rw [readsAsType, hk]
  rfl

theorem not_isNode {k l : NodeKind} (hkl : k ≠ l) (c : Tree) (h : c.isNode k = true) : c.isNode l = false := by
  obtain ⟨r, ds, rfl⟩ := exists_of_isNode h
  simpa [isNode, kind?] using hkl

/-- The first type of several. -/
theorem headD_sublist (types : List TypeExpr) :
    (types.headD .missing).comments.Sublist (types.flatMap TypeExpr.comments) := by
  cases types with
  | nil => simp [TypeExpr.comments]
  | cons t ts => exact List.sublist_append_left _ _

/-- The first two types of several. -/
theorem headD_tail_sublist (types : List TypeExpr) :
    ((types.headD .missing).comments ++ (types.tail.headD .missing).comments).Sublist
    (types.flatMap TypeExpr.comments) := by
  cases types with
  | nil => simp [TypeExpr.comments]
  | cons t ts => exact (headD_sublist ts).append_left _

end

/-! ## Types -/

section
variable {ds : List Tree} (hf : ∀ d ∈ ds, d.Formed)
include hf

theorem subperm_typed {type : TypeExpr} (ht : type.comments.Subperm (commentsIn readsAsType ds)) :
    (docComments (Doc.among? ds) ++ (type.comments ++ (trailingAmong? ds).toList)).Subperm
    (ds.flatMap Format.comments) := by
  have hdocType : ∀ d : Tree, d.isNode .doc = true → (d.readsAsType || d.isNode .trailing) = false := fun d hd => by
    rw [not_readsAsType (fun _ _ => rfl) d hd, not_isNode (by decide) d hd, Bool.or_self]
  have htypeTrailing : ∀ d : Tree, d.readsAsType = true → d.isNode .trailing = false := fun d hd => by
    rw [Bool.eq_false_iff]
    exact fun h => absurd hd (by simp [not_readsAsType (fun _ _ => rfl) d h])
  refine ((sublist_doc ds).subperm.append (ht.append (sublist_trailing hf).subperm)).trans ?_
  have hinner := (commentsIn_append htypeTrailing ds).subperm
  exact ((List.Subperm.refl _).append hinner).trans
    ((commentsIn_append hdocType ds).subperm.trans (commentsIn_sublist _ ds).subperm)

omit hf in
theorem subperm_signature (hp : (paramComments (paramsIn .paramList ds)).Subperm (commentsIn (isNode .paramList) ds))
    (hr : (paramComments (paramsIn .resultList ds)).Subperm (commentsIn (isNode .resultList) ds)) :
    (paramComments (paramsIn .paramList ds) ++ paramComments (paramsIn .resultList ds)).Subperm
      (commentsIn (fun d => d.isNode .paramList || d.isNode .resultList) ds) :=
  (hp.append hr).trans (commentsIn_append (not_isNode (by decide)) ds).subperm

theorem subperm_method (hp : (paramComments (paramsIn .paramList ds)).Subperm (commentsIn (isNode .paramList) ds))
    (hr : (paramComments (paramsIn .resultList ds)).Subperm (commentsIn (isNode .resultList) ds)) :
    (docComments (Doc.among? ds) ++
      ((paramComments (paramsIn .paramList ds) ++ paramComments (paramsIn .resultList ds)) ++
      (trailingAmong? ds).toList)).Subperm (ds.flatMap Format.comments) := by
  have hdoc : ∀ d : Tree, d.isNode .doc = true →
      ((d.isNode .paramList || d.isNode .resultList) || d.isNode .trailing) = false := fun d hd => by
    simp [not_isNode (k := .doc) (l := .paramList) (by decide) d hd, not_isNode (k := .doc) (l := .resultList)
      (by decide) d hd,
      not_isNode (k := .doc) (l := .trailing) (by decide) d hd]
  have htrailing : ∀ d : Tree, (d.isNode .paramList || d.isNode .resultList) = true → d.isNode .trailing = false :=
    fun d hd => by
    rcases Bool.or_eq_true_iff.mp hd with hd | hd
    · exact not_isNode (by decide) d hd
    · exact not_isNode (by decide) d hd
  refine ((sublist_doc ds).subperm.append ((subperm_signature hp hr).append (sublist_trailing hf).subperm)).trans ?_
  have hinner := (commentsIn_append htrailing ds).subperm
  exact ((List.Subperm.refl _).append hinner).trans
    ((commentsIn_append hdoc ds).subperm.trans (commentsIn_sublist _ ds).subperm)

end

mutual

theorem subperm_type : ∀ {t : Tree} {type : TypeExpr},
    t.Formed → TypeExpr.ofTree? t = some type → type.comments.Subperm (Format.comments t)
  | .leaf _, _, _, h => by cases h
  | .node kind r cs, type, hf, h => by
    have hcs : ∀ c ∈ cs, c.Formed := fun c hc => hf.child hc
    have htypes := (subperm_types hcs).trans (commentsIn_sublist _ cs).subperm
    rw [comments_node]
    cases kind with
    | nameRef =>
      obtain ⟨id, -, rfl⟩ := Option.map_eq_some_iff.mp h
      rw [TypeExpr.comments]
      exact List.nil_subperm
    | selector =>
      cases h
      rw [TypeExpr.comments]
      exact List.nil_subperm
    | sliceType | pointerType | chanType =>
      cases h
      rw [TypeExpr.comments]
      exact (headD_sublist _).subperm.trans htypes
    | mapType =>
      cases h
      rw [TypeExpr.comments]
      exact (headD_tail_sublist _).subperm.trans htypes
    | funcType =>
      cases h
      rw [TypeExpr.comments, Signature.comments]
      exact (subperm_signature (subperm_paramsIn _ hcs) (subperm_paramsIn _ hcs)).trans
        (commentsIn_sublist _ cs).subperm
    | structType =>
      cases h
      rw [TypeExpr.comments]
      split
      · exact List.nil_subperm
      · exact subperm_fieldsIn hcs
    | interfaceType =>
      cases h
      rw [TypeExpr.comments]
      split
      · exact List.nil_subperm
      · exact subperm_methodsIn hcs
    | _ => cases h

theorem subperm_types : ∀ {cs : List Tree}, (∀ c ∈ cs, c.Formed) →
    ((typesAmong cs).flatMap TypeExpr.comments).Subperm (commentsIn readsAsType cs)
  | [], _ => by
    rw [typesAmong]
    exact .refl _
  | c :: cs, hf => by
    have hrest := subperm_types fun d hd => hf d (List.mem_cons_of_mem c hd)
    rw [typesAmong, commentsIn_cons, readsAsType]
    cases h : TypeExpr.ofTree? c with
    | none => exact hrest
    | some type =>
      rw [List.flatMap_cons, Option.isSome_some, if_pos rfl]
      exact (subperm_type (hf c List.mem_cons_self) h).append hrest

theorem subperm_paramsIn (k : NodeKind) : ∀ {cs : List Tree}, (∀ c ∈ cs, c.Formed) →
    (paramComments (paramsIn k cs)).Subperm (commentsIn (isNode k) cs)
  | [], _ => by
    rw [paramsIn, paramComments]
    exact List.nil_subperm
  | .leaf _ :: cs, hf => by
    have hrest := subperm_paramsIn k fun d hd => hf d (List.mem_cons_of_mem _ hd)
    rwa [paramsIn]
  | .node kind r ds :: cs, hf => by
    have hrest := subperm_paramsIn k fun d hd => hf d (List.mem_cons_of_mem _ hd)
    rw [paramsIn, commentsIn_cons]
    by_cases hk : kind = k
    · have hnode := subperm_paramsAmong none fun d hd => (hf _ List.mem_cons_self).child hd
      rw [if_pos hk, if_pos (by simp [isNode, kind?, hk]), comments_node]
      exact hnode.trans (List.sublist_append_left _ _).subperm
    · rw [if_neg hk]
      exact hrest.trans (List.sublist_append_right _ _).subperm

theorem subperm_paramsAmong : ∀ {cs : List Tree} (name : Option Token),
    (∀ c ∈ cs, c.Formed) → (paramComments (paramsAmong name cs)).Subperm (cs.flatMap Format.comments)
  | [], _, _ => by
    rw [paramsAmong, paramComments]
    exact List.nil_subperm
  | c :: cs, name, hf => by
    have hrest (name : Option Token) := subperm_paramsAmong name fun d hd => hf d (List.mem_cons_of_mem _ hd)
    have hskip (name : Option Token) := (hrest name).trans (List.sublist_append_right (Format.comments c) _).subperm
    rw [paramsAmong, List.flatMap_cons]
    split
    · exact hskip _
    · split
      · rename_i type h
        rw [paramComments]
        exact (subperm_type (hf c List.mem_cons_self) h).append (hrest none)
      · exact hskip _

theorem subperm_fieldsIn : ∀ {cs : List Tree}, (∀ c ∈ cs, c.Formed) →
    (fieldComments (fieldsIn cs)).Subperm (cs.flatMap Format.comments)
  | [], _ => by
    rw [fieldsIn, fieldComments]
    exact List.nil_subperm
  | .leaf _ :: cs, hf => by
    have hrest := subperm_fieldsIn fun d hd => hf d (List.mem_cons_of_mem _ hd)
    rw [fieldsIn, List.flatMap_cons]
    exact hrest.trans (List.sublist_append_right _ _).subperm
  | .node kind r ds :: cs, hf => by
    have hrest := subperm_fieldsIn fun d hd => hf d (List.mem_cons_of_mem _ hd)
    have hnode := subperm_fieldItems fun d hd => (hf _ List.mem_cons_self).child hd
    rw [fieldsIn, List.flatMap_cons, comments_node]
    split
    · exact hnode.trans (List.sublist_append_left _ _).subperm
    · exact hrest.trans (List.sublist_append_right _ _).subperm

theorem subperm_fieldItems : ∀ {cs : List Tree}, (∀ c ∈ cs, c.Formed) →
    (fieldComments (fieldItems cs)).Subperm (cs.flatMap Format.comments)
  | [], _ => by
    rw [fieldItems, fieldComments]
    exact List.nil_subperm
  | .leaf t :: cs, hf => by
    have hrest := subperm_fieldItems fun d hd => hf d (List.mem_cons_of_mem _ hd)
    rw [fieldItems, List.flatMap_cons, comments_leaf, Item.ofToken?]
    split
    · simpa [fieldComments] using (List.subperm_cons t).mpr hrest
    · split <;> simpa [fieldComments] using hrest
  | .node kind r ds :: cs, hf => by
    have hrest := subperm_fieldItems fun d hd => hf d (List.mem_cons_of_mem _ hd)
    have hds : ∀ d ∈ ds, d.Formed := fun d hd => (hf _ List.mem_cons_self).child hd
    rw [fieldItems, List.flatMap_cons, comments_node]
    split
    · rw [fieldComments]
      exact (subperm_typed hds ((headD_sublist _).subperm.trans (subperm_types hds))).append hrest
    · exact hrest.trans (List.sublist_append_right _ _).subperm

theorem subperm_methodsIn : ∀ {cs : List Tree}, (∀ c ∈ cs, c.Formed) →
    (methodComments (methodsIn cs)).Subperm (cs.flatMap Format.comments)
  | [], _ => by
    rw [methodsIn, methodComments]
    exact List.nil_subperm
  | .leaf _ :: cs, hf => by
    have hrest := subperm_methodsIn fun d hd => hf d (List.mem_cons_of_mem _ hd)
    rw [methodsIn, List.flatMap_cons]
    exact hrest.trans (List.sublist_append_right _ _).subperm
  | .node kind r ds :: cs, hf => by
    have hrest := subperm_methodsIn fun d hd => hf d (List.mem_cons_of_mem _ hd)
    have hnode := subperm_methodItems fun d hd => (hf _ List.mem_cons_self).child hd
    rw [methodsIn, List.flatMap_cons, comments_node]
    split
    · exact hnode.trans (List.sublist_append_left _ _).subperm
    · exact hrest.trans (List.sublist_append_right _ _).subperm

theorem subperm_methodItems : ∀ {cs : List Tree}, (∀ c ∈ cs, c.Formed) →
    (methodComments (methodItems cs)).Subperm (cs.flatMap Format.comments)
  | [], _ => by
    rw [methodItems, methodComments]
    exact List.nil_subperm
  | .leaf t :: cs, hf => by
    have hrest := subperm_methodItems fun d hd => hf d (List.mem_cons_of_mem _ hd)
    rw [methodItems, List.flatMap_cons, comments_leaf, Item.ofToken?]
    split
    · simpa [methodComments] using (List.subperm_cons t).mpr hrest
    · split <;> simpa [methodComments] using hrest
  | .node kind r ds :: cs, hf => by
    have hrest := subperm_methodItems fun d hd => hf d (List.mem_cons_of_mem _ hd)
    have hds : ∀ d ∈ ds, d.Formed := fun d hd => (hf _ List.mem_cons_self).child hd
    rw [methodItems, List.flatMap_cons, comments_node]
    split
    · rw [methodComments, Signature.comments]
      exact (subperm_method hds (subperm_paramsIn _ hds) (subperm_paramsIn _ hds)).append hrest
    · exact hrest.trans (List.sublist_append_right _ _).subperm

end

/-! ## Declarations -/

theorem subperm_plain {ds : List Tree} (hf : ∀ d ∈ ds, d.Formed) :
    (docComments (Doc.among? ds) ++ (trailingAmong? ds).toList).Subperm (ds.flatMap Format.comments) :=
  ((sublist_doc ds).subperm.append (sublist_trailing hf).subperm).trans
    ((commentsIn_append (not_isNode (by decide)) ds).subperm.trans (commentsIn_sublist _ ds).subperm)

theorem subperm_importSpec {c : Tree} {spec : ImportSpec} (hf : c.Formed) (h : ImportSpec.ofTree? c = some spec) :
    c.isNode .importSpec = true ∧ spec.comments.Subperm (Format.comments c) := by
  cases c with
  | leaf t => cases h
  | node kind r ds =>
    cases kind <;> cases h
    rw [comments_node]
    exact ⟨rfl, subperm_plain fun d hd => hf.child hd⟩

theorem subperm_typeSpec {c : Tree} {spec : TypeSpec} (hf : c.Formed) (h : TypeSpec.ofTree? c = some spec) :
    c.isNode .typeSpec = true ∧ spec.comments.Subperm (Format.comments c) := by
  cases c with
  | leaf t => cases h
  | node kind r ds =>
    cases kind with
    | typeSpec =>
      obtain ⟨name, -, rfl⟩ := Option.map_eq_some_iff.mp h
      have hds : ∀ d ∈ ds, d.Formed := fun d hd => hf.child hd
      rw [comments_node]
      exact ⟨rfl, subperm_typed hds ((headD_sublist _).subperm.trans (subperm_types hds))⟩
    | _ => cases h

theorem subperm_constSpec {c : Tree} {spec : ConstSpec} (hf : c.Formed) (h : ConstSpec.ofTree? c = some spec) :
    c.isNode .constSpec = true ∧ spec.comments.Subperm (Format.comments c) := by
  cases c with
  | leaf t => cases h
  | node kind r ds =>
    cases kind with
    | constSpec =>
      obtain ⟨name, -, rfl⟩ := Option.map_eq_some_iff.mp h
      have hds : ∀ d ∈ ds, d.Formed := fun d hd => hf.child hd
      have hsub : (ds.takeWhile (!isEqSign ·)).Sublist ds := List.takeWhile_sublist _
      have htype := (headD_sublist _).subperm.trans (subperm_types fun d hd => hds d (hsub.subset hd))
      rw [comments_node]
      exact ⟨rfl, subperm_typed hds (htype.trans (hsub.flatMap _).subperm)⟩
    | _ => cases h

section
variable {α : Type} {spec? : Tree → Option α} {row : α → List Token}

/-- Items are read off tokens and nodes that `p` allows. -/
theorem subperm_items {p : Tree → Bool} (hleaf : ∀ t, p (.leaf t) = true)
    (hspec : ∀ (c : Tree) (a : α), c.Formed → spec? c = some a → p c = true ∧ (row a).Subperm (Format.comments c)) :
    ∀ {cs : List Tree}, (∀ c ∈ cs, c.Formed) →
      (itemComments row (cs.filterMap (Decl.item? spec?))).Subperm (commentsIn p cs)
  | [], _ => List.nil_subperm
  | .leaf t :: cs, hf => by
    have hrest := subperm_items hleaf hspec fun d hd => hf d (List.mem_cons_of_mem _ hd)
    have hitem : Decl.item? spec? (.leaf t) = Item.ofToken? t := rfl
    rw [commentsIn_cons, if_pos (hleaf t), comments_leaf, List.filterMap_cons, hitem, Item.ofToken?]
    by_cases hcomment : t.isComment = true
    · simpa [hcomment, itemComments] using (List.subperm_cons t).mpr hrest
    · by_cases hblank : t.kind = .whitespace
      · simpa [hcomment, hblank, itemComments] using hrest
      · simpa [hcomment, hblank] using hrest
  | .node kind r ds :: cs, hf => by
    have hrest := subperm_items hleaf hspec fun d hd => hf d (List.mem_cons_of_mem _ hd)
    have hitem : Decl.item? spec? (.node kind r ds) = (spec? (.node kind r ds)).map .entry := rfl
    rw [commentsIn_cons, List.filterMap_cons, hitem]
    cases h : spec? (.node kind r ds) with
    | none => exact hrest.trans (List.sublist_append_right _ _).subperm
    | some a =>
      obtain ⟨hk, ha⟩ := hspec _ a (hf _ List.mem_cons_self) h
      rw [if_pos hk]
      exact ha.append hrest

theorem sublist_itemComments {a : α} : ∀ items : List (Item α), a ∈ entries items →
    (row a).Sublist (itemComments row items)
  | [], h => by cases h
  | .gap _ :: items, h => sublist_itemComments items h
  | .comment t :: items, h => (sublist_itemComments items h).cons t
  | .entry b :: items, h => by
    rw [itemComments]
    rcases List.mem_cons.mp h with rfl | h
    · exact List.sublist_append_left _ _
    · exact (sublist_itemComments items h).trans (List.sublist_append_right _ _)

/-- What can be an item of a list: a token, or a node of kind `k`. -/
def Tree.isItem (k : NodeKind) (c : Tree) : Bool := c.kind?.isNone || c.isNode k

theorem subperm_decl {k : NodeKind} {range : ByteRange} {cs : List Tree} {single : α → List Token}
    (hspec : ∀ (c : Tree) (a : α), c.Formed → spec? c = some a → c.isNode k = true ∧
      (row a).Subperm (Format.comments c))
    (hf : ∀ c ∈ cs, c.Formed) (hdoc : k ≠ .doc) (htrailing : k ≠ .trailing)
    (hsingle : ∀ a, (single a).Subperm (row a ++ (trailingAmong? cs).toList)) :
    ((Decl.ofChildren spec? range cs).comments row single).Subperm (cs.flatMap Format.comments) := by
  have hitemTrailing : ∀ c : Tree, c.isItem k = true → c.isNode .trailing = false := fun c hc => by
    rw [Bool.eq_false_iff]
    intro h
    obtain ⟨r, ds, rfl⟩ := exists_of_isNode h
    simp [isItem, kind?, isNode, htrailing.symm] at hc
  have hdocItem : ∀ c : Tree, c.isNode .doc = true → (c.isItem k || c.isNode .trailing) = false := fun c hc => by
    obtain ⟨r, ds, rfl⟩ := exists_of_isNode hc
    simp [isItem, kind?, isNode, hdoc.symm]
  obtain ⟨inside, hsub, hd⟩ : ∃ inside, List.Sublist inside cs ∧ (Decl.ofChildren spec? range cs).items =
      inside.filterMap (Decl.item? spec?) := by
    refine ⟨_, ?_, rfl⟩
    split
    · exact List.dropWhile_sublist _
    · exact .refl _
  have hitems : (itemComments row (Decl.ofChildren spec? range cs).items).Subperm (commentsIn (isItem k) cs) := by
    rw [hd]
    refine (subperm_items (fun _ => rfl) (fun c a hc h => ?_) fun c hc => hf c (hsub.subset hc)).trans
      (hsub.flatMap _).subperm
    obtain ⟨hk, ha⟩ := hspec c a hc h
    exact ⟨by rw [isItem, hk, Bool.or_true], ha⟩
  refine List.Subperm.trans (List.Subperm.append (sublist_doc cs).subperm ?_)
    ((commentsIn_append hdocItem cs).subperm.trans (commentsIn_sublist _ cs).subperm)
  refine List.Subperm.trans ?_
    ((hitems.append (sublist_trailing hf).subperm).trans (commentsIn_append hitemTrailing cs).subperm)
  split
  · exact .refl _
  · rw [Decl.specs]
    cases h : entries (Decl.ofChildren spec? range cs).items with
    | nil => exact List.nil_subperm
    | cons a as =>
      have hrow : (row a).Sublist (itemComments row (Decl.ofChildren spec? range cs).items) :=
        sublist_itemComments _ (by simp [h])
      exact (hsingle a).trans (hrow.append_right _).subperm

end

/-- A spec that stands alone has one trailing comment at most. -/
theorem subperm_orElse (a b : Option Token) : (a <|> b).toList.Subperm (a.toList ++ b.toList) := by
  cases a with
  | none => exact .refl _
  | some t => exact (List.sublist_append_left _ _).subperm

theorem subperm_topLevel {c : Tree} {d : TopLevel} (hf : c.Formed) (h : TopLevel.ofTree? c = some d) :
    d.comments.Subperm (Format.comments c) := by
  cases c with
  | leaf t => cases h
  | node kind r cs =>
    have hcs : ∀ c ∈ cs, c.Formed := fun c hc => hf.child hc
    rw [comments_node]
    cases kind with
    | packageClause =>
      cases h
      exact subperm_plain hcs
    | importDecl =>
      cases h
      refine subperm_decl (fun c a => subperm_importSpec) hcs (by decide) (by decide) fun spec => ?_
      refine (subperm_orElse _ _).trans ?_
      rw [ImportSpec.comments, List.append_assoc]
      exact (List.sublist_append_right _ _).subperm
    | typeDecl =>
      cases h
      refine subperm_decl (fun c a => subperm_typeSpec) hcs (by decide) (by decide) fun spec => ?_
      refine ((List.Subperm.refl _).append (subperm_orElse _ _)).trans ?_
      rw [TypeSpec.comments, List.append_assoc, List.append_assoc]
      exact (List.sublist_append_right _ _).subperm
    | constDecl =>
      cases h
      exact subperm_decl (fun c a => subperm_constSpec) hcs (by decide) (by decide) fun _ => .refl _
    | _ => cases h

/-- The comments that printing comes to are comments of the tree, each of them once. -/
theorem subperm_file {t : Tree} (hf : t.Formed) :
    (itemComments TopLevel.comments (SourceFile.ofTree t).items).Subperm (Format.comments t) := by
  cases t with
  | leaf t => exact List.nil_subperm
  | node kind r cs =>
    rw [comments_node]
    exact (subperm_items (fun _ => rfl) (fun c d hc h => ⟨rfl, subperm_topLevel hc h⟩) fun c hc => hf.child hc).trans
      (commentsIn_sublist _ cs).subperm

end IdlWorkbench
