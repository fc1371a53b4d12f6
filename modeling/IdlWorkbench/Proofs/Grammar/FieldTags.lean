import IdlWorkbench.Ast.OfTree
import IdlWorkbench.Proofs.Grammar.Drawn
import Mathlib.Data.List.Nodup
import Mathlib.Data.List.Perm.Subperm

/-!
# Where the tags of fields stand

The tag of a field is a leaf below a tag node, which hangs from a field, which hangs from the field list of a struct
type. There is one way up from a leaf, so a token is the tag of one field of one struct type at most: the tags of all
struct types together are part of the leaves of the tree, and no two of them have the same place.
-/

namespace IdlWorkbench

namespace Tree

def within (k : NodeKind) (pick : Tree → List Token) : Tree → List Token
  | leaf _ => []
  | node kind _ cs => if kind = k then cs.flatMap pick else []

def ownToken (t : Tree) : List Token := t.token?.toList

def tagTokens : Tree → List Token :=
  within .structType (within .fieldList (within .field (within .fieldTag ownToken)))

/-- Ways to take tokens off a tree that go down without a struct type on the way. -/
inductive Picks : (Tree → List Token) → Prop
  | nothing : Picks fun _ => []
  | token : Picks ownToken
  | within {k pick} : k ≠ .structType → Picks pick → Picks (within k pick)

/-- What `pick` takes off a tree is no tag of a struct type in it, and everything together stands in the tree once.
-/
def Apart (pick : Tree → List Token) (t : Tree) : Prop := (pick t ++ t.nodes.flatMap tagTokens).Subperm t.leaves

section
variable {pick : Tree → List Token} {k : NodeKind} {r : ByteRange} {cs : List Tree}

theorem subperm_children : ∀ {cs : List Tree}, (∀ c ∈ cs, Apart pick c) →
    (cs.flatMap pick ++ (nodesOf cs).flatMap tagTokens).Subperm (leavesOf cs)
  | [], _ => List.Subperm.refl _
  | c :: cs, h => by
    have hall := (h c List.mem_cons_self).append (subperm_children fun d hd => h d (List.mem_cons_of_mem _ hd))
    rw [List.flatMap_cons, nodesOf, List.flatMap_append, leavesOf]
    refine List.Subperm.trans (List.Perm.subperm ?_) hall
    simp only [List.append_assoc]
    refine List.Perm.append_left _ ?_
    simp only [← List.append_assoc]
    exact List.perm_append_comm.append_right _

theorem flatMap_nodes : (node k r cs).nodes.flatMap tagTokens =
    (if k = .structType then cs.flatMap (within .fieldList (within .field (within .fieldTag ownToken))) else []) ++
      (nodesOf cs).flatMap tagTokens := by
  rw [nodes, List.flatMap_cons]
  rfl

/-- The tags of a struct type go through its field lists. -/
theorem apart_nothing_node (h : ∀ c ∈ cs, ∀ {pick}, Picks pick → Apart pick c) :
    Apart (fun _ => []) (node k r cs) := by
  rw [Apart, List.nil_append, flatMap_nodes, leaves]
  by_cases hk : k = .structType
  · rw [if_pos hk]
    refine subperm_children fun c hc =>
      h c hc (.within (by decide) (.within (by decide) (.within (by decide) .token)))
  · have hall := subperm_children fun c hc => h c hc .nothing
    have hnil : cs.flatMap (fun _ => ([] : List Token)) = [] := List.flatMap_eq_nil_iff.mpr fun _ _ => rfl
    rwa [if_neg hk, List.nil_append, ← List.nil_append ((nodesOf cs).flatMap tagTokens), ← hnil]

theorem apart_node (h : ∀ c ∈ cs, ∀ {pick}, Picks pick → Apart pick c) (hpick : Picks pick) :
    Apart pick (node k r cs) := by
  have hnothing := apart_nothing_node (k := k) (r := r) h
  cases hpick with
  | nothing => exact hnothing
  | token => exact hnothing
  | @within kind pick hkind hpick =>
    by_cases hk : k = kind
    · subst hk
      rw [Apart, flatMap_nodes, Tree.within, if_pos rfl, if_neg hkind, leaves]
      exact subperm_children fun c hc => h c hc hpick
    · rw [Apart, Tree.within, if_neg hk]
      exact hnothing

end

mutual

theorem apart : ∀ (t : Tree) {pick : Tree → List Token}, Picks pick → Apart pick t
  | leaf tok, _, h => by
    cases h with
    | nothing => exact List.nil_subperm
    | token => exact List.Subperm.refl _
    | within => exact List.nil_subperm
  | node _ _ cs, _, h => apart_node (apart_of_mem cs) h

theorem apart_of_mem : ∀ (cs : List Tree), ∀ c ∈ cs, ∀ {pick : Tree → List Token}, Picks pick → Apart pick c
  | [], _, hc, _, _ => absurd hc List.not_mem_nil
  | d :: cs, c, hc, _, h => by
    rcases List.mem_cons.mp hc with hc | hc
    · exact hc ▸ apart d h
    · exact apart_of_mem cs c hc h

end

/-! ## What the readers pick -/

theorem sublist_tag (cs : List Tree) :
    (tokenIn? .fieldTag cs).toList.Sublist (cs.flatMap (within .fieldTag ownToken)) := by
  unfold tokenIn?
  cases htag : child? .fieldTag cs with
  | none => exact List.nil_sublist _
  | some t =>
    obtain ⟨r, ds, rfl⟩ : ∃ r ds, t = node .fieldTag r ds := by
      have hkind := List.find?_some htag
      cases t with
      | leaf tok => cases hkind
      | node k r ds => exact ⟨r, ds, by rw [Option.some.inj (beq_iff_eq.mp hkind)]⟩
    refine List.Sublist.trans ?_ (List.sublist_flatten_of_mem (List.mem_map_of_mem (List.mem_of_find?_eq_some htag)))
    rw [Option.bind_some, within, if_pos rfl, children]
    have htokens : ds.flatMap ownToken = tokens ds := by
      rw [tokens, List.filterMap_eq_flatMap_toList]
      rfl
    rw [htokens]
    cases hfirst : significant? ds with
    | none => exact List.nil_sublist _
    | some tok => exact List.singleton_sublist.mpr (List.mem_of_find?_eq_some hfirst)

theorem sublist_fieldItems : ∀ cs : List Tree,
    ((entries (fieldItems cs)).filterMap Field.tag).Sublist (cs.flatMap (within .field (within .fieldTag ownToken)))
  | [] => List.Sublist.refl _
  | leaf tok :: cs => by
    have hnone : entries (Item.ofToken? (α := Field) tok).toList = [] := by
      unfold Item.ofToken?
      split
      · rfl
      · split <;> rfl
    rw [fieldItems, entries, List.filterMap_append, ← entries, hnone]
    exact sublist_fieldItems cs
  | node k r ds :: cs => by
    rw [fieldItems, List.flatMap_cons, within]
    split
    · have hcons {f : Field} {items : List (Item Field)} : (entries (.entry f :: items)).filterMap Field.tag =
          f.tag.toList ++ (entries items).filterMap Field.tag := by
        cases htag : f.tag <;> simp [entries, Item.entry?, htag]
      rw [hcons]
      exact (sublist_tag ds).append (sublist_fieldItems cs)
    · exact sublist_fieldItems cs

theorem sublist_fieldsIn : ∀ cs : List Tree, ((entries (fieldsIn cs)).filterMap Field.tag).Sublist
    (cs.flatMap (within .fieldList (within .field (within .fieldTag ownToken))))
  | [] => List.Sublist.refl _
  | leaf _ :: cs => by
    rw [fieldsIn]
    exact sublist_fieldsIn cs
  | node k r ds :: cs => by
    rw [fieldsIn, List.flatMap_cons, within]
    split
    · exact (sublist_fieldItems ds).trans (List.sublist_append_left _ _)
    · exact sublist_fieldsIn cs

def fieldTags (t : Tree) : List Token := t.structTypes.flatMap fun struct => struct.fields.filterMap Field.tag

theorem sublist_structTypes (ts : List Tree) :
    (((ts.filter (isNode .structType)).filterMap TypeExpr.ofTree?).flatMap fun struct =>
      struct.fields.filterMap Field.tag).Sublist
      (ts.flatMap tagTokens) := by
  induction ts with
  | nil => exact List.Sublist.refl _
  | cons t ts ih =>
    cases t with
    | leaf tok => exact ih
    | node k r cs =>
      by_cases hk : k = .structType
      · subst hk
        have hread : TypeExpr.ofTree? (node .structType r cs) = some (.struct r (bracesAmong cs) (fieldsIn cs)) := by
          rw [TypeExpr.ofTree?]
        rw [List.filter_cons_of_pos rfl, List.filterMap_cons_some hread, List.flatMap_cons, List.flatMap_cons]
        exact (sublist_fieldsIn cs).append ih
      · have hkind : ¬ isNode .structType (node k r cs) = true := by simpa [isNode, kind?] using hk
        rw [List.filter_cons_of_neg hkind, List.flatMap_cons]
        exact ih.trans (List.sublist_append_right _ _)

/-- The tags of fields are leaves of the tree, each of them once. -/
theorem subperm_fieldTags (t : Tree) : t.fieldTags.Subperm t.leaves :=
  (sublist_structTypes t.nodes).subperm.trans (apart t .nothing)

end Tree

namespace Grammar

/-- No two fields of a text have their tags at the same place. -/
theorem nodup_fieldTags (text : String) : ((parse text).tree.fieldTags.map Token.range).Nodup := by
  have hleaves : (parse text).tree.leaves = Token.tokenize text := (parse_covers text).leaves
  have hoffsets : ((Token.tokenize text).map Token.offset).Nodup :=
    List.pairwise_map.mpr ((Token.sorted_tokenize text).imp Nat.ne_of_lt)
  obtain ⟨tags, hperm, hsub⟩ := Tree.subperm_fieldTags (parse text).tree
  rw [hleaves] at hsub
  have htags : (tags.map Token.offset).Nodup := hoffsets.sublist (hsub.map _)
  refine List.Nodup.of_map ByteRange.start ?_
  rw [List.map_map]
  exact (hperm.map Token.offset).nodup_iff.mp htags

end Grammar

end IdlWorkbench
