import IdlWorkbench.Format.Sequence
import IdlWorkbench.Proofs.Action
import IdlWorkbench.Proofs.Grammar.Formed
import Mathlib.Data.List.Perm.Subperm
import Mathlib.Data.List.ReduceOption
import Mathlib.Data.Nat.Nth

/-!
# Which numbers the fields of a struct get

A field has a number if its tag holds a text under `pb`. The `k`-th field without one gets the `k`-th number
from 1 on that no field has. There are as many candidates as fields, and every field that has a number takes
one of them away at most, so enough are left for the others.

The numbers of all structs of a file go into one table, by the ranges of the fields. A struct type that stands in
a field starts behind the field's start and with its keyword, so the fields inside it start later still: no two
fields of a file have the same range. So no entry takes the place of another, and what the table holds for a field
is the number that its own struct gives it.
-/

namespace IdlWorkbench

namespace Format

def numberText? (f : Field) : Option String := StructTag.find? (tagValue f.tag) "pb"

def unnumbered (fields : List Field) : List Field := fields.filter fun f => (numberText? f).isNone

def takenNumbers (fields : List Field) : List Int := fields.filterMap fun f => (numberText? f).bind Text.int64?

def Unused (fields : List Field) (n : Nat) : Prop := 0 < n ∧ (n : Int) ∉ takenNumbers fields

instance (fields : List Field) : DecidablePred (Unused fields) := fun _ => inferInstanceAs (Decidable (_ ∧ _))

variable {fields : List Field}

/-! ## Numbers that fields have -/

theorem forall₂_of_mapM {ε α β : Type} {f : α → Except ε β} : ∀ {as : List α} {bs : List β},
    as.mapM f = .ok bs → List.Forall₂ (fun a b => f a = .ok b) as bs
  | [], bs, h => by
    rw [List.mapM_nil, pure_eq_ok] at h
    exact h ▸ .nil
  | a :: as, bs, h => by
    rw [List.mapM_cons] at h
    obtain ⟨b, hb, h⟩ := bind_eq_ok.mp h
    obtain ⟨rest, hrest, h⟩ := bind_eq_ok.mp h
    rw [pure_eq_ok] at h
    exact h ▸ .cons hb (forall₂_of_mapM hrest)

theorem find?_empty (key : String) : StructTag.find? "" key = none := rfl

theorem numberText?_none {f : Field} (h : f.tag = none) : numberText? f = none := by
  rw [numberText?, h]
  exact find?_empty "pb"

/-- A number that can be read is what the tag holds. -/
theorem ownNumber_ok {f : Field} {own : Option Int} (h : ownNumber f = .ok own) :
    own = (numberText? f).bind Text.int64? ∧ own.isNone = (numberText? f).isNone := by
  cases htag : f.tag with
  | none =>
    rw [ownNumber, htag] at h
    cases h
    rw [numberText?_none htag]
    exact ⟨rfl, rfl⟩
  | some tag =>
    have htext : numberText? f = StructTag.find? (tagValue (some tag)) "pb" := by rw [numberText?, htag]
    simp only [ownNumber, htag, ← htext] at h
    cases hvalue : numberText? f with
    | none =>
      rw [hvalue] at h
      cases h
      exact ⟨rfl, rfl⟩
    | some value =>
      simp only [hvalue] at h
      split at h
      · cases h
      · split at h
        · rename_i n hn
          cases h
          exact ⟨hn.symm, rfl⟩
        · cases h

theorem own_eq {own : List (Option Int)} (h : fields.mapM ownNumber = .ok own) :
    own = fields.map (fun f => (numberText? f).bind Text.int64?) ∧
      own.map Option.isNone = fields.map fun f => (numberText? f).isNone := by
  have hall := forall₂_of_mapM h
  clear h
  induction hall with
  | nil => exact ⟨rfl, rfl⟩
  | cons hf _ ih =>
    obtain ⟨hown, hnone⟩ := ownNumber_ok hf
    simp only [List.map_cons, ← hown, ← hnone, ← ih.1, ← ih.2, and_self]

/-! ## Candidates -/

/-- The numbers up to a bound that satisfy `p` are the first ones that do. -/
theorem filter_range (p : Nat → Prop) [DecidablePred p] (n : Nat) :
    ((List.range n).filter fun k => p k) = (List.range (Nat.count p n)).map (Nat.nth p) := by
  induction n with
  | zero => simp
  | succ n ih =>
    rw [List.range_succ, List.filter_append, ih, Nat.count_succ]
    by_cases h : p n
    · simp [h, List.range_succ, Nat.nth_count]
    · simp [h]

theorem filter_candidates (fields : List Field) (n : Nat) :
    ((List.range' 1 n).filter fun k => Unused fields k) =
      (List.range (Nat.count (Unused fields) (n + 1))).map (Nat.nth (Unused fields)) := by
  have hzero : ¬ Unused fields 0 := fun h => absurd h.1 (Nat.lt_irrefl 0)
  rw [← filter_range, List.range_eq_range', List.range'_succ, List.filter_cons, if_neg (by simpa using hzero)]

theorem length_taken_le (fields : List Field) : (takenNumbers fields).length +
      (unnumbered fields).length ≤ fields.length := by
  induction fields with
  | nil => exact Nat.le_refl 0
  | cons f fields ih =>
    unfold takenNumbers unnumbered at *
    cases hf : numberText? f with
    | none => simp only [List.filterMap_cons, List.filter_cons, hf, Option.bind_none, Option.isNone_none, if_true,
        List.length_cons]; omega
    | some value =>
      cases hn : Text.int64? value <;>
        simp only [List.filterMap_cons, List.filter_cons, hf, hn, Option.bind_some, Option.isNone_some,
          Bool.false_eq_true, if_false, List.length_cons] <;> omega

/-- Of as many candidates as fields, each field with a number takes one away at most. -/
theorem length_unnumbered_le (fields : List Field) :
    (unnumbered fields).length ≤ ((List.range' 1 fields.length).filter fun k => Unused fields k).length := by
  have hsplit := List.length_eq_length_filter_add (l := List.range' 1 fields.length) (f := fun k => Unused fields k)
  have hused : ((List.range' 1 fields.length).filter fun k => !Unused fields k).length ≤
    (takenNumbers fields).length := by
    rw [← List.length_map (f := Int.ofNat)]
    refine List.Subperm.length_le (List.Nodup.subperm ?_ fun n hn => ?_)
    · exact ((List.nodup_range' (s := 1) (n := fields.length)).filter _).map fun _ _ => Int.ofNat.inj
    · obtain ⟨k, hk, rfl⟩ := List.mem_map.mp hn
      obtain ⟨hrange, hk⟩ := List.mem_filter.mp hk
      have hpos : 0 < k := (List.mem_range'_1.mp hrange).1
      by_contra hnot
      simp [Unused, hpos] at hk
      exact hnot hk
  have := length_taken_le fields
  rw [List.length_range'] at hsplit
  omega

/-! ## Assignment -/

/-- The entries for the fields of a struct: the `k`-th field without a number has the `k`-th that is unused. -/
noncomputable def leastEntries (fields : List Field) : Assignments :=
  (unnumbered fields).mapIdx fun k f => (f.range, Nat.nth (Unused fields) k)

/-- What `table` has to be for the fields of a struct. -/
structure Numbers (fields : List Field) (table : Assignments) : Prop where
  entries : table = leastEntries fields
  increasing : (table.map Prod.snd).Pairwise (· < ·)
  unused : ∀ n ∈ table.map Prod.snd, Unused fields n
  bounded : ∀ n ∈ table.map Prod.snd, n ≤ fields.length

/-- Filling in passes over the fields with a number and gives the others what is free, as long as there is any. -/
theorem entries_fill : ∀ (fields : List Field) (free : List Nat) (own : List (Option Int)),
    (own.map Option.isNone = fields.map fun f => (numberText? f).isNone) →
    ((fields.zip (fill free own)).filterMap fun (f, n) => n.map fun n => (f.range, n)) =
      ((unnumbered fields).map Field.range).zip free
  | [], _, _, _ => by simp [unnumbered]
  | f :: fields, free, [], h => by simp at h
  | f :: fields, free, o :: own, h => by
    rw [List.map_cons, List.map_cons, List.cons.injEq] at h
    obtain ⟨ho, hown⟩ := h
    have ih := fun free => entries_fill fields free own hown
    cases o with
    | some n =>
      have hf : (numberText? f).isNone = false := ho.symm
      rw [unnumbered, List.filter_cons, hf]
      exact ih free
    | none =>
      have hf : (numberText? f).isNone = true := ho.symm
      rw [unnumbered, List.filter_cons, hf]
      cases free with
      | nil =>
        have := ih []
        rw [List.zip_nil_right] at this ⊢
        exact this
      | cons n free => exact congrArg _ (ih free)

theorem filter_free {own : List (Option Int)} (h : own = fields.map fun f => (numberText? f).bind Text.int64?)
    (n : Nat) :
    ((List.range' 1 n).filter fun k : Nat => !own.contains (some (k : Int))) =
      (List.range' 1 n).filter fun k => Unused fields k := by
  refine List.filter_congr fun k hk => ?_
  have hpos : 0 < k := (List.mem_range'_1.mp hk).1
  have htaken : some (k : Int) ∈ own ↔ (k : Int) ∈ takenNumbers fields := by
    rw [h, takenNumbers, List.mem_map, List.mem_filterMap]
  rw [Bool.eq_iff_iff]
  simp [Unused, hpos, htaken]

theorem zip_nth {n : Nat} (h : (unnumbered fields).length ≤ n) :
    ((unnumbered fields).map Field.range).zip ((List.range n).map (Nat.nth (Unused fields))) =
      leastEntries fields := by
  refine List.ext_getElem (by simpa [leastEntries] using h) fun k _ _ => ?_
  simp [leastEntries]

theorem snd_leastEntries (fields : List Field) :
    (leastEntries fields).map Prod.snd = (List.range (unnumbered fields).length).map (Nat.nth (Unused fields)) := by
  refine List.ext_getElem (by simp [leastEntries]) fun k _ _ => ?_
  simp [leastEntries]

/-- The entries for a struct whose numbers can be read. -/
theorem assignments_numbers {struct : TypeExpr} {table : Assignments} (h : assignments struct = .ok table) :
    Numbers struct.fields table := by
  obtain ⟨numbers, hnumbers, h⟩ := bind_eq_ok.mp h
  obtain ⟨own, hown, hnumbers⟩ := bind_eq_ok.mp hnumbers
  rw [pure_eq_ok] at hnumbers h
  obtain ⟨hvalues, hnone⟩ := own_eq hown
  rw [filter_free hvalues] at hnumbers
  rw [← hnumbers, entries_fill _ _ _ hnone, filter_candidates] at h
  have hle := length_unnumbered_le struct.fields
  rw [filter_candidates, List.length_map, List.length_range] at hle
  have hentries : table = leastEntries struct.fields := h.symm.trans (zip_nth hle)
  -- the numbers that are given are the first of the candidates
  have hsnd : table.map Prod.snd = ((List.range' 1 struct.fields.length).filter fun k => Unused struct.fields k).take
      (unnumbered struct.fields).length := by
    rw [hentries, snd_leastEntries, filter_candidates, ← List.map_take, List.take_range, Nat.min_eq_left hle]
  refine ⟨hentries, ?_, fun n hn => ?_, fun n hn => ?_⟩
  · rw [hsnd]
    exact (List.Pairwise.filter _ List.pairwise_lt_range').sublist (List.take_sublist _ _)
  · rw [hsnd] at hn
    exact of_decide_eq_true (List.mem_filter.mp (List.mem_of_mem_take hn)).2
  · rw [hsnd] at hn
    have := List.mem_range'_1.mp (List.mem_filter.mp (List.mem_of_mem_take hn)).1
    omega

end Format

namespace Tree

/-! ## Where fields start -/

def fieldStarts (cs : List Tree) : List Nat := (cs.filter (isNode .field)).map (·.range.start)

def structStarts (cs : List Tree) : List Nat := ((child? .fieldList cs).map fun t => fieldStarts t.children).getD []

mutual

/-- Where the fields of the struct types in a tree start. -/
def startsBelow : Tree → List Nat
  | leaf _ => []
  | node kind _ cs => (if kind = .structType then structStarts cs else []) ++ startsBelowAll cs

def startsBelowAll : List Tree → List Nat
  | [] => []
  | t :: ts => startsBelow t ++ startsBelowAll ts

end

structure Solid (t : Tree) : Prop where
  formed : t.Formed
  filled : ∀ tok ∈ t.leaves, tok.text ≠ ""

theorem Solid.child {k : NodeKind} {r : ByteRange} {cs : List Tree} (h : (node k r cs).Solid) {c : Tree}
    (hc : c ∈ cs) :
    c.Solid :=
  ⟨h.formed.child hc, fun tok htok => h.filled tok (by rw [leaves]; exact mem_leavesOf.mpr ⟨c, hc, htok⟩)⟩

theorem start_le_stop {t : Tree} (h : t.Tiled) : t.range.start ≤ t.range.stop := by
  rw [Grammar.stop_of_tiled h]
  exact Nat.le_add_right _ _

theorem start_lt_stop {t : Tree} (h : t.Tiled) (hs : t.Solid) (hne : t.leaves ≠ []) :
    t.range.start < t.range.stop := by
  rw [Grammar.stop_of_tiled h]
  obtain ⟨tok, toks, hleaves⟩ := List.exists_cons_of_ne_nil hne
  have htext : tok.text.utf8ByteSize ≠ 0 := by
    have := hs.filled tok (by simp [hleaves])
    simpa using this
  rw [hleaves, List.map_cons, String.join_cons, String.utf8ByteSize_append]
  omega

theorem fieldStarts_cons (c : Tree) (cs : List Tree) :
    fieldStarts (c :: cs) = (if c.isNode .field then [c.range.start] else []) ++ fieldStarts cs := by
  unfold fieldStarts
  rw [List.filter_cons]
  split <;> rfl

theorem structStarts_cons (c : Tree) (cs : List Tree) :
    structStarts (c :: cs) = if c.isNode .fieldList then fieldStarts c.children else structStarts cs := by
  unfold structStarts child?
  rw [List.find?_cons]
  cases c.isNode .fieldList <;> rfl

/-- Different places in a stretch of bytes. -/
structure Spread (start stop : Nat) (ns : List Nat) : Prop where
  nodup : ns.Nodup
  within : ∀ n ∈ ns, start ≤ n ∧ n < stop

namespace Spread

variable {a b b' c : Nat} {ms ns : List Nat}

theorem nil (a b : Nat) : Spread a b [] := ⟨List.nodup_nil, by simp⟩

theorem append (h : Spread a b ms) (h' : Spread b' c ns) (hb : b ≤ b') (hab : a ≤ b') (hbc : b ≤ c) :
    Spread a c (ms ++ ns) := by
  refine ⟨List.nodup_append.mpr ⟨h.nodup, h'.nodup, fun m hm n hn => ?_⟩, fun n hn => ?_⟩
  · have := (h.within m hm).2
    have := (h'.within n hn).1
    omega
  · rcases List.mem_append.mp hn with hn | hn
    · have := h.within n hn
      omega
    · have := h'.within n hn
      omega

theorem perm (h : Spread a b ms) (hp : ms.Perm ns) : Spread a b ns :=
  ⟨hp.nodup_iff.mp h.nodup, fun n hn => h.within n (hp.mem_iff.mpr hn)⟩

theorem mono (h : Spread b c ms) (hab : a ≤ b) : Spread a c ms :=
  ⟨h.nodup, fun n hn => ⟨Nat.le_trans hab (h.within n hn).1, (h.within n hn).2⟩⟩

end Spread

theorem stop_le_of_tiledFrom {cs : List Tree} {start stop : Nat} (h : TiledFrom start cs stop) : start ≤ stop := by
  rw [Grammar.stop_of_tiledFrom h]
  exact Nat.le_add_right _ _

/-- A field and the fields of struct types inside it. -/
theorem spread_field {c : Tree} (ht : c.Tiled) (hs : c.Solid)
    (h : Spread (c.range.start + 1) c.range.stop c.startsBelow) :
    Spread c.range.start c.range.stop ((if c.isNode .field then [c.range.start] else []) ++ c.startsBelow) := by
  split
  · rename_i hfield
    obtain ⟨r, cs, rfl⟩ : ∃ r cs, c = node .field r cs := by
      cases c with
      | leaf tok => cases hfield
      | node k r cs => exact ⟨r, cs, by rw [beq_iff_eq.mp hfield |> Option.some.inj]⟩
    have hlt := start_lt_stop ht hs (by rw [leaves]; exact hs.formed.fits.1)
    have hone : Spread (node .field r cs).range.start ((node .field r cs).range.start + 1)
      [(node .field r cs).range.start] :=
      ⟨List.nodup_singleton _, fun n hn => by
        rw [List.mem_singleton.mp hn]; exact ⟨Nat.le_refl _, Nat.lt_succ_self _⟩⟩
    exact hone.append h (Nat.le_refl _) (Nat.le_succ _) hlt
  · exact h.mono (Nat.le_succ _)

mutual

/-- The fields of struct types in a tree start at different places behind the start of the tree. -/
theorem spread_startsBelow : ∀ {t : Tree}, t.Tiled → t.Solid → Spread (t.range.start + 1) t.range.stop t.startsBelow
  | leaf _, _, _ => .nil _ _
  | node k r cs, ht, hs => by
    rw [Tiled] at ht
    rw [startsBelow]
    have hchild : ∀ c ∈ cs, c.Solid := fun c hc => hs.child hc
    split
    · rename_i hk
      subst hk
      obtain ⟨tok, ts, rfl⟩ : ∃ tok ts, cs = .leaf tok :: ts := hs.formed.fits
      have hkeyword : (leaf tok).range.start < (leaf tok).range.stop :=
        start_lt_stop trivial (hchild _ List.mem_cons_self) (by simp [leaves])
      rw [TiledFrom] at ht
      obtain ⟨hstart, -, hts⟩ := ht
      have := spread_structStarts hts fun c hc => hchild c (List.mem_cons_of_mem _ hc)
      exact this.mono (hstart ▸ hkeyword)
    · exact spread_startsBelowAll ht hchild

/-- The fields of struct types below the children of a node, -/
theorem spread_startsBelowAll : ∀ {cs : List Tree} {start stop : Nat},
    TiledFrom start cs stop → (∀ c ∈ cs, c.Solid) →
    Spread (start + 1) stop (startsBelowAll cs)
  | [], _, _, _, _ => .nil _ _
  | c :: cs, start, stop, ht, hs => by
    rw [TiledFrom] at ht
    obtain ⟨rfl, htc, hts⟩ := ht
    have hc := spread_startsBelow htc (hs c List.mem_cons_self)
    have hrest := spread_startsBelowAll hts fun d hd => hs d (List.mem_cons_of_mem _ hd)
    exact hc.append hrest (Nat.le_succ _) (Nat.succ_le_succ (start_le_stop htc)) (stop_le_of_tiledFrom hts)

/-- the fields among them, -/
theorem spread_fieldStarts : ∀ {cs : List Tree} {start stop : Nat},
    TiledFrom start cs stop → (∀ c ∈ cs, c.Solid) → Spread start stop (fieldStarts cs ++ startsBelowAll cs)
  | [], _, _, _, _ => .nil _ _
  | c :: cs, start, stop, ht, hs => by
    rw [TiledFrom] at ht
    obtain ⟨rfl, htc, hts⟩ := ht
    have hsc := hs c List.mem_cons_self
    have hc := spread_field htc hsc (spread_startsBelow htc hsc)
    have hrest := spread_fieldStarts hts fun d hd => hs d (List.mem_cons_of_mem _ hd)
    rw [fieldStarts_cons, startsBelowAll]
    refine (hc.append hrest (Nat.le_refl _) (start_le_stop htc) (stop_le_of_tiledFrom hts)).perm ?_
    rw [List.append_assoc, List.append_assoc]
    exact List.Perm.append_left _ (List.perm_append_comm_assoc _ _ _)

/-- and those of the struct type with these children. -/
theorem spread_structStarts : ∀ {cs : List Tree} {start stop : Nat},
    TiledFrom start cs stop → (∀ c ∈ cs, c.Solid) → Spread start stop (structStarts cs ++ startsBelowAll cs)
  | [], _, _, _, _ => .nil _ _
  | c :: cs, start, stop, ht, hs => by
    rw [TiledFrom] at ht
    obtain ⟨rfl, htc, hts⟩ := ht
    rw [structStarts_cons, startsBelowAll]
    have hsc := hs c List.mem_cons_self
    have hrest : ∀ d ∈ cs, d.Solid := fun d hd => hs d (List.mem_cons_of_mem _ hd)
    split
    · rename_i hlist
      cases c with
      | leaf tok => cases hlist
      | node k r ds =>
        obtain rfl : k = .fieldList := Option.some.inj (beq_iff_eq.mp hlist)
        rw [Tiled] at htc
        have hfields := spread_fieldStarts htc fun d hd => hsc.child hd
        have hbelow := spread_startsBelowAll hts hrest
        rw [← List.append_assoc]
        exact hfields.append hbelow (Nat.le_succ _) (Nat.le_succ_of_le (stop_le_of_tiledFrom htc))
          (stop_le_of_tiledFrom hts)
    · have hbelow := (spread_startsBelow htc hsc).mono (Nat.le_succ _)
      have := spread_structStarts hts hrest
      exact (hbelow.append this (Nat.le_refl _) (start_le_stop htc) (stop_le_of_tiledFrom hts)).perm
        (List.perm_append_comm_assoc _ _ _)

end

/-! ## Reading fields -/

theorem starts_fieldItems (cs : List Tree) : (entries (fieldItems cs)).map (·.range.start) = fieldStarts cs := by
  induction cs with
  | nil => rfl
  | cons c cs ih =>
    rw [fieldStarts_cons, ← ih]
    cases c with
    | leaf tok =>
      have hnone : entries (Item.ofToken? (α := Field) tok).toList = [] := by
        unfold Item.ofToken?
        split
        · rfl
        · split <;> rfl
      rw [fieldItems, entries, List.filterMap_append, ← entries, hnone]
      rfl
    | node k r ds =>
      rw [fieldItems]
      by_cases hk : k = .field
      · subst hk
        rfl
      · have hne : (node k r ds).isNode .field = false := by simpa [isNode, kind?] using hk
        rw [if_neg hk, hne]
        rfl

theorem starts_fieldsIn (cs : List Tree) : (entries (fieldsIn cs)).map (·.range.start) = structStarts cs := by
  induction cs with
  | nil => rfl
  | cons c cs ih =>
    rw [structStarts_cons, ← ih]
    cases c with
    | leaf tok => rfl
    | node k r ds =>
      rw [fieldsIn]
      by_cases hk : k = .fieldList
      · subst hk
        exact starts_fieldItems ds
      · have hne : (node k r ds).isNode .fieldList = false := by simpa [isNode, kind?] using hk
        rw [if_neg hk, hne]
        rfl

def startsOf (ts : List Tree) : List Nat :=
  ((ts.filter (isNode .structType)).filterMap TypeExpr.ofTree?).flatMap fun struct =>
    struct.fields.map (·.range.start)

theorem startsOf_append (ts us : List Tree) : startsOf (ts ++ us) = startsOf ts ++ startsOf us := by
  simp [startsOf]

theorem startsOf_node (k : NodeKind) (r : ByteRange) (cs : List Tree) :
    startsOf [node k r cs] = if k = .structType then structStarts cs else [] := by
  by_cases hk : k = .structType
  · subst hk
    have hread : TypeExpr.ofTree? (node .structType r cs) = some (.struct r (bracesAmong cs) (fieldsIn cs)) := by
      rw [TypeExpr.ofTree?]
    simp only [startsOf, List.filter_cons, isNode, kind?, beq_self_eq_true, if_true, List.filter_nil,
      List.filterMap_cons, hread, List.filterMap_nil, List.flatMap_cons, List.flatMap_nil, List.append_nil,
      TypeExpr.fields, starts_fieldsIn]
  · rw [if_neg hk]
    simp [startsOf, isNode, kind?, hk]

mutual

theorem startsOf_nodes : ∀ t : Tree, startsOf t.nodes = t.startsBelow
  | leaf _ => rfl
  | node k r cs => by
    rw [nodes, ← List.singleton_append, startsOf_append, startsOf_node, startsOf_nodesOf cs, startsBelow]

theorem startsOf_nodesOf : ∀ ts : List Tree, startsOf (nodesOf ts) = startsBelowAll ts
  | [] => rfl
  | t :: ts => by rw [nodesOf, startsOf_append, startsOf_nodes t, startsOf_nodesOf ts, startsBelowAll]

end

/-- No two fields of the struct types of a text have the same range. -/
theorem nodup_fieldRanges {k : NodeKind} {text : String} {t : Tree} (hc : Grammar.Covers k text t) (hf : t.Formed) :
    (t.structTypes.flatMap fun struct => struct.fields.map Field.range).Nodup := by
  have hsolid : t.Solid := ⟨hf, fun tok htok => Token.ne_empty_of_mem_tokenize tok (hc.leaves ▸ htok)⟩
  have hstarts := (spread_startsBelow hc.tiled hsolid).nodup
  rw [← startsOf_nodes, startsOf, ← structTypes] at hstarts
  refine List.Nodup.of_map ByteRange.start ?_
  simpa only [List.map_flatMap, List.map_map, Function.comp_def] using hstarts

end Tree

namespace Format

/-! ## The table of a file -/

def numberIn (table : Assignments) (f : Field) : Option Nat := (table.find? (·.1 = f.range)).map Prod.snd

/-- What `table` has to be for a file with the struct types `structs`. -/
structure FileNumbers (structs : List TypeExpr) (table : Assignments) : Prop where
  /-- Each struct type adds its own entries, -/
  entries : table = structs.flatMap fun struct => leastEntries struct.fields
  /-- none of them takes the place of another, -/
  nodup : (table.map Prod.fst).Nodup
  /-- the `k`-th field of a struct type without a number has the `k`-th number that is unused there, -/
  added : ∀ struct ∈ structs, ∀ (k : Nat) (f : Field), (unnumbered struct.fields)[k]? = some f →
    numberIn table f = some (Nat.nth (Unused struct.fields) k)
  /-- and a field with a number gets none. -/
  kept : ∀ struct ∈ structs, ∀ f ∈ struct.fields, (numberText? f).isSome → numberIn table f = none

theorem fst_leastEntries (fields : List Field) :
    (leastEntries fields).map Prod.fst = (unnumbered fields).map Field.range := by
  refine List.ext_getElem (by simp [leastEntries]) fun k _ _ => ?_
  simp [leastEntries]

theorem flatten_entries {structs : List TypeExpr} {tables : List Assignments}
    (h : List.Forall₂ (fun struct table => assignments struct = .ok table) structs tables) :
    tables.flatten = structs.flatMap fun struct => leastEntries struct.fields := by
  induction h with
  | nil => rfl
  | cons hstruct _ ih => rw [List.flatten_cons, List.flatMap_cons, ih, (assignments_numbers hstruct).entries]

theorem numberIn_of_mem {table : Assignments} (hn : (table.map Prod.fst).Nodup) {f : Field} {n : Nat}
    (h : (f.range, n) ∈ table) : numberIn table f = some n := by
  obtain ⟨e, he⟩ : ∃ e, table.find? (·.1 = f.range) = some e :=
    Option.isSome_iff_exists.mp (List.find?_isSome.mpr ⟨_, h, by simp⟩)
  have hkey : e.1 = f.range := by simpa using List.find?_some he
  have : e = (f.range, n) := List.inj_on_of_nodup_map hn (List.mem_of_find?_eq_some he) h hkey
  rw [numberIn, he, this]
  rfl

theorem numberIn_eq_none {table : Assignments} {f : Field} (h : f.range ∉ table.map Prod.fst) :
    numberIn table f = none := by
  have hfind : table.find? (·.1 = f.range) = none :=
    List.find?_eq_none.mpr fun e he hkey => h (of_decide_eq_true hkey ▸ List.mem_map_of_mem he)
  rw [numberIn, hfind]
  rfl

/-- Fields of different ranges, and each struct adds its own entries: the table of a file. -/
theorem allAssignments_numbers {k : NodeKind} {text : String} {t : Tree} {table : Assignments}
    (hc : Grammar.Covers k text t) (hf : t.Formed) (h : allAssignments t = .ok table) :
    FileNumbers t.structTypes table := by
  obtain ⟨tables, htables, h⟩ := bind_eq_ok.mp h
  rw [pure_eq_ok] at h
  have hentries := h.symm.trans (flatten_entries (forall₂_of_mapM htables))
  have hranges := Tree.nodup_fieldRanges hc hf
  have hkeys : table.map Prod.fst =
      ((t.structTypes.flatMap TypeExpr.fields).filter fun f => (numberText? f).isNone).map Field.range := by
    simp only [hentries, List.map_flatMap, fst_leastEntries, List.filter_flatMap, unnumbered]
  rw [← List.map_flatMap] at hranges
  have hnodup : (table.map Prod.fst).Nodup := hkeys ▸ hranges.sublist (List.filter_sublist.map _)
  refine ⟨hentries, hnodup, fun struct hs k f hk => numberIn_of_mem hnodup ?_, fun struct hs f hmem hsome =>
    numberIn_eq_none fun hin => ?_⟩
  · rw [hentries]
    refine List.mem_flatMap.mpr ⟨struct, hs, List.mem_iff_getElem?.mpr ⟨k, ?_⟩⟩
    rw [leastEntries, List.getElem?_mapIdx, hk]
    rfl
  · -- a field with this range and without a number would be the same field
    rw [hkeys] at hin
    obtain ⟨g, hg, hrange⟩ := List.mem_map.mp hin
    obtain ⟨hg, hnone⟩ := List.mem_filter.mp hg
    have heq : g = f := List.inj_on_of_nodup_map hranges hg (List.mem_flatMap.mpr ⟨struct, hs, hmem⟩) hrange
    rw [heq, Option.isNone_iff_eq_none] at hnone
    simp [hnone] at hsome

/-- The fields of a struct type that have no number get the least unused ones in order, and the table of a file
has these entries and no others. -/
theorem sequence_numbers :
    (∀ (struct : TypeExpr) (table : Assignments), assignments struct = .ok table → Numbers struct.fields table) ∧
    ∀ (text : String) (table : Assignments), allAssignments (parse text).tree = .ok table →
      FileNumbers (parse text).tree.structTypes table :=
  ⟨fun _ _ => assignments_numbers, fun text _ =>
    allAssignments_numbers (Grammar.parse_covers text) (Grammar.parse_formed text)⟩

/-- A struct inside another, with a number in each of them. -/
def nestedStructs : String :=
  "type T struct \x7b\n a, x int\n b struct \x7b\n c int\n d int `pb:\"1\"`\n\x7d\n e int `pb:\"2\"`\n f int\n\x7d\n"

theorem sequence_numbers_nested :
    ∃ (outer inner : TypeExpr) (table : Assignments), (parse nestedStructs).tree.structTypes = [outer, inner] ∧
      assignments outer = .ok [(⟨17, 25⟩, 1), (⟨27, 62⟩, 3), (⟨80, 85⟩, 4)] ∧
      Numbers outer.fields [(⟨17, 25⟩, 1), (⟨27, 62⟩, 3), (⟨80, 85⟩, 4)] ∧
      allAssignments (parse nestedStructs).tree = .ok table ∧
      table = [(⟨17, 25⟩, 1), (⟨27, 62⟩, 3), (⟨80, 85⟩, 4), (⟨39, 44⟩, 2)] ∧
      FileNumbers [outer, inner] table := by
  have hread : (allAssignments (parse nestedStructs).tree).toOption =
      some [(⟨17, 25⟩, 1), (⟨27, 62⟩, 3), (⟨80, 85⟩, 4), (⟨39, 44⟩, 2)] := by decide +kernel
  have hlength : (parse nestedStructs).tree.structTypes.length = 2 := by decide +kernel
  have houter : ((parse nestedStructs).tree.structTypes.head?.bind fun struct => (assignments struct).toOption) =
      some [(⟨17, 25⟩, 1), (⟨27, 62⟩, 3), (⟨80, 85⟩, 4)] := by decide +kernel
  obtain ⟨outer, inner, hstructs⟩ := List.length_eq_two.mp hlength
  rw [hstructs] at houter
  exact ⟨outer, inner, _, hstructs, ok_of_toOption houter, sequence_numbers.1 _ _ (ok_of_toOption houter),
    ok_of_toOption hread, rfl, hstructs ▸ sequence_numbers.2 _ _ (ok_of_toOption hread)⟩

end Format

end IdlWorkbench
