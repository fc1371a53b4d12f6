import IdlWorkbench.Proofs.Check.Chain
import IdlWorkbench.Proofs.Check.Keys
import IdlWorkbench.Proofs.Grammar.Titled

/-!
# Recursive types are reported exactly

A type that holds itself is found in two ways. A cycle of names is met while chains are followed, and reported there.
Every other cycle goes through fields; it is found by a search behind all declarations, among the types at the ends
of the chains. If there is no cycle of names, then each name has the fields of the end of its chain, so both say the
same, and the search misses none for what it met before: what it is done with does not lead to its target.
-/

namespace IdlWorkbench

/-! ## What a type expression stores -/

mutual

/-- The names of the types whose values are stored in those of a type: of the type itself if it is a name, and of the
fields of a struct type, however deep such types are nested. -/
def TypeExpr.stored : TypeExpr → List String
  | .name id => [id.text]
  | .struct _ _ fields => storedIn fields
  | _ => []

def storedIn : List (Item Field) → List String
  | [] => []
  | .gap _ :: rest | .comment _ :: rest => storedIn rest
  | .entry ⟨_, _, _, type, _, _⟩ :: rest => type.stored ++ storedIn rest

end

namespace Check

open Relation

mutual

theorem mem_refs_of_mem_parts : ∀ {t : Ty} {r : NamedRef}, r ∈ t.parts → r ∈ t.refs
  | .named _, _, h => h
  | .struct _, _, h => mem_refs_of_mem_partsOf h
  | .invalid, _, h | .basic _, _, h | .slice _, _, h | .map _ _, _, h | .pointer _, _, h | .chan _, _,
  h | .func _ _, _, h
  | .interface _, _, h => nomatch h

theorem mem_refs_of_mem_partsOf : ∀ {fs : List FieldTy} {r : NamedRef}, r ∈ Ty.partsOf fs → r ∈ Ty.refsFields fs
  | ⟨_, _, _, _⟩ :: _, _, h =>
    (List.mem_append.mp h).elim (fun h => List.mem_append_left _ (mem_refs_of_mem_parts h))
      fun h => List.mem_append_right _ (mem_refs_of_mem_partsOf h)

end

theorem partsOf_eq : ∀ fs : List FieldTy, Ty.partsOf fs = fs.flatMap fun f => f.type.parts
  | [] => rfl
  | ⟨_, _, _, _⟩ :: fs => by rw [Ty.partsOf, partsOf_eq fs, List.flatMap_cons]

/-! ## The search -/

/-- Values of the second type are stored in those of the first, by what underlies it. -/
def Parts (env : Env) (types : Table String Ty) (name other : String) : Prop := other ∈ partNames env types name

/-- From `visited` the search got to `visited'`: none of what was added has the target for a part, and their parts
were added as well. -/
structure Scans (env : Env) (types : Table String Ty) (target : String) (visited visited' : List String) : Prop where
  subset : visited ⊆ visited'
  done : ∀ n ∈ visited', n ∈ visited ∨ ∀ m ∈ partNames env types n, m ≠ target ∧ m ∈ visited'

section
variable {env : Env} {types : Table String Ty} {target : String}

theorem Scans.refl (visited : List String) : Scans env types target visited visited := ⟨fun _ => id, fun _ => Or.inl⟩

theorem Scans.trans {v₁ v₂ v₃ : List String} (h : Scans env types target v₁ v₂) (h' : Scans env types target v₂ v₃) :
    Scans env types target v₁ v₃ := by
  refine ⟨List.Subset.trans h.subset h'.subset, fun n hn => ?_⟩
  rcases h'.done n hn with hn | hn
  · exact (h.done n hn).imp_right fun hparts m hm => ⟨(hparts m hm).1, h'.subset (hparts m hm).2⟩
  · exact Or.inr hn

section
variable {enter : List String → List String → String → Search}

theorem found_searchAll (henter : ∀ way visited name found, enter way visited name = .found found →
    TransGen (Parts env types) name target) {way : List String} : ∀ {names visited found : List String},
    searchAll target enter way visited names = .found found → ∃ m ∈ names, ReflTransGen (Parts env types) m target
  | [], _, _, h => nomatch h
  | next :: rest, visited, found, h => by
    rw [searchAll] at h
    split at h
    · exact ⟨next, List.mem_cons_self, by subst next; exact .refl⟩
    · split at h
      · obtain ⟨m, hm, hreach⟩ := found_searchAll henter h
        exact ⟨m, List.mem_cons_of_mem _ hm, hreach⟩
      · cases hnext : enter (next :: way) (next :: visited) next with
        | found way' => exact ⟨next, List.mem_cons_self, (henter _ _ _ _ hnext).to_reflTransGen⟩
        | exhausted visited' =>
          rw [hnext] at h
          obtain ⟨m, hm, hreach⟩ := found_searchAll henter h
          exact ⟨m, List.mem_cons_of_mem _ hm, hreach⟩

theorem exhausted_searchAll {all : List String} {n : Nat} (henter : ∀ way visited name visited',
      unmet all visited < n →
    enter way visited name = .exhausted visited' →
    Scans env types target visited visited' ∧ ∀ m ∈ partNames env types name, m ≠ target ∧ m ∈ visited')
      {way : List String} :
    ∀ {names visited visited' : List String}, names ⊆ all → unmet all visited < n + 1 →
      searchAll target enter way visited names = .exhausted visited' →
      Scans env types target visited visited' ∧ ∀ m ∈ names, m ≠ target ∧ m ∈ visited'
  | [], _, _, _, _, h => Search.exhausted.inj h ▸ ⟨.refl _, nofun⟩
  | next :: rest, visited, visited', hall, hn, h => by
    obtain ⟨hnext, hrest⟩ := List.cons_subset.mp hall
    rw [searchAll] at h
    split at h
    · cases h
    · rename_i htarget
      split at h
      · rename_i hmet
        obtain ⟨hscans, hdone⟩ := exhausted_searchAll henter hrest hn h
        exact ⟨hscans, List.forall_mem_cons.mpr ⟨⟨htarget, hscans.subset (List.contains_iff_mem.mp hmet)⟩, hdone⟩⟩
      · rename_i hnew
        have hless := unmet_cons_lt hnext fun hmem => hnew (List.contains_iff_mem.mpr hmem)
        cases hinner : enter (next :: way) (next :: visited) next with
        | found way' =>
          rw [hinner] at h
          cases h
        | exhausted mid =>
          rw [hinner] at h
          obtain ⟨hscans, hparts⟩ := henter _ _ _ _ (by omega) hinner
          -- what was met on the way to `next` and inside it was all looked into by now
          have hmid : Scans env types target visited mid := by
            refine ⟨fun m hm => hscans.subset (List.mem_cons_of_mem _ hm), fun m hm => ?_⟩
            rcases hscans.done m hm with hm | hm
            · rcases List.mem_cons.mp hm with rfl | hm
              · exact Or.inr hparts
              · exact Or.inl hm
            · exact Or.inr hm
          have hfuel : unmet all mid < n + 1 := Nat.lt_of_le_of_lt (unmet_mono hmid.subset) hn
          obtain ⟨hscans', hdone⟩ := exhausted_searchAll henter hrest hfuel h
          refine ⟨hmid.trans hscans', List.forall_mem_cons.mpr ⟨⟨htarget, ?_⟩, hdone⟩⟩
          exact hscans'.subset (hscans.subset List.mem_cons_self)

end

theorem found_searchWithin (n : Nat) : ∀ (way visited : List String) (name : String) (found : List String),
    searchWithin env types target n way visited name = .found found → TransGen (Parts env types) name target := by
  induction n with
  | zero =>
    intro _ _ _ _ h
    cases h
  | succ n ih =>
    intro way visited name found h
    rw [searchWithin] at h
    obtain ⟨m, hm, hreach⟩ := found_searchAll ih h
    exact TransGen.head' hm hreach

/-- The fuel lasts while it is more than the types not met yet. -/
theorem exhausted_searchWithin {all : List String} (hall : ∀ name, partNames env types name ⊆ all) (n : Nat) :
    ∀ (way visited : List String) (name : String) (visited' : List String), unmet all visited < n →
      searchWithin env types target n way visited name = .exhausted visited' →
      Scans env types target visited visited' ∧ ∀ m ∈ partNames env types name, m ≠ target ∧ m ∈ visited' := by
  induction n with
  | zero => exact fun _ _ _ _ hn => absurd hn (Nat.not_lt_zero _)
  | succ n ih =>
    intro way visited name visited' hn h
    rw [searchWithin] at h
    exact exhausted_searchAll ih (hall name) hn h

/-- A type recurs exactly if its parts lead back to it. -/
theorem recurs_iff (hall : ∀ name, partNames env types name ⊆ types.keys) (name : String) :
    Recurs env types name ↔ TransGen (Parts env types) name name := by
  constructor
  · rintro ⟨way, h⟩
    exact found_searchWithin _ _ _ _ _ h
  · intro h
    cases hsearch : searchWithin env types name (types.length + 1) [] [] name with
    | found way => exact ⟨way, hsearch⟩
    | exhausted visited =>
      have hfuel : unmet types.keys ([] : List String) < types.length + 1 := by
        have hle : unmet types.keys ([] : List String) ≤ types.keys.length := List.length_filter_le _ _
        rw [Table.keys, List.length_map] at hle
        exact Nat.lt_succ_of_le hle
      obtain ⟨hscans, hparts⟩ := exhausted_searchWithin hall _ _ _ _ _ hfuel hsearch
      -- all that can be reached was visited, and is not the target
      have hclosed : ∀ m, TransGen (Parts env types) name m → m ≠ name ∧ m ∈ visited := by
        intro m hm
        induction hm with
        | single hstep => exact hparts _ hstep
        | tail _ hstep ih => exact (hscans.done _ ih.2).resolve_left List.not_mem_nil _ hstep
      exact absurd rfl (hclosed name h).1

end

/-! ## Parts and what is written -/

section
variable {env : Env} {s : State} {types : Table String Ty} {name other : String} {u : Ty}

theorem Env.Underlies.unique {u' : Ty} (h : env.Underlies name u) (h' : env.Underlies name u') : u = u' := by
  induction h with
  | own hw hforeign =>
    cases h' with
    | own hw' _ =>
      cases hw.symm.trans hw'
      rfl
    | renamed hstep _ =>
      obtain ⟨r, hr, hown, -⟩ := hstep
      cases hw.symm.trans hr
      exact absurd hown (hforeign r rfl)
  | renamed hstep _ ih =>
    cases h' with
    | own hw' hforeign =>
      obtain ⟨r, hr, hown, -⟩ := hstep
      cases hw'.symm.trans hr
      exact absurd hown (hforeign r rfl)
    | renamed hstep' hu' =>
      cases hstep.unique hstep'
      exact ih hu'

theorem mem_partNames : other ∈ partNames env types name ↔
    ∃ t, types.find? name = some t ∧ ∃ r ∈ t.parts, r.package = env.path ∧ r.name = other := by
  unfold partNames
  cases types.find? name with
  | none => simp
  | some t => simp [and_assoc]

theorem Env.Sealed.stores_of_underlies (hsealed : env.Sealed) (h : env.Underlies name u) {r : NamedRef}
    (hr : r ∈ u.parts)
    (hown : r.package = env.path) : TransGen env.Stores name r.name := by
  induction h with
  | @own name t hw hforeign =>
    cases t with
    | named q => exact absurd hown (hsealed.outside q (hforeign q rfl) r (mem_refs_of_mem_parts hr))
    | _ => exact .single ⟨_, hw, r, hr, hown, rfl⟩
  | renamed hstep _ ih => exact .head hstep.stores (ih hr)

/-- What the search goes along is a way along what is written. -/
theorem Linked.stores_of_parts {D : String → ConstDef → Prop} {waiting : List String} {kept : String → Prop}
    {P : Prop} (hsealed : env.Sealed)
    (h : Linked env D waiting kept P s) (hparts : Parts env s.types name other) :
    TransGen env.Stores name other := by
  obtain ⟨u, hu, r, hr, hown, rfl⟩ := mem_partNames.mp hparts
  rcases (h.types name u hu).2 with hcomes | ⟨-, rfl, -⟩
  · exact hsealed.stores_of_underlies hcomes hr hown
  · cases hr

end

/-! ## Cycles -/

section
variable {env : Env} {types : Table String Ty} {name other : String}
  (hends : ∀ n, env.IsTypeName n → ∃ u, types.find? n = some u ∧ env.Underlies n u)
include hends

/-- A name has the parts of the name that it stands for. -/
theorem parts_of_renames {n m : String} (hstep : env.Renames n m) (hm : env.IsTypeName m)
    (hparts : Parts env types m other) :
    Parts env types n other := by
  obtain ⟨u, hu, hr⟩ := mem_partNames.mp hparts
  obtain ⟨r, hw, hown, hname⟩ := id hstep
  obtain ⟨u₁, hu₁, hunder₁⟩ := hends n (isTypeName_of_written hw)
  obtain ⟨u₂, hu₂, hunder₂⟩ := hends m hm
  cases hu.symm.trans hu₂
  cases hunder₁.unique (.renamed hstep hunder₂)
  exact mem_partNames.mpr ⟨u, hu₁, hr⟩

theorem parts_of_renames_chain (hsealed : env.Sealed) {n m : String} (hchain : ReflTransGen env.Renames n m)
    (hparts : Parts env types m other) : Parts env types n other := by
  induction hchain using ReflTransGen.head_induction_on with
  | refl => exact hparts
  | head hstep _ ih => exact parts_of_renames hends hstep (hsealed.isTypeName hstep) ih

/-- What a type stores is its name for another type, or one of its parts. -/
theorem renames_or_parts (h : env.Stores name other) : env.Renames name other ∨ Parts env types name other := by
  obtain ⟨t, hw, r, hr, hown, hname⟩ := h
  have hown_end (hnot : ∀ q, t = .named q → q.package ≠ env.path) (ht : env.bare.underlying t = t) :
      Parts env types name other := by
    obtain ⟨u, hu, hunder⟩ := hends name (isTypeName_of_written hw)
    cases hunder.unique (.own hw hnot)
    exact mem_partNames.mpr ⟨_, hu, r, ht.symm ▸ hr, hown, hname⟩
  cases t with
  | named q =>
    cases List.mem_singleton.mp hr
    exact Or.inl ⟨r, hw, hown, hname⟩
  | _ => exact Or.inr (hown_end nofun rfl)

/-- A way along what is written is a chain of names, or one along parts that ends in such a chain. -/
theorem parts_of_stores (hsealed : env.Sealed) (h : TransGen env.Stores name other) :
    TransGen env.Renames name other ∨
    ∃ mid, TransGen (Parts env types) name mid ∧ ReflTransGen env.Renames mid other := by
  induction h using TransGen.head_induction_on with
  | single hstep =>
    rcases renames_or_parts hends hstep with hstep | hstep
    · exact Or.inl (.single hstep)
    · exact Or.inr ⟨other, .single hstep, .refl⟩
  | head hstep hrest ih =>
    rcases renames_or_parts hends hstep with hname | hpart
    · rcases ih with hchain | ⟨mid, hparts, hchain⟩
      · exact Or.inl (.head hname hchain)
      · obtain ⟨next, hfirst, hon⟩ := TransGen.head'_iff.mp hparts
        exact Or.inr ⟨mid, .head' (parts_of_renames hends hname (hsealed.isTypeName hname) hfirst) hon, hchain⟩
    · rcases ih with hchain | ⟨mid, hparts, hchain⟩
      · exact Or.inr ⟨_, .single hpart, hchain.to_reflTransGen⟩
      · exact Or.inr ⟨mid, .head hpart hparts, hchain⟩

/-- Where no chain of names has a cycle, a cycle along what is written makes one along parts. -/
theorem parts_cycle (hsealed : env.Sealed) (h : TransGen env.Stores name name) :
    ∃ mid, TransGen (Parts env types) mid mid := by
  rcases parts_of_stores hends hsealed h with hchain | ⟨mid, hparts, hchain⟩
  · obtain ⟨r, hw, -, -⟩ := (TransGen.head'_iff.mp hchain).choose_spec.1
    obtain ⟨u, -, hunder⟩ := hends name (isTypeName_of_written hw)
    exact absurd ⟨name, .refl, hchain⟩ hunder.not_loops
  · obtain ⟨next, hfirst, hon⟩ := TransGen.head'_iff.mp hparts
    exact ⟨mid, TransGen.head' (parts_of_renames_chain hends hsealed hchain hfirst) hon⟩

end

/-! ## The search behind the declarations -/

section
variable {env : Env} {D : String → ConstDef → Prop} {P : Prop} {s : State}

theorem Linked.underlies (h : Linked env D [] env.IsTypeName P s) (hnone : s.recursive = []) {name : String}
    (hname : env.IsTypeName name) : ∃ u, s.types.find? name = some u ∧ env.Underlies name u := by
  obtain ⟨u, hu⟩ := Option.isSome_iff_exists.mp (h.finished name hname (h.kept name hname))
  exact ⟨u, hu, (h.types name u hu).2.resolve_right fun hloop => hloop.2.2 hnone⟩

theorem Linked.partNames_subset (hsealed : env.Sealed) (h : Linked env D [] env.IsTypeName P s) (name : String) :
    partNames env s.types name ⊆ s.types.keys := by
  intro other hother
  obtain ⟨u, hu, r, hr, hown, rfl⟩ := mem_partNames.mp hother
  have hname := hsealed.mentions_comes (h.types name u hu).2 r (mem_refs_of_mem_parts hr) hown
  exact Table.mem_keys_iff.mpr (Option.isSome_iff_exists.mp (h.finished r.name hname (h.kept r.name hname)))

/-- A type that recurs stores itself by what is written. -/
theorem Linked.recursive_of_recurs (hsealed : env.Sealed) (h : Linked env D [] env.IsTypeName P s) {name : String}
    (hrecurs : Recurs env s.types name) : env.Recursive := by
  have hparts := (recurs_iff (h.partNames_subset hsealed) name).mp hrecurs
  exact ⟨name, TransGen.closed (fun _ _ => h.stores_of_parts hsealed) _ _ hparts⟩

/-- If the declarations have a cycle, then it was met by now, or the search finds one. -/
theorem Linked.found_or_recurs (hsealed : env.Sealed) (h : Linked env D [] env.IsTypeName P s)
    (hrec : env.Recursive) :
    s.recursive ≠ [] ∨ ∃ e ∈ env.decls, e.2.isType = true ∧ Recurs env s.types e.1 := by
  refine or_iff_not_imp_left.mpr fun hnone => ?_
  obtain ⟨name, hname⟩ := hrec
  obtain ⟨mid, hmid⟩ := parts_cycle (fun n hn => h.underlies (not_not.mp hnone) hn) hsealed hname
  obtain ⟨next, hfirst, -⟩ := TransGen.head'_iff.mp hmid
  obtain ⟨u, hu, -⟩ := mem_partNames.mp hfirst
  obtain ⟨file, spec, hd⟩ := (h.types mid u hu).1
  exact ⟨(mid, .type file spec), Table.mem_of_find? hd, rfl, (recurs_iff (h.partNames_subset hsealed) mid).mpr hmid⟩

/-- A turn of the search ends with a report if its type recurs. -/
theorem Linked.ends_recursiveTurn (hsealed : env.Sealed) (h : Linked env D [] env.IsTypeName P s)
    {e : String × Declared}
    (he : e ∈ env.decls) : Ends (recursiveTurn env e) s fun r t => (∃ b, r = .yield b) ∧ t.types = s.types ∧
      Linked env D [] env.IsTypeName (P ∨ e.2.isType = true ∧ Recurs env s.types e.1) t := by
  have hdeclared : (env.decls.find? e.1).isSome = true := Table.contains_of_mem_keys (List.mem_map_of_mem he)
  unfold recursiveTurn
  rw [ends_bind, ends_get]
  split
  · split
    · rename_i way hway
      have hrecurs : Recurs env s.types e.1 := ⟨way, hway⟩
      rw [ends_bind]
      refine (h.ends_reportRecursive hdeclared (h.recursive_of_recurs hsealed hrecurs)).mono fun _ t
        ⟨ht, htypes, hr⟩ => ?_
      have hnoted : way ++ t.recursive ≠ [] := fun hnil => hr (List.append_eq_nil_iff.mp hnil).2
      refine ⟨⟨_, rfl⟩, htypes, ?_⟩
      exact ⟨ht.started, ht.finished, fun n u hu => ⟨(ht.types n u hu).1, (ht.types n u hu).2.mono fun _ => hnoted⟩,
        ht.consts, ht.kept, ht.reported.trans (iff_of_true hr hnoted), fun _ => ht.reason hr, fun _ => hnoted⟩
    · rename_i visited hvisited
      refine ⟨⟨_, rfl⟩, rfl, h.restay ?_⟩
      rintro (hp | ⟨-, way, hway⟩)
      · exact h.stays hp
      · cases hvisited.symm.trans hway
  · rename_i hskip
    refine ⟨⟨_, rfl⟩, rfl, h.restay ?_⟩
    rintro (hp | ⟨htype, -⟩) hnone
    · exact h.stays hp hnone
    · simp [htype, hnone] at hskip

theorem Linked.ends_recursiveTurns (hsealed : env.Sealed) : ∀ (es : List (String × Declared)) {P : Prop} {s : State},
    es ⊆ env.decls → Linked env D [] env.IsTypeName P s →
    Ends (forIn es PUnit.unit fun e _ => recursiveTurn env e) s fun _ t => t.types = s.types ∧
      Linked env D [] env.IsTypeName (P ∨ ∃ e ∈ es, e.2.isType = true ∧ Recurs env s.types e.1) t
  | [], _, _, _, h => by
    rw [List.forIn_nil, ends_pure]
    refine ⟨rfl, h.restay ?_⟩
    rintro (hp | ⟨e, he, -⟩)
    · exact h.stays hp
    · exact absurd he List.not_mem_nil
  | e :: es, P, s, hes, h => by
    obtain ⟨he, hes⟩ := List.cons_subset.mp hes
    rw [List.forIn_cons, ends_bind]
    refine (h.ends_recursiveTurn hsealed he).mono fun r t ⟨⟨b, hb⟩, htypes, ht⟩ => ?_
    subst hb
    refine (ht.ends_recursiveTurns hsealed es hes).mono fun _ u ⟨htypes', hu⟩ => ⟨htypes'.trans htypes, hu.restay ?_⟩
    rw [htypes] at hu
    rintro (hp | ⟨e', he', hrec⟩)
    · exact hu.stays (Or.inl (Or.inl hp))
    · rcases List.mem_cons.mp he' with rfl | he'
      · exact hu.stays (Or.inl (Or.inr hrec))
      · exact hu.stays (Or.inr ⟨e', he', hrec⟩)

theorem Linked.checkKeys (h : Linked env D [] env.IsTypeName P s) :
    Linked env D [] env.IsTypeName P ((checkKeys env).run s).2 := by
  rw [run_checkKeys_verdicts]
  refine h.congr rfl ?_
  constructor
  · rintro ⟨e, he, n, hn⟩
    refine ⟨e, (List.mem_append.mp he).resolve_left fun he => ?_, n, hn⟩
    obtain ⟨key, -, rfl⟩ := List.mem_map.mp (List.mem_reverse.mp he)
    cases hn
  · rintro ⟨e, he, n, hn⟩
    exact ⟨e, List.mem_append_right _ he, n, hn⟩

/-- In the end of a check all types are resolved, and a type was reported if there is a recursive one. -/
theorem Env.Sealed.linked_body (hsealed : env.Sealed) (hdefines : env.Defines D)
    (hmentions : ∀ name c, D name c → Mentions env.Declares c.type) (hn : env.decls.keys.Nodup)
    (h : Linked env D [] (fun _ => False) False s) :
    ∃ P : Prop, Linked env D [] env.IsTypeName P ((body env).run s).2 ∧ (env.Recursive → P) := by
  have hresolved := hsealed.linked_resolveAll hdefines hn h
  have hrestayed : Linked env D [] env.IsTypeName (((resolveAll env).run s).2.recursive ≠ [])
    ((resolveAll env).run s).2 :=
    hresolved.restay id
  have hsearched := hrestayed.ends_recursiveTurns hsealed env.decls (List.Subset.refl _)
  have hjudged := Linked.checkKeys hsearched.2
  refine ⟨_, ?_, hresolved.found_or_recurs hsealed⟩
  rw [run_body]
  dsimp only
  split
  · exact Linked.checkKeys (hsealed.setting.tagTurns (fun name =>
      (hsealed.upholds_resolveConstWithin hdefines env.fuel name).mono fun d hd c hc => hmentions name c (hd c hc))
        _ hjudged).1
  · exact hjudged

/-- Whatever comes before it, the check of a package reports a recursive type exactly if there is one. -/
theorem Env.Sealed.reported_body (hsealed : env.Sealed) (hn : env.decls.keys.Nodup)
    (h : Linked env (fun _ c => Mentions env.Declares c.type) [] (fun _ => False) False s) :
    (∃ e ∈ ((body env).run s).2.errors, ∃ n, e.cause = .recursiveType n) ↔ env.Recursive := by
  obtain ⟨P, hlinked, hp⟩ := hsealed.linked_body hsealed.defines_mentions (fun _ _ => id) hn h
  rw [hlinked.reported]
  exact ⟨hlinked.reason, fun hrec => hlinked.stays (hp hrec)⟩

end

/-! ## What is written and what is meant -/

section
variable {env : Env} (hapart : ∀ file name b, env.lookup file name = some b → b.Apart env.path)
include hapart

theorem parts_nameMeaning (file : Nat) (id : Token) (name : String) :
    (∃ r ∈ (env.nameMeaning file id).parts, r.package = env.path ∧ r.name = name) ↔ name = id.text ∧
    env.IsTypeName name := by
  have hlocal : env.IsTypeName id.text ↔ env.lookup file id.text = some .localType :=
    ⟨fun ⟨_, _, hd⟩ => by rw [Env.lookup, hd]; rfl, isTypeName_of_lookup⟩
  unfold Env.nameMeaning
  split
  · rename_i t hb
    refine iff_of_false ?_ ?_
    · rintro ⟨r, hr, hown, -⟩
      exact hapart _ _ _ hb r (mem_refs_of_mem_parts hr) hown
    · rintro ⟨rfl, h⟩
      rw [hlocal, hb] at h
      cases h
  · rename_i hb
    rw [← hlocal] at hb
    constructor
    · rintro ⟨r, hr, -, rfl⟩
      rw [List.mem_singleton.mp hr]
      exact ⟨rfl, hb⟩
    · rintro ⟨rfl, -⟩
      exact ⟨_, List.mem_singleton_self _, rfl, rfl⟩
  · rename_i hnot
    refine iff_of_false (by rintro ⟨r, hr, -⟩; cases hr) ?_
    rintro ⟨rfl, h⟩
    exact hnot (hlocal.mp h)

theorem parts_selectedMeaning (file : Nat) (qualifier name : Token) :
    ∀ r ∈ (env.selectedMeaning file qualifier name).parts, r.package ≠ env.path := by
  unfold Env.selectedMeaning
  split
  · rename_i s hb
    split
    · intro r hr
      rw [List.mem_singleton.mp hr]
      exact (hapart _ _ _ hb).1
    · nofun
  · nofun

end

/-- No part of a field's type is lost. -/
theorem parts_fieldsOf {env : Env} {file : Nat} {range : ByteRange} {doc : Option Doc} {names : List Token}
    {type : TypeExpr}
    {tag trailing : Option Token} (hnames : names = [] → ∀ range braces fields, type ≠ .struct range braces fields)
    (r : NamedRef) : r ∈ Ty.partsOf (fieldsOf ⟨range, doc, names, type, tag, trailing⟩ (env.meaning file type)) ↔
      r ∈ (env.meaning file type).parts := by
  rw [partsOf_eq, fieldsOf, Field.isEmbedded]
  cases names with
  | cons first names => simp
  | nil =>
    cases hembedded : embeddedName? type with
    | some name => simp
    | none =>
      -- what cannot be embedded has no parts, unless it is a struct
      cases type with
      | struct range braces fields => exact absurd rfl (hnames rfl range braces fields)
      | name id => cases hembedded
      | selector range qualifier name =>
        cases qualifier <;> cases name <;> simp_all [embeddedName?, Env.meaning, Ty.parts]
      | _ => simp [Env.meaning, Ty.parts]

section
variable {env : Env}

mutual

/-- The types of the package that a type stores are those that it says it does. -/
theorem parts_meaning (hapart : ∀ file name b, env.lookup file name = some b → b.Apart env.path) (file : Nat)
    (name : String) : ∀ {e : TypeExpr}, e.Titled →
    ((∃ r ∈ (env.meaning file e).parts, r.package = env.path ∧ r.name = name) ↔ name ∈ e.stored ∧
      env.IsTypeName name)
  | .name id, _ => by
    rw [Env.meaning, parts_nameMeaning hapart, TypeExpr.stored, List.mem_singleton]
  | .struct _ _ _, h => parts_fieldMeanings hapart file name h
  | .selector _ (some qualifier) (some selected), _ => by
    refine iff_of_false ?_ (fun h => nomatch h.1)
    rintro ⟨r, hr, hown, -⟩
    exact parts_selectedMeaning hapart file qualifier selected r hr hown
  | .selector _ none _, _ | .selector _ (some _) none, _ | .missing, _ | .slice _ _, _ | .map _ _ _,
  _ | .pointer _ _, _
  | .chan _ _, _ | .func _ _, _ | .interface _ _ _,
  _ => iff_of_false (fun ⟨_, hr, _⟩ => nomatch hr) fun h => nomatch h.1

theorem parts_fieldMeanings (hapart : ∀ file name b, env.lookup file name = some b → b.Apart env.path) (file : Nat)
    (name : String) : ∀ {fields : List (Item Field)}, TitledFields fields →
    ((∃ r ∈ Ty.partsOf (env.fieldMeanings file fields), r.package = env.path ∧ r.name = name) ↔
      name ∈ storedIn fields ∧ env.IsTypeName name)
  | [], _ => iff_of_false (fun ⟨_, hr, _⟩ => nomatch hr) fun h => nomatch h.1
  | .gap _ :: rest, h => @parts_fieldMeanings hapart file name rest h
  | .comment _ :: rest, h => @parts_fieldMeanings hapart file name rest h
  | .entry ⟨range, doc, names, type, tag, trailing⟩ :: rest, ⟨hnames, htype, hrest⟩ => by
    rw [Env.fieldMeanings, storedIn, List.mem_append, or_and_right, ← parts_fieldMeanings hapart file name hrest,
      ← parts_meaning hapart file name htype]
    simp only [partsOf_eq, List.flatMap_append, List.mem_append, or_and_right, exists_or]
    simp only [← partsOf_eq, parts_fieldsOf hnames]

end

end

/-! ## The whole check -/

/-- A declared type depends on those whose values it stores: on the one that it is declared as, and on the types of
its fields. Of declarations with one name the first counts. -/
def DependsOn (sources : List Source) (t u : String) : Prop :=
  ∃ file spec, (entries sources).find? t = some (.type file spec) ∧ u ∈ spec.type.stored ∧
    ∃ file' spec', (entries sources).find? u = some (.type file' spec')

section
variable {f : String → Imported} {path name : String} {sources : List Source}

theorem isTypeName_environment {t : String} : (environment f path name sources).IsTypeName t ↔
    ∃ file spec, (entries sources).find? t = some (.type file spec) := by
  simp only [Env.IsTypeName, environment, find?_collect]

theorem isType_of_mem_constsOf {file : Nat} {e : Token × Declared} : ∀ {specs : List ConstSpec} {iota : Nat}
    {previous : TypeExpr × Expr}, e ∈ constsOf file iota previous specs → e.2.isType = false
  | [], _, _, h => nomatch h
  | _ :: _, _, _, h => (List.mem_cons.mp h).elim (fun h => h ▸ rfl) isType_of_mem_constsOf

/-- The files of a package as they are parsed. -/
theorem titled_entries {texts : List String} {t : String} {file : Nat} {spec : TypeSpec}
    (h : (entries (texts.map .ofText)).find? t = some (.type file spec)) : spec.type.Titled := by
  obtain ⟨s, i, token, hs, hd, -, -⟩ := mem_entries.mp (Table.mem_of_find? h)
  rw [List.getElem?_map] at hs
  obtain ⟨text, -, rfl⟩ := Option.map_eq_some_iff.mp hs
  rcases List.mem_append.mp hd with hd | hd
  · obtain ⟨spec', hspec, heq⟩ := List.mem_map.mp hd
    cases heq
    exact titled_typeSpec hspec
  · obtain ⟨decl, -, hd⟩ := List.mem_flatMap.mp hd
    cases isType_of_mem_constsOf hd

theorem linked_start (env : Env) (D : String → ConstDef → Prop) :
    Linked env D [] (fun _ => False) False (start f sources) where
  started _ _ := by simp [start, Table.find?]
  finished _ _ h := nomatch h
  types _ _ h := nomatch h
  consts := nofun
  kept _ := False.elim
  reported := by
    refine iff_of_false ?_ (fun h => h rfl)
    rintro ⟨e, he, n, hn⟩
    have hpass := passing_start f sources e he
    rw [hn] at hpass
    cases hpass
  reason h := absurd rfl h
  stays := False.elim

variable (hforeign : ∀ key s, Reached f sources key s → Foreign path s)
include hforeign

theorem sealed_environment : (environment f path name sources).Sealed where
  lookup file other b hb := by
    have hapart := apart_environment hforeign hb
    have hdeclares {t : Ty} (ht : ∀ r ∈ t.refs, r.package ≠ path) :
      Mentions (environment f path name sources).Declares t :=
      fun r hr hown => absurd hown (ht r hr)
    cases b with
    | type t => exact hdeclares hapart
    | const d => exact hdeclares hapart
    | package p =>
      cases p with
      | none => trivial
      | some s => exact ⟨fun n _ hown => absurd hown hapart.1, fun n d hd => hdeclares (hapart.2 n d hd)⟩
    | localType | localConst | iota => trivial
  outside _ hr := outside_environment hforeign hr

theorem stores_environment (htitled : ∀ t file spec, (entries sources).find? t = some (.type file spec) →
      spec.type.Titled)
    {t u : String} : (environment f path name sources).Stores t u ↔ DependsOn sources t u := by
  have hparts (file : Nat) {e : TypeExpr} := @parts_meaning (environment f path name sources)
    (fun _ _ _ hb => apart_environment hforeign hb) file u e
  have hfind : (environment f path name sources).decls.find? t = (entries sources).find? t := find?_collect sources t
  rw [Env.Stores, DependsOn, Env.written?, hfind]
  constructor
  · rintro ⟨written, hw, hstored⟩
    split at hw
    · rename_i file spec hd
      cases hw
      rw [hparts file (htitled t file spec hd), isTypeName_environment] at hstored
      exact ⟨file, spec, hd, hstored⟩
    · cases hw
  · rintro ⟨file, spec, hd, hstored⟩
    rw [hd]
    exact ⟨_, rfl, (hparts file (htitled t file spec hd)).mpr ⟨hstored.1, isTypeName_environment.mpr hstored.2⟩⟩

end

/-- Recursive types are reported exactly: a check of parsed files reports one if and only if some declared type
depends on itself, be it through names, through fields or through both. The packages in reach must not depend on the
one that is checked. -/
theorem recursive_types_reported (f : String → Imported) (path name : String) (texts : List String)
    (hforeign : ∀ key s, Reached f (texts.map .ofText) key s → Foreign path s) :
    (∃ e ∈ (check path name (texts.map .ofText) (importsBy f (texts.map .ofText))).errors, ∃ t,
      e.cause = .recursiveType t) ↔
      ∃ t, TransGen (DependsOn (texts.map .ofText)) t t := by
  have hsealed : (environment f path name (texts.map .ofText)).Sealed := sealed_environment hforeign
  have hbody := hsealed.reported_body (nodup_collect _) (@linked_start f (texts.map .ofText) _ _)
  have hstores : (environment f path name (texts.map .ofText)).Stores = DependsOn (texts.map .ofText) :=
    funext fun t => funext fun u => propext (stores_environment hforeign fun _ _ _ => titled_entries)
  simp only [errors_check, List.mem_reverse]
  rw [hbody, Env.Recursive, hstores]

/-- A type that leads back to itself through a name and a nested struct type, but not through a slice. -/
def recursiveTexts : List String :=
  ["package p\n\nimport \"q\"\n\ntype A B\n",
    "package p\n\ntype B struct \x7b\n\tC []B\n\tD struct \x7b\n\t\tA\n\t\x7d\n\x7d\n"]

theorem recursive_types_reported_sample :
    (∃ e ∈ (check "p" "p" (recursiveTexts.map .ofText)
      (importsBy sampleImporter (recursiveTexts.map .ofText))).errors,
      ∃ t, e.cause = .recursiveType t) ∧ ∃ t, TransGen (DependsOn (recursiveTexts.map .ofText)) t t := by
  have hforeign : ∀ key s, Reached sampleImporter (recursiveTexts.map .ofText) key s → Foreign "p" s := by
    intro key s hs
    rw [(reached_sampleImporter hs).2]
    exact ⟨by decide, by decide, by decide⟩
  have hreported : ∃ e ∈ (check "p" "p" (recursiveTexts.map .ofText)
    (importsBy sampleImporter (recursiveTexts.map .ofText))).errors,
      ∃ t, e.cause = .recursiveType t := by
    have hcauses : (check "p" "p" (recursiveTexts.map .ofText)
        (importsBy sampleImporter (recursiveTexts.map .ofText))).errors.map CheckError.cause =
          [.recursiveType "A"] := by
      decide +kernel
    obtain ⟨e, he, hcause⟩ := List.mem_map.mp (hcauses ▸ List.mem_singleton_self (TypeError.recursiveType "A"))
    exact ⟨e, he, "A", hcause⟩
  exact ⟨hreported, (recursive_types_reported sampleImporter "p" "p" recursiveTexts hforeign).mp hreported⟩

end Check

end IdlWorkbench
