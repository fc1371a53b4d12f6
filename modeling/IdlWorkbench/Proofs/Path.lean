import IdlWorkbench.Path
import Mathlib.Data.List.Sort

/-!
# Paths in normal form

A path in normal form is `ofNames absolute names` with names that are proper, so that no part of it is idle
or leads upwards. For such paths the operations on segments are operations on the list of names: the parent
drops the last name, a child adds one, and equal paths have equal names.

`Path.le` orders paths totally, up to the spellings of one path.
-/

namespace IdlWorkbench.Path

/-! ## Equality -/

theorem beq_iff {p q : Path} : (p == q) = true ↔ p.components = q.components := by
  change (p.components == q.components) = true ↔ _
  exact beq_iff_eq

instance : EquivBEq Path where
  rfl := beq_iff.mpr rfl
  symm h := beq_iff.mpr (beq_iff.mp h).symm
  trans h h' := beq_iff.mpr ((beq_iff.mp h).trans (beq_iff.mp h'))

/-! ## Proper names -/

/-- A segment that stands for itself. -/
def Proper (s : String) : Prop := s ≠ "" ∧ s ≠ "." ∧ s ≠ ".."

instance (s : String) : Decidable (Proper s) := inferInstanceAs (Decidable (_ ∧ _ ∧ _))

theorem component?_of_proper {s : String} (h : Proper s) : component? s = some (.name s) := by
  rw [component?]
  · exact h.1
  · exact h.2.1
  · exact h.2.2

theorem proper_of_component? {s t : String} (h : component? s = some (.name t)) : s = t ∧ Proper t := by
  unfold component? at h
  split at h
  · cases h
  · cases h
  · cases h
  · rename_i h1 h2 h3
    cases h
    exact ⟨rfl, h1, h2, h3⟩

theorem filterMap_component? : ∀ {names : List String}, (∀ s ∈ names, Proper s) →
    names.filterMap component? = names.map .name
  | [], _ => rfl
  | s :: names, h => by
    rw [List.filterMap_cons, component?_of_proper (h s (by simp)),
      filterMap_component? fun t ht => h t (List.mem_cons_of_mem _ ht), List.map_cons]

theorem names_map (names : List String) : Path.names (names.map .name) = names := by
  induction names with
  | nil => rfl
  | cons s names ih =>
    simp only [Path.names, List.map_cons, List.filterMap_cons] at ih ⊢
    rw [ih]

/-! ## Normal forms -/

theorem ofNames_nil (absolute : Bool) : ofNames absolute [] = ⟨if absolute then ["", ""] else [""]⟩ := rfl

theorem ofNames_cons (absolute : Bool) (s : String) (names : List String) :
    ofNames absolute (s :: names) = ⟨if absolute then "" :: s :: names else s :: names⟩ := rfl

section
variable {names : List String} (h : ∀ s ∈ names, Proper s)
include h

theorem components_absolute : (ofNames true names).components = .root :: names.map .name := by
  cases names with
  | nil => rfl
  | cons s names =>
    have := filterMap_component? h
    simp only [ofNames_cons, components]
    exact congrArg _ this

theorem components_relative : (ofNames false names).components = names.map .name := by
  cases names with
  | nil => rfl
  | cons s names =>
    have hs := h s (by simp)
    rw [← filterMap_component? h, ofNames_cons]
    unfold components
    split
    · rename_i heq; cases heq; exact absurd rfl hs.1
    · rename_i heq; cases heq; exact absurd rfl hs.1
    · rename_i heq; cases heq; exact absurd rfl hs.2.1
    · rfl

theorem isAbsolute_ofNames (b : Bool) : (ofNames b names).isAbsolute = b := by
  cases b with
  | true => simp [isAbsolute, components_absolute h]
  | false =>
    rw [isAbsolute, components_relative h]
    cases names <;> simp

theorem parent?_ofNames (b : Bool) :
    (ofNames b names).parent? = if names = [] then none else some (ofNames b names.dropLast) := by
  have hfront (s : String) (rest : List String) (hs : names = s :: rest) :
      front? (s :: rest) = some (s :: rest).dropLast := by
    have hidle : ∀ l : List String, (∀ s ∈ l, Proper s) → dropIdle l = l := by
      intro l hl
      rw [dropIdle]
      have : l.reverse.dropWhile (fun s => s = "" || s = ".") = l.reverse := by
        cases hr : l.reverse with
        | nil => rfl
        | cons t ts =>
          have ht := hl t (List.mem_reverse.mp (hr ▸ List.mem_cons_self))
          rw [List.dropWhile_cons_of_neg]
          simp [ht.1, ht.2.1]
      rw [this, List.reverse_reverse]
    rw [front?, hidle _ (hs ▸ h)]
    simp only
    rw [hidle]
    intro t ht
    exact h t (hs ▸ List.dropLast_subset _ ht)
  cases names with
  | nil => cases b <;> rfl
  | cons s rest =>
    have hs := h s (by simp)
    rw [if_neg (List.cons_ne_nil _ _), ofNames_cons]
    have hf := hfront s rest rfl
    cases b with
    | true =>
      simp only [if_true, parent?]
      rw [hf]
      cases hd : (s :: rest).dropLast <;> rfl
    | false =>
      simp only [Bool.false_eq_true, if_false]
      unfold parent?
      split
      · rename_i heq; cases heq; exact absurd rfl hs.1
      · rename_i heq; cases heq; exact absurd rfl hs.1
      · rename_i heq; cases heq; exact absurd rfl hs.2.1
      · rw [hf]
        cases hd : (s :: rest).dropLast <;> rfl

end

theorem child_ofNames (b : Bool) {names : List String} (h : ∀ s ∈ names, Proper s) (s : String) :
    (ofNames b names).child s = ofNames b (names ++ [s]) := by
  cases names with
  | nil => cases b <;> rfl
  | cons t rest =>
    have hlast : (t :: rest).getLast? ≠ some "" := fun he => (h _ (List.mem_of_getLast? he)).1 rfl
    cases b with
    | true =>
      rw [ofNames_cons, child, stem]
      simp only [if_true, List.getLast?_cons_cons]
      rw [if_neg hlast]
      rfl
    | false =>
      rw [ofNames_cons, child, stem]
      simp only [Bool.false_eq_true, if_false]
      rw [if_neg hlast]
      rfl

theorem foldl_child_ofNames : ∀ {names rest : List String}, (∀ s ∈ names, Proper s) → (∀ s ∈ rest, Proper s) →
    rest.foldl child (ofNames true names) = ofNames true (names ++ rest)
  | names, [], _, _ => by simp
  | names, s :: rest, h, h' => by
    have hs : ∀ t ∈ names ++ [s], Proper t := by
      intro t ht
      rcases List.mem_append.mp ht with ht | ht
      · exact h t ht
      · rw [List.mem_singleton.mp ht]; exact h' s (by simp)
    rw [List.foldl_cons, child_ofNames true h,
      foldl_child_ofNames hs fun t ht => h' t (List.mem_cons_of_mem _ ht)]
    simp

theorem names_injective : Function.Injective (List.map Component.name) :=
  List.map_injective_iff.mpr fun _ _ h => Component.name.inj h

/-- Equal paths in normal form are spelled alike. -/
theorem eq_of_beq_ofNames {b c : Bool} {ns ms : List String} (hn : ∀ s ∈ ns, Proper s) (hm : ∀ s ∈ ms, Proper s)
    (h : (ofNames b ns == ofNames c ms) = true) : b = c ∧ ns = ms := by
  rw [beq_iff] at h
  cases b <;> cases c
  · rw [components_relative hn, components_relative hm] at h
    exact ⟨rfl, names_injective h⟩
  · rw [components_relative hn, components_absolute hm] at h
    cases ns <;> simp at h
  · rw [components_absolute hn, components_relative hm] at h
    cases ms <;> simp at h
  · rw [components_absolute hn, components_absolute hm] at h
    exact ⟨rfl, names_injective (List.cons.inj h).2⟩

/-! ## Normalizing -/

theorem proper_of_mem_components {p : Path} {s : String} (h : .name s ∈ p.components) : Proper s := by
  have hf (l : List String) (hl : .name s ∈ l.filterMap component?) : Proper s := by
    obtain ⟨t, -, ht⟩ := List.mem_filterMap.mp hl
    exact (proper_of_component? ht).2
  unfold components at h
  split at h
  · cases h
  · rcases List.mem_cons.mp h with h | h
    · cases h
    · exact hf _ h
  · rcases List.mem_cons.mp h with h | h
    · cases h
    · exact hf _ h
  · exact hf _ h

theorem foldl_pushComponent_subset : ∀ (cs : List Component) (stack : List String),
    ∀ s ∈ cs.foldl pushComponent stack, s ∈ stack ∨ .name s ∈ cs
  | [], _, _, h => Or.inl h
  | c :: cs, stack, s, h => by
    rw [List.foldl_cons] at h
    rcases foldl_pushComponent_subset cs _ s h with h | h
    · cases c with
      | root => exact Or.inl h
      | current => exact Or.inl h
      | parent => exact Or.inl (List.mem_of_mem_tail h)
      | name t =>
        rcases List.mem_cons.mp h with rfl | h
        · exact Or.inr (by simp)
        · exact Or.inl h
    · exact Or.inr (List.mem_cons_of_mem _ h)

def resolved (p : Path) : List String := (p.components.foldl pushComponent []).reverse

theorem normalize_eq (p : Path) : p.normalize = ofNames p.isAbsolute p.resolved := rfl

theorem mem_components_of_resolved {p : Path} {s : String} (h : s ∈ p.resolved) : .name s ∈ p.components := by
  rw [resolved, List.mem_reverse] at h
  rcases foldl_pushComponent_subset _ _ s h with h | h
  · cases h
  · exact h

theorem proper_resolved (p : Path) : ∀ s ∈ p.resolved, Proper s := fun _ h =>
  proper_of_mem_components (mem_components_of_resolved h)

theorem resolved_ofNames (b : Bool) {names : List String} (h : ∀ s ∈ names, Proper s) :
    (ofNames b names).resolved = names := by
  have hfold : ∀ (l stack : List String), (l.map Component.name).foldl pushComponent stack = l.reverse ++ stack := by
    intro l
    induction l with
    | nil => intro stack; rfl
    | cons s l ih => intro stack; simp [pushComponent, ih]
  cases b with
  | true => simp [resolved, components_absolute h, pushComponent, hfold]
  | false => simp [resolved, components_relative h, hfold]

/-- In normal form there is nothing to resolve. -/
theorem normalize_ofNames (b : Bool) {names : List String} (h : ∀ s ∈ names, Proper s) :
    (ofNames b names).normalize = ofNames b names := by
  rw [normalize_eq, resolved_ofNames b h, isAbsolute_ofNames h]

theorem normalize_normalize (p : Path) : p.normalize.normalize = p.normalize := by
  rw [normalize_eq p, normalize_ofNames _ (proper_resolved p)]

def Normal (p : Path) : Prop := p.normalize = p

instance (p : Path) : Decidable p.Normal := inferInstanceAs (Decidable (p.normalize = p))

theorem normal_normalize (p : Path) : Normal p.normalize := normalize_normalize p

theorem normal_ofNames (b : Bool) {names : List String} (h : ∀ s ∈ names, Proper s) : Normal (ofNames b names) :=
  normalize_ofNames b h

namespace Normal

variable {p q : Path}

theorem eq_ofNames (h : Normal p) : p = ofNames p.isAbsolute p.resolved := h.symm

theorem eq_of_beq (hp : Normal p) (hq : Normal q) (h : (p == q) = true) : p = q := by
  rw [hp.eq_ofNames, hq.eq_ofNames] at h
  obtain ⟨hb, hn⟩ := eq_of_beq_ofNames (proper_resolved p) (proper_resolved q) h
  rw [hp.eq_ofNames, hq.eq_ofNames, hb, hn]

theorem parent?_eq (h : Normal p) :
    p.parent? = if p.resolved = [] then none else some (ofNames p.isAbsolute p.resolved.dropLast) := by
  have := parent?_ofNames (proper_resolved p) p.isAbsolute
  rwa [← h.eq_ofNames] at this

theorem of_parent? {dir : Path} (h : Normal p) (hd : p.parent? = some dir) : Normal dir := by
  rw [h.parent?_eq] at hd
  split at hd
  · cases hd
  · cases hd
    exact normal_ofNames _ fun s hs => proper_resolved p s (List.dropLast_subset _ hs)

theorem isAbsolute_parent? {dir : Path} (h : Normal p) (hd : p.parent? = some dir) :
    dir.isAbsolute = p.isAbsolute := by
  rw [h.parent?_eq] at hd
  split at hd
  · cases hd
  · cases hd
    exact isAbsolute_ofNames (fun s hs => proper_resolved p s (List.dropLast_subset _ hs)) _

theorem child (h : Normal p) {s : String} (hs : Proper s) : Normal (p.child s) := by
  rw [h.eq_ofNames, child_ofNames _ (proper_resolved p)]
  refine normal_ofNames _ fun t ht => ?_
  rcases List.mem_append.mp ht with ht | ht
  · exact proper_resolved p t ht
  · rwa [List.mem_singleton.mp ht]

theorem parent?_child (h : Normal p) {s : String} (hs : Proper s) : (p.child s).parent? = some p := by
  have hall : ∀ t ∈ p.resolved ++ [s], Proper t := by
    intro t ht
    rcases List.mem_append.mp ht with ht | ht
    · exact proper_resolved p t ht
    · rwa [List.mem_singleton.mp ht]
  conv_lhs => rw [h.eq_ofNames, child_ofNames _ (proper_resolved p), parent?_ofNames hall]
  rw [if_neg (by simp), List.dropLast_concat, ← h.eq_ofNames]

theorem parent?_beq (hp : Normal p) (hq : Normal q) : (p.parent? == some q) = true ↔ p.parent? = some q := by
  cases hd : p.parent? with
  | none => simp
  | some d =>
    rw [Option.some_beq_some, Option.some_inj]
    exact ⟨(hp.of_parent? hd).eq_of_beq hq, fun h => h ▸ BEq.rfl⟩

end Normal

/-! ## Components of any path -/

theorem components_cons {s : String} {rest : List String} (h : s ≠ "" ∨ rest ≠ []) :
    (⟨s :: rest⟩ : Path).components =
    (if s = "" then [.root] else if s = "." then [.current] else (component? s).toList) ++
      rest.filterMap component? := by
  unfold components
  split
  · rename_i heq
    cases heq
    simp at h
  · rename_i heq
    cases heq
    rfl
  · rename_i heq
    cases heq
    rfl
  · rename_i hroot hdot
    have hs : s ≠ "" := fun he => hroot rest (by rw [he])
    have hs' : s ≠ "." := fun he => hdot rest (by rw [he])
    rw [if_neg hs, if_neg hs']
    cases hc : component? s <;> simp [hc]

theorem filterMap_stem (rest : List String) :
    (if rest.getLast? = some "" then rest.dropLast else rest).filterMap component? = rest.filterMap component? := by
  split
  · rename_i hlast
    conv_rhs => rw [← List.dropLast_append_getLast? _ hlast]
    simp [component?]
  · rfl

/-- A child has one component more, however the path is written. -/
theorem components_child (p : Path) {s : String} (hs : Proper s) :
    (p.child s).components = p.components ++ [.name s] := by
  have hone : (⟨[s]⟩ : Path).components = [.name s] := by
    rw [components_cons (Or.inl hs.1), if_neg hs.1, if_neg hs.2.1, component?_of_proper hs]
    rfl
  obtain ⟨segments⟩ := p
  match segments with
  | [] => exact hone
  | [""] => exact hone
  | t :: u :: rest =>
    have hstem : Path.stem ⟨t :: u :: rest⟩ =
        t :: if (u :: rest).getLast? = some "" then (u :: rest).dropLast else u :: rest := by
      rw [stem]
      simp only [List.getLast?_cons_cons, List.dropLast_cons_cons]
      split <;> rfl
    rw [child, hstem, List.cons_append, components_cons (Or.inr (by simp)), components_cons (Or.inr (by simp)),
      List.filterMap_append, filterMap_stem, List.append_assoc]
    simp [component?_of_proper hs]
  | [t] =>
    by_cases ht : t = ""
    · subst ht
      exact hone
    · have hstem : Path.stem ⟨[t]⟩ = [t] := by simp [stem, ht]
      rw [child, hstem, List.singleton_append, components_cons (Or.inl ht), components_cons (Or.inl ht)]
      simp [component?_of_proper hs]

theorem Normal.components_eq {p dir : Path} (h : Normal p) (hd : p.parent? = some dir) :
    ∃ s, p.components = dir.components ++ [.name s] := by
  rw [h.parent?_eq] at hd
  split at hd
  · cases hd
  · rename_i hne
    cases hd
    have hfront : ∀ s ∈ p.resolved.dropLast, Proper s := fun s hs => proper_resolved p s (List.dropLast_subset _ hs)
    refine ⟨p.resolved.getLast hne, ?_⟩
    rw [← components_child _ (proper_resolved p _ (List.getLast_mem hne)), child_ofNames _ hfront,
      List.dropLast_append_getLast, ← h.eq_ofNames]

/-- What stands behind the last segment that says something, says nothing. -/
theorem dropIdle_append (l : List String) :
    ∃ idle, l = dropIdle l ++ idle ∧ ∀ s ∈ idle, component? s = none := by
  refine ⟨(l.reverse.takeWhile fun s => s = "" || s = ".").reverse, ?_, fun s hs => ?_⟩
  · rw [dropIdle, ← List.reverse_append, List.takeWhile_append_dropWhile, List.reverse_reverse]
  · have h := List.all_eq_true.mp List.all_takeWhile s (List.mem_reverse.mp hs)
    simp only [Bool.or_eq_true, decide_eq_true_eq] at h
    rcases h with rfl | rfl
    · rfl
    · rfl

theorem filterMap_dropIdle (l : List String) : (dropIdle l).filterMap component? = l.filterMap component? := by
  obtain ⟨idle, heq, hidle⟩ := dropIdle_append l
  conv_rhs => rw [heq]
  rw [List.filterMap_append, List.filterMap_eq_nil_iff.mpr hidle, List.append_nil]

theorem dropIdle_getLast {l : List String} {s : String} (h : (dropIdle l).getLast? = some s) :
    ∃ c, component? s = some c := by
  rw [dropIdle, List.getLast?_reverse] at h
  have hnot := List.head?_dropWhile_not (fun s : String => s = "" || s = ".") l.reverse
  rw [h] at hnot
  simp only [Bool.or_eq_false_iff, decide_eq_false_iff_not] at hnot
  by_cases hup : s = ".."
  · exact ⟨.parent, by rw [hup]; rfl⟩
  · exact ⟨.name s, component?_of_proper ⟨hnot.1, hnot.2, hup⟩⟩

theorem filterMap_front? {l front : List String} (h : front? l = some front) :
    (∃ c, l.filterMap component? = front.filterMap component? ++ [c]) ∧ front <+: l := by
  unfold front? at h
  split at h
  · cases h
  · rename_i s rest heq
    cases h
    have hlast : (dropIdle l).getLast? = some ((s :: rest).getLast (by simp)) := by
      rw [heq, List.getLast?_eq_some_getLast]
    obtain ⟨c, hc⟩ := dropIdle_getLast hlast
    refine ⟨⟨c, ?_⟩, ?_⟩
    · rw [filterMap_dropIdle, ← filterMap_dropIdle l, heq]
      conv_lhs => rw [← List.dropLast_append_getLast (List.cons_ne_nil s rest)]
      simp [hc]
    · obtain ⟨idle, hl, -⟩ := dropIdle_append l
      obtain ⟨idle', hl', -⟩ := dropIdle_append (s :: rest).dropLast
      have h₁ : dropIdle (s :: rest).dropLast <+: (s :: rest).dropLast := ⟨idle', hl'.symm⟩
      have h₂ : s :: rest <+: l := ⟨idle, by rw [← heq]; exact hl.symm⟩
      exact (h₁.trans (List.dropLast_prefix _)).trans h₂

theorem front?_eq_none {l : List String} (h : front? l = none) : l.filterMap component? = [] := by
  unfold front? at h
  split at h
  · rename_i heq
    rw [← filterMap_dropIdle, heq]
    rfl
  · cases h

/-- A path has one component more than its parent, however it is written. -/
theorem components_of_parent? {p q : Path} (h : p.parent? = some q) : ∃ c, p.components = q.components ++ [c] := by
  obtain ⟨segments⟩ := p
  unfold parent? at h
  dsimp only at h
  split at h
  · cases h
  · rename_i rest hne
    obtain ⟨front, hfront, rfl⟩ := Option.map_eq_some_iff.mp h
    obtain ⟨⟨c, hc⟩, -⟩ := filterMap_front? hfront
    refine ⟨c, ?_⟩
    have hrest : rest ≠ [] := by
      rintro rfl
      exact hne rfl
    rw [components_cons (Or.inr hrest), components_cons (Or.inr (by split <;> simp_all)), hc]
    cases front <;> simp [component?]
  · rename_i rest
    split at h
    · rename_i front hfront
      cases h
      obtain ⟨⟨c, hc⟩, -⟩ := filterMap_front? hfront
      refine ⟨c, ?_⟩
      rw [components_cons (Or.inl (by simp)), components_cons (Or.inl (by simp)), hc]
      simp
    · rename_i hnone
      cases h
      refine ⟨.current, ?_⟩
      rw [components_cons (Or.inl (by simp)), front?_eq_none hnone]
      rfl
  · rename_i hempty hroot hdot
    obtain ⟨front, hfront, rfl⟩ := Option.map_eq_some_iff.mp h
    obtain ⟨⟨c, hc⟩, hprefix⟩ := filterMap_front? hfront
    refine ⟨c, ?_⟩
    have hplain : ∀ l : List String, l <+: segments → (⟨if l.isEmpty then [""] else l⟩ : Path).components =
        l.filterMap component? := by
      rintro (_ | ⟨s, l⟩) ⟨back, rfl⟩
      · rfl
      · have hs : s ≠ "" := fun he => hroot (l ++ back) (by rw [he]; rfl)
        have hs' : s ≠ "." := fun he => hdot (l ++ back) (by rw [he]; rfl)
        rw [List.isEmpty_cons, if_neg Bool.false_ne_true, components_cons (Or.inl hs), if_neg hs, if_neg hs']
        cases hcs : component? s <;> simp [hcs]
    have hself : (⟨segments⟩ : Path).components = segments.filterMap component? := by
      have h := hplain segments (List.prefix_refl _)
      cases segments with
      | nil => rfl
      | cons s l => exact h
    rw [hself, hplain front hprefix, hc]

/-- A path that ends in a name has a parent, however it is written. -/
theorem exists_parent? {p : Path} {front : List Component} {s : String} (h : p.components = front ++ [.name s]) :
    ∃ q, p.parent? = some q ∧ q.components = front := by
  cases hp : p.parent? with
  | some q =>
    obtain ⟨c, hc⟩ := components_of_parent? hp
    rw [h] at hc
    exact ⟨q, rfl, (List.append_inj' hc rfl).1.symm⟩
  | none =>
    exfalso
    have hmem : .name s ∈ p.components := h ▸ List.mem_append_right _ (List.mem_singleton.mpr rfl)
    obtain ⟨segments⟩ := p
    unfold parent? at hp
    dsimp only at hp
    split at hp
    · cases hmem
    · rename_i rest hne
      have hrest : rest ≠ [] := by
        rintro rfl
        exact hne rfl
      rw [components_cons (Or.inr hrest), front?_eq_none (Option.map_eq_none_iff.mp hp)] at hmem
      simp at hmem
    · split at hp <;> cases hp
    · rename_i hempty hroot hdot
      have hidle := front?_eq_none (Option.map_eq_none_iff.mp hp)
      have hself : (⟨segments⟩ : Path).components = segments.filterMap component? := by
        unfold components
        split <;> simp_all
      rw [hself, hidle] at hmem
      cases hmem

/-! ## Order -/

namespace Component

theorem lt_irrefl (a : Component) : a.lt a = false := by
  cases a with
  | name s => exact decide_eq_false (String.lt_irrefl s)
  | _ => rfl

theorem lt_trans {a b c : Component} (h : a.lt b = true) (h' : b.lt c = true) : a.lt c = true := by
  cases a <;> cases b <;> cases c <;>
    first
    | rfl
    | exact absurd h Bool.false_ne_true
    | exact absurd h' Bool.false_ne_true
    | skip
  exact decide_eq_true (String.lt_trans (of_decide_eq_true h) (of_decide_eq_true h'))

theorem lt_trichotomy (a b : Component) : a.lt b = true ∨ a = b ∨ b.lt a = true := by
  cases a <;> cases b <;> first | exact Or.inl rfl | exact Or.inr (Or.inl rfl) | exact Or.inr (Or.inr rfl) | skip
  rename_i s t
  rcases String.le_total s t with h | h
  · by_cases hts : t ≤ s
    · exact Or.inr (Or.inl (congrArg name (String.le_antisymm h hts)))
    · exact Or.inl (decide_eq_true (String.not_le.mp hts))
  · by_cases hst : s ≤ t
    · exact Or.inr (Or.inl (congrArg name (String.le_antisymm hst h)))
    · exact Or.inr (Or.inr (decide_eq_true (String.not_le.mp hst)))

end Component

theorem componentsLe_total : ∀ as bs : List Component, (componentsLe as bs || componentsLe bs as) = true
  | [], _ => by simp [componentsLe]
  | _ :: _, [] => by simp [componentsLe]
  | a :: as, b :: bs => by
    have ih := componentsLe_total as bs
    rcases Component.lt_trichotomy a b with h | rfl | h
    · simp [componentsLe, h]
    · simpa [componentsLe, Component.lt_irrefl] using ih
    · simp [componentsLe, h]

theorem componentsLe_trans : ∀ {as bs cs : List Component},
    componentsLe as bs = true → componentsLe bs cs = true → componentsLe as cs = true
  | [], _, _, _, _ => by simp [componentsLe]
  | _ :: _, [], _, h, _ => by simp [componentsLe] at h
  | _ :: _, _ :: _, [], _, h => by simp [componentsLe] at h
  | a :: as, b :: bs, c :: cs, h, h' => by
    simp only [componentsLe, Bool.or_eq_true, Bool.and_eq_true, beq_iff_eq] at h h' ⊢
    rcases h with h | ⟨rfl, h⟩
    · rcases h' with h' | ⟨rfl, -⟩
      · exact Or.inl (Component.lt_trans h h')
      · exact Or.inl h
    · rcases h' with h' | ⟨rfl, h'⟩
      · exact Or.inl h'
      · exact Or.inr ⟨rfl, componentsLe_trans h h'⟩

theorem componentsLe_antisymm : ∀ {as bs : List Component},
    componentsLe as bs = true → componentsLe bs as = true → as = bs
  | [], [], _, _ => rfl
  | [], _ :: _, _, h => by simp [componentsLe] at h
  | _ :: _, [], h, _ => by simp [componentsLe] at h
  | a :: as, b :: bs, h, h' => by
    simp only [componentsLe, Bool.or_eq_true, Bool.and_eq_true, beq_iff_eq] at h h'
    rcases h with h | ⟨rfl, h⟩
    · rcases h' with h' | ⟨rfl, -⟩
      · have := Component.lt_trans h h'
        rw [Component.lt_irrefl] at this
        cases this
      · rw [Component.lt_irrefl] at h
        cases h
    · rcases h' with h' | ⟨-, h'⟩
      · rw [Component.lt_irrefl] at h'
        cases h'
      · rw [componentsLe_antisymm h h']

def Before (p q : Path) : Prop := p.le q = true ∧ ¬(p == q) = true

theorem le_trans {p q r : Path} (h : p.le q = true) (h' : q.le r = true) : p.le r = true := componentsLe_trans h h'

theorem le_total (p q : Path) : (p.le q || q.le p) = true := componentsLe_total _ _

theorem beq_of_le_of_le {p q : Path} (h : p.le q = true) (h' : q.le p = true) : (p == q) = true :=
  beq_iff.mpr (componentsLe_antisymm h h')

theorem le_of_beq {p q : Path} (h : (p == q) = true) : p.le q = true := by
  have hself := componentsLe_total p.components p.components
  rw [Bool.or_self] at hself
  rw [le, ← beq_iff.mp h]
  exact hself

theorem Before.trans {p q r : Path} (h : Before p q) (h' : Before q r) : Before p r := by
  refine ⟨le_trans h.1 h'.1, fun heq => h.2 (beq_of_le_of_le h.1 ?_)⟩
  exact le_trans h'.1 (le_of_beq (BEq.symm heq))

theorem Before.irrefl (p : Path) : ¬Before p p := fun h => h.2 BEq.rfl

theorem sort_eq_insertionSort (ps : List Path) : sort ps = ps.insertionSort fun p q => p.le q = true := by
  have hinsert (p : Path) (qs : List Path) : insertSorted p qs = qs.orderedInsert (fun p q => p.le q = true) p := by
    induction qs with
    | nil => rfl
    | cons q qs ih => rw [insertSorted, List.orderedInsert_cons, ih]
  rw [sort]
  induction ps with
  | nil => rfl
  | cons p ps ih => rw [List.foldr_cons, ih, hinsert, List.insertionSort_cons]

theorem sort_perm (ps : List Path) : (sort ps).Perm ps := by
  rw [sort_eq_insertionSort]
  exact List.perm_insertionSort _ ps

theorem pairwise_sort (ps : List Path) : (sort ps).Pairwise fun p q => p.le q = true := by
  have : Std.Total fun p q : Path => p.le q = true := ⟨fun p q => Bool.or_eq_true_iff.mp (le_total p q)⟩
  have : IsTrans Path fun p q => p.le q = true := ⟨fun _ _ _ => le_trans⟩
  rw [sort_eq_insertionSort]
  exact List.pairwise_insertionSort _ ps

/-- A list in strict order is known by its members. -/
theorem eq_of_before : ∀ {ps qs : List Path},
    ps.Pairwise Before → qs.Pairwise Before → (∀ p, p ∈ ps ↔ p ∈ qs) → ps = qs
  | [], [], _, _, _ => rfl
  | [], q :: _, _, _, h => absurd ((h q).mpr (by simp)) (by simp)
  | p :: _, [], _, _, h => absurd ((h p).mp (by simp)) (by simp)
  | p :: ps, q :: qs, hp, hq, h => by
    rw [List.pairwise_cons] at hp hq
    have hpq : p = q := by
      rcases List.mem_cons.mp ((h p).mp (by simp)) with h1 | h1
      · exact h1
      · rcases List.mem_cons.mp ((h q).mpr (by simp)) with h2 | h2
        · exact h2.symm
        · exact absurd ((hq.1 p h1).trans (hp.1 q h2)) (Before.irrefl q)
    subst hpq
    congr 1
    refine eq_of_before hp.2 hq.2 fun r => ⟨fun hr => ?_, fun hr => ?_⟩
    · rcases List.mem_cons.mp ((h r).mp (List.mem_cons_of_mem _ hr)) with rfl | h1
      · exact absurd (hp.1 r hr) (Before.irrefl r)
      · exact h1
    · rcases List.mem_cons.mp ((h r).mpr (List.mem_cons_of_mem _ hr)) with rfl | h1
      · exact absurd (hq.1 r hr) (Before.irrefl r)
      · exact h1

end IdlWorkbench.Path
