import IdlWorkbench.Proofs.Check.Reach
import Mathlib.Logic.Relation

/-!
# What makes a type comparable

A value holds the values of what underlies its type, and those of its fields. A type is comparable if and only if
no slice, map or function is held in its values, however far down. The search for one keeps a list of the declared
types it met and passes over them from then on, whether it is done with them or still inside. Nothing is missed by
this: at the end each type on the list was looked into, and all that it holds is on the list as well.
-/

namespace IdlWorkbench

/-! ## Searches that keep a list of what they met -/

def unmet {α : Type} [DecidableEq α] (all seen : List α) : Nat := (all.filter (· ∉ seen)).length

theorem unmet_mono {α : Type} [DecidableEq α] {all seen seen' : List α} (h : seen ⊆ seen') :
    unmet all seen' ≤ unmet all seen := by
  refine (List.monotone_filter_right all fun r hr => ?_).length_le
  simp only [decide_eq_true_eq] at hr ⊢
  exact fun hseen => hr (h hseen)

theorem unmet_cons_lt {α : Type} [DecidableEq α] {all seen : List α} {r : α} (hall : r ∈ all) (hseen : r ∉ seen) :
    unmet all (r :: seen) < unmet all seen := by
  have hsub : (all.filter (· ∉ r :: seen)).Sublist (all.filter (· ∉ seen)) := by
    refine List.monotone_filter_right all fun q hq => ?_
    simp only [decide_eq_true_eq, List.mem_cons, not_or] at hq ⊢
    exact hq.2
  refine Nat.lt_of_le_of_ne hsub.length_le fun hlen => ?_
  have hr : r ∈ all.filter (· ∉ seen) := List.mem_filter.mpr ⟨hall, by simpa using hseen⟩
  rw [← hsub.eq_of_length hlen] at hr
  simpa using (List.mem_filter.mp hr).2

/-! ## What values hold -/

def Ty.isIncomparable : Ty → Bool
  | .slice _ | .map .. | .func .. => true
  | _ => false

namespace Surface

/-- What the values of a type hold: those of what underlies it, and those of its fields. -/
inductive Holds (s : Surface) : Ty → Ty → Prop
  | named (r : NamedRef) : Holds s (.named r) (s.underlying (.named r))
  | field {fields : List FieldTy} {f : FieldTy} : f ∈ fields → Holds s (.struct fields) f.type

/-- A slice, a map or a function is held in the values of a type. -/
def Conceals (s : Surface) (t : Ty) : Prop := ∃ u, Relation.ReflTransGen s.Holds t u ∧ u.isIncomparable = true

variable {s : Surface}

theorem Conceals.head {t u : Ty} (h : s.Holds t u) (hu : s.Conceals u) : s.Conceals t := by
  obtain ⟨v, hv, hbad⟩ := hu
  exact ⟨v, .head h hv, hbad⟩

theorem conceals_self {t : Ty} (h : t.isIncomparable = true) : s.Conceals t := ⟨t, .refl, h⟩

/-! ## What is found is there -/

section
variable {enter : NamedRef → List NamedRef → Seen}

mutual

theorem conceals_of_comparableWith (henter : ∀ r seen, enter r seen = none → s.Conceals (.named r)) :
    ∀ (t : Ty) {seen : List NamedRef}, t.comparableWith enter seen = none → s.Conceals t
  | .invalid, _, h | .basic _, _, h | .pointer _, _, h | .chan _, _, h | .interface _, _, h => nomatch h
  | .slice _, _, _ | .map _ _, _, _ | .func _ _, _, _ => conceals_self rfl
  | .named r, seen, h => henter r seen h
  | .struct fields, seen, h => by
    obtain ⟨f, hf, hbad⟩ := conceals_of_comparableFields henter fields h
    exact hbad.head (.field hf)

theorem conceals_of_comparableFields (henter : ∀ r seen, enter r seen = none → s.Conceals (.named r)) :
    ∀ (fields : List FieldTy) {seen : List NamedRef}, Ty.comparableFields enter fields seen = none → ∃ f ∈ fields,
    s.Conceals f.type
  | [], _, h => nomatch h
  | ⟨name, type, embedded, tag⟩ :: fields, seen, h => by
    rw [Ty.comparableFields] at h
    cases hfirst : type.comparableWith enter seen with
    | none => exact ⟨_, List.mem_cons_self, conceals_of_comparableWith henter type hfirst⟩
    | some seen' =>
      rw [hfirst] at h
      obtain ⟨f, hf, hbad⟩ := conceals_of_comparableFields henter fields h
      exact ⟨f, List.mem_cons_of_mem _ hf, hbad⟩

end

end

theorem conceals_of_enterWithin (n : Nat) : ∀ (r : NamedRef) (seen : List NamedRef),
    s.enterWithin n r seen = none → s.Conceals (.named r) := by
  induction n with
  | zero =>
    intro r seen h
    cases h
  | succ n ih =>
    intro r seen h
    rw [enterWithin] at h
    split at h
    · cases h
    · exact (conceals_of_comparableWith ih _ h).head (.named r)

/-! ## What is there is found -/

mutual

/-- Nothing that cannot be compared is held directly in the values, and the declared types there are in `seen`. -/
def ClearOf (seen : List NamedRef) : Ty → Prop
  | .slice _ | .map .. | .func .. => False
  | .named r => r ∈ seen
  | .struct fields => ClearFields seen fields
  | .invalid | .basic _ | .pointer _ | .chan _ | .interface _ => True

def ClearFields (seen : List NamedRef) : List FieldTy → Prop
  | [] => True
  | ⟨_, type, _, _⟩ :: fields => ClearOf seen type ∧ ClearFields seen fields

end

section
variable {seen seen' : List NamedRef}

mutual

theorem ClearOf.mono (hsub : seen ⊆ seen') : ∀ {t : Ty}, ClearOf seen t → ClearOf seen' t
  | .slice _, h | .map _ _, h | .func _ _, h => h.elim
  | .named _, h => hsub h
  | .struct _, h => ClearFields.mono hsub h
  | .invalid, _ | .basic _, _ | .pointer _, _ | .chan _, _ | .interface _, _ => trivial

theorem ClearFields.mono (hsub : seen ⊆ seen') : ∀ {fields : List FieldTy},
    ClearFields seen fields → ClearFields seen' fields
  | [], _ => trivial
  | ⟨_, _, _, _⟩ :: _, h => ⟨ClearOf.mono hsub h.1, ClearFields.mono hsub h.2⟩

end

theorem ClearFields.field : ∀ {fields : List FieldTy} {f : FieldTy},
    ClearFields seen fields → f ∈ fields → ClearOf seen f.type
  | ⟨_, _, _, _⟩ :: fields, f, h, hf => by
    rcases List.mem_cons.mp hf with rfl | hf
    · exact h.1
    · exact ClearFields.field h.2 hf

/-- From `seen` the search got to `seen'`: what was added was looked into. -/
structure Gathers (s : Surface) (seen seen' : List NamedRef) : Prop where
  subset : seen ⊆ seen'
  looked : ∀ r ∈ seen', r ∈ seen ∨ ClearOf seen' (s.underlying (.named r))

theorem Gathers.refl (s : Surface) (seen : List NamedRef) : s.Gathers seen seen := ⟨fun _ => id, fun _ => Or.inl⟩

theorem Gathers.trans {seen'' : List NamedRef} (h : s.Gathers seen seen') (h' : s.Gathers seen' seen'') :
    s.Gathers seen seen'' := by
  refine ⟨List.Subset.trans h.subset h'.subset, fun r hr => ?_⟩
  rcases h'.looked r hr with hr | hr
  · exact (h.looked r hr).imp_right (ClearOf.mono h'.subset)
  · exact Or.inr hr

end

section
variable {all : List NamedRef} {n : Nat} {enter : NamedRef → List NamedRef → Seen}

mutual

theorem gathers_comparableWith (henter : ∀ r ∈ all, ∀ seen seen', unmet all seen < n → enter r seen = some seen' →
    r ∈ seen' ∧ s.Gathers seen seen') : ∀ (t : Ty) {seen seen' : List NamedRef}, t.refs ⊆ all → unmet all seen < n →
    t.comparableWith enter seen = some seen' → ClearOf seen' t ∧ s.Gathers seen seen'
  | .invalid, _, _, _, _, h | .basic _, _, _, _, _, h | .pointer _, _, _, _, _, h | .chan _, _, _, _, _, h
  | .interface _, _, _, _, _, h => Option.some_inj.mp h ▸ ⟨trivial, .refl _ _⟩
  | .slice _, _, _, _, _, h | .map _ _, _, _, _, _, h | .func _ _, _, _, _, _, h => nomatch h
  | .named r, _, _, hall, hn, h => henter r (hall (List.mem_singleton_self r)) _ _ hn h
  | .struct fields, _, _, hall, hn, h => gathers_comparableFields henter fields hall hn h

theorem gathers_comparableFields (henter : ∀ r ∈ all, ∀ seen seen', unmet all seen < n → enter r seen = some seen' →
    r ∈ seen' ∧ s.Gathers seen seen') : ∀ (fields : List FieldTy) {seen seen' : List NamedRef},
    Ty.refsFields fields ⊆ all → unmet all seen < n → Ty.comparableFields enter fields seen = some seen' →
    ClearFields seen' fields ∧ s.Gathers seen seen'
  | [], _, _, _, _, h => Option.some_inj.mp h ▸ ⟨trivial, .refl _ _⟩
  | ⟨_, type, _, _⟩ :: fields, seen, seen', hall, hn, h => by
    rw [Ty.refsFields, List.append_subset] at hall
    obtain ⟨mid, hfirst, hrest⟩ := Option.bind_eq_some_iff.mp h
    obtain ⟨hclear, hgathers⟩ := gathers_comparableWith henter type hall.1 hn hfirst
    have hless : unmet all mid < n := Nat.lt_of_le_of_lt (unmet_mono hgathers.subset) hn
    obtain ⟨hclears, hgathers'⟩ := gathers_comparableFields henter fields hall.2 hless hrest
    exact ⟨⟨hclear.mono hgathers'.subset, hclears⟩, hgathers.trans hgathers'⟩

end

end

/-- The fuel lasts while it is more than the declared types not met yet. -/
theorem gathers_enterWithin (all : List NamedRef) (hall : ∀ r, (s.underlying (.named r)).refs ⊆ all) (n : Nat) :
    ∀ r ∈ all, ∀ seen seen', unmet all seen < n → s.enterWithin n r seen = some seen' → r ∈ seen' ∧
    s.Gathers seen seen' := by
  induction n with
  | zero => exact fun _ _ _ _ hn => absurd hn (Nat.not_lt_zero _)
  | succ n ih =>
    intro r hr seen seen' hn h
    rw [enterWithin] at h
    split at h
    · rename_i hmem
      obtain rfl := Option.some_inj.mp h
      exact ⟨List.contains_iff_mem.mp hmem, .refl _ _⟩
    · rename_i hnew
      have hnew : r ∉ seen := fun hmem => hnew (List.contains_iff_mem.mpr hmem)
      have hless : unmet all (r :: seen) < n := by
        have := unmet_cons_lt hr hnew
        omega
      obtain ⟨hclear, hgathers⟩ := gathers_comparableWith ih _ (hall r) hless h
      refine ⟨hgathers.subset List.mem_cons_self, fun q hq => hgathers.subset (List.mem_cons_of_mem _ hq),
        fun q hq => ?_⟩
      rcases hgathers.looked q hq with hq | hq
      · rcases List.mem_cons.mp hq with rfl | hq
        · exact Or.inr hclear
        · exact Or.inl hq
      · exact Or.inr hq

/-! ## What can be looked into is mentioned -/

theorem refs_subset_refsOf {imports : List (String × Surface)} {e : String × Surface} (he : e ∈ imports) :
    e.2.refs ⊆ refsOf imports := by
  induction imports with
  | nil => cases he
  | cons first rest ih =>
    rw [refsOf]
    rcases List.mem_cons.mp he with rfl | he
    · exact List.subset_append_left _ _
    · exact List.Subset.trans (ih he) (List.subset_append_right _ _)

theorem refs_subset_of_import {e : String × Surface} (he : e ∈ s.imports) : e.2.refs ⊆ s.refs := by
  obtain ⟨_, _, _, _, imports⟩ := s
  rw [refs]
  exact List.Subset.trans (refs_subset_refsOf he) (List.subset_append_right _ _)

theorem refs_subset_of_find {path : String} : ∀ {hops : Nat} {s owner : Surface},
    s.findWithin path hops = some owner →
    owner.refs ⊆ s.refs := by
  intro hops
  induction hops with
  | zero =>
    intro s owner h
    by_cases hown : s.path = path
    · rw [Check.findWithin_own hown] at h
      exact Option.some_inj.mp h ▸ List.Subset.refl _
    · rw [Check.findWithin_zero hown] at h
      cases h
  | succ hops ih =>
    intro s owner h
    by_cases hown : s.path = path
    · rw [Check.findWithin_own hown] at h
      exact Option.some_inj.mp h ▸ List.Subset.refl _
    · rw [Check.findWithin_succ hown] at h
      rcases Option.or_eq_some_iff.mp h with h | ⟨-, h⟩
      · exact refs_subset_of_import (Table.mem_of_find? h)
      · obtain ⟨e, he, hfound⟩ := List.exists_of_findSome?_eq_some h
        exact List.Subset.trans (ih hfound) (refs_subset_of_import he)

theorem refs_underlying (s : Surface) (r : NamedRef) : (s.underlying (.named r)).refs ⊆ s.refs := by
  rw [underlying]
  cases h : s.underlying? r with
  | none => exact List.nil_subset _
  | some t =>
    obtain ⟨owner, howner, ht⟩ := Option.bind_eq_some_iff.mp h
    refine List.Subset.trans ?_ (refs_subset_of_find howner)
    obtain ⟨_, _, types, _, _⟩ := owner
    rw [refs]
    exact List.subset_append_of_subset_left _ fun q hq => List.mem_flatMap.mpr ⟨_, Table.mem_of_find? ht, hq⟩

/-! ## The judgement is exact -/

theorem not_conceals_of_clear {seen : List NamedRef} (hall : ∀ r ∈ seen, ClearOf seen (s.underlying (.named r)))
    {t : Ty}
    (h : ClearOf seen t) : ¬ s.Conceals t := by
  rintro ⟨u, hreach, hbad⟩
  have hclear : ClearOf seen u := by
    clear hbad
    induction hreach with
    | refl => exact h
    | tail _ hstep ih =>
      cases hstep with
      | named r => exact hall r ih
      | field hf => exact ClearFields.field ih hf
  cases u with
  | slice _ | map _ _ | func _ _ => exact hclear
  | _ => cases hbad

/-- A type is comparable exactly if its values hold no slice, map or function. -/
theorem comparable_iff (s : Surface) (t : Ty) : s.comparable t = true ↔ ¬ s.Conceals t := by
  let all := t.refs ++ s.refs
  have hfuel : unmet all [] < t.refs.length + s.refs.length + 1 := by
    have hle : unmet all [] ≤ all.length := List.length_filter_le _ _
    rw [List.length_append] at hle
    exact Nat.lt_succ_of_le hle
  have henter := gathers_enterWithin (s := s) all
    (fun r => List.Subset.trans (refs_underlying s r) (List.subset_append_right _ _))
    (t.refs.length + s.refs.length + 1)
  rw [comparable]
  constructor
  · intro h
    obtain ⟨seen, hseen⟩ := Option.isSome_iff_exists.mp h
    obtain ⟨hclear, hgathers⟩ := gathers_comparableWith henter t (List.subset_append_left _ _) hfuel hseen
    exact not_conceals_of_clear (fun r hr => (hgathers.looked r hr).resolve_left List.not_mem_nil) hclear
  · intro h
    rw [Option.isSome_iff_ne_none]
    exact fun hnone => h (conceals_of_comparableWith (conceals_of_enterWithin _) t hnone)

end Surface

end IdlWorkbench
