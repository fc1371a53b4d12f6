import IdlWorkbench.Proofs.Check.Uphold
import Mathlib.Logic.Relation

/-!
# Chains of declared types

A type can be declared as another name, and that one as a third. Resolving the first follows the chain to its end,
and reports a chain that comes back to a name on it. While a declaration is looked into, the names that are being
resolved all lead to it, which is why meeting one of them again is a cycle, and the only way to find one.
-/

namespace IdlWorkbench.Check

open Relation

/-! ## What declarations say -/

def Env.written? (env : Env) (name : String) : Option Ty :=
  match env.decls.find? name with
  | some (.type file spec) => some (env.meaning file spec.type)
  | _ => none

/-- Values of the first type hold values of the second one, by what the first is written as. -/
def Env.Stores (env : Env) (name other : String) : Prop :=
  ∃ t, env.written? name = some t ∧ ∃ r ∈ t.parts, r.package = env.path ∧ r.name = other

def Env.Renames (env : Env) (name other : String) : Prop :=
  ∃ r, env.written? name = some (.named r) ∧ r.package = env.path ∧ r.name = other

inductive Env.Underlies (env : Env) : String → Ty → Prop
  | own {name : String} {t : Ty} : env.written? name = some t → (∀ r, t = .named r → r.package ≠ env.path) →
      Underlies env name (env.bare.underlying t)
  | renamed {name other : String} {u : Ty} : env.Renames name other → Underlies env other u → Underlies env name u

def Env.Loops (env : Env) (name : String) : Prop := ∃ m, ReflTransGen env.Renames name m ∧ TransGen env.Renames m m

/-- Values of some declared type hold values of itself. -/
def Env.Recursive (env : Env) : Prop := ∃ name, TransGen env.Stores name name

def Env.Declares (env : Env) (r : NamedRef) : Prop := r.package = env.path → env.IsTypeName r.name

/-- Types that are not the package's own do not mention its types, and what the package's own mention is declared. -/
structure Env.Sealed (env : Env) : Prop where
  lookup : ∀ file name b, env.lookup file name = some b → b.Brings env.Declares
  outside : ∀ r : NamedRef, r.package ≠ env.path → ∀ q ∈ (env.bare.underlying (.named r)).refs, q.package ≠ env.path

section
variable {env : Env} {name other : String} {t u : Ty}

theorem isTypeName_of_written (h : env.written? name = some t) : env.IsTypeName name := by
  unfold Env.written? at h
  split at h
  · exact ⟨_, _, ‹_›⟩
  · cases h

theorem Env.Renames.stores (h : env.Renames name other) : env.Stores name other := by
  obtain ⟨r, ht, hown, rfl⟩ := h
  exact ⟨_, ht, r, List.mem_singleton_self r, hown, rfl⟩

theorem Env.Renames.unique {m m' : String} (h : env.Renames name m) (h' : env.Renames name m') : m = m' := by
  obtain ⟨r, hr, -, rfl⟩ := h
  obtain ⟨r', hr', -, rfl⟩ := h'
  cases hr.symm.trans hr'
  rfl

theorem Env.Loops.recursive (h : env.Loops name) : env.Recursive := by
  obtain ⟨m, -, hm⟩ := h
  exact ⟨m, hm.lift id fun _ _ => Env.Renames.stores⟩

theorem Env.Renames.loops (h : env.Renames name other) (hl : env.Loops other) : env.Loops name := by
  obtain ⟨m, hreach, hm⟩ := hl
  exact ⟨m, .head h hreach, hm⟩

/-- From a name on a cycle the chain goes on to another one. -/
theorem Env.Loops.step (h : env.Loops name) : ∃ other, env.Renames name other ∧ env.Loops other := by
  obtain ⟨m, hreach, hm⟩ := h
  rcases ReflTransGen.cases_head hreach with rfl | ⟨other, hstep, hrest⟩
  · obtain ⟨other, hstep, hrest⟩ := TransGen.head'_iff.mp hm
    exact ⟨other, hstep, name, hrest, hm⟩
  · exact ⟨other, hstep, m, hrest, hm⟩

theorem Env.Underlies.isTypeName (h : env.Underlies name u) : env.IsTypeName name := by
  cases h with
  | own hw _ => exact isTypeName_of_written hw
  | renamed hstep _ =>
    obtain ⟨r, hw, -⟩ := hstep
    exact isTypeName_of_written hw

/-- A chain that ends has no cycle. -/
theorem Env.Underlies.not_loops (h : env.Underlies name u) : ¬ env.Loops name := by
  induction h with
  | own hw hforeign =>
    intro hl
    obtain ⟨_, ⟨r, hr, hown, -⟩, -⟩ := hl.step
    cases hw.symm.trans hr
    exact hforeign r rfl hown
  | renamed hstep _ ih =>
    intro hl
    obtain ⟨other, hstep', hl'⟩ := hl.step
    exact ih (hstep.unique hstep' ▸ hl')

theorem Env.Sealed.mentions_written (h : env.Sealed) (hw : env.written? name = some t) :
    Mentions env.Declares t := by
  unfold Env.written? at hw
  split at hw
  · cases hw
    exact mentions_meaning (fun _ hname _ => hname) h.lookup _ _
  · cases hw

theorem Env.Sealed.isTypeName (h : env.Sealed) (hstep : env.Renames name other) : env.IsTypeName other := by
  obtain ⟨r, hw, hown, rfl⟩ := hstep
  exact mentions_named.mp (h.mentions_written hw) hown

theorem Env.Sealed.mentions_underlies (h : env.Sealed) (hu : env.Underlies name u) : Mentions env.Declares u := by
  induction hu with
  | @own name t hw hforeign =>
    cases t with
    | named r => exact fun q hq hown => absurd hown (h.outside r (hforeign r rfl) q hq)
    | _ => exact h.mentions_written hw
  | renamed _ _ ih => exact ih

end

/-! ## States while a chain is followed -/

/-- What is found for a name: the end of its chain, or that it has none, and then some type was reported. -/
def Env.Comes (env : Env) (s : State) (name : String) (u : Ty) : Prop :=
  env.Underlies name u ∨ env.Loops name ∧ u = .invalid ∧ s.recursive ≠ []

/-- Types in `waiting` are being resolved, and names in `kept` are finished. Some type was reported as recursive
exactly if one is noted as such, which has its reason; `P` holds only if there is one. Of each constant `D` is
known. -/
structure Linked (env : Env) (D : String → ConstDef → Prop) (waiting : List String) (kept : String → Prop)
    (P : Prop) (s : State) : Prop where
  started : ∀ n, env.IsTypeName n → (s.progress.find? n = some .started ↔ n ∈ waiting)
  finished : ∀ n, env.IsTypeName n → s.progress.find? n = some .finished → (s.types.find? n).isSome = true
  types : ∀ n u, s.types.find? n = some u → env.IsTypeName n ∧ env.Comes s n u
  consts : ∀ e ∈ s.consts, D e.1 e.2
  kept : ∀ n, kept n → s.progress.find? n = some .finished
  reported : (∃ e ∈ s.errors, ∃ n, e.cause = .recursiveType n) ↔ s.recursive ≠ []
  reason : s.recursive ≠ [] → env.Recursive
  stays : P → s.recursive ≠ []

section
variable {env : Env} {D : String → ConstDef → Prop} {waiting : List String} {kept : String → Prop} {P : Prop}
    {name : String} {u : Ty} {s t : State}

theorem Env.Comes.mono (h : env.Comes s name u) (hr : s.recursive ≠ [] → t.recursive ≠ []) : env.Comes t name u :=
  h.imp_right fun ⟨hl, hu, hs⟩ => ⟨hl, hu, hr hs⟩

theorem Env.Sealed.mentions_comes (hsealed : env.Sealed) (h : env.Comes s name u) : Mentions env.Declares u := by
  rcases h with h | ⟨-, rfl, -⟩
  · exact hsealed.mentions_underlies h
  · exact mentions_invalid

theorem Linked.rekeep {kept' : String → Prop} (h : Linked env D waiting kept P s)
    (hk : ∀ n, kept' n → s.progress.find? n = some .finished) : Linked env D waiting kept' P s :=
  { h with kept := hk }

theorem Linked.restay {P' : Prop} (h : Linked env D waiting kept P s) (hp : P' → s.recursive ≠ []) :
    Linked env D waiting kept P' s :=
  { h with stays := hp }

/-- Only what is resolved counts, and whether a type was reported. -/
theorem Linked.congr (h : Linked env D waiting kept P s) (hcore : t.core = s.core)
    (he : (∃ e ∈ t.errors, ∃ n, e.cause = .recursiveType n) ↔ ∃ e ∈ s.errors, ∃ n, e.cause = .recursiveType n) :
    Linked env D waiting kept P t := by
  have hp : t.progress = s.progress := congrArg Core.progress hcore
  have ht : t.types = s.types := congrArg Core.types hcore
  have hc : t.consts = s.consts := congrArg Core.consts hcore
  have hr : t.recursive = s.recursive := congrArg Core.recursive hcore
  refine ⟨by
    rw [hp]; exact h.started, by rw [hp, ht]; exact h.finished, fun n u hu => ?_, by rw [hc]; exact h.consts,
    by
      rw [hp]; exact h.kept, by
        rw [he, hr]; exact h.reported, by rw [hr]; exact h.reason, by rw [hr]; exact h.stays⟩
  rw [ht] at hu
  exact ⟨(h.types n u hu).1, (h.types n u hu).2.mono fun hs => hr ▸ hs⟩

theorem Linked.aside (h : Linked env D waiting kept P s) (ha : Aside s t) : Linked env D waiting kept P t := by
  refine h.congr ha.core ?_
  obtain ⟨new, hnew, hpass⟩ := ha.errors
  rw [hnew]
  constructor
  · rintro ⟨e, he, n, hn⟩
    refine ⟨e, (List.mem_append.mp he).resolve_left fun he => ?_, n, hn⟩
    have := hpass e he
    rw [hn] at this
    cases this
  · rintro ⟨e, he, n, hn⟩
    exact ⟨e, List.mem_append_right _ he, n, hn⟩

/-- A declaration is begun. -/
theorem Linked.begin (h : Linked env D waiting kept P s) (hfresh : s.progress.find? name = none)
    (waiting' : List String)
    (hw : ∀ n, env.IsTypeName n → (n ∈ waiting' ↔ n = name ∨ n ∈ waiting)) :
    Linked env D waiting' kept P (s.begin name) where
  started n hn := by
    by_cases he : n = name
    · simp [State.begin, Table.find?_insert, he, hw name (he ▸ hn)]
    · simp [State.begin, Table.find?_insert, he, h.started n hn, hw n hn]
  finished n hn hf := by
    refine h.finished n hn ?_
    by_cases he : n = name
    · simp [State.begin, Table.find?_insert, he] at hf
    · simpa [State.begin, Table.find?_insert, he] using hf
  types := h.types
  consts := h.consts
  kept n hn := by
    have hne : n ≠ name := by
      rintro rfl
      have hf := h.kept n hn
      rw [hfresh] at hf
      cases hf
    simpa [State.begin, Table.find?_insert, hne] using h.kept n hn
  reported := h.reported
  reason := h.reason
  stays := h.stays

/-- A type is finished: its entry goes to the table of types. -/
theorem Linked.finishType (h : Linked env D (name :: waiting) kept P s) (hw : name ∉ waiting)
    (hname : env.IsTypeName name)
    (hu : env.Comes s name u) {v : State} (hv : v.core =
      { s.core with progress := s.progress.insert name .finished, types := s.types.insert name u })
    (he : v.errors = s.errors) : Linked env D waiting kept P v := by
  have hp : v.progress = s.progress.insert name .finished := congrArg Core.progress hv
  have ht : v.types = s.types.insert name u := congrArg Core.types hv
  have hc : v.consts = s.consts := congrArg Core.consts hv
  have hr : v.recursive = s.recursive := congrArg Core.recursive hv
  refine ⟨fun n hn => ?_, fun n hn hf => ?_, fun n u' hu' => ?_, by rw [hc]; exact h.consts, fun n hn => ?_,
    by rw [he, hr]; exact h.reported, by rw [hr]; exact h.reason, by rw [hr]; exact h.stays⟩
  · rw [hp, Table.find?_insert]
    by_cases hne : n = name
    · simp [hne, hw]
    · simp [hne, h.started n hn]
  · rw [ht, Table.find?_insert]
    by_cases hne : n = name
    · simp [hne]
    · rw [hp, Table.find?_insert, if_neg (by simpa using hne)] at hf
      simpa [hne] using h.finished n hn hf
  · rw [ht, Table.find?_insert] at hu'
    by_cases hne : n = name
    · subst hne
      simp only [beq_self_eq_true, ite_true, Option.some.injEq] at hu'
      exact ⟨hname, hu' ▸ hu.mono fun hs => hr ▸ hs⟩
    · simp only [beq_iff_eq, hne, ite_false] at hu'
      exact ⟨(h.types n u' hu').1, (h.types n u' hu').2.mono fun hs => hr ▸ hs⟩
  · rw [hp, Table.find?_insert]
    split
    · rfl
    · exact h.kept n hn

/-- A constant is finished. -/
theorem Linked.finishConst (h : Linked env D waiting kept P s) (hname : ¬ env.IsTypeName name) {v : State}
    (hp : v.progress = s.progress.insert name .finished) (ht : v.types = s.types) (hr : v.recursive = s.recursive)
    (he : v.errors = s.errors) (hc : ∀ e ∈ v.consts, D e.1 e.2) :
    Linked env D waiting kept P v := by
  have hne {n : String} (hn : env.IsTypeName n) : n ≠ name := fun he => hname (he ▸ hn)
  refine ⟨fun n hn => ?_, fun n hn hf => ?_, fun n u hu => ?_, hc, fun n hn => ?_, by rw [he, hr]; exact h.reported,
    by rw [hr]; exact h.reason, by rw [hr]; exact h.stays⟩
  · simpa [hp, Table.find?_insert, hne hn] using h.started n hn
  · rw [ht]
    exact h.finished n hn (by simpa [hp, Table.find?_insert, hne hn] using hf)
  · rw [ht] at hu
    exact ⟨(h.types n u hu).1, (h.types n u hu).2.mono fun hs => hr ▸ hs⟩
  · rw [hp, Table.find?_insert]
    split
    · rfl
    · exact h.kept n hn

/-- A type that leads back to itself is reported, unless it was. -/
theorem Linked.ends_reportRecursive (h : Linked env D waiting kept P s)
    (hname : (env.decls.find? name).isSome = true)
    (hreason : env.Recursive) : Ends (reportRecursive env name) s fun _ t =>
      Linked env D waiting kept P t ∧ t.types = s.types ∧ t.recursive ≠ [] := by
  obtain ⟨d, hd⟩ := Option.isSome_iff_exists.mp hname
  unfold reportRecursive
  rw [ends_bind, ends_get]
  split
  · rename_i hmem
    refine ⟨h, rfl, fun hnil => ?_⟩
    have hnil : s.recursive = [] := hnil
    rw [hnil] at hmem
    cases hmem
  · rw [ends_bind, ends_modify, hd]
    have hnoted : ∀ rs : List String, name :: rs ≠ [] := fun _ => nofun
    refine ⟨⟨h.started, h.finished, fun n u hu => ?_, h.consts, h.kept, ⟨fun _ => hnoted _, fun _ => ?_⟩,
      fun _ => hreason, fun _ => hnoted _⟩, rfl, hnoted _⟩
    · exact ⟨(h.types n u hu).1, (h.types n u hu).2.mono fun _ => hnoted _⟩
    · exact ⟨_, List.mem_cons_self, name, rfl⟩

end

/-! ## Following a chain -/

theorem nodup_le_decls {env : Env} {names : List String} (hn : names.Nodup)
    (hnames : ∀ n ∈ names, env.IsTypeName n) :
    names.length ≤ env.decls.length := by
  have hsub : names ⊆ env.decls.keys := fun n hmem => by
    obtain ⟨file, spec, hd⟩ := hnames n hmem
    exact Table.mem_keys_iff.mpr ⟨_, hd⟩
  have hle := hn.length_le_of_subset hsub
  rwa [Table.keys, List.length_map] at hle

section
variable {env : Env} {D : String → ConstDef → Prop} {kept : String → Prop} {P : Prop}

/-- What a type is written as leads to what underlies it: a name of the package goes on, all else is the end. -/
theorem Linked.ends_underlyingWith {waiting : List String} {resolve : String → Step Ty} {name : String} {t : Ty}
    {s : State}
    (h : Linked env D waiting kept P s) (hw : env.written? name = some t)
    (hresolve : ∀ other, env.Renames name other → Ends (resolve other) s fun u v =>
      Linked env D waiting kept P v ∧ env.Comes v other u) :
    Ends (underlyingWith env resolve t) s fun u v => Linked env D waiting kept P v ∧ env.Comes v name u := by
  cases t with
  | named r =>
    unfold underlyingWith
    dsimp only
    split
    · rename_i hown
      have hstep : env.Renames name r.name := ⟨r, hw, hown, rfl⟩
      refine (hresolve r.name hstep).mono fun u v ⟨hv, hcomes⟩ => ⟨hv, ?_⟩
      rcases hcomes with hu | ⟨hl, hu, hr⟩
      · exact Or.inl (.renamed hstep hu)
      · exact Or.inr ⟨hstep.loops hl, hu, hr⟩
    · rename_i hforeign
      refine ⟨h, Or.inl (.own hw ?_)⟩
      rintro _ ⟨⟩
      exact hforeign
  | _ => exact ⟨h, Or.inl (.own hw nofun)⟩

/-- Following the chain of a declared type, where all types that are being resolved lead to it. -/
theorem Env.Sealed.ends_resolveNamedWithin (hsealed : env.Sealed) : ∀ (fuel : Nat) {waiting : List String}
      {name : String} {s : State},
    env.IsTypeName name → waiting.Nodup → (∀ n ∈ waiting, env.IsTypeName n ∧ TransGen env.Renames n name) →
    env.decls.length < fuel + waiting.length → Linked env D waiting kept P s →
    Ends (resolveNamedWithin env fuel name) s fun u t => Linked env D waiting kept P t ∧ env.Comes t name u ∧
      (name ∉ waiting → t.progress.find? name = some .finished ∧ t.types.find? name = some u) := by
  intro fuel
  induction fuel with
  | zero =>
    intro waiting name s _ hn hw hfuel _
    have := nodup_le_decls hn fun n hmem => (hw n hmem).1
    omega
  | succ fuel ih =>
    intro waiting name s hname hn hw hfuel h
    rw [resolveNamedWithin, ends_bind, ends_get]
    cases hprogress : s.progress.find? name with
    | some state =>
      cases state with
      | finished =>
        obtain ⟨u, hu⟩ := Option.isSome_iff_exists.mp (h.finished name hname hprogress)
        rw [ends_bind, ends_get, ends_pure, hu]
        exact ⟨h, (h.types name u hu).2, fun _ => ⟨hprogress, rfl⟩⟩
      | started =>
        have hmem : name ∈ waiting := (h.started name hname).mp hprogress
        have hloop : env.Loops name := ⟨name, .refl, (hw name hmem).2⟩
        obtain ⟨file, spec, hd⟩ := hname
        rw [ends_bind]
        refine (h.ends_reportRecursive (by rw [hd]; rfl) hloop.recursive).mono fun _ t hreported => ?_
        exact ⟨hreported.1, Or.inr ⟨hloop, rfl, hreported.2.2⟩, fun hnot => absurd hmem hnot⟩
    | none =>
      have hnot : name ∉ waiting := fun hmem => by
        rw [(h.started name hname).mpr hmem] at hprogress
        cases hprogress
      have hbegun := h.begin hprogress (name :: waiting) fun n _ => List.mem_cons
      obtain ⟨file, spec, hd⟩ := id hname
      have hwritten : env.written? name = some (env.meaning file spec.type) := by rw [Env.written?, hd]
      rw [hd]
      dsimp only
      rw [ends_bind, ends_declaring, ends_bind]
      refine (ends_resolveType env (env.site file none) spec.type (s.begin name)).mono fun a t hresolved => ?_
      obtain ⟨ha, ht⟩ := hresolved
      have hlinked := hbegun.aside ht.aside
      have hnext : ∀ other, env.Renames name other → Ends (resolveNamedWithin env fuel other) t fun u v =>
          Linked env D (name :: waiting) kept P v ∧ env.Comes v other u := by
        intro other hstep
        refine (ih (hsealed.isTypeName hstep) (List.nodup_cons.mpr ⟨hnot, hn⟩) (fun n hmem => ?_) ?_ hlinked).mono
          fun u v hv => ⟨hv.1, hv.2.1⟩
        · rcases List.mem_cons.mp hmem with rfl | hmem
          · exact ⟨hname, .single hstep⟩
          · exact ⟨(hw n hmem).1, (hw n hmem).2.tail hstep⟩
        · rw [List.length_cons]
          omega
      have hend := hlinked.ends_underlyingWith hwritten hnext
      subst ha
      refine hend.mono fun u v hcame => ?_
      obtain ⟨hv, hcomes⟩ := hcame
      rw [ends_bind, ends_modify, ends_pure]
      exact ⟨hv.finishType hnot hname hcomes rfl rfl, hcomes, fun _ =>
        ⟨Table.find?_insert_self _ _ _, Table.find?_insert_self _ _ _⟩⟩

theorem Env.Sealed.ends_resolveNamed (hsealed : env.Sealed) {name : String} {s : State} (hname : env.IsTypeName name)
    (h : Linked env D [] kept P s) : Ends (resolveNamed env name) s fun u t => Linked env D [] kept P t ∧
    env.Comes t name u ∧
      t.progress.find? name = some .finished ∧ t.types.find? name = some u :=
  (hsealed.ends_resolveNamedWithin env.fuel hname List.nodup_nil nofun (by simp [Env.fuel]) h).mono
    fun _ _ ht => ⟨ht.1, ht.2.1, ht.2.2 List.not_mem_nil⟩

/-- Expressions can be checked while no type is being resolved. -/
theorem Env.Sealed.setting (hsealed : env.Sealed) : Setting env (Linked env D [] kept P) env.Declares where
  aside _ _ ha hs := hs.aside ha
  named _ hname _ := hname
  lookup := hsealed.lookup
  underlying t ht s hs := by
    cases t with
    | named r =>
      unfold underlying underlyingWith
      dsimp only
      split
      · rename_i hown
        exact (hsealed.ends_resolveNamed (mentions_named.mp ht hown) hs).mono fun u v hv =>
          ⟨hv.1, hsealed.mentions_comes hv.2.1⟩
      · rename_i hforeign
        exact ⟨hs, fun q hq hown => absurd hown (hsealed.outside r hforeign q hq)⟩
    | _ => exact ⟨hs, ht⟩

/-! ## All declarations -/

def Env.Defines (env : Env) (D : String → ConstDef → Prop) : Prop :=
  ∀ (kept : String → Prop) (P : Prop) (constOf : String → Step (Option ConstDef)),
    (∀ name, Upholds (Linked env D [] kept P) (fun d => ∀ c ∈ d, D name c) (constOf name)) →
    ∀ name file id type value iota, env.decls.find? name = some (.const file id type value iota) →
      Upholds (Linked env D [] kept P) (fun d => ∀ c ∈ d, D name c)
        (constDef env constOf (env.site file (some iota)) id type value)

/-- The types of constants mention nothing that is not declared. -/
theorem Env.Sealed.defines_mentions (hsealed : env.Sealed) : env.Defines fun _ c => Mentions env.Declares c.type :=
  fun _ _ _ hconst _ _ _ _ _ _ _ => hsealed.setting.constDef hconst _ _ _ _

theorem Env.Sealed.upholds_resolveConstWithin (hsealed : env.Sealed) (hdefines : env.Defines D) :
    ∀ (fuel : Nat) (name : String),
    Upholds (Linked env D [] kept P) (fun d => ∀ c ∈ d, D name c) (resolveConstWithin env fuel name) := by
  have hnone (name : String) : ∀ c ∈ (none : Option ConstDef), D name c :=
    fun c hc => absurd hc (Option.not_mem_none c)
  intro fuel
  induction fuel with
  | zero => exact fun name => upholds_pure (hnone name)
  | succ fuel ih =>
    intro name s hs
    rw [resolveConstWithin, ends_bind, ends_get]
    cases hprogress : s.progress.find? name with
    | some state =>
      cases state with
      | finished =>
        rw [ends_bind, ends_get, ends_pure]
        exact ⟨hs, fun c hc => hs.consts _ (Table.mem_of_find? hc)⟩
      | started =>
        dsimp only
        split
        · exact hsealed.setting.complain_pure _ _ rfl (hnone name) s hs
        · exact ⟨hs, hnone name⟩
    | none =>
      dsimp only
      split
      · rename_i file id type value iota hd
        have hname : ¬ env.IsTypeName name := by
          rintro ⟨file', spec, hd'⟩
          cases hd.symm.trans hd'
        have hbegun : Linked env D [] kept P (s.begin name) := by
          refine hs.begin hprogress [] fun n hn => (or_iff_right ?_).symm
          rintro rfl
          exact hname hn
        rw [ends_bind, ends_declaring]
        refine (hdefines _ _ _ ih name file id type value iota hd _ hbegun).mono fun d t hdefined => ?_
        obtain ⟨ht, hd⟩ := hdefined
        cases d with
        | none => exact ⟨ht.finishConst hname rfl rfl rfl rfl ht.consts, hd⟩
        | some c =>
          refine ⟨ht.finishConst hname rfl rfl rfl rfl fun e he => ?_, hd⟩
          rcases Table.mem_or_eq_of_mem_insert he with he | rfl
          · exact ht.consts e he
          · exact hd _ rfl
      · exact ⟨hs, hnone name⟩

/-- Once all declarations have been asked for, each type of the package is finished. -/
theorem Env.Sealed.linked_askAll (hsealed : env.Sealed) (hdefines : env.Defines D) :
    ∀ (ds : Table String Declared) {kept : String → Prop} {s : State},
    (∀ e ∈ ds, env.decls.find? e.1 = some e.2) → Linked env D [] kept P s →
    Linked env D [] (fun n => kept n ∨ ∃ d, (n, d) ∈ ds ∧ d.isType = true) P (askAll env ds s)
  | [], kept, s, _, h => h.rekeep fun n hn => h.kept n (hn.resolve_right (by simp))
  | (name, d) :: ds, kept, s, hds, h => by
    have hone : Linked env D [] (fun n => kept n ∨ n = name ∧ d.isType = true)
      P ((ask env env.fuel name d).run s).2 := by
      cases d with
      | type file spec =>
        have hname : env.IsTypeName name := ⟨file, spec, hds _ List.mem_cons_self⟩
        obtain ⟨ht, -, hf, -⟩ := ends_iff.mp (hsealed.ends_resolveNamed hname h)
        refine Linked.rekeep ht ?_
        rintro n (hn | ⟨rfl, -⟩)
        · exact ht.kept n hn
        · exact hf
      | const file id type value iota =>
        have ht := (hsealed.upholds_resolveConstWithin hdefines env.fuel name s h).1
        refine Linked.rekeep ht ?_
        rintro n (hn | ⟨-, hn⟩)
        · exact ht.kept n hn
        · cases hn
    have ih := hsealed.linked_askAll hdefines ds (fun e he => hds e (List.mem_cons_of_mem _ he)) hone
    refine ih.rekeep ?_
    rintro n (hn | ⟨e, he, htype⟩)
    · exact ih.kept n (Or.inl (Or.inl hn))
    · rcases List.mem_cons.mp he with he | he
      · cases he
        exact ih.kept name (Or.inl (Or.inr ⟨rfl, htype⟩))
      · exact ih.kept n (Or.inr ⟨e, he, htype⟩)

theorem Env.Sealed.linked_resolveAll (hsealed : env.Sealed) (hdefines : env.Defines D) (hn : env.decls.keys.Nodup)
    {s : State}
    (h : Linked env D [] (fun _ => False) P s) : Linked env D [] env.IsTypeName P ((resolveAll env).run s).2 := by
  rw [run_resolveAll]
  have hall := hsealed.linked_askAll hdefines env.decls (fun e he => Table.find?_of_mem hn he) h
  refine hall.rekeep fun n hname => ?_
  obtain ⟨file, spec, hd⟩ := hname
  exact hall.kept n (Or.inr ⟨_, Table.mem_of_find? hd, rfl⟩)

end

end IdlWorkbench.Check
