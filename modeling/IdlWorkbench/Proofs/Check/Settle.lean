import IdlWorkbench.Proofs.Check.Follow
import IdlWorkbench.Proofs.Table

/-!
# The meaning of a declaration, whatever the order

A check enters the declarations of a package in the order of its files, and each one enters those it needs.
`Grounded` does without entering: a declaration is checked only where all that it asks for has its meaning
already. Asking for any other name is an error there.
-/

namespace IdlWorkbench.Check

/-! ## Asking for a name -/

inductive Meaning where
  | type (t : Ty)
  | const (d : Option ConstDef)

namespace Meaning

def type? : Meaning → Option Ty
  | type t => some t
  | const _ => none

def const? : Meaning → Option ConstDef
  | type _ => none
  | const d => d

def Known (env : Env) : Meaning → Prop
  | type t => env.Known t.refs
  | const d => ∀ c ∈ d, env.Known c.type.refs

end Meaning

def ask (env : Env) (fuel : Nat) (name : String) : Declared → Step Meaning
  | .type .. => do return .type (← resolveNamedWithin env fuel name)
  | .const .. => do return .const (← resolveConstWithin env fuel name)

/-- Check a declaration, entering others at most `fuel` names away. -/
def define (env : Env) (fuel : Nat) : Declared → Step Meaning
  | .type file spec => do
    let t ← resolveType env (env.site file none) spec.type
    return .type (← underlyingWith env (resolveNamedWithin env fuel) t)
  | .const file id type value iota => do
    return .const (← constDef env (resolveConstWithin env fuel) (env.site file (some iota)) id type value)

def State.begin (s : State) (name : String) : State :=
  { s with progress := s.progress.insert name .started, table := [] }

namespace Core

def begin (c : Core) (name : String) : Core := { c with progress := c.progress.insert name .started }

def finish (c : Core) (name : String) (m : Meaning) : Core :=
  { c with
    progress := c.progress.insert name .finished
    types := match m.type? with
      | some t => c.types.insert name t
      | none => c.types
    consts := match m.const? with
      | some d => c.consts.insert name d
      | none => c.consts }

def read (c : Core) (name : String) : Declared → Meaning
  | .type .. => .type ((c.types.find? name).getD .invalid)
  | .const .. => .const (c.consts.find? name)

def state (c : Core) : State :=
  { progress := c.progress, types := c.types, consts := c.consts, recursive := c.recursive, tables := [],
    errors := [] }

def Finished (c : Core) (name : String) : Prop := c.progress.find? name = some .finished

def Holds (c : Core) (name : String) (m : Meaning) : Prop :=
  c.types.find? name = m.type? ∧ c.consts.find? name = m.const?

end Core

theorem core_state (c : Core) : c.state.core = c := rfl

section
variable {env : Env} {name : String} {d : Declared} {s : State} {K : Ty → Bool}

theorem clean_state (c : Core) : c.state.clean K = true := rfl

theorem run_ask_finished (n : Nat) (h : s.core.Finished name) :
    (ask env (n + 1) name d).run s = (s.core.read name d, s) := by
  have hp : s.progress.find? name = some .finished := h
  cases d with
  | type file spec =>
    rw [ask, run_bind, resolveNamedWithin, run_bind]
    simp only [run_get, hp]
    rfl
  | const file id type value iota =>
    rw [ask, run_bind, resolveConstWithin, run_bind]
    simp only [run_get, hp]
    rfl

theorem not_clean_reportRecursive (hd : env.decls.find? name = some d) (hr : s.recursive = []) :
    ((reportRecursive env name).run s).2.clean K = false := by
  rw [reportRecursive, run_bind]
  simp only [run_get, hr, List.contains_nil, Bool.false_eq_true, ite_false, hd]
  rfl

theorem not_clean_ask_started (n : Nat) (hd : env.decls.find? name = some d)
    (h : s.progress.find? name = some .started)
    (hr : s.recursive = []) : ((ask env (n + 1) name d).run s).2.clean K = false := by
  cases d with
  | type file spec =>
    rw [ask, run_bind, resolveNamedWithin, run_bind]
    simp only [run_get, h]
    exact not_clean_reportRecursive hd hr
  | const file id type value iota =>
    rw [ask, run_bind, resolveConstWithin, run_bind]
    simp only [run_get, h, hd]
    rfl

theorem run_ask_fresh (n : Nat) (hd : env.decls.find? name = some d) (h : s.progress.find? name = none) :
    ((ask env (n + 1) name d).run s).1 = ((define env n d).run (s.begin name)).1 ∧
      ((ask env (n + 1) name d).run s).2.core =
        ((define env n d).run (s.begin name)).2.core.finish name ((define env n d).run (s.begin name)).1 ∧
      ((ask env (n + 1) name d).run s).2.clean K = ((define env n d).run (s.begin name)).2.clean K := by
  cases d with
  | type file spec =>
    rw [ask, run_bind, resolveNamedWithin, run_bind]
    simp only [run_get, h, hd]
    exact ⟨rfl, rfl, rfl⟩
  | const file id type value iota =>
    rw [ask, run_bind, resolveConstWithin, run_bind]
    simp only [run_get, h, hd]
    rw [define, run_bind, run_bind]
    have hrun : ∀ step : Step (Option ConstDef), ((declaring name file step).run s) =
        ((step.run (s.begin name)).1, { (step.run (s.begin name)).2 with
          table := s.table
          tables := (step.run (s.begin name)).2.tables.modify file (·.insertAll (step.run (s.begin name)).2.table)
          progress := (step.run (s.begin name)).2.progress.insert name .finished }) := fun _ => rfl
    rw [hrun]
    cases ((constDef env (resolveConstWithin env n) (env.site file (some iota)) id type value).run
      (s.begin name)).1 with
    | none => exact ⟨rfl, rfl, rfl⟩
    | some d => exact ⟨rfl, rfl, rfl⟩

end

/-! ## Environments that mirror each other -/

def Declared.inFile (file : Nat) : Declared → Declared
  | .type _ spec => .type file spec
  | .const _ id t value iota => .const file id t value iota

/-- The second environment declares the same in files of its own, where names mean the same. -/
structure Mirrors (env₁ env₂ : Env) : Prop extends Alike env₁ env₂ where
  tame : ∀ file name b, env₁.lookup file name = some b → b.Tame env₁
  declared : ∀ name d, env₁.decls.find? name = some d →
    ∃ file, env₂.decls.find? name = some (d.inFile file) ∧ ∀ other, env₂.lookup file other = env₁.lookup d.file other
  undeclared : ∀ name, env₁.decls.find? name = none → env₂.decls.find? name = none

theorem inFile_file (d : Declared) : d.inFile d.file = d := by cases d <;> rfl

variable {K : Ty → Bool} {J : Core → Core → Prop} {env env₁ env₂ : Env} {n n₁ n₂ : Nat} {name : String}
    {d : Declared}

theorem Mirrors.self (m : Mirrors env₁ env₂) : Mirrors env₁ env₁ where
  path := rfl
  name := rfl
  foreign _ _ := rfl
  outside := m.outside
  tame := m.tame
  declared name d hd := ⟨d.file, by rw [inFile_file, hd], fun _ => rfl⟩
  undeclared _ h := h

theorem Mirrors.sameScope (m : Mirrors env₁ env₂) {i j : Nat} (h : ∀ name, env₂.lookup j name = env₁.lookup i name)
    (iota : Option Nat) : SameScope env₁ env₂ (env₁.site i iota) (env₂.site j iota) :=
  ⟨h, rfl, m.tame i⟩

/-! ## What was wrong stays wrong -/

section
variable {α β : Type} {x : Step α} {f : α → Step β}

theorem Back.bind (hx : Back K x) (hf : ∀ a, Back K (f a)) : Back K (x >>= f) := fun s hs => hx s (hf _ _ hs)

theorem back_pure (a : α) : Back K (pure a : Step α) := fun _ hs => hs

theorem back_get : Back K (get : Step State) := fun _ hs => hs

theorem back_modify {f : State → State} (h : ∀ s, (f s).clean K = s.clean K) : Back K (modify f : Step PUnit) :=
  fun s hs => (h s).symm.trans hs

theorem back_complain (site : Site) (offset : Nat) (e : TypeError) : Back K (complain site offset e) :=
  (follows_complain (J := fun _ _ => False) (P := False) (Q := fun _ => True) site site offset offset e e).back

theorem Back.declaring (hx : Back K x) (name : String) (file : Nat) : Back K (declaring name file x) :=
  fun s hs => hx (s.begin name) hs

theorem back_reportRecursive (env : Env) (name : String) : Back K (reportRecursive env name) := by
  unfold reportRecursive
  refine back_get.bind fun s => ?_
  split
  · exact back_pure _
  · refine (back_modify fun _ => by rfl).bind fun _ => ?_
    split
    · exact back_complain _ _ _
    · exact back_pure _

end

/-- Two steps of which only the first one matters. -/
theorem Back.follows {α : Type} {P : Prop} {Q : α → Prop} {x y : Step α} (h : Back K x) :
    Follows K (fun _ _ => False) P Q x y := ⟨h, fun _ _ _ hj => hj.elim⟩

theorem Mirrors.back_resolveNamedWithin (m : Mirrors env env₂) (n : Nat) :
    ∀ name, Back K (resolveNamedWithin env n name) := by
  induction n with
  | zero => exact fun _ => back_pure _
  | succ n ih =>
    intro name
    rw [resolveNamedWithin]
    refine back_get.bind fun _ => ?_
    split
    · exact back_get.bind fun _ => back_pure _
    · exact (back_reportRecursive env name).bind fun _ => back_pure _
    · split
      · rename_i file spec _
        have htype := follows_resolveType (K := K) (J := fun _ _ => False) (P := False) m.self.toAlike
          (m.self.sameScope (i := file) (fun _ => rfl) none) spec.type
        have hunder (t : Ty) :=
          follows_underlyingWith m.self.toAlike (fun name => (ih name).follows (y := pure .invalid)) t
        exact ((htype.back.bind fun t => (hunder t).back).declaring name file).bind fun t =>
          (back_modify fun _ => by rfl).bind fun _ => back_pure _
      · exact back_pure _

theorem Mirrors.back_resolveConstWithin (m : Mirrors env env₂) (n : Nat) :
    ∀ name, Back K (resolveConstWithin env n name) := by
  have hr : Resolves K (fun _ _ => False) env env :=
    ⟨m.self.toAlike, fun name => (m.back_resolveNamedWithin env.fuel name).follows⟩
  induction n with
  | zero => exact fun _ => back_pure _
  | succ n ih =>
    intro name
    rw [resolveConstWithin]
    refine back_get.bind fun _ => ?_
    split
    · exact back_get.bind fun _ => back_pure _
    · split
      · exact (back_complain _ _ _).bind fun _ => back_pure _
      · exact back_pure _
    · split
      · rename_i file id type value iota _
        have hdef := follows_constDef (P := False) hr (fun name => (ih name).follows (y := pure none))
          (m.self.sameScope (i := file) (fun _ => rfl) (some iota)) id type value
        refine (hdef.back.declaring name file).bind fun d => ?_
        split
        · exact (back_modify fun _ => by rfl).bind fun _ => back_pure _
        · exact back_pure _
      · exact back_pure _

theorem Mirrors.back_ask (m : Mirrors env env₂) (n : Nat) (name : String) (d : Declared) :
    Back K (ask env n name d) := by
  cases d with
  | type file spec => exact (m.back_resolveNamedWithin n name).bind fun _ => back_pure _
  | const file id type value iota => exact (m.back_resolveConstWithin n name).bind fun _ => back_pure _

/-! ## Asking alike -/

def Asks (K : Ty → Bool) (J : Core → Core → Prop) (env₁ env₂ : Env) (n₁ n₂ : Nat) : Prop :=
  ∀ name d, env₁.decls.find? name = some d →
    Follows K J True (Meaning.Known env₁) (ask env₁ n₁ name d) (ask env₂ n₂ name d)

theorem Asks.named (h : Asks K J env₁ env₂ n₁ n₂) (m : Mirrors env₁ env₂) (name : String) :
    Follows K J (env₁.IsTypeName name) (fun t => env₁.Known t.refs) (resolveNamedWithin env₁ n₁ name)
      (resolveNamedWithin env₂ n₂ name) := by
  refine ⟨m.back_resolveNamedWithin n₁ name, ?_⟩
  rintro ⟨file, spec, hd⟩ s t hj hs ht
  obtain ⟨ha, hq, hj', ht'⟩ := (h name _ hd).ahead trivial s t hj hs ht
  exact ⟨Meaning.type.inj ha, hq, hj', ht'⟩

theorem Asks.consts (h : Asks K J env₁ env₂ n₁ n₂) (m : Mirrors env₁ env₂) :
    ResolvesConsts K J env₁ (resolveConstWithin env₁ n₁) (resolveConstWithin env₂ n₂) := by
  refine fun name => ⟨m.back_resolveConstWithin n₁ name, ?_⟩
  rintro ⟨file, id, type, value, iota, hd⟩ s t hj hs ht
  obtain ⟨ha, hq, hj', ht'⟩ := (h name _ hd).ahead trivial s t hj hs ht
  exact ⟨Meaning.const.inj ha, hq, hj', ht'⟩

theorem Asks.resolves (h : Asks K J env₁ env₂ env₁.fuel env₂.fuel) (m : Mirrors env₁ env₂) :
    Resolves K J env₁ env₂ :=
  ⟨m.toAlike, h.named m⟩

/-- Where names are resolved alike, declarations mean the same. -/
theorem follows_define (m : Mirrors env₁ env₂) (hall : Asks K J env₁ env₂ env₁.fuel env₂.fuel)
    (h : Asks K J env₁ env₂ n₁ n₂) {file : Nat} (hfile : ∀ name, env₂.lookup file name = env₁.lookup d.file name) :
    Follows K J True (Meaning.Known env₁) (define env₁ n₁ d) (define env₂ n₂ (d.inFile file)) := by
  cases d with
  | type i spec =>
    refine (follows_resolveType m.toAlike (m.sameScope hfile none) spec.type).bind fun t => ?_
    exact ((follows_underlyingWith m.toAlike (h.named m) t).imp fun p => p.2).bind fun _ => follows_pure fun p => p.2
  | const i id type value iota =>
    refine (follows_constDef (hall.resolves m) (h.consts m) (m.sameScope hfile (some iota)) id type value).bind
      fun _ => ?_
    exact follows_pure fun p => p.2

theorem follows_define_self (m : Mirrors env env) (hall : Asks K J env env env.fuel env.fuel)
    (h : Asks K J env env n₁ n₂) :
    Follows K J True (Meaning.Known env) (define env n₁ d) (define env n₂ d) := by
  have hdefine := follows_define m hall h fun name => (rfl : env.lookup d.file name = env.lookup d.file name)
  rwa [inFile_file] at hdefine

/-! ## States in which no name is entered -/

/-- What is finished in the first one is finished in the second one, with the same meaning. -/
def Core.Sub (c c' : Core) : Prop := ∀ name, c.Finished name →
  c'.Finished name ∧ c'.types.find? name = c.types.find? name ∧ c'.consts.find? name = c.consts.find? name

variable {c c' : Core}

theorem Core.Sub.read (h : c.Sub c') (hf : c.Finished name) (d : Declared) : c'.read name d = c.read name d := by
  obtain ⟨-, htypes, hconsts⟩ := h name hf
  cases d with
  | type => rw [Core.read, Core.read, htypes]
  | const => rw [Core.read, Core.read, hconsts]

theorem Core.Sub.refl (c : Core) : c.Sub c := fun _ hf => ⟨hf, rfl, rfl⟩

/-- Each name has its meaning or counts as being checked. -/
structure Frozen (env : Env) (c : Core) : Prop where
  total : ∀ name d, env.decls.find? name = some d → c.progress.find? name = some .started ∨ c.Finished name
  recursive : c.recursive = []
  known : ∀ name d, env.decls.find? name = some d → c.Finished name → (c.read name d).Known env

/-- Runs from states in `Q` find for each name what it means in `c`, if it is finished there. -/
def Finds (K : Ty → Bool) (Q : Core → Prop) (c : Core) (env₁ env₂ : Env) (n : Nat) : Prop :=
  ∀ name d, env₁.decls.find? name = some d → c.Finished name → ∀ t : State, Q t.core → t.clean K = true →
    ((ask env₂ n name d).run t).1 = c.read name d ∧ Q ((ask env₂ n name d).run t).2.core ∧
      ((ask env₂ n name d).run t).2.clean K = true

/-- Where nothing is entered, all that matters is what is finished. -/
theorem Frozen.follows {Q : Core → Prop} (h : Frozen env₁ c) (m : Mirrors env₁ env₂) (hQ : Finds K Q c env₁ env₂ n) :
    Asks K (fun s t => s = c ∧ Q t) env₁ env₂ env₁.fuel n := by
  refine fun name d hd => ⟨m.back_ask _ name d, ?_⟩
  rintro - s t ⟨hs, ht⟩ hclean hclean'
  rcases h.total name d hd with hstart | hfin
  · rw [← hs] at hstart
    rw [Env.fuel, not_clean_ask_started _ hd hstart ((congrArg Core.recursive hs).trans h.recursive)] at hclean
    cases hclean
  · rw [Env.fuel, run_ask_finished _ (hs ▸ hfin), hs]
    obtain ⟨heq, ht', hclean'⟩ := hQ name d hd hfin t ht hclean'
    exact ⟨heq, h.known name d hd hfin, ⟨rfl, ht'⟩, hclean'⟩

theorem Core.Sub.finds (hsub : c.Sub c') : Finds K (· = c') c env₁ env₂ (n + 1) := by
  intro name d _ hfin t ht hclean
  rw [run_ask_finished n (ht ▸ (hsub name hfin).1), ht]
  exact ⟨hsub.read hfin d, rfl, hclean⟩

theorem Frozen.define (h : Frozen env c) (m : Mirrors env env) (hsub : c.Sub c')
    (hclean : ((define env env.fuel d).run c.state).2.clean K = true) :
    ((define env env.fuel d).run c'.state).1 = ((define env env.fuel d).run c.state).1 ∧
      ((define env env.fuel d).run c.state).1.Known env ∧
      ((define env env.fuel d).run c'.state).2.clean K = true := by
  have hasks : Asks K (fun s t => s = c ∧ t = c') env env env.fuel env.fuel := h.follows m hsub.finds
  obtain ⟨heq, hknown, -, hclean'⟩ := (follows_define_self m hasks hasks).ahead trivial c.state c'.state ⟨rfl, rfl⟩
    hclean (clean_state c')
  exact ⟨heq, hknown, hclean'⟩

/-! ## A declaration at a time -/

namespace Core

variable {m : Meaning} {other : String}

theorem progress_finish :
    (c.finish name m).progress.find? other = if other = name then some .finished else c.progress.find? other := by
  simp [finish, Table.find?_insert]

theorem finished_finish : (c.finish name m).Finished other ↔ other = name ∨ c.Finished other := by
  rw [Finished, progress_finish]
  by_cases h : other = name
  · simp [h]
  · simp [h, Finished]

theorem types_finish (h : other ≠ name) : (c.finish name m).types.find? other = c.types.find? other := by
  unfold finish
  cases m.type? with
  | none => rfl
  | some t => simp [Table.find?_insert, h]

theorem consts_finish (h : other ≠ name) : (c.finish name m).consts.find? other = c.consts.find? other := by
  unfold finish
  cases m.const? with
  | none => rfl
  | some d => simp [Table.find?_insert, h]

theorem holds_finish (h : c.types.find? name = none ∧ c.consts.find? name = none) :
    (c.finish name m).Holds name m := by
  unfold Holds finish
  refine ⟨?_, ?_⟩
  · cases m.type? with
    | none => exact h.1
    | some t => exact Table.find?_insert_self _ _ _
  · cases m.const? with
    | none => exact h.2
    | some d => exact Table.find?_insert_self _ _ _

theorem Holds.read {s : State} (h : c.Holds name ((Check.define env n d).run s).1) :
    c.read name d = ((Check.define env n d).run s).1 := by
  cases d with
  | type file spec =>
    rw [Core.read, h.1]
    rfl
  | const file id type value iota =>
    rw [Core.read, h.2]
    rfl

theorem not_finished (h : c.progress.find? name = some .started) : ¬ c.Finished name := fun hf => by
  rw [Finished, h] at hf
  cases hf

theorem sub_finish (h : ¬ c.Finished name) : c.Sub (c.finish name m) := by
  intro other hf
  have hne : other ≠ name := fun e => h (e ▸ hf)
  exact ⟨finished_finish.mpr (Or.inr hf), types_finish hne, consts_finish hne⟩

end Core

def initial (env : Env) : Core := ⟨env.decls.map fun (name, _) => (name, .started), [], [], []⟩

/-- The states reached by checking one declaration after the other, each where it enters no other. -/
inductive Grounded (K : Ty → Bool) (env : Env) : Core → Prop
  | start : Grounded K env (initial env)
  | step {c : Core} {name : String} {d : Declared} : Grounded K env c → env.decls.find? name = some d →
      c.progress.find? name = some .started → ((define env env.fuel d).run c.state).2.clean K = true →
      Grounded K env (c.finish name ((define env env.fuel d).run c.state).1)

/-- What is finished means what its declaration says, in this very state. -/
structure Sound (K : Ty → Bool) (env : Env) (c : Core) : Prop extends Frozen env c where
  unknown : ∀ name, ¬ c.Finished name → c.types.find? name = none ∧ c.consts.find? name = none
  clean : ∀ name d, env.decls.find? name = some d → c.Finished name →
    ((define env env.fuel d).run c.state).2.clean K = true
  meaning : ∀ name d, env.decls.find? name = some d → c.Finished name →
    c.Holds name ((define env env.fuel d).run c.state).1

theorem progress_initial : (initial env).progress.find? name = (env.decls.find? name).map fun _ => .started :=
  Table.find?_mapValues env.decls (fun _ => Progress.started) name

theorem not_finished_initial : ¬ (initial env).Finished name := by
  rw [Core.Finished, progress_initial]
  cases env.decls.find? name with
  | none => exact nofun
  | some d => exact nofun

theorem sound_initial : Sound K env (initial env) := by
  refine ⟨⟨fun name d hd => Or.inl ?_, rfl, fun name _ _ h => (not_finished_initial h).elim⟩, fun _ _ => ⟨rfl, rfl⟩,
    fun name _ _ h => (not_finished_initial h).elim, fun name _ _ h => (not_finished_initial h).elim⟩
  rw [progress_initial, hd]
  rfl

theorem Sound.step (m : Mirrors env env₂) (h : Sound K env c) (hd : env.decls.find? name = some d)
    (hstart : c.progress.find? name = some .started)
    (hclean : ((define env env.fuel d).run c.state).2.clean K = true) :
    Sound K env (c.finish name ((define env env.fuel d).run c.state).1) := by
  have hopen : ¬ c.Finished name := Core.not_finished hstart
  have hsub : c.Sub (c.finish name ((define env env.fuel d).run c.state).1) := Core.sub_finish hopen
  have hname := Core.holds_finish (m := ((define env env.fuel d).run c.state).1) (h.unknown name hopen)
  -- nothing that was clean before changes, and the new declaration is as clean as it was
  have hkeep {e : Declared} (he : ((define env env.fuel e).run c.state).2.clean K = true) := h.define m.self hsub he
  refine ⟨⟨fun other e he => ?_, h.recursive, fun other e he hf => ?_⟩, fun other hf => ?_, fun other e he hf => ?_,
    fun other e he hf => ?_⟩
  · rw [Core.progress_finish, Core.finished_finish]
    by_cases hne : other = name
    · exact Or.inr (Or.inl hne)
    · rw [if_neg hne]
      exact (h.total other e he).imp id Or.inr
  · by_cases hne : other = name
    · subst hne
      cases hd.symm.trans he
      rw [hname.read]
      exact (hkeep hclean).2.1
    · have hf := (Core.finished_finish.mp hf).resolve_left hne
      rw [hsub.read hf e]
      exact h.known other e he hf
  · rw [Core.finished_finish, not_or] at hf
    rw [Core.types_finish hf.1, Core.consts_finish hf.1]
    exact h.unknown other hf.2
  · rcases Core.finished_finish.mp hf with rfl | hf
    · cases hd.symm.trans he
      exact (hkeep hclean).2.2
    · exact (hkeep (h.clean other e he hf)).2.2
  · by_cases hne : other = name
    · subst hne
      cases hd.symm.trans he
      rw [(hkeep hclean).1]
      exact hname
    · have hf := (Core.finished_finish.mp hf).resolve_left hne
      rw [(hkeep (h.clean other e he hf)).1, Core.Holds, (hsub other hf).2.1, (hsub other hf).2.2]
      exact h.meaning other e he hf

theorem Grounded.sound (m : Mirrors env env₂) (h : Grounded K env c) : Sound K env c := by
  induction h with
  | start => exact sound_initial
  | step _ hd hstart hclean ih => exact ih.step m hd hstart hclean

/-- No further declaration can be checked without entering others. -/
def Closed (K : Ty → Bool) (env : Env) (c : Core) : Prop := ∀ name d, env.decls.find? name = some d →
  c.progress.find? name = some .started → ((define env env.fuel d).run c.state).2.clean K = false

theorem countP_lt {α : Type} {p q : α → Bool} {l : List α} {a : α} (hpq : ∀ x, p x = true → q x = true) (ha : a ∈ l)
    (hq : q a = true) (hp : p a = false) : l.countP p < l.countP q := by
  obtain ⟨before, after, rfl⟩ := List.append_of_mem ha
  have hbefore := List.countP_mono_left (l := before) fun x _ => hpq x
  have hafter := List.countP_mono_left (l := after) fun x _ => hpq x
  simp only [List.countP_append, List.countP_cons, hq, hp, ite_true, Bool.false_eq_true, ite_false]
  omega

theorem Grounded.exists_closed (h : Grounded K env c) : ∃ L, Grounded K env L ∧ Closed K env L := by
  -- each step finishes a name, and the names are finite in number
  induction hn : env.decls.keys.countP (fun x => c.progress.find? x = some .started) using Nat.strongRecOn
    generalizing c with
  | ind n ih =>
    by_cases hc : ∃ name d, env.decls.find? name = some d ∧ c.progress.find? name = some .started ∧
        ((define env env.fuel d).run c.state).2.clean K = true
    · obtain ⟨name, d, hd, hstart, hclean⟩ := hc
      refine ih _ ?_ (h.step hd hstart hclean) rfl
      rw [← hn]
      refine countP_lt (a := name) (fun other hother => ?_) (Table.mem_keys_iff.mpr ⟨d, hd⟩) ?_ ?_
      · rw [decide_eq_true_eq, Core.progress_finish] at hother
        split at hother
        · cases hother
        · exact decide_eq_true hother
      · exact decide_eq_true hstart
      · simp [Core.progress_finish]
    · exact ⟨c, h, fun name d hd hstart => Bool.eq_false_iff.mpr fun hclean => hc ⟨name, d, hd, hstart, hclean⟩⟩

end IdlWorkbench.Check
