import IdlWorkbench.Check.Package

/-!
# Two checks of one declaration

Two runs of the same step, in different states or in environments that give names the same meaning, are
compared. `Follows` says that the second run answers as the first one does and finds nothing wrong, whenever
the first one ends with nothing wrong. It holds of every step that is made of steps for which it holds; what
is asked of the states, `J`, only concerns how the names of the package are resolved.

Map keys are looked at when all types are known. They count as wrong here as soon as they are put aside, if
`K` does not hold of them.
-/

namespace IdlWorkbench.Check

/-- What the answer for a name of the package depends on. -/
structure Core where
  progress : Table String Progress
  types : Table String Ty
  consts : Table String ConstDef
  recursive : List String

def State.core (s : State) : Core := ⟨s.progress, s.types, s.consts, s.recursive⟩

def State.clean (K : Ty → Bool) (s : State) : Bool := s.errors.isEmpty && s.keys.all (K ·.type)

theorem clean_iff {K : Ty → Bool} {s : State} : s.clean K = true ↔ s.errors = [] ∧
    ∀ k ∈ s.keys, K k.type = true := by
  simp [State.clean]

/-! ## Following -/

section
variable {α β : Type}

/-- What was wrong before the step is wrong behind it. -/
def Back (K : Ty → Bool) (x : Step α) : Prop := ∀ s, (x.run s).2.clean K = true → s.clean K = true

/-- `y` follows `x`: started in states that `J` relates, it answers as `x` does and finds nothing wrong if `x`
ends with nothing wrong, where `P` holds. `Q` holds of the answer. -/
structure Follows (K : Ty → Bool) (J : Core → Core → Prop) (P : Prop) (Q : α → Prop) (x y : Step α) : Prop where
  back : Back K x
  ahead : P → ∀ s t, J s.core t.core → (x.run s).2.clean K = true → t.clean K = true →
    (y.run t).1 = (x.run s).1 ∧ Q (x.run s).1 ∧ J (x.run s).2.core (y.run t).2.core ∧ (y.run t).2.clean K = true

variable {K : Ty → Bool} {J : Core → Core → Prop} {P P' : Prop} {Q : α → Prop} {x y : Step α}

theorem Follows.imp (h : Follows K J P Q x y) (hp : P' → P) : Follows K J P' Q x y :=
  ⟨h.back, fun p => h.ahead (hp p)⟩

theorem follows_pure {a : α} (h : P → Q a) : Follows K J P Q (pure a) (pure a) :=
  ⟨fun _ hs => hs, fun p _ _ hj _ ht => ⟨rfl, h p, hj, ht⟩⟩

theorem run_get (s : State) : (get : Step State).run s = (s, s) := rfl

theorem run_bind (x : Step α) (f : α → Step β) (s : State) : (x >>= f).run s = (f (x.run s).1).run (x.run s).2 := rfl

theorem Follows.bind {f g : α → Step β} {R : β → Prop} (hx : Follows K J P Q x y)
    (hf : ∀ a, Follows K J (P ∧ Q a) R (f a) (g a)) : Follows K J P R (x >>= f) (y >>= g) := by
  refine ⟨fun s hs => hx.back s ((hf _).back _ hs), fun p s t hj hs ht => ?_⟩
  obtain ⟨ha, hq, hj', ht'⟩ := hx.ahead p s t hj ((hf _).back _ hs) ht
  rw [run_bind, run_bind, ha]
  exact (hf _).ahead ⟨p, hq⟩ _ _ hj' hs ht'

/-- Steps that leave alone what names depend on, what was reported and the map keys. -/
theorem follows_modify {f g : State → State} {Q : PUnit → Prop} (hq : Q ⟨⟩) (hf : ∀ s, (f s).core = s.core)
    (hg : ∀ s, (g s).core = s.core) (hcf : ∀ s, (f s).clean K = s.clean K) (hcg : ∀ s, (g s).clean K = s.clean K) :
    Follows K J P Q (modify f : Step PUnit) (modify g) := by
  refine ⟨fun s hs => (hcf s).symm.trans hs, fun _ s t hj _ ht => ⟨rfl, hq, ?_, (hcg t).trans ht⟩⟩
  show J (f s).core (g t).core
  rwa [hf, hg]

theorem follows_ite {c : Prop} [Decidable c] {x' y' : Step α} (hx : c → Follows K J P Q x y)
    (hy : ¬ c → Follows K J P Q x' y') : Follows K J P Q (if c then x else x') (if c then y else y') := by
  by_cases h : c
  · rw [if_pos h, if_pos h]
    exact hx h
  · rw [if_neg h, if_neg h]
    exact hy h

/-- After a report nothing has to be followed. -/
theorem follows_complain {Q : PUnit → Prop} (site₁ site₂ : Site) (o₁ o₂ : Nat) (e₁ e₂ : TypeError) :
    Follows K J P Q (complain site₁ o₁ e₁) (complain site₂ o₂ e₂) := by
  have hnot (s : State) : ((complain site₁ o₁ e₁).run s).2.clean K = false := rfl
  refine ⟨fun s hs => ?_, fun _ s _ _ hs => ?_⟩
  · rw [hnot] at hs
    cases hs
  · rw [hnot] at hs
    cases hs

theorem follows_complain_then {f g : PUnit → Step α} (site₁ site₂ : Site) (o₁ o₂ : Nat) (e₁ e₂ : TypeError)
    (h : Follows K J False Q (f ⟨⟩) (g ⟨⟩)) : Follows K J P Q (complain site₁ o₁ e₁ >>= f)
      (complain site₂ o₂ e₂ >>= g) :=
  Follows.bind (Q := fun _ => False) (follows_complain _ _ _ _ _ _) fun _ => h.imp fun p => p.2

theorem follows_complain_pure (site₁ site₂ : Site) (o₁ o₂ : Nat) (e₁ e₂ : TypeError) (a : α) :
    Follows K J P Q (complain site₁ o₁ e₁ >>= fun _ => pure a) (complain site₂ o₂ e₂ >>= fun _ => pure a) :=
  follows_complain_then _ _ _ _ _ _ (follows_pure fun p => p.elim)

theorem follows_forM {γ : Type} {f g : γ → Step PUnit} (h : ∀ c, Follows K J P (fun _ => True) (f c) (g c)) :
    ∀ cs : List γ, Follows K J P (fun _ => True) (cs.forM f) (cs.forM g)
  | [] => follows_pure fun _ => trivial
  | c :: cs => (h c).bind fun _ => (follows_forM h cs).imp fun p => p.1

end

/-! ## Names that are known -/

def Env.IsTypeName (env : Env) (name : String) : Prop := ∃ file spec, env.decls.find? name = some (.type file spec)

def Env.IsConstName (env : Env) (name : String) : Prop :=
  ∃ file id type value iota, env.decls.find? name = some (.const file id type value iota)

def Env.Known (env : Env) (rs : List NamedRef) : Prop := ∀ r ∈ rs, r.package = env.path → env.IsTypeName r.name

section
variable {env : Env}

@[simp] theorem known_nil : env.Known [] := fun _ h => nomatch h

@[simp] theorem known_append {rs ss : List NamedRef} : env.Known (rs ++ ss) ↔ env.Known rs ∧ env.Known ss := by
  simp only [Env.Known, List.mem_append, or_imp, forall_and]

@[simp] theorem known_singleton {r : NamedRef} : env.Known [r] ↔ (r.package = env.path → env.IsTypeName r.name) := by
  simp [Env.Known]

theorem refsFields_append : ∀ fs gs : List FieldTy, Ty.refsFields (fs ++ gs) = Ty.refsFields fs ++ Ty.refsFields gs
  | [], _ => rfl
  | ⟨_, _, _, _⟩ :: fs, gs => by
    rw [List.cons_append, Ty.refsFields, Ty.refsFields, refsFields_append fs gs, List.append_assoc]

theorem refsFields_eq : ∀ fs : List FieldTy, Ty.refsFields fs = fs.flatMap fun f => f.type.refs
  | [] => rfl
  | ⟨_, _, _, _⟩ :: fs => by rw [Ty.refsFields, refsFields_eq fs, List.flatMap_cons]

theorem known_of_mem_fields {f : FieldTy} : ∀ {fs : List FieldTy},
    env.Known (Ty.refsFields fs) → f ∈ fs → env.Known f.type.refs
  | ⟨_, _, _, _⟩ :: fs, h, hf => by
    rw [Ty.refsFields, known_append] at h
    rcases List.mem_cons.mp hf with rfl | hf
    · exact h.1
    · exact known_of_mem_fields h.2 hf

theorem known_refsFields {t : Ty} (h : env.Known t.refs) : ∀ {fs : List FieldTy},
    (∀ f ∈ fs, f.type = t) → env.Known (Ty.refsFields fs)
  | [], _ => by simp [Ty.refsFields]
  | ⟨_, _, _, _⟩ :: fs, hfs => by
    rw [Ty.refsFields, known_append]
    refine ⟨?_, known_refsFields h fun f hf => hfs f (List.mem_cons_of_mem _ hf)⟩
    have := hfs _ (List.mem_cons_self)
    rw [← this] at h
    exact h

end

/-- What a name means brings no unknown type of this package with it. -/
def Binding.Tame (env : Env) : Binding → Prop
  | .type t => env.Known t.refs
  | .const d => env.Known d.type.refs
  | .package (some s) => s.path ≠ env.path ∧ ∀ name d, s.consts.find? name = some d → env.Known d.type.refs
  | _ => True

/-- Two environments that give types outside the package the same meaning. -/
structure Alike (env₁ env₂ : Env) : Prop where
  path : env₂.path = env₁.path
  name : env₂.name = env₁.name
  foreign : ∀ r : NamedRef, r.package ≠ env₁.path → env₂.bare.underlying (.named r) = env₁.bare.underlying (.named r)
  /-- Types outside the package do not lead back into it. -/
  outside : ∀ r : NamedRef, r.package ≠ env₁.path → env₁.Known (env₁.bare.underlying (.named r)).refs

structure SameScope (env₁ env₂ : Env) (site₁ site₂ : Site) : Prop where
  lookup : ∀ name, env₂.lookup site₂.file name = env₁.lookup site₁.file name
  iota : site₂.iota = site₁.iota
  tame : ∀ name b, env₁.lookup site₁.file name = some b → b.Tame env₁

theorem refs_predeclared {name : String} {p : Predeclared} (h : Predeclared.find? name = some p) :
    (∃ t, p = .type t ∧ t.refs = []) ∨ (∃ d, p = .const d ∧ d.type.refs = []) ∨ p = .iota := by
  unfold Predeclared.find? at h
  dsimp only at h
  split at h <;> cases h <;> simp [Ty.refs, Ty.refsMethods]

/-- What a name means that the package does not declare. -/
theorem lookup_undeclared {env : Env} {file : Nat} {name : String} {b : Binding} (hd : env.decls.find? name = none)
    (h : env.lookup file name = some b) :
    (∃ p, b = .package p ∧ (env.scopes[file]?).bind (·.find? name) = some p) ∨
      (∃ s ∈ env.dots[file]?.getD [], b = .type (.named (s.ref name)) ∨ ∃ d, s.consts.find? name = some d ∧
        b = .const d) ∨
      (∃ t, b = .type t ∧ t.refs = []) ∨ (∃ d, b = .const d ∧ d.type.refs = []) ∨ b = .iota := by
  rw [Env.lookup, hd] at h
  dsimp only at h
  cases hs : (env.scopes[file]?).bind (·.find? name) with
  | some p =>
    rw [hs] at h
    cases h
    exact Or.inl ⟨p, rfl, rfl⟩
  | none =>
    rw [hs] at h
    dsimp only at h
    rw [Option.orElse_eq_orElse, Option.orElse_eq_or] at h
    rcases Option.or_eq_some_iff.mp h with h | ⟨-, h⟩
    · rw [Env.dotBinding?] at h
      split at h
      · obtain ⟨s, hmem, hb⟩ := List.exists_of_findSome?_eq_some h
        refine Or.inr (Or.inl ⟨s, hmem, ?_⟩)
        split at hb
        · cases hb
          exact Or.inl rfl
        · obtain ⟨d, hd, rfl⟩ := Option.map_eq_some_iff.mp hb
          exact Or.inr ⟨d, hd, rfl⟩
      · cases h
    · obtain ⟨p, hp, rfl⟩ := Option.map_eq_some_iff.mp h
      rcases refs_predeclared hp with ⟨t, rfl, ht⟩ | ⟨d, rfl, hd⟩ | rfl
      · exact Or.inr (Or.inr (Or.inl ⟨t, rfl, ht⟩))
      · exact Or.inr (Or.inr (Or.inr (Or.inl ⟨d, rfl, hd⟩)))
      · exact Or.inr (Or.inr (Or.inr (Or.inr rfl)))

/-- Only a declaration of the package makes a name one of its types or constants. -/
theorem exists_of_lookup {env : Env} {file : Nat} {name : String}
    (h : env.lookup file name = some .localType ∨ env.lookup file name = some .localConst) :
    ∃ d, env.decls.find? name = some d ∧
      env.lookup file name = some (if d.isType then .localType else .localConst) := by
  cases hd : env.decls.find? name with
  | some d => exact ⟨d, rfl, by rw [Env.lookup, hd]⟩
  | none =>
    exfalso
    rcases h with h | h
    all_goals rcases lookup_undeclared hd h with ⟨p, hb, -⟩ | ⟨s, -, hb | ⟨d, -, hb⟩⟩ | ⟨t, hb, -⟩ | ⟨d, hb, -⟩ | hb
    all_goals cases hb

theorem isTypeName_of_lookup {env : Env} {file : Nat} {name : String} (h : env.lookup file name = some .localType) :
    env.IsTypeName name := by
  obtain ⟨d, hd, htype⟩ := exists_of_lookup (Or.inl h)
  cases d with
  | type file spec => exact ⟨file, spec, hd⟩
  | const => cases htype.symm.trans h

theorem isConstName_of_lookup {env : Env} {file : Nat} {name : String}
    (h : env.lookup file name = some .localConst) :
    env.IsConstName name := by
  obtain ⟨d, hd, hconst⟩ := exists_of_lookup (Or.inr h)
  cases d with
  | type => cases hconst.symm.trans h
  | const file id type value iota => exact ⟨file, id, type, value, iota, hd⟩

/-! ## Type expressions -/

variable {K : Ty → Bool} {J : Core → Core → Prop} {env₁ env₂ : Env} {site₁ site₂ : Site}

theorem follows_recordType {P : Prop} {Q : Ty → Prop} (r : ByteRange) (t : Ty) (h : P → Q t) :
    Follows K J P Q (recordType r t) (recordType r t) := by
  unfold recordType record
  refine (follows_modify (Q := fun _ => True) trivial ?_ ?_ ?_ ?_).bind fun _ => follows_pure fun p => h p.1
  all_goals exact fun _ => rfl

section
variable (he : Alike env₁ env₂) (hs : SameScope env₁ env₂ site₁ site₂)
include he hs

theorem follows_typeName {P : Prop} (id : Token) :
    Follows K J P (fun t => env₁.Known t.refs) (typeName env₁ site₁ id) (typeName env₂ site₂ id) := by
  unfold typeName
  rw [hs.lookup]
  cases h : env₁.lookup site₁.file id.text with
  | none => exact follows_complain_pure _ _ _ _ _ _ _
  | some b =>
    cases b with
    | type t => exact follows_pure fun _ => hs.tame _ _ h
    | localType =>
      have href : env₂.ref id.text = env₁.ref id.text := by rw [Env.ref, Env.ref, he.path, he.name]
      dsimp only
      rw [href]
      exact follows_pure fun _ => by simpa [Ty.refs, Env.ref] using isTypeName_of_lookup h
    | localConst | const _ | iota | package _ => exact follows_complain_pure _ _ _ _ _ _ _

omit he in
theorem follows_selectedType {P : Prop} (offset : Nat) (qualifier name : Token) :
    Follows K J P (fun t => env₁.Known t.refs) (selectedType env₁ site₁ offset qualifier name)
      (selectedType env₂ site₂ offset qualifier name) := by
  unfold selectedType
  dsimp only
  rw [hs.lookup]
  cases h : env₁.lookup site₁.file qualifier.text with
  | none => exact follows_complain_pure _ _ _ _ _ _ _
  | some b =>
    cases b with
    | package p =>
      cases p with
      | none => exact follows_pure fun _ => by simp [Ty.refs]
      | some s =>
        have hpath := (hs.tame _ _ h).1
        refine follows_ite (fun _ => follows_complain_pure _ _ _ _ _ _ _) fun _ => ?_
        refine follows_ite (fun _ => ?_) fun _ => ?_
        · exact follows_pure fun _ => by simp [Ty.refs, Surface.ref, hpath]
        · refine follows_ite (fun _ => follows_complain_pure _ _ _ _ _ _ _) fun _ =>
            follows_complain_pure _ _ _ _ _ _ _
    | type _ | localType | localConst | const _ | iota => exact follows_complain_pure _ _ _ _ _ _ _

omit he hs in
theorem follows_postponeKey {P : Prop} (key : TypeExpr) (t : Ty) :
    Follows K J P (fun _ => True) (postponeKey site₁ key t) (postponeKey site₂ key t) := by
  unfold postponeKey
  refine follows_ite (fun _ => follows_pure fun _ => trivial) fun _ => ⟨fun s hs => ?_, fun _ s u hj hs hu => ?_⟩
  · rw [clean_iff] at hs ⊢
    exact ⟨hs.1, fun k hk => hs.2 k (List.mem_append_left _ hk)⟩
  · rw [clean_iff] at hs hu
    refine ⟨rfl, trivial, hj, clean_iff.mpr ⟨hu.1, fun k hk => ?_⟩⟩
    rcases List.mem_append.mp hk with hk | hk
    · exact hu.2 k hk
    · have := hs.2 ⟨site₁.file, site₁.space, key.range.start, t⟩
        (List.mem_append_right _ (List.mem_singleton_self _))
      rw [List.mem_singleton.mp hk]
      exact this

omit he hs in
theorem follows_declareFields (f : Field) (t : Ty) (seen : List String) :
    Follows K J (env₁.Known t.refs) (fun r => env₁.Known (Ty.refsFields r.1)) (declareFields site₁ f t seen)
      (declareFields site₂ f t seen) := by
  unfold declareFields
  dsimp only
  refine follows_ite (fun _ => ?_) fun _ => ?_
  · cases embeddedName? f.type with
    | none => exact follows_pure fun _ => by simp [Ty.refsFields]
    | some name =>
      have hone : env₁.Known t.refs →
        env₁.Known (Ty.refsFields [⟨name, t, true, f.tag.bind fun t => Token.unquote t.text⟩]) :=
        fun h => by simpa [Ty.refsFields] using h
      exact follows_ite (fun _ => follows_complain_pure _ _ _ _ _ _ _) fun _ => follows_pure hone
  · refine (follows_forM (fun _ => follows_complain _ _ _ _ _ _) _).bind fun _ => follows_pure fun h => ?_
    refine known_refsFields h.1 fun g hg => ?_
    obtain ⟨name, -, rfl⟩ := List.mem_map.mp hg
    rfl

end

mutual

theorem follows_resolveType {P : Prop} (he : Alike env₁ env₂) (hs : SameScope env₁ env₂ site₁ site₂) :
    ∀ t : TypeExpr,
    Follows K J P (fun t => env₁.Known t.refs) (resolveType env₁ site₁ t) (resolveType env₂ site₂ t)
  | .missing => follows_pure fun _ => by simp [Ty.refs]
  | .name id => (follows_typeName he hs id).bind fun _ => follows_recordType _ _ fun p => p.2
  | .selector range qualifier name => by
    rw [resolveType.eq_def, resolveType.eq_def]
    dsimp only
    split
    · exact (follows_selectedType hs _ _ _).bind fun _ => follows_recordType _ _ fun p => p.2
    · exact follows_recordType _ _ fun _ => by simp [Ty.refs]
  | .slice range elem => by
    rw [resolveType, resolveType]
    exact (follows_resolveType he hs elem).bind fun _ => follows_recordType _ _ fun p => by simpa [Ty.refs] using p.2
  | .map range key value => by
    rw [resolveType, resolveType]
    refine (follows_resolveType he hs key).bind fun _ => (follows_resolveType he hs value).bind fun _ =>
      (follows_postponeKey key _).bind fun _ => follows_recordType _ _ fun p => ?_
    simpa [Ty.refs] using ⟨p.1.1.2, p.1.2⟩
  | .pointer range elem => by
    rw [resolveType, resolveType]
    exact (follows_resolveType he hs elem).bind fun _ => follows_recordType _ _ fun p => by simpa [Ty.refs] using p.2
  | .chan range elem => by
    rw [resolveType, resolveType]
    exact (follows_resolveType he hs elem).bind fun _ => follows_recordType _ _ fun p => by simpa [Ty.refs] using p.2
  | .func range signature => by
    rw [resolveType, resolveType]
    exact (follows_resolveSignature he hs signature).bind fun _ => follows_recordType _ _ fun p => by
      simpa [Ty.refs] using p.2
  | .struct range _ fields => by
    rw [resolveType, resolveType]
    exact (follows_resolveFields he hs [] fields).bind fun _ => follows_recordType _ _ fun p => by
      simpa [Ty.refs] using p.2
  | .interface range _ methods => by
    rw [resolveType, resolveType]
    exact (follows_resolveMethods he hs [] methods).bind fun _ => follows_recordType _ _ fun p => by
      simpa [Ty.refs] using p.2

theorem follows_resolveSignature {P : Prop} (he : Alike env₁ env₂) (hs : SameScope env₁ env₂ site₁ site₂) :
    ∀ s : Signature,
    Follows K J P (fun r => env₁.Known (Ty.refsAll r.1) ∧ env₁.Known (Ty.refsAll r.2))
      (resolveSignature env₁ site₁ s)
      (resolveSignature env₂ site₂ s)
  | ⟨params, _, results⟩ => by
    rw [resolveSignature, resolveSignature]
    exact (follows_resolveParams he hs params).bind fun _ => (follows_resolveParams he hs results).bind fun _ =>
      follows_pure fun p => ⟨p.1.2, p.2⟩

theorem follows_resolveParams {P : Prop} (he : Alike env₁ env₂) (hs : SameScope env₁ env₂ site₁ site₂) :
    ∀ ps : List Param,
    Follows K J P (fun ts => env₁.Known (Ty.refsAll ts)) (resolveParams env₁ site₁ ps) (resolveParams env₂ site₂ ps)
  | [] => by
    rw [resolveParams, resolveParams]
    exact follows_pure fun _ => by simp [Ty.refsAll]
  | ⟨_, type⟩ :: rest => by
    rw [resolveParams, resolveParams]
    exact (follows_resolveType he hs type).bind fun _ => (follows_resolveParams he hs rest).bind fun _ =>
      follows_pure fun p => by simpa [Ty.refsAll] using ⟨p.1.2, p.2⟩

theorem follows_resolveFields {P : Prop} (he : Alike env₁ env₂) (hs : SameScope env₁ env₂ site₁ site₂)
    (seen : List String) : ∀ fs : List (Item Field),
    Follows K J P (fun fs => env₁.Known (Ty.refsFields fs)) (resolveFields env₁ site₁ seen fs)
      (resolveFields env₂ site₂ seen fs)
  | [] => by
    rw [resolveFields, resolveFields]
    exact follows_pure fun _ => by simp [Ty.refsFields]
  | .gap _ :: rest => by
    rw [resolveFields, resolveFields]
    exact follows_resolveFields he hs seen rest
  | .comment _ :: rest => by
    rw [resolveFields, resolveFields]
    exact follows_resolveFields he hs seen rest
  | .entry ⟨range, doc, names, type, tag, trailing⟩ :: rest => by
    rw [resolveFields, resolveFields]
    refine (follows_resolveType he hs type).bind fun _ =>
      ((follows_declareFields _ _ seen).imp fun p => p.2).bind fun _ =>
      (follows_resolveFields he hs _ rest).bind fun _ => follows_pure fun p => ?_
    rw [refsFields_append, known_append]
    exact ⟨p.1.2, p.2⟩

theorem follows_resolveMethods {P : Prop} (he : Alike env₁ env₂) (hs : SameScope env₁ env₂ site₁ site₂)
    (seen : List String) : ∀ ms : List (Item Method),
    Follows K J P (fun ms => env₁.Known (Ty.refsMethods ms)) (resolveMethods env₁ site₁ seen ms)
      (resolveMethods env₂ site₂ seen ms)
  | [] => by
    rw [resolveMethods, resolveMethods]
    exact follows_pure fun _ => by simp [Ty.refsMethods]
  | .gap _ :: rest => by
    rw [resolveMethods, resolveMethods]
    exact follows_resolveMethods he hs seen rest
  | .comment _ :: rest => by
    rw [resolveMethods, resolveMethods]
    exact follows_resolveMethods he hs seen rest
  | .entry ⟨_, _, name, signature, _⟩ :: rest => by
    rw [resolveMethods, resolveMethods]
    refine (follows_resolveSignature he hs signature).bind fun _ => ?_
    dsimp only
    refine follows_ite (fun _ => ?_) fun _ => ?_
    · exact follows_complain_then _ _ _ _ _ _ (follows_resolveMethods he hs seen rest)
    · refine (follows_resolveMethods he hs _ rest).bind fun _ => follows_pure fun p => ?_
      simpa [Ty.refsMethods] using ⟨p.1.2.1, p.1.2.2, p.2⟩

end

/-! ## Expressions -/

theorem follows_recordValue {P : Prop} {Q : Option TypeAndValue → Prop} (r : ByteRange) (v : Option TypeAndValue)
    (h : P → Q v) :
    Follows K J P Q (recordValue r v) (recordValue r v) := by
  cases v with
  | none => exact follows_pure h
  | some tv =>
    rw [recordValue, record]
    refine (follows_modify (Q := fun _ => True) trivial ?_ ?_ ?_ ?_).bind fun _ => follows_pure fun p => h p.1
    all_goals exact fun _ => rfl

theorem follows_underlyingWith {resolve₁ resolve₂ : String → Step Ty} (he : Alike env₁ env₂)
    (hr : ∀ name, Follows K J (env₁.IsTypeName name) (fun t => env₁.Known t.refs) (resolve₁ name) (resolve₂ name))
    (t : Ty) :
    Follows K J (env₁.Known t.refs) (fun t => env₁.Known t.refs) (underlyingWith env₁ resolve₁ t)
      (underlyingWith env₂ resolve₂ t) := by
  cases t with
  | named r =>
    rw [underlyingWith, underlyingWith, he.path]
    refine follows_ite (fun hpath => (hr r.name).imp fun h => ?_) fun hpath => ?_
    · rw [Ty.refs, known_singleton] at h
      exact h hpath
    · rw [he.foreign r hpath]
      exact follows_pure fun _ => he.outside r hpath
  | _ => exact follows_pure fun h => h

structure Resolves (K : Ty → Bool) (J : Core → Core → Prop) (env₁ env₂ : Env) : Prop where
  alike : Alike env₁ env₂
  named : ∀ name, Follows K J (env₁.IsTypeName name) (fun t => env₁.Known t.refs) (resolveNamed env₁ name)
    (resolveNamed env₂ name)

def Env.KnownValue (env : Env) (v : Option TypeAndValue) : Prop := ∀ tv ∈ v, env.Known tv.type.refs

theorem follows_underlying (hr : Resolves K J env₁ env₂) (t : Ty) :
    Follows K J (env₁.Known t.refs) (fun t => env₁.Known t.refs) (underlying env₁ t) (underlying env₂ t) :=
  follows_underlyingWith hr.alike hr.named t

theorem follows_assignable (hr : Resolves K J env₁ env₂) (tv : TypeAndValue) (target : Ty) :
    Follows K J (env₁.Known tv.type.refs ∧ env₁.Known target.refs) (fun _ => True) (assignable env₁ tv target)
      (assignable env₂ tv target) := by
  unfold assignable
  refine ((follows_underlying hr target).imp fun p => p.2).bind fun under => ?_
  dsimp only
  split
  · split <;> exact follows_pure fun _ => trivial
  · refine follows_ite (fun _ => follows_pure fun _ => trivial) fun _ => ?_
    refine follows_ite (fun _ => follows_pure fun _ => trivial) fun _ => ?_
    exact ((follows_underlying hr tv.type).imp fun p => p.1.1).bind fun _ => follows_pure fun _ => trivial

theorem follows_assign (hr : Resolves K J env₁ env₂) (tv : TypeAndValue) (target : Ty) (r : ByteRange) (use : Use) :
    Follows K J (env₁.Known tv.type.refs ∧ env₁.Known target.refs) (fun _ => True)
      (assign env₁ site₁ tv target r use)
      (assign env₂ site₂ tv target r use) := by
  unfold assign
  refine follows_ite (fun _ => follows_pure fun _ => trivial) fun _ => ?_
  refine (follows_assignable hr tv target).bind fun fit => ?_
  cases fit with
  | ok => exact follows_pure fun _ => trivial
  | error => exact follows_complain_pure _ _ _ _ _ _ _

theorem follows_literal {P : Prop} (t : Token) :
    Follows K J P env₁.KnownValue (literal site₁ t) (literal site₂ t) := by
  unfold literal
  cases literalValue? t with
  | some value =>
    refine follows_pure fun _ tv htv => ?_
    cases htv
    simp [Ty.refs]
  | none => exact follows_complain_pure _ _ _ _ _ _ _

theorem follows_nameExpr {P : Prop} {constOf₁ constOf₂ : String → Step (Option ConstDef)}
    (hs : SameScope env₁ env₂ site₁ site₂)
    (hc : ∀ name, Follows K J (env₁.IsConstName name) (fun o => ∀ d ∈ o, env₁.Known d.type.refs) (constOf₁ name)
      (constOf₂ name))
    (id : Token) : Follows K J P env₁.KnownValue (nameExpr env₁ constOf₁ site₁ id)
      (nameExpr env₂ constOf₂ site₂ id) := by
  unfold nameExpr
  rw [hs.lookup, hs.iota]
  cases h : env₁.lookup site₁.file id.text with
  | none => exact follows_complain_pure _ _ _ _ _ _ _
  | some b =>
    cases b with
    | localConst =>
      refine ((hc id.text).imp fun _ => isConstName_of_lookup h).bind fun o => follows_pure fun p tv htv => ?_
      obtain ⟨d, hd, rfl⟩ := Option.map_eq_some_iff.mp htv
      exact p.2 d hd
    | const d =>
      refine follows_pure fun _ tv htv => ?_
      cases htv
      exact hs.tame _ _ h
    | iota =>
      cases site₁.iota with
      | some n =>
        refine follows_pure fun _ tv htv => ?_
        cases htv
        simp [Ty.refs]
      | none => exact follows_complain_pure _ _ _ _ _ _ _
    | type _ | localType | package _ => exact follows_complain_pure _ _ _ _ _ _ _

theorem follows_selectorExpr {P : Prop} (hs : SameScope env₁ env₂ site₁ site₂) (offset : Nat)
    (qualifier name : Token) :
    Follows K J P env₁.KnownValue (selectorExpr env₁ site₁ offset qualifier name)
      (selectorExpr env₂ site₂ offset qualifier name) := by
  unfold selectorExpr
  dsimp only
  rw [hs.lookup]
  cases h : env₁.lookup site₁.file qualifier.text with
  | none => exact follows_complain_pure _ _ _ _ _ _ _
  | some b =>
    cases b with
    | package p =>
      cases p with
      | none => exact follows_pure fun _ _ h => nomatch h
      | some s =>
        refine follows_ite (fun _ => follows_complain_pure _ _ _ _ _ _ _) fun _ => ?_
        cases hd : s.consts.find? name.text with
        | some d =>
          refine follows_pure fun _ tv htv => ?_
          cases htv
          exact (hs.tame _ _ h).2 _ _ hd
        | none =>
          exact follows_ite (fun _ => follows_complain_pure _ _ _ _ _ _ _) fun _ =>
            follows_complain_pure _ _ _ _ _ _ _
    | type _ | localType | localConst | const _ | iota => exact follows_complain_pure _ _ _ _ _ _ _

theorem follows_signedOperand (offset : Nat) (op : Token) (r : ByteRange) (tv : TypeAndValue) :
    Follows K J (env₁.Known tv.type.refs) env₁.KnownValue (signedOperand env₁ site₁ offset op r tv)
      (signedOperand env₂ site₂ offset op r tv) := by
  unfold signedOperand
  cases tv.const?.bind (signed? op) with
  | some value =>
    refine follows_pure fun h v hv => ?_
    cases hv
    exact h
  | none => exact follows_complain_pure _ _ _ _ _ _ _

theorem follows_literalBase (hr : Resolves K J env₁ env₂) (t : Ty) (elided : Bool) :
    Follows K J (env₁.Known t.refs) (fun r => env₁.Known r.2.refs) (literalBase env₁ t elided)
      (literalBase env₂ t elided) := by
  unfold literalBase
  refine (follows_underlying hr t).bind fun base => ?_
  split
  · refine follows_ite (fun _ => ?_) fun _ => follows_pure fun p => p.2
    exact ((follows_underlying hr _).imp fun p => by simpa [Ty.refs] using p.2).bind fun _ =>
      follows_pure fun p => p.2
  · exact follows_pure fun p => p.2

def ResolvesConsts (K : Ty → Bool) (J : Core → Core → Prop) (env : Env) (constOf₁ constOf₂ : String →
      Step (Option ConstDef)) :
    Prop :=
  ∀ name, Follows K J (env.IsConstName name) (fun o => ∀ d ∈ o, env.Known d.type.refs) (constOf₁ name)
    (constOf₂ name)

mutual

theorem follows_checkExpr {P : Prop} {constOf₁ constOf₂ : String → Step (Option ConstDef)}
    (hr : Resolves K J env₁ env₂)
    (hc : ResolvesConsts K J env₁ constOf₁ constOf₂) (hs : SameScope env₁ env₂ site₁ site₂) : ∀ e : Expr,
    Follows K J P env₁.KnownValue (checkExpr env₁ constOf₁ site₁ e) (checkExpr env₂ constOf₂ site₂ e)
  | .missing => by
    rw [checkExpr, checkExpr]
    exact follows_pure fun _ _ h => nomatch h
  | .literal t => by
    rw [checkExpr, checkExpr]
    exact (follows_literal t).bind fun _ => follows_recordValue _ _ fun p => p.2
  | .name id => by
    rw [checkExpr, checkExpr]
    exact (follows_nameExpr hs hc id).bind fun _ => follows_recordValue _ _ fun p => p.2
  | .selector range qualifier name => by
    rw [checkExpr.eq_def, checkExpr.eq_def]
    dsimp only
    split
    · exact (follows_selectorExpr hs _ _ _).bind fun _ => follows_recordValue _ _ fun p => p.2
    · exact follows_pure fun _ _ h => nomatch h
  | .paren range inner => by
    rw [checkExpr, checkExpr]
    exact (follows_checkExpr hr hc hs inner).bind fun _ => follows_recordValue _ _ fun p => p.2
  | .unary range op operand => by
    rw [checkExpr, checkExpr]
    refine (follows_checkExpr hr hc hs operand).bind fun v => ?_
    cases v with
    | none => exact follows_pure fun _ _ h => nomatch h
    | some tv =>
      exact ((follows_signedOperand _ _ _ tv).imp fun p => p.2 tv rfl).bind fun _ =>
        follows_recordValue _ _ fun p => p.2
  | .composite range type _ body => by
    rw [checkExpr, checkExpr]
    exact (follows_resolveType hr.alike hs type).bind fun t =>
      ((follows_checkBody hr hc hs t _ _ body).imp fun p => p.2).bind
      fun _ => follows_recordValue _ _ fun p => p.2
  | .type t _ => by
    rw [checkExpr, checkExpr]
    exact (follows_resolveType hr.alike hs t).bind fun _ => follows_complain_pure _ _ _ _ _ _ _

theorem follows_checkBody {constOf₁ constOf₂ : String → Step (Option ConstDef)} (hr : Resolves K J env₁ env₂)
    (hc : ResolvesConsts K J env₁ constOf₁ constOf₂) (hs : SameScope env₁ env₂ site₁ site₂) (t : Ty) (offset : Nat)
    (elided : Bool) : ∀ b : LitBody, Follows K J (env₁.Known t.refs) env₁.KnownValue
      (checkBody env₁ constOf₁ site₁ t offset elided b) (checkBody env₂ constOf₂ site₂ t offset elided b)
  | ⟨range, _, elements⟩ => by
    rw [checkBody, checkBody]
    refine follows_ite (fun _ => follows_pure fun _ _ h => nomatch h) fun _ => ?_
    refine (follows_literalBase hr t elided).bind fun base => ?_
    have hvalue {R : Prop} : (env₁.Known t.refs ∧ env₁.Known base.2.refs) ∧ R →
      env₁.KnownValue (some ⟨.value, t⟩) := by
      intro p tv htv
      cases htv
      exact p.1.1
    obtain ⟨baseType, base⟩ := base
    cases base with
    | struct fields =>
      dsimp only
      have hfields : env₁.Known t.refs ∧ env₁.Known (Ty.struct fields).refs → env₁.Known (Ty.refsFields fields) :=
        fun p => by
        simpa [Ty.refs] using p.2
      refine follows_ite (fun _ => follows_complain_pure _ _ _ _ _ _ _) fun _ => ?_
      refine follows_ite (fun _ => ?_) fun _ => ?_
      · exact ((follows_checkKeyed hr hc hs fields _ _ _ elements).imp hfields).bind fun _ => follows_pure hvalue
      · refine follows_ite (fun _ => ?_) fun _ => follows_pure fun p => hvalue ⟨p, trivial⟩
        refine ((follows_checkPositional hr hc hs _ _ fields elements).imp hfields).bind fun _ => ?_
        exact follows_ite (fun _ => follows_complain_pure _ _ _ _ _ _ _) fun _ => follows_pure hvalue
    | slice elem =>
      exact ((follows_checkSlice hr hc hs elem elements).imp fun p => by simpa [Ty.refs] using p.2).bind fun _ =>
        follows_pure hvalue
    | map key value =>
      exact ((follows_checkMap hr hc hs key value _ elements).imp fun p => by
        simpa [Ty.refs] using p.2).bind fun _ =>
        follows_pure hvalue
    | invalid => exact follows_pure fun _ _ h => nomatch h
    | basic _ | named _ | pointer _ | chan _ | func _ _ | interface _ => exact follows_complain_pure _ _ _ _ _ _ _

theorem follows_checkKeyed {constOf₁ constOf₂ : String → Step (Option ConstDef)} (hr : Resolves K J env₁ env₂)
    (hc : ResolvesConsts K J env₁ constOf₁ constOf₂) (hs : SameScope env₁ env₂ site₁ site₂) (fields : List FieldTy)
    (type₁ type₂ : String) (seen : List String) : ∀ es : List Element,
    Follows K J (env₁.Known (Ty.refsFields fields)) (fun _ => True)
      (checkKeyed env₁ constOf₁ site₁ fields type₁ seen es)
      (checkKeyed env₂ constOf₂ site₂ fields type₂ seen es)
  | [] => by
    rw [checkKeyed, checkKeyed]
    exact follows_pure fun _ => trivial
  | .positional _ _ :: rest => by
    rw [checkKeyed, checkKeyed]
    exact follows_checkKeyed hr hc hs fields type₁ type₂ seen rest
  | .keyed _ .missing value :: rest => by
    rw [checkKeyed, checkKeyed]
    exact follows_checkKeyed hr hc hs fields type₁ type₂ seen rest
  | .keyed _ (.body b) value :: rest => by
    rw [checkKeyed.eq_def, checkKeyed.eq_def]
    exact follows_complain_then _ _ _ _ _ _
      ((follows_checkKeyed hr hc hs fields type₁ type₂ seen rest).imp False.elim)
  | .keyed _ (.expr e) value :: rest => by
    have hrest := fun seen => follows_checkKeyed hr hc hs fields type₁ type₂ seen rest
    rw [checkKeyed.eq_def, checkKeyed.eq_def]
    cases e with
    | name id =>
      dsimp only
      cases hf : fields.find? (·.name = id.text) with
      | none => exact follows_complain_then _ _ _ _ _ _ ((hrest seen).imp False.elim)
      | some field =>
        dsimp only
        refine follows_ite (fun _ => follows_complain_then _ _ _ _ _ _ ((hrest seen).imp False.elim)) fun _ => ?_
        refine ((follows_checkValue hr hc hs field.type _ value).imp fun p => ?_).bind fun _ =>
          (hrest _).imp fun p => p.1
        exact known_of_mem_fields p (List.mem_of_find?_eq_some hf)
    | _ => exact follows_complain_then _ _ _ _ _ _ ((hrest seen).imp False.elim)

theorem follows_checkPositional {constOf₁ constOf₂ : String → Step (Option ConstDef)} (hr : Resolves K J env₁ env₂)
    (hc : ResolvesConsts K J env₁ constOf₁ constOf₂) (hs : SameScope env₁ env₂ site₁ site₂) (type₁ type₂ : String) :
    ∀ (fields : List FieldTy) (es : List Element),
    Follows K J (env₁.Known (Ty.refsFields fields)) (fun _ => True)
      (checkPositional env₁ constOf₁ site₁ type₁ fields es)
      (checkPositional env₂ constOf₂ site₂ type₂ fields es)
  | _, [] => by
    rw [checkPositional, checkPositional]
    exact follows_pure fun _ => trivial
  | fields, .keyed _ _ _ :: rest => by
    rw [checkPositional, checkPositional]
    refine (follows_checkPositional hr hc hs type₁ type₂ _ rest).imp fun h => ?_
    cases fields with
    | nil => exact h
    | cons f fields =>
      obtain ⟨_, _, _, _⟩ := f
      rw [Ty.refsFields, known_append] at h
      exact h.2
  | [], .positional range _ :: _ => by
    rw [checkPositional, checkPositional]
    exact follows_complain _ _ _ _ _ _
  | ⟨_, type, _, _⟩ :: fields, .positional _ value :: rest => by
    rw [checkPositional, checkPositional]
    refine ((follows_checkValue hr hc hs type _ value).imp fun p => ?_).bind fun _ =>
      (follows_checkPositional hr hc hs type₁ type₂ fields rest).imp fun p => ?_
    · rw [Ty.refsFields, known_append] at p
      exact p.1
    · rw [Ty.refsFields, known_append] at p
      exact p.1.2

theorem follows_checkSlice {constOf₁ constOf₂ : String → Step (Option ConstDef)} (hr : Resolves K J env₁ env₂)
    (hc : ResolvesConsts K J env₁ constOf₁ constOf₂) (hs : SameScope env₁ env₂ site₁ site₂) (elem : Ty) :
    ∀ es : List Element,
    Follows K J (env₁.Known elem.refs) (fun _ => True) (checkSlice env₁ constOf₁ site₁ elem es)
      (checkSlice env₂ constOf₂ site₂ elem es)
  | [] => by
    rw [checkSlice, checkSlice]
    exact follows_pure fun _ => trivial
  | .positional _ value :: rest => by
    rw [checkSlice, checkSlice]
    exact (follows_checkValue hr hc hs elem _ value).bind fun _ => (follows_checkSlice hr hc hs elem rest).imp
      fun p => p.1
  | .keyed _ (.expr index) value :: rest => by
    rw [checkSlice, checkSlice]
    refine (follows_checkExpr hr hc hs index).bind fun v => ?_
    have hrest := (follows_checkValue hr hc hs elem .sliceLit value).bind fun _ =>
      (follows_checkSlice hr hc hs elem rest).imp fun p => p.1
    exact follows_ite (fun _ => follows_complain_then _ _ _ _ _ _ (hrest.imp False.elim)) fun _ =>
      hrest.imp fun p => p.1
  | .keyed _ .missing value :: rest => by
    rw [checkSlice.eq_def, checkSlice.eq_def]
    exact (follows_checkValue hr hc hs elem _ value).bind fun _ => (follows_checkSlice hr hc hs elem rest).imp
      fun p => p.1
  | .keyed _ (.body _) value :: rest => by
    rw [checkSlice.eq_def, checkSlice.eq_def]
    exact (follows_checkValue hr hc hs elem _ value).bind fun _ => (follows_checkSlice hr hc hs elem rest).imp
      fun p => p.1

theorem follows_checkMap {constOf₁ constOf₂ : String → Step (Option ConstDef)} (hr : Resolves K J env₁ env₂)
    (hc : ResolvesConsts K J env₁ constOf₁ constOf₂) (hs : SameScope env₁ env₂ site₁ site₂) (key value : Ty)
    (seen : List String) : ∀ es : List Element,
    Follows K J (env₁.Known key.refs ∧ env₁.Known value.refs) (fun _ => True)
      (checkMap env₁ constOf₁ site₁ key value seen es) (checkMap env₂ constOf₂ site₂ key value seen es)
  | [] => by
    rw [checkMap, checkMap]
    exact follows_pure fun _ => trivial
  | .positional _ _ :: rest => by
    rw [checkMap, checkMap]
    exact follows_complain_then _ _ _ _ _ _ ((follows_checkMap hr hc hs key value seen rest).imp False.elim)
  | .keyed _ k v :: rest => by
    rw [checkMap, checkMap]
    refine ((follows_checkValue hr hc hs key _ k).imp fun p => p.1).bind fun tv => ?_
    have hrest := fun seen => ((follows_checkValue hr hc hs value .mapLit v).imp And.right).bind fun _ =>
      (follows_checkMap hr hc hs key value seen rest).imp fun p => p.1
    cases (tv.bind TypeAndValue.const?).map ConstValue.text with
    | none => exact (hrest seen).imp fun p => p.1
    | some text =>
      exact follows_ite (fun _ => follows_complain_then _ _ _ _ _ _ ((hrest _).imp False.elim)) fun _ =>
        (hrest _).imp fun p => p.1

theorem follows_checkValue {constOf₁ constOf₂ : String → Step (Option ConstDef)} (hr : Resolves K J env₁ env₂)
    (hc : ResolvesConsts K J env₁ constOf₁ constOf₂) (hs : SameScope env₁ env₂ site₁ site₂) (target : Ty)
    (use : Use) :
    ∀ v : ElementValue, Follows K J (env₁.Known target.refs) (fun _ => True)
      (checkValue env₁ constOf₁ site₁ target use v)
      (checkValue env₂ constOf₂ site₂ target use v)
  | .missing => by
    rw [checkValue, checkValue]
    exact follows_pure fun _ => trivial
  | .body b => by
    rw [checkValue, checkValue]
    exact (follows_checkBody hr hc hs target _ _ b).bind fun _ => follows_recordValue _ _ fun _ => trivial
  | .expr e => by
    rw [checkValue, checkValue]
    refine (follows_checkExpr hr hc hs e).bind fun v => ?_
    cases v with
    | none => exact follows_pure fun _ => trivial
    | some tv =>
      refine ((follows_assign hr tv target _ use).imp fun p => ⟨p.2 tv rfl, p.1⟩).bind fun fit => ?_
      exact follows_pure fun _ => trivial

end

theorem follows_constDef {P : Prop} {constOf₁ constOf₂ : String → Step (Option ConstDef)}
    (hr : Resolves K J env₁ env₂)
    (hc : ResolvesConsts K J env₁ constOf₁ constOf₂) (hs : SameScope env₁ env₂ site₁ site₂) (name : Token)
    (type : TypeExpr)
    (value : Expr) :
    Follows K J P (fun o => ∀ d ∈ o, env₁.Known d.type.refs) (constDef env₁ constOf₁ site₁ name type value)
      (constDef env₂ constOf₂ site₂ name type value) := by
  unfold constDef
  refine (follows_resolveType hr.alike hs type).bind fun declared => ?_
  refine follows_ite (fun _ => follows_complain_pure _ _ _ _ _ _ _) fun _ => ?_
  refine (follows_checkExpr hr hc hs value).bind fun v => ?_
  cases v with
  | none => exact follows_pure fun _ _ h => nomatch h
  | some tv =>
    dsimp only
    cases tv.const? with
    | none => exact follows_complain_pure _ _ _ _ _ _ _
    | some constant =>
      refine follows_ite (fun _ => follows_pure fun p d hd => ?_) fun _ => ?_
      · cases hd
        exact p.2 tv rfl
      · refine follows_ite (fun _ => follows_pure fun _ _ h => nomatch h) fun _ => ?_
        refine ((follows_underlying hr declared).imp fun p => p.1.2).bind fun under => ?_
        cases under.basic? with
        | none => exact follows_complain_pure _ _ _ _ _ _ _
        | some kind =>
          refine ((follows_assign hr tv declared _ _).imp fun p => ⟨p.1.2 tv rfl, p.1.1.2⟩).bind fun fit => ?_
          refine follows_ite (fun _ => follows_pure fun p d hd => ?_) fun _ => follows_pure fun _ _ h => nomatch h
          cases hd
          exact p.1.1.1.2

end IdlWorkbench.Check
