import IdlWorkbench.Proofs.Check.Traverse

/-!
# Relations that every step of the check keeps

A check changes its state in few ways: it records what a node denotes, it reports, and it notes how far it has
come. `Stepwise env R` says that `R` holds across each of them, and then it holds across the whole check. What a
check may record is known at each place: as a type it records what a name means in a file, or a type made of
others, and an expression is never a type.
-/

namespace IdlWorkbench.Check

/-! ## What is recorded -/

/-- The files of the package have another one in their scopes. -/
def Env.Imports (env : Env) (s : Surface) : Prop :=
  (∃ scope ∈ env.scopes, ∃ name, scope.find? name = some (some s)) ∨ ∃ dots ∈ env.dots, s ∈ dots

def Env.Means (env : Env) (t : Ty) : Prop :=
  ∀ r, t = .named r → r.package = env.path ∨ ∃ s, env.Imports s ∧ r.package = s.path

def Env.Records (env : Env) (tv : TypeAndValue) : Prop := tv.isType = true → env.Means tv.type

def IsValue (v : Option TypeAndValue) : Prop := ∀ tv ∈ v, tv.isType = false

section
variable {env : Env}

theorem means_of_not_named {t : Ty} (h : t.isNamed = false) : env.Means t := by
  rintro r rfl
  cases h

theorem means_ref {s : Surface} (h : env.Imports s) (name : String) : env.Means (.named (s.ref name)) := by
  rintro _ ⟨⟩
  exact Or.inr ⟨s, h, rfl⟩

theorem imports_of_lookup {file : Nat} {name : String} {s : Surface}
    (h : env.lookup file name = some (.package (some s))) : env.Imports s := by
  cases hd : env.decls.find? name with
  | some d =>
    rw [Env.lookup, hd] at h
    dsimp only at h
    split at h <;> cases h
  | none =>
    rcases lookup_undeclared hd h with ⟨p, hp, hs⟩ | ⟨_, -, hb | ⟨_, -, hb⟩⟩ | ⟨_, hb, -⟩ | ⟨_, hb, -⟩ | hb
    · cases hp
      obtain ⟨scope, hscope, hfind⟩ := Option.bind_eq_some_iff.mp hs
      exact Or.inl ⟨scope, List.mem_of_getElem? hscope, name, hfind⟩
    all_goals cases hb

theorem means_of_lookup {file : Nat} {name : String} {t : Ty} (h : env.lookup file name = some (.type t)) :
    env.Means t := by
  cases hd : env.decls.find? name with
  | some d =>
    rw [Env.lookup, hd] at h
    dsimp only at h
    split at h <;> cases h
  | none =>
    rcases lookup_undeclared hd h with ⟨_, hb, -⟩ | ⟨s, hs, hb | ⟨_, -, hb⟩⟩ | ⟨u, hb, hu⟩ | ⟨_, hb, -⟩ | hb
    · cases hb
    · cases hb
      obtain ⟨dots, hdots, hmem⟩ : ∃ dots, env.dots[file]? = some dots ∧ s ∈ dots := by
        cases hf : env.dots[file]? with
        | none => simp [hf] at hs
        | some dots => exact ⟨dots, rfl, by simpa [hf] using hs⟩
      exact means_ref (Or.inr ⟨dots, List.mem_of_getElem? hdots, hmem⟩) name
    · cases hb
    · cases hb
      rintro r rfl
      cases hu
    all_goals cases hb

end

/-! ## Relations and steps -/

/-- A relation between the states of a check before and after the changes that its steps are made of. -/
structure Stepwise (env : Env) (R : State → State → Prop) : Prop where
  trans {s t u : State} : R s t → R t u → R s u
  /-- Nothing is recorded, and no error is taken back. -/
  aside {s t : State} : t.table = s.table → t.tables = s.tables → s.errors <:+ t.errors → R s t
  record (s : State) (r : ByteRange) {tv : TypeAndValue} : env.Records tv →
    R s { s with table := s.table.insert r tv }
  /-- Nodes go to a table of their own, which is put away. -/
  apart {s t : State} : R { s with table := [] } t → R s { t with table := s.table }
  /-- Nodes go to a table of their own, and from there to that of a file. -/
  declare {s t : State} (file : Nat) : R { s with table := [] } t →
    R s { t with table := s.table, tables := t.tables.modify file (·.insertAll t.table) }

def Walks {α : Type} (env : Env) (Q : α → Prop) (x : Step α) : Prop :=
  ∀ R, Stepwise env R → ∀ s, Ends x s fun a t => R s t ∧ Q a

abbrev Keeps {α : Type} (env : Env) (x : Step α) : Prop := Walks env (fun _ => True) x

section
variable {α β : Type} {env : Env} {Q : α → Prop}

theorem walks_pure {a : α} (h : Q a) : Walks env Q (pure a) := fun _ hR _ => ⟨hR.aside rfl rfl List.suffix_rfl, h⟩

theorem Walks.bind {P : β → Prop} {x : Step α} {f : α → Step β} (hx : Walks env Q x)
    (hf : ∀ a, Q a → Walks env P (f a)) : Walks env P (x >>= f) := by
  intro R hR s
  rw [ends_bind]
  exact (hx R hR s).mono fun a t h => (hf a h.2 R hR t).mono fun _ _ h' => ⟨hR.trans h.1 h'.1, h'.2⟩

theorem keeps_get : Keeps env (get : Step State) := fun _ hR _ => ⟨hR.aside rfl rfl List.suffix_rfl, trivial⟩

theorem keeps_modify {f : State → State}
    (h : ∀ s, (f s).table = s.table ∧ (f s).tables = s.tables ∧ (f s).errors = s.errors) :
    Keeps env (modify f : Step PUnit) :=
  fun _ hR s => ⟨hR.aside (h s).1 (h s).2.1 ((h s).2.2 ▸ List.suffix_rfl), trivial⟩

theorem keeps_complain (site : Site) (offset : Nat) (cause : TypeError) : Keeps env (complain site offset cause) :=
  fun _ hR _ => ⟨hR.aside rfl rfl (List.suffix_cons _ _), trivial⟩

theorem walks_complain {a : α} (site : Site) (offset : Nat) (cause : TypeError) (h : Q a) :
    Walks env Q (complain site offset cause >>= fun _ => pure a) :=
  (keeps_complain site offset cause).bind fun _ _ => walks_pure h

theorem keeps_forM {f : α → Step PUnit} (hf : ∀ a, Keeps env (f a)) : ∀ as : List α, Keeps env (as.forM f)
  | [] => walks_pure trivial
  | a :: as => (hf a).bind fun _ _ => keeps_forM hf as

theorem keeps_forIn {f : α → β → Step (ForInStep β)} (hf : ∀ a b, Keeps env (f a b)) :
    ∀ (as : List α) (b : β), Keeps env (forIn as b f)
  | [], b => walks_pure trivial
  | a :: as, b => by
    rw [List.forIn_cons]
    refine (hf a b).bind fun r _ => ?_
    cases r with
    | done b => exact walks_pure trivial
    | yield b => exact keeps_forIn hf as b

theorem keeps_filterMapM {f : α → Step (Option β)} (hf : ∀ a, Keeps env (f a)) :
    ∀ as : List α, Keeps env (as.filterMapM f)
  | [] => walks_pure trivial
  | a :: as => by
    rw [List.filterMapM_cons]
    refine (hf a).bind fun r _ => ?_
    cases r with
    | none => exact keeps_filterMapM hf as
    | some b => exact (keeps_filterMapM hf as).bind fun _ _ => walks_pure trivial

/-! ## Tables -/

theorem keeps_recordType (r : ByteRange) {t : Ty} (h : env.Means t) : Keeps env (recordType r t) :=
  fun _ hR s => ⟨hR.record s r fun _ => h, trivial⟩

theorem Walks.withTable {x : Step α} (hx : Walks env Q x) : Keeps env (withTable x) := by
  intro R hR s
  unfold Check.withTable
  rw [ends_bind, ends_get, ends_bind, ends_modify, ends_bind]
  exact (hx R hR _).mono fun a t h => ⟨hR.apart h.1, trivial⟩

theorem Walks.declaring {x : Step α} (hx : Walks env Q x) (name : String) (file : Nat) :
    Keeps env (declaring name file x) := by
  intro R hR s
  unfold Check.declaring Check.withTable
  rw [ends_bind, ends_modify, ends_bind, ends_bind, ends_get, ends_bind, ends_modify, ends_bind]
  refine (hx R hR _).mono fun a t h => ⟨?_, trivial⟩
  have hstart : R s { s with progress := s.progress.insert name .started } := hR.aside rfl rfl List.suffix_rfl
  exact hR.trans hstart (hR.trans (hR.declare file h.1) (hR.aside rfl rfl List.suffix_rfl))

end

/-! ## Types -/

theorem walks_typeName (env : Env) (site : Site) (id : Token) : Walks env env.Means (typeName env site id) := by
  unfold typeName
  cases h : env.lookup site.file id.text with
  | none => exact walks_complain _ _ _ (means_of_not_named rfl)
  | some b =>
    cases b with
    | type t => exact walks_pure (means_of_lookup h)
    | localType =>
      apply walks_pure
      rintro _ ⟨⟩
      exact Or.inl rfl
    | localConst | const _ | iota | package _ => exact walks_complain _ _ _ (means_of_not_named rfl)

theorem walks_selectedType (env : Env) (site : Site) (offset : Nat) (qualifier name : Token) :
    Walks env env.Means (selectedType env site offset qualifier name) := by
  unfold selectedType
  dsimp only
  cases h : env.lookup site.file qualifier.text with
  | none => exact walks_complain _ _ _ (means_of_not_named rfl)
  | some b =>
    cases b with
    | package p =>
      cases p with
      | none => exact walks_pure (means_of_not_named rfl)
      | some s =>
        dsimp only
        split
        · exact walks_complain _ _ _ (means_of_not_named rfl)
        · split
          · exact walks_pure (means_ref (imports_of_lookup h) name.text)
          · split <;> exact walks_complain _ _ _ (means_of_not_named rfl)
    | type _ | localType | localConst | const _ | iota => exact walks_complain _ _ _ (means_of_not_named rfl)

theorem keeps_postponeKey (site : Site) (key : TypeExpr) (t : Ty) : Keeps env (postponeKey site key t) := by
  unfold postponeKey
  split
  · exact walks_pure trivial
  · exact keeps_modify fun _ => by exact ⟨rfl, rfl, rfl⟩

theorem keeps_declareFields (site : Site) (f : Field) (t : Ty) (seen : List String) :
    Keeps env (declareFields site f t seen) := by
  unfold declareFields
  dsimp only
  split
  · split
    · exact walks_pure trivial
    · split
      · exact walks_complain _ _ _ trivial
      · exact walks_pure trivial
  · exact (keeps_forM (fun _ => keeps_complain _ _ _) _).bind fun _ _ => walks_pure trivial

mutual

theorem keeps_resolveType (env : Env) (site : Site) : ∀ t : TypeExpr, Keeps env (resolveType env site t)
  | .missing => walks_pure trivial
  | .name id => (walks_typeName env site id).bind fun _ ht => keeps_recordType _ ht
  | .selector range qualifier name => by
    rw [resolveType.eq_def]
    dsimp only
    split
    · exact (walks_selectedType env site _ _ _).bind fun _ ht => keeps_recordType _ ht
    · exact keeps_recordType _ (means_of_not_named rfl)
  | .slice range elem => by
    rw [resolveType]
    exact (keeps_resolveType env site elem).bind fun _ _ => keeps_recordType _ (means_of_not_named rfl)
  | .map range key value => by
    rw [resolveType]
    exact (keeps_resolveType env site key).bind fun _ _ => (keeps_resolveType env site value).bind fun _ _ =>
      (keeps_postponeKey site key _).bind fun _ _ => keeps_recordType _ (means_of_not_named rfl)
  | .pointer range elem => by
    rw [resolveType]
    exact (keeps_resolveType env site elem).bind fun _ _ => keeps_recordType _ (means_of_not_named rfl)
  | .chan range elem => by
    rw [resolveType]
    exact (keeps_resolveType env site elem).bind fun _ _ => keeps_recordType _ (means_of_not_named rfl)
  | .func range signature => by
    rw [resolveType]
    exact (keeps_resolveSignature env site signature).bind fun _ _ => keeps_recordType _ (means_of_not_named rfl)
  | .struct range _ fields => by
    rw [resolveType]
    exact (keeps_resolveFields env site [] fields).bind fun _ _ => keeps_recordType _ (means_of_not_named rfl)
  | .interface range _ methods => by
    rw [resolveType]
    exact (keeps_resolveMethods env site [] methods).bind fun _ _ => keeps_recordType _ (means_of_not_named rfl)

theorem keeps_resolveSignature (env : Env) (site : Site) : ∀ s : Signature, Keeps env (resolveSignature env site s)
  | ⟨params, _, results⟩ => by
    rw [resolveSignature]
    exact (keeps_resolveParams env site params).bind fun _ _ =>
      (keeps_resolveParams env site results).bind fun _ _ =>
      walks_pure trivial

theorem keeps_resolveParams (env : Env) (site : Site) : ∀ ps : List Param, Keeps env (resolveParams env site ps)
  | [] => by
    rw [resolveParams]
    exact walks_pure trivial
  | ⟨_, type⟩ :: rest => by
    rw [resolveParams]
    exact (keeps_resolveType env site type).bind fun _ _ => (keeps_resolveParams env site rest).bind fun _ _ =>
      walks_pure trivial

theorem keeps_resolveFields (env : Env) (site : Site) (seen : List String) :
    ∀ fs : List (Item Field), Keeps env (resolveFields env site seen fs)
  | [] => by
    rw [resolveFields]
    exact walks_pure trivial
  | .gap _ :: rest => by
    rw [resolveFields]
    exact keeps_resolveFields env site seen rest
  | .comment _ :: rest => by
    rw [resolveFields]
    exact keeps_resolveFields env site seen rest
  | .entry ⟨range, doc, names, type, tag, trailing⟩ :: rest => by
    rw [resolveFields]
    exact (keeps_resolveType env site type).bind fun _ _ => (keeps_declareFields site _ _ seen).bind fun _ _ =>
      (keeps_resolveFields env site _ rest).bind fun _ _ => walks_pure trivial

theorem keeps_resolveMethods (env : Env) (site : Site) (seen : List String) :
    ∀ ms : List (Item Method), Keeps env (resolveMethods env site seen ms)
  | [] => by
    rw [resolveMethods]
    exact walks_pure trivial
  | .gap _ :: rest => by
    rw [resolveMethods]
    exact keeps_resolveMethods env site seen rest
  | .comment _ :: rest => by
    rw [resolveMethods]
    exact keeps_resolveMethods env site seen rest
  | .entry ⟨_, _, name, signature, _⟩ :: rest => by
    rw [resolveMethods]
    refine (keeps_resolveSignature env site signature).bind fun _ _ => ?_
    dsimp only
    split
    · exact (keeps_complain _ _ _).bind fun _ _ => keeps_resolveMethods env site seen rest
    · exact (keeps_resolveMethods env site _ rest).bind fun _ _ => walks_pure trivial

end

/-! ## Declared types -/

theorem keeps_reportRecursive (env : Env) (name : String) : Keeps env (reportRecursive env name) := by
  unfold reportRecursive
  refine keeps_get.bind fun _ _ => ?_
  split
  · exact walks_pure trivial
  · refine (keeps_modify fun _ => by exact ⟨rfl, rfl, rfl⟩).bind fun _ _ => ?_
    split
    · exact keeps_complain _ _ _
    · exact walks_pure trivial

theorem keeps_underlyingWith (env : Env) {resolve : String → Step Ty} (h : ∀ name, Keeps env (resolve name))
    (t : Ty) :
    Keeps env (underlyingWith env resolve t) := by
  unfold underlyingWith
  split
  · split
    · exact h _
    · exact walks_pure trivial
  · exact walks_pure trivial

theorem keeps_resolveNamedWithin (env : Env) (fuel : Nat) :
    ∀ name, Keeps env (resolveNamedWithin env fuel name) := by
  induction fuel with
  | zero => exact fun _ => walks_pure trivial
  | succ fuel ih =>
    intro name
    rw [resolveNamedWithin]
    refine keeps_get.bind fun _ _ => ?_
    split
    · exact keeps_get.bind fun _ _ => walks_pure trivial
    · exact (keeps_reportRecursive env name).bind fun _ _ => walks_pure trivial
    · split
      · have htype : ∀ file (type : TypeExpr), Keeps env (do
            underlyingWith env (resolveNamedWithin env fuel) (← resolveType env (env.site file none) type)) :=
          fun file type => (keeps_resolveType env _ type).bind fun t _ => keeps_underlyingWith env ih t
        exact ((htype _ _).declaring name _).bind fun _ _ => (keeps_modify fun _ => by exact ⟨rfl, rfl, rfl⟩).bind
          fun _ _ => walks_pure trivial
      · exact walks_pure trivial

theorem keeps_resolveNamed (env : Env) (name : String) : Keeps env (resolveNamed env name) :=
  keeps_resolveNamedWithin env env.fuel name

theorem keeps_underlying (env : Env) (t : Ty) : Keeps env (underlying env t) :=
  keeps_underlyingWith env (keeps_resolveNamed env) t

theorem keeps_checkRecursive (env : Env) : Keeps env (checkRecursive env) := by
  unfold checkRecursive
  refine (keeps_forIn (fun a b => ?_) env.decls PUnit.unit).bind fun _ _ => walks_pure trivial
  refine keeps_get.bind fun s _ => ?_
  split
  · split
    · exact (keeps_reportRecursive env _).bind fun _ _ => (keeps_modify fun _ => by exact ⟨rfl, rfl, rfl⟩).bind
        fun _ _ => walks_pure trivial
    · exact walks_pure trivial
  · exact walks_pure trivial

theorem keeps_checkKeys (env : Env) : Keeps env (checkKeys env) := by
  unfold checkKeys
  refine keeps_get.bind fun _ _ => (keeps_modify fun _ => by exact ⟨rfl, rfl, rfl⟩).bind fun _ _ =>
    keeps_get.bind fun _ _ => ?_
  refine (keeps_forIn (fun key b => ?_) _ PUnit.unit).bind fun _ _ => walks_pure trivial
  split
  · exact walks_complain _ _ _ trivial
  · exact walks_pure trivial

/-! ## Expressions -/

section
variable {env : Env} {R : State → State → Prop} {α : Type} {Q : α → Prop} {constOf : String → Step (Option ConstDef)}

theorem Walks.upholds {x : Step α} (hx : Walks env Q x) (hR : Stepwise env R) (s₀ : State) : Upholds (R s₀) Q x :=
  fun s hs => (hx R hR s).mono fun _ _ ht => ⟨hR.trans hs ht.1, ht.2⟩

theorem walks_of_upholds {x : Step α} (h : ∀ R, Stepwise env R → ∀ s₀, Upholds (R s₀) Q x) : Walks env Q x :=
  fun R hR s => h R hR s s (hR.aside rfl rfl List.suffix_rfl)

/-- To be after some state is an invariant, as values may be recorded wherever they come up. -/
theorem Stepwise.tracks (hR : Stepwise env R) (s₀ : State) :
    Tracks env (R s₀) (fun _ => True) fun tv => tv.isType = false where
  complain site offset cause _ := (keeps_complain site offset cause).upholds hR s₀
  record r _ htv := upholds_modify fun s hs =>
    hR.trans hs (hR.record s r fun htype => absurd htype (Bool.eq_false_iff.mp htv))
  resolveType site e := ((keeps_resolveType env site e).upholds hR s₀).mono fun _ _ _ _ => trivial
  underlying t _ := ((keeps_underlying env t).upholds hR s₀).mono fun _ _ _ _ => trivial
  mentions _ _ _ := trivial
  value _ := rfl
  literal _ := rfl
  const _ := rfl
  member _ _ := rfl
  signed _ _ := rfl

variable (hc : ∀ name, Keeps env (constOf name)) (site : Site)
include hc

theorem Stepwise.supplies (hR : Stepwise env R) (s₀ : State) : Supplies (R s₀) (fun tv => tv.isType = false)
      constOf site :=
  ⟨fun name => ((hc name).upholds hR s₀).mono fun _ _ _ _ => rfl, fun _ _ => rfl⟩

theorem walks_checkExpr (e : Expr) : Walks env IsValue (checkExpr env constOf site e) :=
  walks_of_upholds fun _ hR s => (hR.tracks s).checkExpr (hR.supplies hc site s) e

theorem keeps_checkKeyed (fields : List FieldTy) (type : String) (seen : List String) (es : List Element) :
    Keeps env (checkKeyed env constOf site fields type seen es) :=
  walks_of_upholds fun _ hR s => (hR.tracks s).checkKeyed (hR.supplies hc site s) (fun _ _ => trivial) type seen es

theorem keeps_checkPositional (type : String) (fields : List FieldTy) (es : List Element) :
    Keeps env (checkPositional env constOf site type fields es) :=
  walks_of_upholds fun _ hR s => (hR.tracks s).checkPositional (hR.supplies hc site s)
    type (fun _ _ _ _ => trivial) es

theorem keeps_checkSlice (elem : Ty) (es : List Element) : Keeps env (checkSlice env constOf site elem es) :=
  walks_of_upholds fun _ hR s => (hR.tracks s).checkSlice (hR.supplies hc site s) (fun _ _ => trivial) es

theorem keeps_checkMap (key value : Ty) (seen : List String) (es : List Element) :
    Keeps env (checkMap env constOf site key value seen es) :=
  walks_of_upholds fun _ hR s =>
    (hR.tracks s).checkMap (hR.supplies hc site s) (fun _ _ => trivial) (fun _ _ => trivial) seen es

/-! ## Constants -/

theorem keeps_constDef (name : Token) (type : TypeExpr) (value : Expr) :
    Keeps env (constDef env constOf site name type value) :=
  walks_of_upholds fun _ hR s =>
    ((hR.tracks s).constDef (T := fun _ => True) (C := fun _ => True) (hR.supplies hc site s)
    (fun e => ((hR.tracks s).resolveType site e).mono fun _ ht => ⟨ht, trivial⟩) (fun _ _ _ _ => trivial)
    (fun _ _ _ => trivial) name type value).mono fun _ _ => trivial

end

theorem keeps_resolveConstWithin (env : Env) (fuel : Nat) :
    ∀ name, Keeps env (resolveConstWithin env fuel name) := by
  induction fuel with
  | zero => exact fun _ => walks_pure trivial
  | succ fuel ih =>
    intro name
    rw [resolveConstWithin]
    refine keeps_get.bind fun _ _ => ?_
    split
    · exact keeps_get.bind fun _ _ => walks_pure trivial
    · split
      · exact walks_complain _ _ _ trivial
      · exact walks_pure trivial
    · split
      · refine ((keeps_constDef ih _ _ _ _).declaring name _).bind fun d _ => ?_
        split
        · exact (keeps_modify fun _ => by exact ⟨rfl, rfl, rfl⟩).bind fun _ _ => walks_pure trivial
        · exact walks_pure trivial
      · exact walks_pure trivial

theorem keeps_resolveConst (env : Env) (name : String) : Keeps env (resolveConst env name) :=
  keeps_resolveConstWithin env env.fuel name

/-! ## The whole package -/

theorem keeps_checkTag (env : Env) (file : Nat) (tag : Tag) : Keeps env (checkTag env file tag) := by
  unfold checkTag
  split
  · exact (walks_checkExpr (keeps_resolveConst env) _ tag.expr).withTable.bind fun _ _ => walks_pure trivial
  · exact walks_pure trivial

theorem keeps_checkTags (env : Env) : Keeps env (checkTags env) := by
  unfold checkTags
  refine (keeps_forIn (fun _ _ => ?_) _ _).bind fun _ _ => (keeps_checkKeys env).bind fun _ _ => walks_pure trivial
  refine (keeps_forIn (fun _ _ => ?_) _ _).bind fun _ _ => walks_pure trivial
  refine (keeps_filterMapM (fun tag => keeps_checkTag env _ tag) _).bind fun checked _ => ?_
  split <;> exact walks_pure trivial

theorem keeps_resolveAll (env : Env) : Keeps env (resolveAll env) := by
  unfold resolveAll
  refine (keeps_forIn (fun _ _ => ?_) _ _).bind fun _ _ => walks_pure trivial
  dsimp only
  split
  · exact (keeps_resolveNamed env _).bind fun _ _ => walks_pure trivial
  · exact (keeps_resolveConst env _).bind fun _ _ => walks_pure trivial

theorem keeps_body (env : Env) : Keeps env (body env) := by
  unfold body
  refine (keeps_resolveAll env).bind fun _ _ => (keeps_checkRecursive env).bind fun _ _ =>
    (keeps_checkKeys env).bind fun _ _ => keeps_get.bind fun _ _ => ?_
  split
  · exact keeps_checkTags env
  · exact walks_pure trivial

end IdlWorkbench.Check
