import IdlWorkbench.Proofs.Check.Replay
import IdlWorkbench.Proofs.Check.Traverse

/-!
# What the checker mentions, it can look into

A type that the checker writes down mentions declared types of this package and of others. `Env.Resolves` says
that such a mention is backed: the name is declared as a type here, or the imports lead to the type. Every step
keeps the types and constants found so far backed, whatever is wrong with the files.

A declared type that is finished has its entry in the table of types. So once all declarations have been
asked for, each type of the package that is mentioned has its entry.
-/

namespace IdlWorkbench.Check

/-! ## Mentions -/

/-- A mention of a declared type leads somewhere: to a declaration here, or to a type of a package in reach. -/
def Env.Resolves (env : Env) (r : NamedRef) : Prop :=
  if r.package = env.path then env.IsTypeName r.name else (env.bare.underlying? r).isSome

def Env.ResolvesAll (env : Env) (rs : List NamedRef) : Prop := ∀ r ∈ rs, env.Resolves r

section
variable {env : Env}

@[simp] theorem resolvesAll_nil : env.ResolvesAll [] := fun _ h => nomatch h

@[simp] theorem resolvesAll_append {rs ss : List NamedRef} :
    env.ResolvesAll (rs ++ ss) ↔ env.ResolvesAll rs ∧ env.ResolvesAll ss := by
  simp only [Env.ResolvesAll, List.mem_append, or_imp, forall_and]

end

/-- A type can be written down, and so can what underlies it, if it is the name of a type of another package. -/
structure Env.Takes (env : Env) (t : Ty) : Prop where
  refs : env.ResolvesAll t.refs
  inside : ∀ r, t = .named r → r.package ≠ env.path → env.ResolvesAll (env.bare.underlying t).refs

theorem Env.Takes.of_not_named {env : Env} {t : Ty} (hrefs : env.ResolvesAll t.refs)
    (h : t.isNamed = false) : env.Takes t := by
  refine ⟨hrefs, ?_⟩
  rintro r rfl
  cases h

theorem takes_invalid {env : Env} : env.Takes .invalid := .of_not_named (by simp [Ty.refs]) rfl

/-- What a name means brings only types with it that can be written down. -/
def Binding.Safe (env : Env) : Binding → Prop
  | .type t => env.Takes t
  | .const d => env.ResolvesAll d.type.refs
  | .package (some s) => (∀ name, s.types.contains name = true → env.Takes (.named (s.ref name))) ∧
      ∀ name d, s.consts.find? name = some d → env.ResolvesAll d.type.refs
  | _ => True

def Env.Safe (env : Env) : Prop := ∀ file name b, env.lookup file name = some b → b.Safe env

def Env.Admits (env : Env) (v : Option TypeAndValue) : Prop :=
  ∀ tv, v = some tv → tv.const?.isSome = true → env.ResolvesAll tv.type.refs

def Env.AdmitsDef (env : Env) (d : Option ConstDef) : Prop := ∀ c, d = some c → env.ResolvesAll c.type.refs

/-! ## States that are backed -/

/-- The types and constants found so far mention nothing that leads nowhere. `waiting` holds of the declarations
that are being checked, and `kept` of names that have their entry. -/
structure Backed (env : Env) (waiting kept : String → Prop) (s : State) : Prop where
  types : ∀ e ∈ s.types, env.ResolvesAll e.2.refs
  consts : ∀ e ∈ s.consts, env.ResolvesAll e.2.type.refs
  started : ∀ name, s.progress.find? name = some .started ↔ waiting name
  finished : ∀ name, s.progress.find? name = some .finished → env.IsTypeName name → (s.types.find? name).isSome
  kept : ∀ name, kept name → (s.types.find? name).isSome

def Gives {α : Type} (env : Env) (waiting kept : String → Prop) (Q : α → Prop) (x : Step α) : Prop :=
  ∀ s, Backed env waiting kept s → Ends x s fun a t => Backed env waiting kept t ∧ Q a

section
variable {env : Env} {waiting kept : String → Prop} {s t : State}

theorem Backed.congr (h : Backed env waiting kept s) (hp : t.progress = s.progress) (ht : t.types = s.types)
    (hc : t.consts = s.consts) : Backed env waiting kept t := by
  obtain ⟨h1, h2, h3, h4, h5⟩ := h
  constructor
  all_goals simpa only [hp, ht, hc]

theorem Backed.rekeep (h : Backed env waiting kept s) {kept' : String → Prop}
    (hkept : ∀ name, kept' name → (s.types.find? name).isSome = true) : Backed env waiting kept' s :=
  ⟨h.types, h.consts, h.started, h.finished, hkept⟩

theorem isSome_insert {types : Table String Ty} {name other : String} (t : Ty)
    (h : (types.find? other).isSome = true) :
    ((types.insert name t).find? other).isSome = true := by
  rw [Table.find?_insert]
  split
  · rfl
  · exact h

theorem Backed.insertConst (h : Backed env waiting kept s) {name : String} {d : ConstDef}
    (hd : env.ResolvesAll d.type.refs) :
    Backed env waiting kept { s with consts := s.consts.insert name d } := by
  refine ⟨h.types, fun e he => ?_, h.started, h.finished, h.kept⟩
  rcases Table.mem_insert he with he | he
  · exact h.consts e he
  · exact he ▸ hd

/-- A declaration is being checked. -/
theorem Backed.start (h : Backed env waiting kept s) (name : String) :
    Backed env (fun n => n = name ∨ waiting n) kept { s with progress := s.progress.insert name .started } := by
  refine ⟨h.types, h.consts, fun n => ?_, fun n hn htype => ?_, h.kept⟩
  · by_cases hname : n = name
    · simp [hname, Table.find?_insert]
    · simp [hname, Table.find?_insert, h.started]
  · rw [Table.find?_insert] at hn
    split at hn
    · cases hn
    · exact h.finished n hn htype

/-- A declaration has been checked: if it is a type, then its entry is still missing. -/
theorem Backed.stop {name : String} (h : Backed env (fun n => n = name ∨ waiting n) kept s) (hw : ¬ waiting name)
    {u : State} (hp : u.progress = s.progress.insert name .finished) (ht : u.types = s.types)
    (hc : u.consts = s.consts) :
    (∀ t, env.ResolvesAll t.refs → Backed env waiting kept { u with types := u.types.insert name t }) ∧
      (¬ env.IsTypeName name → Backed env waiting kept u) := by
  have hstarted : ∀ n, u.progress.find? n = some .started ↔ waiting n := by
    intro n
    rw [hp, Table.find?_insert]
    by_cases hname : n = name
    · simp [hname, hw]
    · simp [hname, h.started]
  have hfinished : ∀ n, n ≠ name → u.progress.find? n = some .finished → env.IsTypeName n →
      (u.types.find? n).isSome := by
    intro n hname hn htype
    rw [hp, Table.find?_insert, if_neg (by simpa using hname)] at hn
    rw [ht]
    exact h.finished n hn htype
  constructor
  · intro t hrefs
    refine ⟨fun e he => ?_, by rw [hc]; exact h.consts, hstarted, fun n hn htype => ?_, fun n hn => ?_⟩
    · rcases Table.mem_insert he with he | he
      · exact h.types e (ht ▸ he)
      · exact he ▸ hrefs
    · by_cases hname : n = name
      · simp [hname, Table.find?_insert]
      · exact isSome_insert t (hfinished n hname hn htype)
    · rw [ht]
      exact isSome_insert t (h.kept n hn)
  · intro hconst
    refine ⟨by
      rw [ht]; exact h.types, by rw [hc]; exact h.consts, hstarted, fun n hn htype => ?_, by rw [ht]; exact h.kept⟩
    exact hfinished n (fun hname => hconst (hname ▸ htype)) hn htype

end

/-! ## Steps -/

section
variable {env : Env} {waiting kept : String → Prop} {α β : Type} {Q : α → Prop}

theorem gives_pure {a : α} (h : Q a) : Gives env waiting kept Q (pure a) := fun _ hs => ⟨hs, h⟩

theorem Gives.bind {R : β → Prop} {x : Step α} {f : α → Step β} (hx : Gives env waiting kept Q x)
    (hf : ∀ a, Q a → Gives env waiting kept R (f a)) : Gives env waiting kept R (x >>= f) := by
  intro s hs
  rw [ends_bind]
  exact (hx s hs).mono fun a t ht => hf a ht.2 t ht.1

theorem Gives.mono {R : α → Prop} {x : Step α} (hx : Gives env waiting kept Q x) (h : ∀ a, Q a → R a) :
    Gives env waiting kept R x :=
  fun s hs => (hx s hs).mono fun a _ ht => ⟨ht.1, h a ht.2⟩

theorem gives_get : Gives env waiting kept (Backed env waiting kept) (get : Step State) := fun _ hs => ⟨hs, hs⟩

/-- A step that leaves the names alone. -/
theorem gives_modify {f : State → State}
    (h : ∀ s, (f s).progress = s.progress ∧ (f s).types = s.types ∧ (f s).consts = s.consts) :
    Gives env waiting kept (fun _ => True) (modify f : Step PUnit) :=
  fun s hs => ⟨hs.congr (h s).1 (h s).2.1 (h s).2.2, trivial⟩

theorem gives_complain (site : Site) (offset : Nat) (cause : TypeError) :
    Gives env waiting kept (fun _ => True) (complain site offset cause) :=
  gives_modify fun _ => by exact ⟨rfl, rfl, rfl⟩

theorem gives_complain_pure {a : α} (site : Site) (offset : Nat) (cause : TypeError) (h : Q a) :
    Gives env waiting kept Q (complain site offset cause >>= fun _ => pure a) :=
  (gives_complain site offset cause).bind fun _ _ => gives_pure h

theorem Gives.forM {f : α → Step PUnit} (hf : ∀ a, Gives env waiting kept (fun _ => True) (f a)) :
    ∀ as : List α, Gives env waiting kept (fun _ => True) (as.forM f)
  | [] => gives_pure trivial
  | a :: as => (hf a).bind fun _ _ => Gives.forM hf as

theorem Gives.forIn {f : α → β → Step (ForInStep β)} (hf : ∀ a b, Gives env waiting kept (fun _ => True) (f a b))
    (as : List α)
    (b : β) : Gives env waiting kept (fun _ => True) (forIn as b f) :=
  Upholds.forIn hf as b

theorem Gives.filterMapM {f : α → Step (Option β)} (hf : ∀ a, Gives env waiting kept (fun _ => True) (f a))
    (as : List α) :
    Gives env waiting kept (fun _ => True) (as.filterMapM f) :=
  (Upholds.filterMapM (P := fun _ => True) (fun a => (hf a).mono fun _ _ _ _ => trivial) as).mono fun _ _ => trivial

theorem gives_recordType {Q : Ty → Prop} {t : Ty} (r : ByteRange) (h : Q t) :
    Gives env waiting kept Q (recordType r t) :=
  (gives_modify fun _ => by exact ⟨rfl, rfl, rfl⟩).bind fun _ _ => gives_pure h

theorem Gives.withTable {x : Step α} (hx : Gives env waiting kept Q x) :
    Gives env waiting kept (fun r => Q r.1) (withTable x) := by
  unfold Check.withTable
  exact gives_get.bind fun _ _ => (gives_modify fun _ => by exact ⟨rfl, rfl, rfl⟩).bind fun _
    _ => hx.bind fun a ha =>
    gives_get.bind fun _ _ => (gives_modify fun _ => by exact ⟨rfl, rfl, rfl⟩).bind fun _ _ => gives_pure ha

/-- Checking a declaration that nobody has asked for yet. -/
theorem Backed.ends_declaring {s : State} (h : Backed env waiting kept s) {name : String} {file : Nat} {x : Step α}
    (hnone : s.progress.find? name = none) (hx : Gives env (fun n => n = name ∨ waiting n) kept Q x) :
    Ends (declaring name file x) s fun a t => Q a ∧
      (∀ u, env.ResolvesAll u.refs → Backed env waiting kept { t with types := t.types.insert name u }) ∧
      (¬ env.IsTypeName name → Backed env waiting kept t) := by
  have hw : ¬ waiting name := by
    rw [← h.started, hnone]
    nofun
  unfold declaring
  rw [ends_bind, ends_modify, ends_bind]
  refine (hx.withTable _ (h.start name)).mono fun r t ht => ?_
  rw [ends_bind, ends_modify, ends_pure]
  exact ⟨ht.2, ht.1.stop hw rfl rfl rfl⟩

end

/-! ## Type expressions -/

section
variable {env : Env} {waiting kept : String → Prop} (hsafe : env.Safe) (site : Site)
include hsafe

theorem gives_typeName (id : Token) : Gives env waiting kept env.Takes (typeName env site id) := by
  unfold typeName
  cases h : env.lookup site.file id.text with
  | none => exact gives_complain_pure _ _ _ takes_invalid
  | some b =>
    cases b with
    | type t => exact gives_pure (hsafe _ _ _ h)
    | localType =>
      apply gives_pure
      have hname : env.Resolves (env.ref id.text) := by simpa [Env.Resolves, Env.ref] using isTypeName_of_lookup h
      refine ⟨by simpa [Ty.refs, Env.ResolvesAll] using hname, ?_⟩
      rintro _ ⟨⟩ hne
      exact absurd rfl hne
    | localConst | const _ | iota | package _ => exact gives_complain_pure _ _ _ takes_invalid

theorem gives_selectedType (offset : Nat) (qualifier name : Token) :
    Gives env waiting kept env.Takes (selectedType env site offset qualifier name) := by
  unfold selectedType
  dsimp only
  cases h : env.lookup site.file qualifier.text with
  | none => exact gives_complain_pure _ _ _ takes_invalid
  | some b =>
    cases b with
    | package p =>
      cases p with
      | none => exact gives_pure takes_invalid
      | some s =>
        dsimp only
        split
        · exact gives_complain_pure _ _ _ takes_invalid
        · split
          · rename_i htype
            exact gives_pure ((hsafe _ _ _ h).1 _ htype)
          · split <;> exact gives_complain_pure _ _ _ takes_invalid
    | type _ | localType | localConst | const _ | iota => exact gives_complain_pure _ _ _ takes_invalid

omit hsafe

theorem gives_postponeKey (key : TypeExpr) (t : Ty) : Gives env waiting kept (fun _ => True)
      (postponeKey site key t) := by
  unfold postponeKey
  split
  · exact gives_pure trivial
  · exact gives_modify fun _ => by exact ⟨rfl, rfl, rfl⟩

theorem gives_declareFields (f : Field) {t : Ty} (seen : List String) (ht : env.ResolvesAll t.refs) :
    Gives env waiting kept (fun r => env.ResolvesAll (Ty.refsFields r.1)) (declareFields site f t seen) := by
  unfold declareFields
  dsimp only
  split
  · split
    · exact gives_pure (by simp [Ty.refsFields])
    · split
      · exact gives_complain_pure _ _ _ (by simpa [Ty.refsFields] using ht)
      · exact gives_pure (by simpa [Ty.refsFields] using ht)
  · refine (Gives.forM (fun _ => gives_complain _ _ _) _).bind fun _ _ => gives_pure ?_
    intro r hr
    simp only [refsFields_eq, List.mem_flatMap, List.mem_map] at hr
    obtain ⟨_, ⟨_, -, rfl⟩, hr⟩ := hr
    exact ht r hr

end

section
variable {env : Env} {waiting kept : String → Prop}

mutual

theorem gives_resolveType (hsafe : env.Safe) (site : Site) :
    ∀ t : TypeExpr, Gives env waiting kept env.Takes (resolveType env site t)
  | .missing => gives_pure takes_invalid
  | .name id => (gives_typeName hsafe site id).bind fun _ ht => gives_recordType _ ht
  | .selector range qualifier name => by
    rw [resolveType.eq_def]
    dsimp only
    split
    · exact (gives_selectedType hsafe site _ _ _).bind fun _ ht => gives_recordType _ ht
    · exact gives_recordType _ takes_invalid
  | .slice range elem => by
    rw [resolveType]
    exact (gives_resolveType hsafe site elem).bind fun t ht =>
      gives_recordType _ (.of_not_named (by simpa [Ty.refs] using ht.refs) rfl)
  | .map range key value => by
    rw [resolveType]
    exact (gives_resolveType hsafe site key).bind fun k hk => (gives_resolveType hsafe site value).bind fun v hv =>
      (gives_postponeKey site key k).bind fun _ _ =>
        gives_recordType _ (.of_not_named (by simpa [Ty.refs] using ⟨hk.refs, hv.refs⟩) rfl)
  | .pointer range elem => by
    rw [resolveType]
    exact (gives_resolveType hsafe site elem).bind fun t ht =>
      gives_recordType _ (.of_not_named (by simpa [Ty.refs] using ht.refs) rfl)
  | .chan range elem => by
    rw [resolveType]
    exact (gives_resolveType hsafe site elem).bind fun t ht =>
      gives_recordType _ (.of_not_named (by simpa [Ty.refs] using ht.refs) rfl)
  | .func range signature => by
    rw [resolveType]
    exact (gives_resolveSignature hsafe site signature).bind fun r hr =>
      gives_recordType _ (.of_not_named (by simpa [Ty.refs] using hr) rfl)
  | .struct range _ fields => by
    rw [resolveType]
    exact (gives_resolveFields hsafe site [] fields).bind fun fs hfs =>
      gives_recordType _ (.of_not_named (by simpa [Ty.refs] using hfs) rfl)
  | .interface range _ methods => by
    rw [resolveType]
    exact (gives_resolveMethods hsafe site [] methods).bind fun ms hms =>
      gives_recordType _ (.of_not_named (by simpa [Ty.refs] using hms) rfl)

theorem gives_resolveSignature (hsafe : env.Safe) (site : Site) :
    ∀ s : Signature, Gives env waiting kept (fun r => env.ResolvesAll (Ty.refsAll r.1) ∧
      env.ResolvesAll (Ty.refsAll r.2))
      (resolveSignature env site s)
  | ⟨params, _, results⟩ => by
    rw [resolveSignature]
    exact (gives_resolveParams hsafe site params).bind fun _ hps =>
      (gives_resolveParams hsafe site results).bind fun _ hrs =>
      gives_pure ⟨hps, hrs⟩

theorem gives_resolveParams (hsafe : env.Safe) (site : Site) :
    ∀ ps : List Param, Gives env waiting kept (fun ts => env.ResolvesAll (Ty.refsAll ts)) (resolveParams env site ps)
  | [] => by
    rw [resolveParams]
    exact gives_pure (by simp [Ty.refsAll])
  | ⟨_, type⟩ :: rest => by
    rw [resolveParams]
    exact (gives_resolveType hsafe site type).bind fun _ ht =>
      (gives_resolveParams hsafe site rest).bind fun _ hts =>
      gives_pure (by simpa [Ty.refsAll] using ⟨ht.refs, hts⟩)

theorem gives_resolveFields (hsafe : env.Safe) (site : Site) (seen : List String) :
    ∀ fs : List (Item Field), Gives env waiting kept (fun fs => env.ResolvesAll (Ty.refsFields fs))
      (resolveFields env site seen fs)
  | [] => by
    rw [resolveFields]
    exact gives_pure (by simp [Ty.refsFields])
  | .gap _ :: rest => by
    rw [resolveFields]
    exact gives_resolveFields hsafe site seen rest
  | .comment _ :: rest => by
    rw [resolveFields]
    exact gives_resolveFields hsafe site seen rest
  | .entry ⟨range, doc, names, type, tag, trailing⟩ :: rest => by
    rw [resolveFields]
    exact (gives_resolveType hsafe site type).bind fun _ ht =>
      (gives_declareFields site _ seen ht.refs).bind fun r hr =>
      (gives_resolveFields hsafe site r.2 rest).bind fun _ hfs =>
        gives_pure (by simpa [refsFields_append] using ⟨hr, hfs⟩)

theorem gives_resolveMethods (hsafe : env.Safe) (site : Site) (seen : List String) :
    ∀ ms : List (Item Method), Gives env waiting kept (fun ms => env.ResolvesAll (Ty.refsMethods ms))
      (resolveMethods env site seen ms)
  | [] => by
    rw [resolveMethods]
    exact gives_pure (by simp [Ty.refsMethods])
  | .gap _ :: rest => by
    rw [resolveMethods]
    exact gives_resolveMethods hsafe site seen rest
  | .comment _ :: rest => by
    rw [resolveMethods]
    exact gives_resolveMethods hsafe site seen rest
  | .entry ⟨_, _, name, signature, _⟩ :: rest => by
    rw [resolveMethods]
    refine (gives_resolveSignature hsafe site signature).bind fun r hr => ?_
    dsimp only
    split
    · exact (gives_complain _ _ _).bind fun _ _ => gives_resolveMethods hsafe site seen rest
    · exact (gives_resolveMethods hsafe site _ rest).bind fun _ hms =>
        gives_pure (by simpa [Ty.refsMethods, and_assoc] using ⟨hr.1, hr.2, hms⟩)

end

/-! ## Declared types -/

theorem gives_reportRecursive (name : String) : Gives env waiting kept (fun _ => True)
      (reportRecursive env name) := by
  unfold reportRecursive
  refine gives_get.bind fun _ _ => ?_
  split
  · exact gives_pure trivial
  · refine (gives_modify fun _ => by exact ⟨rfl, rfl, rfl⟩).bind fun _ _ => ?_
    split
    · exact gives_complain _ _ _
    · exact gives_pure trivial

theorem gives_underlyingWith {resolve : String → Step Ty}
    (h : ∀ name, Gives env waiting kept (fun t => env.ResolvesAll t.refs) (resolve name)) (t : Ty) :
    Gives env waiting kept (fun u => env.Takes t → env.ResolvesAll u.refs) (underlyingWith env resolve t) := by
  unfold underlyingWith
  split
  · split
    · exact (h _).mono fun _ hu _ => hu
    · rename_i hne
      exact gives_pure fun ht => ht.inside _ rfl hne
  · exact gives_pure fun ht => ht.refs

theorem gives_resolveNamedWithin (hsafe : env.Safe) (fuel : Nat) : ∀ {waiting kept : String → Prop} (name : String),
    Gives env waiting kept (fun t => env.ResolvesAll t.refs) (resolveNamedWithin env fuel name) := by
  induction fuel with
  | zero => exact fun _ => gives_pure (by simp [Ty.refs])
  | succ fuel ih =>
    intro waiting kept name s hs
    rw [resolveNamedWithin, ends_bind, ends_get]
    split
    · rw [ends_bind, ends_get, ends_pure]
      refine ⟨hs, ?_⟩
      cases ht : s.types.find? name with
      | none => simp [Ty.refs]
      | some t => exact hs.types _ (Table.mem_of_find? ht)
    · exact (gives_reportRecursive name).bind (fun _ _ => gives_pure (by simp [Ty.refs])) s hs
    · rename_i hnone
      split
      · rename_i file spec _
        have hstep : Gives env (fun n => n = name ∨ waiting n) kept (fun t => env.ResolvesAll t.refs) (do
            underlyingWith env (resolveNamedWithin env fuel) (← resolveType env (env.site file none) spec.type)) :=
          (gives_resolveType hsafe _ _).bind fun t ht => (gives_underlyingWith ih t).mono fun _ hu => hu ht
        rw [ends_bind]
        refine (hs.ends_declaring hnone hstep).mono fun t u hu => ?_
        exact ⟨hu.2.1 t hu.1, hu.1⟩
      · exact gives_pure (Q := fun t : Ty => env.ResolvesAll t.refs) (by simp [Ty.refs]) s hs

theorem gives_underlying (hsafe : env.Safe) (t : Ty) :
    Gives env waiting kept (fun u => env.Takes t → env.ResolvesAll u.refs) (underlying env t) :=
  gives_underlyingWith (fun name => gives_resolveNamedWithin hsafe env.fuel name) t

/-- A declared type has its entry once it has been asked for. -/
theorem Backed.ends_resolveNamed (hsafe : env.Safe) {s : State} (h : Backed env (fun _ => False) kept s)
    {name : String}
    (htype : env.IsTypeName name) :
    Ends (resolveNamed env name) s fun _ t => Backed env (fun _ => False) (fun n => n = name ∨ kept n) t := by
  have hentry {t : State} (ht : Backed env (fun _ => False) kept t) (hname : (t.types.find? name).isSome = true) :
      Backed env (fun _ => False) (fun n => n = name ∨ kept n) t := by
    refine ht.rekeep ?_
    rintro n (rfl | hn)
    · exact hname
    · exact ht.kept n hn
  obtain ⟨file, spec, hdecl⟩ := htype
  rw [resolveNamed, Env.fuel, resolveNamedWithin, ends_bind, ends_get]
  split
  · rename_i hdone
    exact hentry h (h.finished name hdone ⟨file, spec, hdecl⟩)
  · rename_i hstarted
    exact ((h.started name).mp hstarted).elim
  · rename_i hnone
    rw [hdecl]
    have hstep : Gives env (fun n => n = name ∨ False) kept (fun t => env.ResolvesAll t.refs) (do
        underlyingWith env (resolveNamedWithin env env.decls.length)
          (← resolveType env (env.site file none) spec.type)) :=
      (gives_resolveType hsafe _ _).bind fun t ht =>
        (gives_underlyingWith (gives_resolveNamedWithin hsafe _) t).mono fun _ hu => hu ht
    dsimp only
    rw [ends_bind]
    refine (h.ends_declaring hnone hstep).mono fun t u hu => ?_
    refine hentry (hu.2.1 t hu.1) ?_
    show ((u.types.insert name t).find? name).isSome = true
    simp [Table.find?_insert]

theorem gives_checkRecursive : Gives env waiting kept (fun _ => True) (checkRecursive env) := by
  unfold checkRecursive
  refine (Gives.forIn (fun a b => ?_) env.decls PUnit.unit).bind fun _ _ => gives_pure trivial
  refine gives_get.bind fun s _ => ?_
  split
  · split
    · exact (gives_reportRecursive _).bind fun _ _ =>
        (gives_modify fun _ => by exact ⟨rfl, rfl, rfl⟩).bind fun _ _ =>
        gives_pure trivial
    · exact gives_pure trivial
  · exact gives_pure trivial

theorem gives_checkKeys : Gives env waiting kept (fun _ => True) (checkKeys env) := by
  unfold checkKeys
  refine gives_get.bind fun _ _ => (gives_modify fun _ => by exact ⟨rfl, rfl, rfl⟩).bind fun _ _ =>
    gives_get.bind fun _ _ => ?_
  refine (Gives.forIn (fun key b => ?_) _ PUnit.unit).bind fun _ _ => gives_pure trivial
  split
  · exact gives_complain_pure _ _ _ trivial
  · exact gives_pure trivial

end

/-! ## Expressions -/

section
variable {env : Env} {waiting kept : String → Prop} {constOf : String → Step (Option ConstDef)} (hsafe : env.Safe)
include hsafe

theorem tracks_backed : Tracks env (Backed env waiting kept) (fun _ => True)
    fun tv => tv.const?.isSome = true → env.ResolvesAll tv.type.refs where
  complain site offset cause _ := gives_complain site offset cause
  record _ _ _ := gives_modify fun _ => by exact ⟨rfl, rfl, rfl⟩
  resolveType site e := (gives_resolveType hsafe site e).mono fun _ _ _ _ => trivial
  underlying t _ := (gives_underlying hsafe t).mono fun _ _ _ _ => trivial
  mentions _ _ _ := trivial
  value _ := nofun
  literal _ _ := resolvesAll_nil
  const hb _ := hsafe _ _ _ hb
  member hb hd _ := (hsafe _ _ _ hb).2 _ _ hd
  signed h _ _ := h rfl

variable (hc : ∀ name, Gives env waiting kept env.AdmitsDef (constOf name))
include hc

omit hsafe in
theorem supplies_backed (site : Site) :
    Supplies (Backed env waiting kept) (fun tv => tv.const?.isSome = true → env.ResolvesAll tv.type.refs)
      constOf site :=
  ⟨fun name => (hc name).mono fun _ hd c hc _ => hd c hc, fun _ _ _ => resolvesAll_nil⟩

theorem gives_checkExpr (site : Site) (e : Expr) :
    Gives env waiting kept env.Admits (checkExpr env constOf site e) :=
  (tracks_backed hsafe).checkExpr (supplies_backed hc site) e

/-! ## Constants -/

theorem gives_constDef (site : Site) (name : Token) (type : TypeExpr) (value : Expr) :
    Gives env waiting kept env.AdmitsDef (constDef env constOf site name type value) :=
  (tracks_backed hsafe).constDef (T := fun t => env.ResolvesAll t.refs) (supplies_backed hc site)
    (fun e => (gives_resolveType hsafe site e).mono fun _ ht => ⟨fun _ _ => trivial, ht.refs⟩)
    (fun _ _ htv hvalue => htv (hvalue ▸ rfl)) (fun _ _ ht => ht) name type value

end

section
variable {env : Env} {waiting kept : String → Prop} (hsafe : env.Safe)
include hsafe

omit waiting kept in
theorem gives_resolveConstWithin (fuel : Nat) : ∀ {waiting kept : String → Prop} (name : String),
    Gives env waiting kept env.AdmitsDef (resolveConstWithin env fuel name) := by
  have hnone : env.AdmitsDef none := by
    intro c hc
    cases hc
  induction fuel with
  | zero => exact fun _ => gives_pure hnone
  | succ fuel ih =>
    intro waiting kept name s hs
    rw [resolveConstWithin, ends_bind, ends_get]
    split
    · rw [ends_bind, ends_get, ends_pure]
      exact ⟨hs, fun c hc => hs.consts _ (Table.mem_of_find? hc)⟩
    · split
      · exact gives_complain_pure _ _ _ hnone s hs
      · exact ⟨hs, hnone⟩
    · rename_i hunset
      split
      · rename_i file id type value iota hdecl
        have hconst : ¬ env.IsTypeName name := by
          rintro ⟨file', spec, h⟩
          rw [hdecl] at h
          cases h
        rw [ends_bind]
        refine (hs.ends_declaring hunset (gives_constDef hsafe ih _ id type value)).mono fun d t ht => ?_
        cases d with
        | none => exact ⟨ht.2.2 hconst, ht.1⟩
        | some c => exact ⟨(ht.2.2 hconst).insertConst (ht.1 c rfl), ht.1⟩
      · exact ⟨hs, hnone⟩

/-! ## The whole package -/

theorem gives_checkTags : Gives env waiting kept (fun _ => True) (checkTags env) := by
  have htag (file : Nat) (tag : Tag) : Gives env waiting kept (fun _ => True) (checkTag env file tag) := by
    unfold checkTag
    split
    · exact (gives_checkExpr hsafe (gives_resolveConstWithin hsafe env.fuel) _ tag.expr).withTable.bind fun _ _ =>
        gives_pure trivial
    · exact gives_pure trivial
  unfold checkTags
  refine (Gives.forIn (fun _ _ => ?_) _ _).bind fun _ _ => gives_checkKeys.bind fun _ _ => gives_pure trivial
  refine (Gives.forIn (fun _ _ => ?_) _ _).bind fun _ _ => gives_pure trivial
  refine (Gives.filterMapM (fun tag => htag _ tag) _).bind fun checked _ => ?_
  split <;> exact gives_pure trivial

omit waiting kept in
/-- All declarations are asked for, one after the other. -/
theorem Backed.askAll : ∀ (ds : Table String Declared) {kept : String → Prop} {s : State},
    Backed env (fun _ => False) kept s →
    Backed env (fun _ => False) (fun n => kept n ∨ env.IsTypeName n ∧ ∃ d, (n, d) ∈ ds ∧ d.isType) (askAll env ds s)
  | [], kept, s, h => h.rekeep fun n hn => h.kept n (by simpa using hn)
  | (name, d) :: ds, kept, s, h => by
    have hone : Ends (ask env env.fuel name d) s fun _ t =>
        Backed env (fun _ => False) (fun n => kept n ∨ n = name ∧ env.IsTypeName n ∧ d.isType) t := by
      cases d with
      | type file spec =>
        rw [ask, ends_bind]
        by_cases htype : env.IsTypeName name
        · refine (h.ends_resolveNamed hsafe htype).mono fun _ t ht => ht.rekeep ?_
          rintro n (hn | ⟨rfl, -⟩)
          · exact ht.kept n (Or.inr hn)
          · exact ht.kept n (Or.inl rfl)
        · refine (gives_resolveNamedWithin hsafe env.fuel name s h).mono fun _ t ht => ht.1.rekeep ?_
          rintro n (hn | ⟨rfl, hn, -⟩)
          · exact ht.1.kept n hn
          · exact absurd hn htype
      | const file id type value iota =>
        rw [ask, ends_bind]
        refine (gives_resolveConstWithin hsafe env.fuel name s h).mono fun _ t ht => ht.1.rekeep ?_
        rintro n (hn | ⟨-, -, hn⟩)
        · exact ht.1.kept n hn
        · cases hn
    have ih := Backed.askAll ds hone
    refine ih.rekeep ?_
    rintro n (hn | ⟨htype, e, he, hd⟩)
    · exact ih.kept n (Or.inl (Or.inl hn))
    · rcases List.mem_cons.mp he with he | he
      · cases he
        exact ih.kept name (Or.inl (Or.inr ⟨rfl, htype, hd⟩))
      · exact ih.kept n (Or.inr ⟨htype, e, he, hd⟩)

omit waiting kept in
/-- After the check every type of the package that is mentioned has its entry. -/
theorem Backed.ends_body {s : State} (h : Backed env (fun _ => False) (fun _ => False) s) :
    Ends (body env) s fun _ t => Backed env (fun _ => False) env.IsTypeName t := by
  have hall : Backed env (fun _ => False) env.IsTypeName ((resolveAll env).run s).2 := by
    rw [run_resolveAll]
    have hasked := Backed.askAll hsafe env.decls h
    refine hasked.rekeep fun n hn => hasked.kept n (Or.inr ⟨hn, ?_⟩)
    obtain ⟨file, spec, hd⟩ := hn
    exact ⟨_, Table.mem_of_find? hd, rfl⟩
  unfold body
  rw [ends_bind]
  have hrest : Gives env (fun _ => False) env.IsTypeName (fun _ => True) (do
      checkRecursive env
      checkKeys env
      if (← get).errors.isEmpty then checkTags env else return []) := by
    refine gives_checkRecursive.bind fun _ _ => gives_checkKeys.bind fun _ _ => gives_get.bind fun _ _ => ?_
    split
    · exact gives_checkTags hsafe
    · exact gives_pure trivial
  exact (hrest _ hall).mono fun _ _ ht => ht.1

end

end IdlWorkbench.Check
